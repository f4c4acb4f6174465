import Libvsync.Core.Machine
import Libvsync.Core.Turns

/-!
The MCS lock. A thread puts its node into the tail with one exchange and links it to the
node in front of it in a second step; it waits on its own node. A release that finds no
next node takes its node out of the tail again, or waits for the link of the thread that
came in between.

A node is named by its thread. `arrived` and `granted` are not read by the code: they log
which threads put their nodes into the tail and which threads got the lock.
-/

namespace Libvsync.Spinlock.Mcslock

open Libvsync.Core Function

/-- Where a call stands: the next atomic operation, with the local variables. -/
inductive Pc (Tid : Type) where
  | idle
  | tryNext
  | tryLocked
  | tryCas
  | acqNext
  | acqLocked
  | acqXchg
  | acqLink (pred : Tid)
  | acqAwait
  | critical
  | relNext
  | relCas
  | relAwait
  | relRead
  | relWrite (next : Option Tid)
  deriving DecidableEq

structure State (Tid : Type) where
  tail : Option Tid
  next : Tid → Option Tid
  locked : Tid → Nat
  pc : Tid → Pc Tid
  arrived : List Tid
  granted : List Tid

inductive Act (Tid : Type) where
  | tryacquire (t : Tid)
  | acquire (t : Tid)
  | release (t : Tid)
  | step (t : Tid)

variable {Tid : Type} [DecidableEq Tid]

def State.goto (s : State Tid) (t : Tid) (pc : Pc Tid) : State Tid :=
  { s with pc := update s.pc t pc }

def State.setNext (s : State Tid) (t : Tid) (next : Option Tid) : State Tid :=
  { s with next := update s.next t next }

def State.setLocked (s : State Tid) (t : Tid) (locked : Nat) : State Tid :=
  { s with locked := update s.locked t locked }

/-- The node of `t` is put into the tail. -/
def State.arrive (s : State Tid) (t : Tid) : State Tid :=
  { s with tail := some t, arrived := s.arrived ++ [t] }

/-- `t` returns from an acquire with the lock. -/
def State.enter (s : State Tid) (t : Tid) : State Tid :=
  { s with granted := s.granted ++ [t] }.goto t .critical

/-- The next atomic operation of thread `t`. NULL cannot be accessed. -/
def nextStep (s : State Tid) (t : Tid) : Option (State Tid) :=
  match s.pc t with
  | .idle | .critical => none
  | .tryNext => some ((s.setNext t none).goto t .tryLocked)
  | .tryLocked => some ((s.setLocked t 1).goto t .tryCas)
  | .tryCas => if s.tail = none then some ((s.arrive t).enter t) else some (s.goto t .idle)
  | .acqNext => some ((s.setNext t none).goto t .acqLocked)
  | .acqLocked => some ((s.setLocked t 1).goto t .acqXchg)
  | .acqXchg =>
    match s.tail with
    | none => some ((s.arrive t).enter t)
    | some pred => some ((s.arrive t).goto t (.acqLink pred))
  | .acqLink pred => some ((s.setNext pred (some t)).goto t .acqAwait)
  | .acqAwait => if s.locked t = 0 then some (s.enter t) else none
  | .relNext => if s.next t = none then some (s.goto t .relCas) else some (s.goto t .relRead)
  | .relCas =>
    if s.tail = some t then some ({ s with tail := none }.goto t .idle)
    else some (s.goto t .relAwait)
  | .relAwait => if s.next t = none then none else some (s.goto t .relRead)
  | .relRead => some (s.goto t (.relWrite (s.next t)))
  | .relWrite (some next) => some ((s.setLocked next 0).goto t .idle)
  | .relWrite none => none

def step (s : State Tid) : Act Tid → Option (State Tid)
  | .tryacquire t => if s.pc t = .idle then some (s.goto t .tryNext) else none
  | .acquire t => if s.pc t = .idle then some (s.goto t .acqNext) else none
  | .release t => if s.pc t = .critical then some (s.goto t .relNext) else none
  | .step t => nextStep s t

/-- `mcslock_init`. The nodes hold anything. -/
structure Initial (s : State Tid) : Prop where
  tail : s.tail = none
  pc : s.pc = fun _ => .idle
  arrived : s.arrived = []
  granted : s.granted = []

def machine (Tid : Type) [DecidableEq Tid] : Machine (State Tid) (Act Tid) where
  start := Initial
  step := step

/-- From the return of acquire to the step of release that gives the lock up. -/
def Pc.holds : Pc Tid → Bool
  | .critical | .relNext | .relCas | .relAwait | .relRead | .relWrite _ => true
  | _ => false

/-- From the exchange of the tail to the step of release that gives the lock up. -/
def Pc.queued : Pc Tid → Bool
  | .acqLink _ | .acqAwait => true
  | pc => pc.holds

/-- The node of another thread that the next atomic operation writes to. -/
def Pc.writes : Pc Tid → Option Tid
  | .acqLink pred => some pred
  | .relWrite next => next
  | _ => none

/-- What a thread knows of its own node that has not put it into the tail. -/
def Outside (s : State Tid) (t : Tid) : Prop :=
  match s.pc t with
  | .idle | .tryNext | .acqNext => True
  | .tryLocked | .acqLocked => s.next t = none
  | .tryCas | .acqXchg => s.next t = none ∧ s.locked t = 1
  | _ => False

/-- The first thread of the line has the lock or is about to see that it has it. -/
def Front (s : State Tid) (t : Tid) : Prop :=
  match s.pc t with
  | .acqAwait => s.locked t = 0
  | .critical | .relNext | .relCas | .relAwait => True
  | .relRead => s.next t ≠ none
  | .relWrite next => next ≠ none ∧ s.next t = next
  | _ => False

/-- `w` waits behind `p`: it is linked, or is about to link itself. -/
def Behind (s : State Tid) (p w : Tid) : Prop :=
  s.locked w = 1 ∧ (s.pc w = .acqLink p ∧ s.next p = none ∨ s.pc w = .acqAwait ∧ s.next p = some w)

structure Inv (s : State Tid) (gone line : List Tid) : Prop where
  nodup : line.Nodup
  tail : s.tail = line.getLast?
  outside : ∀ t, t ∉ line → Outside s t
  front : ∀ t, line.head? = some t → Front s t
  behind : ∀ p w, Follows line p w → Behind s p w
  last : ∀ t, line.getLast? = some t → s.next t = none
  turns : Turns (fun t => (s.pc t).holds) s.arrived s.granted gone line

variable {s s' : State Tid} {gone line rest : List Tid} {p t w : Tid}

theorem goto_self (s : State Tid) (t : Tid) (pc : Pc Tid) : (s.goto t pc).pc t = pc :=
  update_self ..

theorem goto_other {u : Tid} (s : State Tid) (pc : Pc Tid) (hu : u ≠ t) :
    (s.goto t pc).pc u = s.pc u := update_of_ne hu ..

section

omit [DecidableEq Tid]

theorem Behind.waits (h : Behind s p w) : (s.pc w).queued = true ∧ (s.pc w).holds = false := by
  rcases h.2 with ⟨hat, -⟩ | ⟨hat, -⟩ <;> rw [hat] <;> exact ⟨rfl, rfl⟩

theorem Front.queued (h : Front s t) : (s.pc t).queued = true := by
  unfold Front at h
  split at h <;> simp_all [Pc.queued, Pc.holds]

theorem Outside.not_queued (h : Outside s t) : (s.pc t).queued = false := by
  unfold Outside at h
  split at h <;> simp_all [Pc.queued, Pc.holds]

end

theorem Inv.mem_iff (h : Inv s gone line) : t ∈ line ↔ (s.pc t).queued = true := by
  constructor
  · intro ht
    cases line with
    | nil => cases ht
    | cons x rest =>
      rcases List.mem_cons.mp ht with rfl | ht
      · exact (h.front t rfl).queued
      · obtain ⟨p, hp⟩ := Follows.exists_front (x := x) ht
        exact (h.behind p t hp).waits.1
  · intro hqueued
    by_contra ht
    rw [(h.outside t ht).not_queued] at hqueued
    cases hqueued

/-- A thread that has the lock is the first of the line. -/
theorem Inv.first_of_holds (h : Inv s gone line) (hholds : (s.pc t).holds = true) :
    ∃ rest, line = t :: rest := by
  have hqueued : (s.pc t).queued = true := by
    cases hat : s.pc t <;> rw [hat] at hholds <;> first | rfl | cases hholds
  exact h.turns.first (h.mem_iff.mpr hqueued) hholds

omit [DecidableEq Tid] in
/-- A step that touches nothing of the threads in the line. -/
theorem Inv.quiet (h : Inv s gone line) (hpc : ∀ u ∈ line, s'.pc u = s.pc u)
    (hnext : ∀ u ∈ line, s'.next u = s.next u) (hlocked : ∀ u ∈ line, s'.locked u = s.locked u)
    (hout : ∀ u, u ∉ line → Outside s' u) (htail : s'.tail = s.tail)
    (harrived : s'.arrived = s.arrived) (hgranted : s'.granted = s.granted) : Inv s' gone line := by
  refine ⟨h.nodup, htail.trans h.tail, hout, fun u hu => ?_, fun p w hp => ?_, fun u hu => ?_,
    ?_⟩
  · have hmem := List.mem_of_mem_head? hu
    have hold := h.front u hu
    unfold Front at hold ⊢
    rw [hpc u hmem, hnext u hmem, hlocked u hmem]
    exact hold
  · have hold := h.behind p w hp
    unfold Behind at hold ⊢
    rw [hpc w hp.right_mem, hnext p hp.left_mem, hlocked w hp.right_mem]
    exact hold
  · rw [hnext u (List.mem_of_getLast? hu)]
    exact h.last u hu
  · rw [harrived, hgranted]
    exact h.turns.congr fun u hu => by rw [hpc u hu]

/-- A thread outside of the line writes to its own node. -/
theorem Inv.own (h : Inv s gone line) (ht : (s.pc t).queued = false)
    (hpc : ∀ u, u ≠ t → s'.pc u = s.pc u) (hnext : ∀ u, u ≠ t → s'.next u = s.next u)
    (hlocked : ∀ u, u ≠ t → s'.locked u = s.locked u) (hout : Outside s' t)
    (htail : s'.tail = s.tail) (harrived : s'.arrived = s.arrived)
    (hgranted : s'.granted = s.granted) : Inv s' gone line := by
  have hne : ∀ u ∈ line, u ≠ t := by
    rintro u hu rfl
    rw [h.mem_iff.mp hu] at ht
    cases ht
  refine h.quiet (fun u hu => hpc u (hne u hu)) (fun u hu => hnext u (hne u hu))
    (fun u hu => hlocked u (hne u hu)) (fun u hu => ?_) htail harrived hgranted
  by_cases hut : u = t
  · rw [hut]
    exact hout
  · have hold := h.outside u hu
    unfold Outside at hold ⊢
    rw [hpc u hut, hnext u hut, hlocked u hut]
    exact hold

omit [DecidableEq Tid] in
/-- The first thread of the line moves on, with the lock. -/
theorem Inv.first (h : Inv s gone (t :: rest)) (hpc : ∀ u, u ≠ t → s'.pc u = s.pc u)
    (hnext : s'.next = s.next) (hlocked : s'.locked = s.locked) (htail : s'.tail = s.tail)
    (hturns : Turns (fun u => (s'.pc u).holds) s'.arrived s'.granted gone (t :: rest))
    (hfront : Front s' t) : Inv s' gone (t :: rest) := by
  obtain ⟨ht, -⟩ := List.nodup_cons.mp h.nodup
  have hne : ∀ u ∈ rest, u ≠ t := fun u hu heq => ht (heq ▸ hu)
  refine ⟨h.nodup, htail.trans h.tail, fun u hu => ?_, fun u hu => ?_, fun p w hp => ?_,
    fun u hu => ?_, hturns⟩
  · have hut : u ≠ t := fun heq => hu (heq ▸ List.mem_cons_self ..)
    have hold := h.outside u hu
    unfold Outside at hold ⊢
    rw [hpc u hut, hnext, hlocked]
    exact hold
  · cases hu
    exact hfront
  · have hold := h.behind p w hp
    unfold Behind at hold ⊢
    rw [hpc w (hne w hp.right_mem_tail), hnext, hlocked]
    exact hold
  · rw [hnext]
    exact h.last u hu

/-- A thread puts its node into the empty tail and has the lock. -/
theorem Inv.arrive_free (h : Inv s gone line) (htail : s.tail = none)
    (hnext : s.next t = none) : ∃ line', Inv ((s.arrive t).enter t) gone line' := by
  obtain rfl : line = [] := List.getLast?_eq_none_iff.mp (h.tail.symm.trans htail)
  have hself : ((s.arrive t).enter t).pc t = .critical := goto_self ..
  refine ⟨[t], List.nodup_singleton t, rfl, fun u hu => ?_, fun u hu => ?_, fun p w hp => ?_,
    fun u hu => ?_, h.turns.join_enter (by rw [hself]; rfl)⟩
  · have hut : u ≠ t := fun heq => hu (heq ▸ List.mem_cons_self ..)
    have hpc : ((s.arrive t).enter t).pc u = s.pc u := goto_other _ _ hut
    have hold := h.outside u List.not_mem_nil
    unfold Outside at hold ⊢
    rw [hpc]
    exact hold
  · cases hu
    rw [Front, hself]
    trivial
  · exact absurd hp.right_mem_tail List.not_mem_nil
  · cases hu
    exact hnext

/-- A thread puts its node behind `pred` into the tail. -/
theorem Inv.arrive_behind (h : Inv s gone line) (htail : s.tail = some p)
    (ht : (s.pc t).queued = false) (hnext : s.next t = none) (hlocked : s.locked t = 1) :
    Inv ((s.arrive t).goto t (.acqLink p)) gone (line ++ [t]) := by
  have hself : ((s.arrive t).goto t (.acqLink p)).pc t = .acqLink p := goto_self ..
  have hout : t ∉ line := by
    rw [h.mem_iff, ht]
    exact Bool.false_ne_true
  have hpc : ∀ u ∈ line, ((s.arrive t).goto t (.acqLink p)).pc u = s.pc u :=
    fun u hu => goto_other _ _ fun heq => hout (heq ▸ hu)
  have hlast : line.getLast? = some p := h.tail.symm.trans htail
  refine ⟨?_, ?_, fun u hu => ?_, fun u hu => ?_, fun a b hab => ?_, fun u hu => ?_,
    h.turns.join (fun u hu => by rw [hpc u hu]) (by rw [hself]; rfl)⟩
  · exact List.nodup_append.mpr ⟨h.nodup, List.nodup_singleton t, fun a ha b hb heq =>
      hout (List.mem_singleton.mp hb ▸ heq ▸ ha)⟩
  · rw [List.getLast?_concat]
    rfl
  · obtain ⟨hu, hut⟩ := not_or.mp (mt List.mem_append.mpr hu)
    have hold := h.outside u hu
    unfold Outside at hold ⊢
    rw [goto_other _ _ (fun heq => hut (List.mem_singleton.mpr heq))]
    exact hold
  · rw [List.head?_append] at hu
    cases hhead : line.head? with
    | none =>
      rw [List.head?_eq_none_iff.mp hhead] at hlast
      cases hlast
    | some f =>
      rw [hhead] at hu
      cases hu
      have hold := h.front u hhead
      unfold Front at hold ⊢
      rw [hpc u (List.mem_of_mem_head? hhead)]
      exact hold
  · rcases Follows.concat_iff.mp hab with hab | ⟨ha, rfl⟩
    · have hold := h.behind a b hab
      unfold Behind at hold ⊢
      rw [hpc b hab.right_mem]
      exact hold
    · rw [hlast] at ha
      cases ha
      exact ⟨hlocked, .inl ⟨hself, h.last p hlast⟩⟩
  · rw [List.getLast?_concat] at hu
    cases hu
    exact hnext

/-- A thread that is about to link itself stands behind the node it writes to. -/
theorem Inv.follows_of_link (h : Inv s gone line) (hat : s.pc w = .acqLink p) :
    Follows line p w := by
  have hw : w ∈ line := h.mem_iff.mpr (by rw [hat]; rfl)
  cases line with
  | nil => cases hw
  | cons f rest =>
    rcases List.mem_cons.mp hw with rfl | hw
    · have hfront := h.front w rfl
      rw [Front, hat] at hfront
      cases hfront
    · obtain ⟨q, hq⟩ := Follows.exists_front (x := f) hw
      rcases (h.behind q w hq).2 with ⟨hlink, -⟩ | ⟨hawait, -⟩
      · rw [hat] at hlink
        cases hlink
        exact hq
      · rw [hat] at hawait
        cases hawait

/-- A waiting thread links itself to the node in front of it. -/
theorem Inv.link (h : Inv s gone line) (hat : s.pc w = .acqLink p) :
    Inv ((s.setNext p (some w)).goto w .acqAwait) gone line := by
  have hpw := h.follows_of_link hat
  have hself : ((s.setNext p (some w)).goto w .acqAwait).pc w = .acqAwait := goto_self ..
  have hpc : ∀ u, u ≠ w → ((s.setNext p (some w)).goto w .acqAwait).pc u = s.pc u :=
    fun u hu => goto_other _ _ hu
  have hnext : ∀ u, u ≠ p → ((s.setNext p (some w)).goto w .acqAwait).next u = s.next u :=
    fun u hu => update_of_ne hu ..
  refine ⟨h.nodup, h.tail, fun u hu => ?_, fun u hu => ?_, fun a b hab => ?_, fun u hu => ?_,
    h.turns.congr fun u _ => ?_⟩
  · have hold := h.outside u hu
    unfold Outside at hold ⊢
    rw [hpc u (fun heq => hu (heq ▸ hpw.right_mem)), hnext u (fun heq => hu (heq ▸ hpw.left_mem))]
    exact hold
  · have huw : u ≠ w := by
      rintro rfl
      have hfront := h.front u hu
      rw [Front, hat] at hfront
      cases hfront
    have hold := h.front u hu
    have hlink := (h.behind p w hpw).2
    unfold Front at hold ⊢
    rw [hpc u huw]
    by_cases hup : u = p
    · -- the first thread has not read its pointer yet, which is NULL until now
      subst hup
      have hnull : s.next u = none := by
        rcases hlink with ⟨-, hnull⟩ | ⟨hawait, -⟩
        · exact hnull
        · rw [hat] at hawait
          cases hawait
      rw [hnull] at hold
      cases hu : s.pc u <;> rw [hu] at hold <;>
        first | exact hold | exact absurd rfl hold | exact absurd hold.2.symm hold.1
    · rw [hnext u hup]
      exact hold
  · by_cases hbw : b = w
    · subst hbw
      obtain rfl := Follows.front_unique h.nodup hab hpw
      exact ⟨(h.behind a b hab).1, .inr ⟨hself, update_self ..⟩⟩
    · have hap : a ≠ p := by
        rintro rfl
        exact hbw (Follows.behind_unique h.nodup hab hpw)
      have hold := h.behind a b hab
      unfold Behind at hold ⊢
      rw [hpc b hbw, hnext a hap]
      exact hold
  · rw [hnext u (fun heq => hpw.not_last h.nodup (heq ▸ hu))]
    exact h.last u hu
  · by_cases huw : u = w
    · rw [huw, hself, (h.behind p w hpw).waits.2]
      rfl
    · rw [hpc u huw]

theorem Inv.leave (h : Inv s gone line) (hat : s.pc t = .relCas) (htail : s.tail = some t) :
    Inv ({ s with tail := none }.goto t .idle) (gone ++ [t]) [] := by
  obtain ⟨rest, rfl⟩ := h.first_of_holds (t := t) (by rw [hat]; rfl)
  have hself : (({ s with tail := none } : State Tid).goto t .idle).pc t = .idle := goto_self ..
  have hrest : rest = [] := by
    cases rest with
    | nil => rfl
    | cons y rest =>
      have hlast := h.tail.symm.trans htail
      rw [List.getLast?_cons_cons] at hlast
      exact absurd (List.mem_of_getLast? hlast) (List.nodup_cons.mp h.nodup).1
  subst hrest
  refine ⟨List.nodup_nil, rfl, fun u _ => ?_, nofun, fun p w hp => absurd hp Follows.not_nil,
    nofun, h.turns.leave (by rw [hat]; rfl) nofun⟩
  · by_cases hut : u = t
    · rw [hut, Outside, hself]
      trivial
    · have hold := h.outside u (fun hu => hut (List.mem_singleton.mp hu))
      unfold Outside at hold ⊢
      rw [goto_other _ _ hut]
      exact hold

omit [DecidableEq Tid] in
/-- The thread behind a release that has read its `next` pointer. -/
theorem Inv.follows_of_hand (h : Inv s gone (t :: rest)) (hat : s.pc t = .relWrite (some w)) :
    s.pc w = .acqAwait ∧ ∃ rest', rest = w :: rest' := by
  have hfront := h.front t rfl
  rw [Front, hat] at hfront
  cases rest with
  | nil =>
    rw [h.last t rfl] at hfront
    cases hfront.2
  | cons y rest =>
    obtain ⟨-, ⟨-, hnull⟩ | ⟨hawait, hnext⟩⟩ :=
      h.behind t y (Follows.cons_iff.mpr (.inl ⟨rfl, rfl⟩))
    · rw [hnull] at hfront
      cases hfront.2
    · rw [hnext] at hfront
      cases hfront.2
      exact ⟨hawait, rest, rfl⟩

theorem Inv.hand (h : Inv s gone (t :: w :: rest)) (hat : s.pc t = .relWrite (some w)) :
    Inv ((s.setLocked w 0).goto t .idle) (gone ++ [t]) (w :: rest) := by
  obtain ⟨hawait, -⟩ := h.follows_of_hand hat
  obtain ⟨ht, hnodup⟩ := List.nodup_cons.mp h.nodup
  obtain ⟨hw, -⟩ := List.nodup_cons.mp hnodup
  have hself : ((s.setLocked w 0).goto t .idle).pc t = .idle := goto_self ..
  have hpc : ∀ u, u ≠ t → ((s.setLocked w 0).goto t .idle).pc u = s.pc u :=
    fun u hu => goto_other _ _ hu
  have hlocked : ∀ u, u ≠ w → ((s.setLocked w 0).goto t .idle).locked u = s.locked u :=
    fun u hu => update_of_ne hu ..
  have hin : ∀ u ∈ w :: rest, u ≠ t := fun u hu heq => ht (heq ▸ hu)
  refine ⟨hnodup, h.tail.trans List.getLast?_cons_cons, fun u hu => ?_, fun u hu => ?_,
    fun a b hab => ?_, fun u hu => h.last u ?_,
    h.turns.leave (by rw [hat]; rfl) fun u hu => by rw [hpc u (hin u hu)]⟩
  · by_cases hut : u = t
    · rw [hut, Outside, hself]
      trivial
    · have hold := h.outside u (fun hmem => (List.mem_cons.mp hmem).elim hut hu)
      unfold Outside at hold ⊢
      rw [hpc u hut, hlocked u (fun heq => hu (heq ▸ List.mem_cons_self ..))]
      exact hold
  · cases hu
    rw [Front, hpc w (hin w (List.mem_cons_self ..)), hawait]
    exact update_self ..
  · have hold := h.behind a b hab.tail
    unfold Behind at hold ⊢
    rw [hpc b (hin b hab.right_mem), hlocked b (fun heq => hw (heq ▸ hab.right_mem_tail))]
    exact hold
  · rw [List.getLast?_cons_cons]
    exact hu

theorem Inv.enter (h : Inv s gone line) (hat : s.pc t = .acqAwait) (hlocked : s.locked t = 0) :
    Inv (s.enter t) gone line := by
  have ht : t ∈ line := h.mem_iff.mpr (by rw [hat]; rfl)
  cases line with
  | nil => cases ht
  | cons f rest =>
    rcases List.mem_cons.mp ht with rfl | ht
    · have hself : (s.enter t).pc t = .critical := goto_self ..
      have hne : ∀ u ∈ rest, u ≠ t := fun u hu heq => (List.nodup_cons.mp h.nodup).1 (heq ▸ hu)
      refine h.first (fun u hu => goto_other _ _ hu) rfl rfl rfl
        (h.turns.enter (by rw [hat]; rfl) (fun u hu => ?_) (by rw [hself]; rfl)) ?_
      · rw [show (s.enter t).pc u = s.pc u from goto_other _ _ (hne u hu)]
      · rw [Front, hself]
        trivial
    · obtain ⟨p, hp⟩ := Follows.exists_front (x := f) ht
      rw [(h.behind p t hp).1] at hlocked
      cases hlocked

theorem Inv.goto (h : Inv s gone line) (hholds : (s.pc t).holds = true) {pc : Pc Tid}
    (hpc : pc.holds = true) (hfront : Front (s.goto t pc) t) : Inv (s.goto t pc) gone line := by
  obtain ⟨rest, rfl⟩ := h.first_of_holds hholds
  refine h.first (fun u hu => goto_other _ _ hu) rfl rfl rfl (h.turns.congr fun u _ => ?_) hfront
  by_cases hut : u = t
  · rw [hut, goto_self, hholds, hpc]
  · rw [goto_other _ _ hut]

def Good (s : State Tid) : Prop := ∃ gone line, Inv s gone line

theorem Inv.thread_step (h : Inv s gone line) (hstep : nextStep s t = some s') : Good s' := by
  have hout (hqueued : (s.pc t).queued = false) : Outside s t := h.outside t fun hmem => by
    rw [h.mem_iff.mp hmem] at hqueued
    cases hqueued
  cases hat : s.pc t <;> rw [nextStep, hat] at hstep
  case idle | critical => cases hstep
  case tryNext | acqNext =>
    cases hstep
    refine ⟨gone, line, h.own (t := t) (by rw [hat]; rfl) (fun u hu => goto_other _ _ hu)
      (fun u hu => update_of_ne hu ..) (fun _ _ => rfl) ?_ rfl rfl rfl⟩
    rw [Outside, goto_self]
    exact update_self ..
  case tryLocked | acqLocked =>
    cases hstep
    have hknown := hout (by rw [hat]; rfl)
    rw [Outside, hat] at hknown
    refine ⟨gone, line, h.own (t := t) (by rw [hat]; rfl) (fun u hu => goto_other _ _ hu)
      (fun _ _ => rfl) (fun u hu => update_of_ne hu ..) ?_ rfl rfl rfl⟩
    rw [Outside, goto_self]
    exact ⟨hknown, update_self ..⟩
  case tryCas =>
    dsimp only at hstep
    have hknown := hout (by rw [hat]; rfl)
    rw [Outside, hat] at hknown
    split at hstep
    · rename_i htail
      cases hstep
      exact ⟨gone, h.arrive_free htail hknown.1⟩
    · cases hstep
      refine ⟨gone, line, h.own (t := t) (by rw [hat]; rfl) (fun u hu => goto_other _ _ hu)
        (fun _ _ => rfl) (fun _ _ => rfl) ?_ rfl rfl rfl⟩
      rw [Outside, goto_self]
      trivial
  case acqXchg =>
    dsimp only at hstep
    have hknown := hout (by rw [hat]; rfl)
    rw [Outside, hat] at hknown
    split at hstep
    · rename_i htail
      cases hstep
      exact ⟨gone, h.arrive_free htail hknown.1⟩
    · rename_i htail
      cases hstep
      exact ⟨gone, _, h.arrive_behind htail (by rw [hat]; rfl) hknown.1 hknown.2⟩
  case acqLink pred =>
    cases hstep
    exact ⟨gone, line, h.link hat⟩
  case acqAwait =>
    dsimp only at hstep
    split at hstep
    · rename_i hlocked
      cases hstep
      exact ⟨gone, line, h.enter hat hlocked⟩
    · cases hstep
  case relNext =>
    dsimp only at hstep
    split at hstep
    · cases hstep
      exact ⟨gone, line, h.goto (by rw [hat]; rfl) rfl (by rw [Front, goto_self]; trivial)⟩
    · rename_i hnext
      cases hstep
      exact ⟨gone, line, h.goto (by rw [hat]; rfl) rfl (by rw [Front, goto_self]; exact hnext)⟩
  case relCas =>
    dsimp only at hstep
    split at hstep
    · rename_i htail
      cases hstep
      exact ⟨gone ++ [t], [], h.leave hat htail⟩
    · cases hstep
      exact ⟨gone, line, h.goto (by rw [hat]; rfl) rfl (by rw [Front, goto_self]; trivial)⟩
  case relAwait =>
    dsimp only at hstep
    split at hstep
    · cases hstep
    · rename_i hnext
      cases hstep
      exact ⟨gone, line, h.goto (by rw [hat]; rfl) rfl (by rw [Front, goto_self]; exact hnext)⟩
  case relRead =>
    cases hstep
    obtain ⟨rest, rfl⟩ := h.first_of_holds (t := t) (by rw [hat]; rfl)
    have hfront := h.front t rfl
    rw [Front, hat] at hfront
    refine ⟨gone, t :: rest, h.goto (by rw [hat]; rfl) rfl ?_⟩
    rw [Front, goto_self]
    exact ⟨hfront, rfl⟩
  case relWrite next =>
    cases next with
    | none => cases hstep
    | some w =>
      cases hstep
      obtain ⟨rest, rfl⟩ := h.first_of_holds (t := t) (by rw [hat]; rfl)
      obtain ⟨-, rest, rfl⟩ := h.follows_of_hand hat
      exact ⟨gone ++ [t], w :: rest, h.hand hat⟩

theorem Good.step {a : Act Tid} (h : Good s) (hstep : step s a = some s') : Good s' := by
  obtain ⟨gone, line, h⟩ := h
  cases a with
  | tryacquire t | acquire t =>
    simp only [Mcslock.step] at hstep
    split at hstep
    · rename_i hat
      cases hstep
      refine ⟨gone, line, h.own (t := t) (by rw [hat]; rfl) (fun u hu => goto_other _ _ hu)
        (fun _ _ => rfl) (fun _ _ => rfl) ?_ rfl rfl rfl⟩
      rw [Outside, goto_self]
      trivial
    · cases hstep
  | release t =>
    simp only [Mcslock.step] at hstep
    split at hstep
    · rename_i hat
      cases hstep
      exact ⟨gone, line, h.goto (by rw [hat]; rfl) rfl (by rw [Front, goto_self]; trivial)⟩
    · cases hstep
  | step t => exact h.thread_step hstep

omit [DecidableEq Tid] in
theorem Initial.inv (h : Initial s) : Inv s [] [] := by
  refine ⟨List.nodup_nil, h.tail, fun t _ => ?_, nofun, fun p w hp => absurd hp Follows.not_nil,
    nofun, ?_⟩
  · rw [Outside, h.pc]
    trivial
  · rw [h.arrived, h.granted]
    exact Turns.init _

variable {past : List (State Tid × Act Tid)}

theorem run_inv (run : (machine Tid).Run past s) : Good s :=
  run.invariant (fun _ hstart => ⟨_, _, Initial.inv hstart⟩) fun _ _ _ h hstep => h.step hstep

/-- At most one thread has the lock, and the lock is granted in the order in which the
threads put their nodes into the tail. Those who did and who have not given the lock up
form a line. Its first thread has the lock or was let in, and every other thread is
linked to the one in front of it or is about to link itself. A thread writes only to
nodes whose owners are in the line. -/
structure Safe (s : State Tid) : Prop where
  exclusive : ∀ t u, (s.pc t).holds = true → (s.pc u).holds = true → t = u
  fifo : s.granted <+: s.arrived
  line : ∃ gone line, s.arrived = gone ++ line ∧ (∀ t, t ∈ line ↔ (s.pc t).queued = true) ∧
    (∀ t, line.head? = some t → (s.pc t).holds = true ∨ s.pc t = .acqAwait ∧ s.locked t = 0) ∧
    ∀ p w, Follows line p w → (s.pc w).holds = false ∧
      (s.pc w = .acqLink p ∧ s.next p = none ∨ s.pc w = .acqAwait ∧ s.next p = some w)
  writes : ∀ t n, (s.pc t).writes = some n → (s.pc n).queued = true

omit [DecidableEq Tid] in
theorem Front.holds_or_let_in (h : Front s t) :
    (s.pc t).holds = true ∨ s.pc t = .acqAwait ∧ s.locked t = 0 := by
  unfold Front at h
  split at h <;> simp_all [Pc.holds]

theorem mcslock_safe (run : (machine Tid).Run past s) : Safe s := by
  obtain ⟨gone, line, h⟩ := run_inv run
  refine ⟨fun t u ht hu => ?_, h.turns.fifo, ⟨gone, line, h.turns.arrivals, fun t => h.mem_iff,
    fun t ht => (h.front t ht).holds_or_let_in, fun p w hp => ⟨(h.behind p w hp).waits.2,
    (h.behind p w hp).2⟩⟩, fun t n hn => ?_⟩
  · obtain ⟨rest, rfl⟩ := h.first_of_holds ht
    obtain ⟨rest', heq⟩ := h.first_of_holds hu
    exact (List.cons.inj heq).1
  · cases hat : s.pc t <;> rw [hat] at hn
    case acqLink pred =>
      cases hn
      exact h.mem_iff.mp (h.follows_of_link hat).left_mem
    case relWrite next =>
      cases hn
      obtain ⟨rest, rfl⟩ := h.first_of_holds (t := t) (by rw [hat]; rfl)
      rw [(h.follows_of_hand hat).1]
      rfl
    all_goals cases hn

def freeLock : State Nat where
  tail := none
  next _ := none
  locked _ := 0
  pc _ := .idle
  arrived := []
  granted := []

/-- Thread 1 puts its node into the tail while thread 0 releases and has seen no next
node, and links it when the compare-and-exchange of thread 0 has failed. Thread 2 tries
in between. -/
def race : List (Act Nat) :=
  List.flatten [
    .acquire 0 :: List.replicate 3 (.step 0),
    .acquire 1 :: List.replicate 2 (.step 1),
    [.release 0, .step 0, .step 1, .step 0],
    .tryacquire 2 :: List.replicate 3 (.step 2),
    .step 1 :: List.replicate 3 (.step 0),
    [.step 1]]

theorem mcslock_safe_race :
    ∃ past s, (machine Nat).Run past s ∧ Safe s ∧ s.pc 0 = .idle ∧ s.pc 1 = .critical ∧
      s.granted = [0, 1] := by
  have hexec : ((machine Nat).exec freeLock race).map
      (fun s => (s.pc 0, s.pc 1, s.granted)) = some (.idle, .critical, [0, 1]) := by
    decide +kernel
  obtain ⟨s, hs, hview⟩ := Option.map_eq_some_iff.mp hexec
  obtain ⟨hzero, hrest⟩ := Prod.mk.inj hview
  obtain ⟨hone, hgranted⟩ := Prod.mk.inj hrest
  have run := (Machine.Run.start (M := machine Nat) (s := freeLock) ⟨rfl, rfl, rfl, rfl⟩).exec hs
  exact ⟨_, s, run, mcslock_safe run, hzero, hone, hgranted⟩

end Libvsync.Spinlock.Mcslock
