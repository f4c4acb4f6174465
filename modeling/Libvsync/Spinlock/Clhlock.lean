import Libvsync.Core.Machine
import Libvsync.Core.Turns

/-!
The CLH lock. A thread marks its qnode as locked, exchanges it with the tail and waits for
the qnode that it found there. On release it clears its qnode, which the next thread may
still look at, and takes over the qnode of its predecessor.

`arrived` and `granted` are not read by the code: they log which threads put a qnode into
the tail and which threads got the lock.
-/

namespace Libvsync.Spinlock.Clhlock

open Libvsync.Core Function

inductive Pc where
  | idle
  | acqLocked
  | acqXchg
  | acqAwait
  | critical
  | relLocked
  | relRecycle
  deriving DecidableEq

structure State (Tid Node : Type) where
  tail : Node
  locked : Node → Nat
  pred : Tid → Option Node
  qnode : Tid → Node
  pc : Tid → Pc
  arrived : List Tid
  granted : List Tid

inductive Act (Tid : Type) where
  | acquire (t : Tid)
  | release (t : Tid)
  | step (t : Tid)

variable {Tid Node : Type} [DecidableEq Tid] [DecidableEq Node]

def State.goto (s : State Tid Node) (t : Tid) (pc : Pc) : State Tid Node :=
  { s with pc := update s.pc t pc }

def State.setLocked (s : State Tid Node) (n : Node) (locked : Nat) : State Tid Node :=
  { s with locked := update s.locked n locked }

/-- The exchange of the tail. -/
def State.arrive (s : State Tid Node) (t : Tid) : State Tid Node :=
  { s with
    tail := s.qnode t
    pred := update s.pred t (some s.tail)
    arrived := s.arrived ++ [t] }

/-- The next atomic operation of thread `t`. NULL cannot be accessed. -/
def nextStep (s : State Tid Node) (t : Tid) : Option (State Tid Node) :=
  match s.pc t with
  | .idle | .critical => none
  | .acqLocked => some ((s.setLocked (s.qnode t) 1).goto t .acqXchg)
  | .acqXchg => some ((s.arrive t).goto t .acqAwait)
  | .acqAwait =>
    match s.pred t with
    | some pred =>
      if s.locked pred = 0 then
        some ({ s with granted := s.granted ++ [t] }.goto t .critical)
      else none
    | none => none
  | .relLocked => some ((s.setLocked (s.qnode t) 0).goto t .relRecycle)
  | .relRecycle =>
    match s.pred t with
    | some pred => some ({ s with qnode := update s.qnode t pred }.goto t .idle)
    | none => none

def step (s : State Tid Node) : Act Tid → Option (State Tid Node)
  | .acquire t => if s.pc t = .idle then some (s.goto t .acqLocked) else none
  | .release t => if s.pc t = .critical then some (s.goto t .relLocked) else none
  | .step t => nextStep s t

/-- `clhlock_init`, and `clhlock_node_init` for every thread with a qnode of its own. The
other qnodes hold anything. -/
structure Initial (initial : Node) (qnode : Tid → Node) (s : State Tid Node) : Prop where
  injective : Function.Injective qnode
  notInitial : ∀ t, qnode t ≠ initial
  tail : s.tail = initial
  locked : s.locked initial = 0 ∧ ∀ t, s.locked (qnode t) = 0
  pred : s.pred = fun _ => none
  qnode : s.qnode = qnode
  pc : s.pc = fun _ => .idle
  arrived : s.arrived = []
  granted : s.granted = []

def machine (Tid Node : Type) [DecidableEq Tid] [DecidableEq Node] (initial : Node)
    (qnode : Tid → Node) : Machine (State Tid Node) (Act Tid) where
  start := Initial initial qnode
  step := step

/-- From the return of acquire to the write of release that gives the lock up. -/
def Pc.holds : Pc → Bool
  | .critical | .relLocked => true
  | _ => false

/-- From the exchange of the tail to the write of release that gives the lock up. -/
def Pc.queued : Pc → Bool
  | .acqAwait => true
  | pc => pc.holds

/-- The qnode that a thread owns. After the write of release this is the one in front of
the thread, which it has not taken over yet. -/
def own (s : State Tid Node) (t : Tid) : Option Node :=
  if s.pc t = .relRecycle then s.pred t else some (s.qnode t)

/-- No two threads own the same qnode, and `token` is nobody's. -/
structure Owned (s : State Tid Node) (token : Node) : Prop where
  has : ∀ t, own s t ≠ none
  inj : ∀ t u, own s t = own s u → t = u
  ne : ∀ t, own s t ≠ some token

structure Inv (s : State Tid Node) (token : Node) (gone line : List Tid) : Prop where
  nodup : line.Nodup
  mem : ∀ t, t ∈ line ↔ (s.pc t).queued = true
  turns : Turns (fun t => (s.pc t).holds) s.arrived s.granted gone line
  owned : Owned s token
  clear : s.locked token = 0
  locked : ∀ t, s.pc t = .acqXchg ∨ t ∈ line → s.locked (s.qnode t) = 1
  front : ∀ t, line.head? = some t → s.pred t = some token
  behind : ∀ p w, Follows line p w → s.pred w = some (s.qnode p)
  tail : s.tail = (line.getLast?.map s.qnode).getD token

variable {s s' : State Tid Node} {token : Node} {gone line rest : List Tid} {p t w : Tid}

section

omit [DecidableEq Node]

theorem goto_self (s : State Tid Node) (t : Tid) (pc : Pc) : (s.goto t pc).pc t = pc :=
  update_self ..

theorem goto_other {u : Tid} (s : State Tid Node) (pc : Pc) (hu : u ≠ t) :
    (s.goto t pc).pc u = s.pc u := update_of_ne hu ..

end

section

omit [DecidableEq Tid] [DecidableEq Node]

theorem own_eq (ht : s.pc t ≠ .relRecycle) : own s t = some (s.qnode t) := if_neg ht

theorem own_congr (hpc : s'.pc t = s.pc t) (hpred : s'.pred t = s.pred t)
    (hqnode : s'.qnode t = s.qnode t) : own s' t = own s t := by
  unfold own
  rw [hpc, hpred, hqnode]

theorem own_step (hpc : ∀ u, u ≠ t → s'.pc u = s.pc u) (hpred : ∀ u, u ≠ t → s'.pred u = s.pred u)
    (hqnode : s'.qnode = s.qnode) (hold : s.pc t ≠ .relRecycle) (hnew : s'.pc t ≠ .relRecycle)
    (u : Tid) : own s' u = own s u := by
  by_cases hut : u = t
  · rw [hut, own_eq hold, own_eq hnew, hqnode]
  · exact own_congr (hpc u hut) (hpred u hut) (congrFun hqnode u)

theorem Owned.congr (h : Owned s token) (hown : ∀ u, own s' u = own s u) : Owned s' token := by
  refine ⟨fun u => ?_, fun u v => ?_, fun u => ?_⟩
  · rw [hown]
    exact h.has u
  · rw [hown, hown]
    exact h.inj u v
  · rw [hown]
    exact h.ne u

theorem queued_ne (ht : (s.pc t).queued = true) : s.pc t ≠ .relRecycle := by
  intro hat
  rw [hat] at ht
  cases ht

/-- A thread that has the lock is the first of the line. -/
theorem Inv.first_of_holds (h : Inv s token gone line) (hholds : (s.pc t).holds = true) :
    ∃ rest, line = t :: rest := by
  have hqueued : (s.pc t).queued = true := by
    cases hat : s.pc t <;> rw [hat] at hholds <;> first | rfl | cases hholds
  exact h.turns.first ((h.mem t).mpr hqueued) hholds

/-- The qnodes of the line are not those of other threads. -/
theorem Inv.qnode_ne (h : Inv s token gone line) {u : Tid} (ht : s.pc t ≠ .relRecycle)
    (hu : s.pc u ≠ .relRecycle) (hne : u ≠ t) : s.qnode u ≠ s.qnode t := by
  intro heq
  refine hne (h.owned.inj u t ?_)
  rw [own_eq hu, own_eq ht, heq]

end

omit [DecidableEq Node] in
/-- A thread moves on between two operations that change nothing for the others. -/
theorem Inv.goto (h : Inv s token gone line) {pc : Pc} (hqueued : pc.queued = (s.pc t).queued)
    (hholds : pc.holds = (s.pc t).holds) (hold : s.pc t ≠ .relRecycle) (hnew : pc ≠ .relRecycle)
    (hxchg : pc ≠ .acqXchg) : Inv (s.goto t pc) token gone line := by
  have hown : ∀ u, own (s.goto t pc) u = own s u := by
    refine own_step (fun u hu => goto_other _ _ hu) (fun _ _ => rfl) rfl hold ?_
    rw [goto_self]
    exact hnew
  have hpc (f : Pc → Bool) (hf : f pc = f (s.pc t)) (u : Tid) :
      f ((s.goto t pc).pc u) = f (s.pc u) := by
    by_cases hut : u = t
    · rw [hut, goto_self, hf]
    · rw [goto_other _ _ hut]
  refine ⟨h.nodup, fun u => ?_, h.turns.congr fun u _ => hpc Pc.holds hholds u,
    h.owned.congr hown, h.clear, fun u hu => h.locked u ?_, h.front, h.behind, h.tail⟩
  · rw [hpc Pc.queued hqueued]
    exact h.mem u
  · rcases hu with hu | hu
    · by_cases hut : u = t
      · rw [hut, goto_self] at hu
        exact absurd hu hxchg
      · rw [goto_other _ _ hut] at hu
        exact .inl hu
    · exact .inr hu

/-- A thread marks its qnode before it puts it into the tail. -/
theorem Inv.acqLocked (h : Inv s token gone line) (hat : s.pc t = .acqLocked) :
    Inv ((s.setLocked (s.qnode t) 1).goto t .acqXchg) token gone line := by
  have hne : s.pc t ≠ .relRecycle := by
    rw [hat]
    decide
  have hout : t ∉ line := by
    rw [h.mem, hat]
    exact Bool.false_ne_true
  set s' := (s.setLocked (s.qnode t) 1).goto t .acqXchg with hs'
  have hself : s'.pc t = .acqXchg := goto_self ..
  have hpc : ∀ u, u ≠ t → s'.pc u = s.pc u := fun u hu => goto_other _ _ hu
  have hlocked : ∀ n, n ≠ s.qnode t → s'.locked n = s.locked n :=
    fun n hn => update_of_ne hn ..
  have hown := own_step hpc (fun _ _ => rfl) rfl hne (by rw [hself]; decide)
  refine ⟨h.nodup, fun u => ?_, h.turns.congr fun u hu => ?_, h.owned.congr hown, ?_,
    fun u hu => ?_, h.front, h.behind, h.tail⟩
  · by_cases hut : u = t
    · rw [hut, hself]
      exact iff_of_false hout Bool.false_ne_true
    · rw [hpc u hut]
      exact h.mem u
  · rw [hpc u fun heq => hout (heq ▸ hu)]
  · rw [hlocked token fun heq => h.owned.ne t (by rw [own_eq hne, heq])]
    exact h.clear
  · by_cases hut : u = t
    · rw [hut]
      exact update_self ..
    · rw [hpc u hut] at hu
      have hrec : s.pc u ≠ .relRecycle := by
        rcases hu with hu | hu
        · rw [hu]
          decide
        · exact queued_ne ((h.mem u).mp hu)
      change s'.locked (s.qnode u) = 1
      rw [hlocked _ (h.qnode_ne hne hrec hut)]
      exact h.locked u hu

section

omit [DecidableEq Node]

/-- A thread puts its qnode into the tail, behind the one that it finds there. -/
theorem Inv.acqXchg (h : Inv s token gone line) (hat : s.pc t = .acqXchg) :
    Inv ((s.arrive t).goto t .acqAwait) token gone (line ++ [t]) := by
  have hne : s.pc t ≠ .relRecycle := by
    rw [hat]
    decide
  have hout : t ∉ line := by
    rw [h.mem, hat]
    decide
  set s' := (s.arrive t).goto t .acqAwait with hs'
  have hself : s'.pc t = .acqAwait := goto_self ..
  have hpc : ∀ u, u ≠ t → s'.pc u = s.pc u := fun u hu => goto_other _ _ hu
  have hpred : ∀ u, u ≠ t → s'.pred u = s.pred u := fun u hu => update_of_ne hu ..
  have hin : ∀ u ∈ line, u ≠ t := fun u hu heq => hout (heq ▸ hu)
  have hown := own_step hpc hpred rfl hne (by rw [hself]; decide)
  have hpredself : s'.pred t = some s.tail := update_self ..
  refine ⟨?_, fun u => ?_, h.turns.join (fun u hu => ?_) (by rw [hself]; rfl),
    h.owned.congr hown, h.clear, fun u hu => h.locked u ?_, fun u hu => ?_, fun a b hab => ?_, ?_⟩
  · exact List.nodup_append.mpr ⟨h.nodup, List.nodup_singleton t, fun a ha b hb heq =>
      hout (List.mem_singleton.mp hb ▸ heq ▸ ha)⟩
  · rw [List.mem_append, List.mem_singleton]
    by_cases hut : u = t
    · rw [hut, hself]
      exact iff_of_true (.inr rfl) rfl
    · rw [hpc u hut, ← h.mem u]
      exact or_iff_left hut
  · rw [hpc u (hin u hu)]
  · by_cases hut : u = t
    · rw [hut]
      exact .inl hat
    · rw [hpc u hut] at hu
      refine hu.imp_right fun hu => (List.mem_append.mp hu).resolve_right fun hu => ?_
      exact hut (List.mem_singleton.mp hu)
  · cases hlast : line.getLast? with
    | none =>
      rw [List.getLast?_eq_none_iff.mp hlast] at hu
      cases hu
      rw [hpredself, h.tail, hlast]
      rfl
    | some x =>
      rw [List.head?_append_of_ne_nil _ (List.ne_nil_of_mem (List.mem_of_getLast? hlast))] at hu
      rw [hpred u (hin u (List.mem_of_mem_head? hu))]
      exact h.front u hu
  · rcases Follows.concat_iff.mp hab with hab | ⟨ha, rfl⟩
    · rw [hpred b (hin b hab.right_mem)]
      exact h.behind a b hab
    · rw [hpredself, h.tail, ha]
      rfl
  · rw [List.getLast?_concat]
    rfl

/-- A waiting thread finds that the qnode in front of it is clear. -/
theorem Inv.enter (h : Inv s token gone line) {n : Node} (hat : s.pc t = .acqAwait)
    (hpred : s.pred t = some n) (hclear : s.locked n = 0) :
    Inv ({ s with granted := s.granted ++ [t] }.goto t .critical) token gone line := by
  have hmem : t ∈ line := (h.mem t).mpr (by rw [hat]; rfl)
  obtain ⟨rest, rfl⟩ : ∃ rest, line = t :: rest := by
    cases line with
    | nil => cases hmem
    | cons f rest =>
      rcases List.mem_cons.mp hmem with rfl | hmem
      · exact ⟨rest, rfl⟩
      · obtain ⟨p, hp⟩ := Follows.exists_front (x := f) hmem
        rw [h.behind p t hp] at hpred
        cases hpred
        rw [h.locked p (.inr hp.left_mem)] at hclear
        cases hclear
  have hne : ∀ u ∈ rest, u ≠ t := fun u hu heq => (List.nodup_cons.mp h.nodup).1 (heq ▸ hu)
  set s' := ({ s with granted := s.granted ++ [t] } : State Tid Node).goto t .critical with hs'
  have hself : s'.pc t = .critical := goto_self ..
  have hpc : ∀ u, u ≠ t → s'.pc u = s.pc u := fun u hu => goto_other _ _ hu
  have hown := own_step hpc (fun _ _ => rfl) rfl (by rw [hat]; decide) (by rw [hself]; decide)
  refine ⟨h.nodup, fun u => ?_, h.turns.enter (by rw [hat]; rfl) (fun u hu => ?_)
    (by rw [hself]; rfl), h.owned.congr hown, h.clear, fun u hu => h.locked u ?_, h.front,
    h.behind, h.tail⟩
  · by_cases hut : u = t
    · rw [hut, hself]
      exact iff_of_true (List.mem_cons_self ..) rfl
    · rw [hpc u hut]
      exact h.mem u
  · rw [hpc u (hne u hu)]
  · refine hu.imp_left fun hu => ?_
    by_cases hut : u = t
    · rw [hut, hself] at hu
      cases hu
    · rw [hpc u hut] at hu
      exact hu

end

/-- A release clears its qnode, and the qnode in front of it becomes its own. -/
theorem Inv.relLocked (h : Inv s token gone line) (hat : s.pc t = .relLocked) :
    ∃ rest, Inv ((s.setLocked (s.qnode t) 0).goto t .relRecycle) (s.qnode t) (gone ++ [t])
      rest := by
  obtain ⟨rest, rfl⟩ := h.first_of_holds (t := t) (by rw [hat]; rfl)
  obtain ⟨hout, hnodup⟩ := List.nodup_cons.mp h.nodup
  have hne : s.pc t ≠ .relRecycle := by
    rw [hat]
    decide
  have hin : ∀ u ∈ rest, u ≠ t := fun u hu heq => hout (heq ▸ hu)
  set s' := (s.setLocked (s.qnode t) 0).goto t .relRecycle with hs'
  have hself : s'.pc t = .relRecycle := goto_self ..
  have hpc : ∀ u, u ≠ t → s'.pc u = s.pc u := fun u hu => goto_other _ _ hu
  have hlocked : ∀ n, n ≠ s.qnode t → s'.locked n = s.locked n :=
    fun n hn => update_of_ne hn ..
  have hown : ∀ u, u ≠ t → own s' u = own s u := fun u hu => own_congr (hpc u hu) rfl rfl
  have htoken : own s' t = some token := by
    rw [own, if_pos hself]
    exact h.front t rfl
  refine ⟨rest, hnodup, fun u => ?_, h.turns.leave (by rw [hat]; rfl) (fun u hu => ?_),
    ⟨fun u => ?_, fun u v huv => ?_, fun u => ?_⟩, update_self .., fun u hu => ?_,
    fun u hu => ?_, fun a b hab => h.behind a b hab.tail, ?_⟩
  · by_cases hut : u = t
    · rw [hut, hself]
      exact iff_of_false hout Bool.false_ne_true
    · rw [hpc u hut, ← h.mem u, List.mem_cons]
      exact (or_iff_right hut).symm
  · rw [hpc u (hin u hu)]
  · by_cases hut : u = t
    · rw [hut, htoken]
      exact Option.some_ne_none _
    · rw [hown u hut]
      exact h.owned.has u
  · by_cases hut : u = t
    · by_contra hne'
      have hvt : v ≠ t := fun heq => hne' (hut.trans heq.symm)
      rw [hut, htoken, hown v hvt] at huv
      exact h.owned.ne v huv.symm
    · by_cases hvt : v = t
      · rw [hvt, htoken, hown u hut] at huv
        exact absurd huv (h.owned.ne u)
      · rw [hown u hut, hown v hvt] at huv
        exact h.owned.inj u v huv
  · by_cases hut : u = t
    · rw [hut, htoken]
      intro heq
      exact h.owned.ne t (by rw [own_eq hne, ← heq])
    · rw [hown u hut, ← own_eq hne]
      exact fun heq => hut (h.owned.inj u t heq)
  · have hut : u ≠ t := by
      rintro rfl
      rcases hu with hu | hu
      · rw [hself] at hu
        cases hu
      · exact hout hu
    rw [hpc u hut] at hu
    have hold : s.pc u = .acqXchg ∨ u ∈ t :: rest := hu.imp_right (List.mem_cons_of_mem _)
    have hrec : s.pc u ≠ .relRecycle := by
      rcases hold with hold | hold
      · rw [hold]
        decide
      · exact queued_ne ((h.mem u).mp hold)
    change s'.locked (s.qnode u) = 1
    rw [hlocked _ (h.qnode_ne hne hrec hut)]
    exact h.locked u hold
  · exact h.behind t u (Follows.cons_iff.mpr (.inl ⟨rfl, hu⟩))
  · refine h.tail.trans ?_
    cases rest with
    | nil => rfl
    | cons y rest =>
      rw [List.getLast?_cons_cons, List.getLast?_eq_some_getLast (List.cons_ne_nil _ _)]
      rfl

omit [DecidableEq Node] in
theorem Inv.relRecycle (h : Inv s token gone line) {n : Node} (hat : s.pc t = .relRecycle)
    (hpred : s.pred t = some n) :
    Inv ({ s with qnode := update s.qnode t n }.goto t .idle) token gone line := by
  have hout : t ∉ line := by
    rw [h.mem, hat]
    decide
  have hin : ∀ u ∈ line, u ≠ t := fun u hu heq => hout (heq ▸ hu)
  set s' := ({ s with qnode := update s.qnode t n } : State Tid Node).goto t .idle with hs'
  have hself : s'.pc t = .idle := goto_self ..
  have hpc : ∀ u, u ≠ t → s'.pc u = s.pc u := fun u hu => goto_other _ _ hu
  have hqnode : ∀ u, u ≠ t → s'.qnode u = s.qnode u := fun u hu => update_of_ne hu ..
  have hown (u : Tid) : own s' u = own s u := by
    by_cases hut : u = t
    · rw [hut, own_eq (by rw [hself]; decide), own, if_pos hat, hpred]
      exact congrArg some (update_self ..)
    · exact own_congr (hpc u hut) rfl (hqnode u hut)
  refine ⟨h.nodup, fun u => ?_, h.turns.congr fun u hu => ?_, h.owned.congr hown, h.clear,
    fun u hu => ?_, h.front, fun a b hab => ?_, ?_⟩
  · by_cases hut : u = t
    · rw [hut, hself]
      exact iff_of_false hout Bool.false_ne_true
    · rw [hpc u hut]
      exact h.mem u
  · rw [hpc u (hin u hu)]
  · have hut : u ≠ t := by
      rintro rfl
      rcases hu with hu | hu
      · rw [hself] at hu
        cases hu
      · exact hout hu
    rw [hqnode u hut]
    rw [hpc u hut] at hu
    exact h.locked u hu
  · rw [hqnode a (hin a hab.left_mem)]
    exact h.behind a b hab
  · refine h.tail.trans ?_
    cases hlast : line.getLast? with
    | none => rfl
    | some x => exact (hqnode x (hin x (List.mem_of_getLast? hlast))).symm

def Good (s : State Tid Node) : Prop := ∃ token gone line, Inv s token gone line

theorem Inv.thread_step (h : Inv s token gone line) (hstep : nextStep s t = some s') :
    Good s' := by
  cases hat : s.pc t <;> rw [nextStep, hat] at hstep
  case idle | critical => cases hstep
  case acqLocked =>
    cases hstep
    exact ⟨_, _, _, h.acqLocked hat⟩
  case acqXchg =>
    cases hstep
    exact ⟨_, _, _, h.acqXchg hat⟩
  case acqAwait =>
    dsimp only at hstep
    split at hstep
    · rename_i n hpred
      split at hstep
      · rename_i hclear
        cases hstep
        exact ⟨_, _, _, h.enter hat hpred hclear⟩
      · cases hstep
    · cases hstep
  case relLocked =>
    cases hstep
    obtain ⟨rest, hrest⟩ := h.relLocked hat
    exact ⟨_, _, _, hrest⟩
  case relRecycle =>
    dsimp only at hstep
    split at hstep
    · rename_i n hpred
      cases hstep
      exact ⟨_, _, _, h.relRecycle hat hpred⟩
    · cases hstep

theorem Good.step {a : Act Tid} (h : Good s) (hstep : step s a = some s') : Good s' := by
  obtain ⟨token, gone, line, h⟩ := h
  cases a with
  | acquire t | release t =>
    simp only [Clhlock.step] at hstep
    split at hstep
    · rename_i hat
      cases hstep
      exact ⟨_, _, _, h.goto (by rw [hat]; rfl) (by rw [hat]; rfl) (by rw [hat]; decide)
        (by decide) (by decide)⟩
    · cases hstep
  | step t => exact h.thread_step hstep

variable {initial : Node} {qnode : Tid → Node} {past : List (State Tid Node × Act Tid)}

omit [DecidableEq Tid] [DecidableEq Node] in
theorem Initial.inv (h : Initial initial qnode s) : Inv s initial [] [] := by
  have hpc (t : Tid) : s.pc t = .idle := congrFun h.pc t
  have hown (t : Tid) : own s t = some (qnode t) := by
    rw [own_eq (by rw [hpc]; decide), h.qnode]
  refine ⟨List.nodup_nil, fun t => ?_, ?_, ⟨fun t => ?_, fun t u htu => ?_, fun t => ?_⟩,
    h.locked.1, fun t ht => ?_, fun t ht => ?_,
    fun _ _ hab => absurd hab Follows.not_nil, h.tail⟩
  · rw [hpc]
    exact iff_of_false List.not_mem_nil Bool.false_ne_true
  · rw [h.arrived, h.granted]
    exact Turns.init _
  · rw [hown]
    exact Option.some_ne_none _
  · rw [hown, hown] at htu
    exact h.injective (Option.some.inj htu)
  · rw [hown]
    exact fun heq => h.notInitial t (Option.some.inj heq)
  · rw [hpc] at ht
    rcases ht with ht | ht <;> cases ht
  · cases ht

theorem run_inv (run : (machine Tid Node initial qnode).Run past s) : Good s :=
  run.invariant (fun _ hstart => ⟨_, _, _, Initial.inv hstart⟩) fun _ _ _ h hstep => h.step hstep

/-- At most one thread has the lock, and it is granted in the order of the exchanges of the
tail. No two threads own the same qnode. One qnode is left, which is clear: the first of
the threads that wait or have the lock has it as its predecessor, and it is the tail when
there is none. A thread does not mark a qnode that another one waits for. -/
structure Safe (s : State Tid Node) : Prop where
  exclusive : ∀ t u, (s.pc t).holds = true → (s.pc u).holds = true → t = u
  fifo : s.granted <+: s.arrived
  owned : ∃ token gone line, Owned s token ∧ s.locked token = 0 ∧ s.arrived = gone ++ line ∧
    (∀ t, t ∈ line ↔ (s.pc t).queued = true) ∧
    (∀ t, line.head? = some t → s.pred t = some token) ∧
    (∀ p w, Follows line p w → s.pred w = some (s.qnode p)) ∧ (line = [] → s.tail = token)
  unmarked : ∀ t u, s.pc t = .acqLocked → s.pc u = .acqAwait → s.pred u ≠ some (s.qnode t)

omit [DecidableEq Tid] [DecidableEq Node] in
/-- A waiting thread looks at the free qnode or at one of the line. -/
theorem Inv.pred_of_await (h : Inv s token gone line) (hat : s.pc t = .acqAwait) :
    s.pred t = some token ∨ ∃ p ∈ line, s.pred t = some (s.qnode p) := by
  have ht : t ∈ line := (h.mem t).mpr (by rw [hat]; rfl)
  cases line with
  | nil => cases ht
  | cons f rest =>
    rcases List.mem_cons.mp ht with rfl | ht
    · exact .inl (h.front t rfl)
    · obtain ⟨p, hp⟩ := Follows.exists_front (x := f) ht
      exact .inr ⟨p, hp.left_mem, h.behind p t hp⟩

theorem clhlock_safe (run : (machine Tid Node initial qnode).Run past s) : Safe s := by
  obtain ⟨token, gone, line, h⟩ := run_inv run
  refine ⟨fun t u ht hu => ?_, h.turns.fifo, ⟨token, gone, line, h.owned, h.clear,
    h.turns.arrivals, h.mem, h.front, h.behind, fun hnil => ?_⟩, fun t u ht hu heq => ?_⟩
  · obtain ⟨rest, rfl⟩ := h.first_of_holds ht
    obtain ⟨rest', heq⟩ := h.first_of_holds hu
    exact (List.cons.inj heq).1
  · rw [h.tail, hnil]
    rfl
  · have howner : own s t = some (s.qnode t) := own_eq (by rw [ht]; decide)
    rcases h.pred_of_await hu with htoken | ⟨p, hp, hpred⟩
    · rw [htoken] at heq
      exact h.owned.ne t (howner.trans heq.symm)
    · rw [hpred] at heq
      have hqueued := (h.mem p).mp hp
      obtain rfl := h.owned.inj t p (by rw [howner, own_eq (queued_ne hqueued), heq])
      rw [ht] at hqueued
      cases hqueued

/-- The initial qnode is 0, and thread `t` starts with qnode `t + 1`. -/
def freeLock : State Nat Nat where
  tail := 0
  locked _ := 0
  pred _ := none
  qnode t := t + 1
  pc _ := .idle
  arrived := []
  granted := []

/-- Thread 1 waits for thread 0 and thread 2 waits for thread 1. Thread 0 releases and
waits again, with the initial qnode, before thread 1 has released. -/
def rotate : List (Act Nat) :=
  List.flatten [
    .acquire 0 :: List.replicate 3 (.step 0),
    .acquire 1 :: List.replicate 2 (.step 1),
    .acquire 2 :: List.replicate 2 (.step 2),
    .release 0 :: List.replicate 2 (.step 0),
    .acquire 0 :: List.replicate 2 (.step 0),
    [.step 1, .release 1, .step 1, .step 2, .step 1]]

theorem clhlock_safe_rotate :
    ∃ past s, (machine Nat Nat 0 fun t => t + 1).Run past s ∧ Safe s ∧ s.pc 2 = .critical ∧
      (s.qnode 0, s.qnode 1, s.qnode 2) = (0, 1, 3) ∧ s.granted = [0, 1, 2] := by
  let M := machine Nat Nat 0 fun t => t + 1
  have hexec : (M.exec freeLock rotate).map
      (fun s => (s.pc 2, (s.qnode 0, s.qnode 1, s.qnode 2), s.granted)) =
        some (.critical, (0, 1, 3), [0, 1, 2]) := by
    decide +kernel
  have hinitial : Initial 0 (fun t => t + 1) freeLock :=
    ⟨fun t u heq => Nat.succ.inj heq, fun t => Nat.succ_ne_zero t, rfl, ⟨rfl, fun _ => rfl⟩,
      rfl, rfl, rfl, rfl, rfl⟩
  obtain ⟨s, hs, hview⟩ := Option.map_eq_some_iff.mp hexec
  obtain ⟨hpc, hrest⟩ := Prod.mk.inj hview
  obtain ⟨hqnode, hgranted⟩ := Prod.mk.inj hrest
  have run := (Machine.Run.start (M := M) hinitial).exec hs
  exact ⟨_, s, run, clhlock_safe run, hpc, hqnode, hgranted⟩

end Libvsync.Spinlock.Clhlock
