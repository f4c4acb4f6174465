import Libvsync.Core.Queue
import Libvsync.Core.Ring
import Libvsync.Queue.Bounded

/-!
`bounded_mpmc` with any number of producers and consumers. A call claims a
position by a compare-and-swap on a head, uses the slot of that position, and
moves the tail once all earlier positions have moved it.

`enqs` and `deqs` are not read by the code: the positions claimed by producers
with their values, and the positions finished by consumers with the values they
return.
-/

namespace Libvsync.Queue.Bounded.Mpmc

open Libvsync.Core Function

/-- Where a call stands: the next atomic operation. -/
inductive Pc where
  | idle
  | enqHead (v : Nat)
  | enqTail (v curr : Nat)
  | enqCas (v curr : Nat)
  | enqWrite (v curr : Nat)
  | enqAwait (v curr : Nat)
  | enqMove (v curr : Nat)
  | enqRet (v : Nat) (r : BoundedRet)
  | deqHead
  | deqTail (curr : Nat)
  | deqCas (curr : Nat)
  | deqRead (curr : Nat)
  | deqAwait (curr v : Nat)
  | deqMove (curr v : Nat)
  | deqRet (r : BoundedRet) (v : Option Nat)
  deriving DecidableEq

structure State (Tid : Type) where
  q : BoundedMpmc
  pc : Tid → Pc
  enqs : List (Nat × Nat)
  deqs : List (Nat × Nat)

inductive Act (Tid : Type) where
  | enq (t : Tid) (v : Nat)
  | deq (t : Tid)
  | step (t : Tid)

def Act.thread {Tid : Type} : Act Tid → Tid
  | .enq t _ | .deq t | .step t => t

variable {Tid : Type} [DecidableEq Tid]

def State.goto (s : State Tid) (t : Tid) (pc : Pc) : State Tid :=
  { s with pc := update s.pc t pc }

/-- The next atomic operation of thread `t`; a wait for a tail passes once the
tail has the value. -/
def nextStep (s : State Tid) (t : Tid) : Option (State Tid) :=
  match s.pc t with
  | .idle => none
  | .enqHead v => some (s.goto t (.enqTail v s.q.phead))
  | .enqTail v curr =>
    if wsub 32 curr s.q.ctail = s.q.size then some (s.goto t (.enqRet v .full))
    else some (s.goto t (.enqCas v curr))
  | .enqCas v curr =>
    if s.q.phead = curr then
      some ({ s with
        q := { s.q with phead := wadd 32 curr 1 }
        enqs := s.enqs ++ [(curr, v)] }.goto t (.enqWrite v curr))
    else some (s.goto t (.enqRet v .again))
  | .enqWrite v curr =>
    some ({ s with
      q := { s.q with buf := update s.q.buf (curr % s.q.size) v } }.goto t
        (.enqAwait v curr))
  | .enqAwait v curr => if s.q.ptail = curr then some (s.goto t (.enqMove v curr)) else none
  | .enqMove v curr =>
    some ({ s with q := { s.q with ptail := wadd 32 curr 1 } }.goto t (.enqRet v .ok))
  | .enqRet _ _ => some (s.goto t .idle)
  | .deqHead => some (s.goto t (.deqTail s.q.chead))
  | .deqTail curr =>
    if curr = s.q.ptail then some (s.goto t (.deqRet .empty none))
    else some (s.goto t (.deqCas curr))
  | .deqCas curr =>
    if s.q.chead = curr then
      some ({ s with q := { s.q with chead := wadd 32 curr 1 } }.goto t (.deqRead curr))
    else some (s.goto t (.deqRet .again none))
  | .deqRead curr => some (s.goto t (.deqAwait curr (s.q.buf (curr % s.q.size))))
  | .deqAwait curr v => if s.q.ctail = curr then some (s.goto t (.deqMove curr v)) else none
  | .deqMove curr v =>
    some ({ s with
      q := { s.q with ctail := wadd 32 curr 1 }
      deqs := s.deqs ++ [(curr, v)] }.goto t (.deqRet .ok (some v)))
  | .deqRet _ _ => some (s.goto t .idle)

def step (s : State Tid) : Act Tid → Option (State Tid)
  | .enq t v =>
    match s.pc t with
    | .idle => some (s.goto t (.enqHead v))
    | _ => none
  | .deq t =>
    match s.pc t with
    | .idle => some (s.goto t .deqHead)
    | _ => none
  | .step t => nextStep s t

def machine (Tid : Type) [DecidableEq Tid] (b : Nat → Nat) (size : Nat) :
    Machine (State Tid) (Act Tid) where
  start s := boundedMpmcInit b size = .ok s.q ∧ (∀ t, s.pc t = .idle) ∧ s.enqs = [] ∧ s.deqs = []
  step := step

/-- The test for a full queue does not meet a `ctail` that has moved exactly
`2 ^ 32 - size` past the `phead` that the call has read. -/
def FullReal (s : State Tid) : Act Tid → Prop
  | .step t =>
    match s.pc t with
    | .enqTail _ curr => curr + 2 ^ 32 ≠ s.q.ctail + s.q.size
    | _ => True
  | _ => True

/-- The position that a producer has claimed and not made visible yet. -/
def Pc.claim : Pc → Option Nat
  | .enqWrite _ curr | .enqAwait _ curr | .enqMove _ curr => some curr
  | _ => none

/-- The position that a consumer has claimed and not released yet. -/
def Pc.grab : Pc → Option Nat
  | .deqRead curr | .deqAwait curr _ | .deqMove curr _ => some curr
  | _ => none

/-- What a thread knows. A head that still has the value read lets a producer in
only when its slot is free, and a consumer only when its slot is filled. -/
def PcOk (q : BoundedMpmc) (enqs : List (Nat × Nat)) : Pc → Prop
  | .idle | .enqHead _ | .enqRet _ _ | .deqHead | .deqRet _ _ => True
  | .enqTail _ curr => curr ≤ q.phead
  | .enqCas _ curr => curr ≤ q.phead ∧ (q.phead = curr → curr < q.ctail + q.size)
  | .enqWrite v curr => q.ptail ≤ curr ∧ curr < q.phead ∧ enqs[curr]? = some (curr, v)
  | .enqAwait _ curr => q.ptail ≤ curr ∧ curr < q.phead
  | .enqMove _ curr => q.ptail = curr ∧ curr < q.phead
  | .deqTail curr => curr ≤ q.chead
  | .deqCas curr => curr ≤ q.chead ∧ (q.chead = curr → curr < q.ptail)
  | .deqRead curr => q.ctail ≤ curr ∧ curr < q.chead
  | .deqAwait curr v => q.ctail ≤ curr ∧ curr < q.chead ∧ enqs[curr]? = some (curr, v)
  | .deqMove curr v => q.ctail = curr ∧ curr < q.chead ∧ enqs[curr]? = some (curr, v)

/-- The four words, while no position has reached `2 ^ 32`. -/
structure Order (q : BoundedMpmc) (n : Nat) : Prop where
  phead : q.phead = n
  consumers : q.ctail ≤ q.chead
  filled : q.chead ≤ q.ptail
  producers : q.ptail ≤ q.phead
  room : q.phead ≤ q.ctail + q.size

structure Inv (n : Nat) (s : State Tid) : Prop where
  size : s.q.size = n
  order : Order s.q s.enqs.length
  positions : ∀ (p : Nat) (entry : Nat × Nat), s.enqs[p]? = some entry → entry.1 = p
  returned : s.deqs = s.enqs.take s.q.ctail
  slots : ∀ (p : Nat) (entry : Nat × Nat), s.q.ctail ≤ p → s.enqs[p]? = some entry →
    (∀ t v, s.pc t ≠ .enqWrite v p) → s.q.buf (p % n) = entry.2
  claims : ∀ t u p, (s.pc t).claim = some p → (s.pc u).claim = some p → t = u
  grabs : ∀ t u p, (s.pc t).grab = some p → (s.pc u).grab = some p → t = u
  pc : ∀ t, PcOk s.q s.enqs (s.pc t)

/-- The words and the claimed positions only grow. -/
structure Grows (q q' : BoundedMpmc) (enqs enqs' : List (Nat × Nat)) : Prop where
  phead : q.phead ≤ q'.phead
  ptail : q.ptail ≤ q'.ptail
  chead : q.chead ≤ q'.chead
  ctail : q.ctail ≤ q'.ctail
  size : q'.size = q.size
  enqs : enqs <+: enqs'

variable {n : Nat} {s s' : State Tid} {t : Tid} {q' : BoundedMpmc} {enqs' deqs' : List (Nat × Nat)}

theorem Grows.entry {q : BoundedMpmc} {enqs : List (Nat × Nat)} (h : Grows q q' enqs enqs')
    {p : Nat} {entry : Nat × Nat} (hentry : enqs[p]? = some entry) : enqs'[p]? = some entry := by
  obtain ⟨more, rfl⟩ := h.enqs
  have hlt : p < enqs.length := (List.getElem?_eq_some_iff.mp hentry).1
  rw [List.getElem?_append_left hlt]
  exact hentry

/-- What a thread knows stays true while the others move, as long as the tails do
not pass the position that it has claimed. -/
theorem PcOk.grows {q : BoundedMpmc} {enqs : List (Nat × Nat)} {pc : Pc} (h : PcOk q enqs pc)
    (hgrows : Grows q q' enqs enqs') (hclaim : ∀ p, pc.claim = some p → q'.ptail ≤ p)
    (hgrab : ∀ p, pc.grab = some p → q'.ctail ≤ p) : PcOk q' enqs' pc := by
  have hphead := hgrows.phead
  have hptail := hgrows.ptail
  have hchead := hgrows.chead
  have hctail := hgrows.ctail
  have hsize := hgrows.size
  cases pc with
  | idle | enqHead _ | enqRet _ _ | deqHead | deqRet _ _ => trivial
  | enqTail v curr => exact Nat.le_trans h hphead
  | enqCas v curr =>
    obtain ⟨hle, hfree⟩ := h
    refine ⟨by omega, fun heq => ?_⟩
    have hlt := hfree (by omega)
    omega
  | enqWrite v curr => exact ⟨hclaim curr rfl, by have := h.2.1; omega, hgrows.entry h.2.2⟩
  | enqAwait v curr => exact ⟨hclaim curr rfl, by have := h.2; omega⟩
  | enqMove v curr =>
    have hle := hclaim curr rfl
    obtain ⟨heq, hlt⟩ := h
    exact ⟨by omega, by omega⟩
  | deqTail curr => exact Nat.le_trans h hchead
  | deqCas curr =>
    obtain ⟨hle, hfilled⟩ := h
    refine ⟨by omega, fun heq => ?_⟩
    have hlt := hfilled (by omega)
    omega
  | deqRead curr => exact ⟨hgrab curr rfl, by have := h.2; omega⟩
  | deqAwait curr v => exact ⟨hgrab curr rfl, by have := h.2.1; omega, hgrows.entry h.2.2⟩
  | deqMove curr v =>
    have hle := hgrab curr rfl
    obtain ⟨heq, hlt, hentry⟩ := h
    exact ⟨by omega, by omega, hgrows.entry hentry⟩

section

omit [DecidableEq Tid]

/-- A claimed position lies between the tail and the head. -/
theorem Inv.claim_range (h : Inv n s) {p : Nat} (hclaim : (s.pc t).claim = some p) :
    s.q.ptail ≤ p ∧ p < s.q.phead := by
  have hpc := h.pc t
  cases hat : s.pc t with
  | enqWrite v curr =>
    rw [hat] at hpc hclaim
    cases hclaim
    exact ⟨hpc.1, hpc.2.1⟩
  | enqAwait v curr =>
    rw [hat] at hpc hclaim
    cases hclaim
    exact hpc
  | enqMove v curr =>
    rw [hat] at hpc hclaim
    cases hclaim
    exact ⟨hpc.1.le, hpc.2⟩
  | idle | enqHead _ | enqTail _ _ | enqCas _ _ | enqRet _ _ | deqHead | deqTail _ | deqCas _
  | deqRead _ | deqAwait _ _ | deqMove _ _ | deqRet _ _ =>
    rw [hat] at hclaim
    cases hclaim

theorem Inv.grab_range (h : Inv n s) {p : Nat} (hgrab : (s.pc t).grab = some p) :
    s.q.ctail ≤ p ∧ p < s.q.chead := by
  have hpc := h.pc t
  cases hat : s.pc t with
  | deqRead curr =>
    rw [hat] at hpc hgrab
    cases hgrab
    exact hpc
  | deqAwait curr v =>
    rw [hat] at hpc hgrab
    cases hgrab
    exact ⟨hpc.1, hpc.2.1⟩
  | deqMove curr v =>
    rw [hat] at hpc hgrab
    cases hgrab
    exact ⟨hpc.1.le, hpc.2.1⟩
  | idle | enqHead _ | enqTail _ _ | enqCas _ _ | enqWrite _ _ | enqAwait _ _ | enqMove _ _
  | enqRet _ _
  | deqHead | deqTail _ | deqCas _ | deqRet _ _ =>
    rw [hat] at hgrab
    cases hgrab

end

theorem update_inj {f : Pc → Option Nat} {pc : Pc}
    (h : ∀ t u p, f (s.pc t) = some p → f (s.pc u) = some p → t = u)
    (hpc : ∀ p, f pc = some p → ∀ u, u ≠ t → f (s.pc u) ≠ some p) (u w : Tid) (p : Nat)
    (hu : f (update s.pc t pc u) = some p)
    (hw : f (update s.pc t pc w) = some p) : u = w := by
  by_cases hut : u = t
  · by_cases hwt : w = t
    · rw [hut, hwt]
    · rw [hut, update_self] at hu
      rw [update_of_ne hwt] at hw
      exact absurd hw (hpc p hu w hwt)
  · rw [update_of_ne hut] at hu
    by_cases hwt : w = t
    · rw [hwt, update_self] at hw
      exact absurd hu (hpc p hw u hut)
    · rw [update_of_ne hwt] at hw
      exact h u w p hu hw

/-- A step of thread `t`, judged by the shared words and by where it goes. -/
theorem Inv.move (h : Inv n s) {pc : Pc} (horder : Order q' enqs'.length)
    (hgrows : Grows s.q q' s.enqs enqs')
    (hpositions : ∀ (p : Nat) (entry : Nat × Nat), enqs'[p]? = some entry → entry.1 = p)
    (hreturned : deqs' = enqs'.take q'.ctail)
    (hslots : ∀ (p : Nat) (entry : Nat × Nat), q'.ctail ≤ p → enqs'[p]? = some entry →
      (∀ u v, u ≠ t → s.pc u ≠ .enqWrite v p) → (∀ v, pc ≠ .enqWrite v p) →
      q'.buf (p % n) = entry.2)
    (hclaim : ∀ p, pc.claim = some p → ∀ u, u ≠ t → (s.pc u).claim ≠ some p)
    (hgrab : ∀ p, pc.grab = some p → ∀ u, u ≠ t → (s.pc u).grab ≠ some p)
    (hptail : ∀ u p, u ≠ t → (s.pc u).claim = some p → q'.ptail ≤ p)
    (hctail : ∀ u p, u ≠ t → (s.pc u).grab = some p → q'.ctail ≤ p)
    (hpc : PcOk q' enqs' pc) : Inv n ⟨q', update s.pc t pc, enqs', deqs'⟩ := by
  refine ⟨hgrows.size.trans h.size, horder, hpositions, hreturned, ?_,
    update_inj h.claims hclaim, update_inj h.grabs hgrab, ?_⟩
  · intro p entry hle hentry hunwritten
    refine hslots p entry hle hentry ?_ ?_
    · intro u v hu heq
      exact hunwritten u v ((update_of_ne hu ..).trans heq)
    · intro v heq
      exact hunwritten t v ((update_self ..).trans heq)
  · intro u
    by_cases hu : u = t
    · subst hu
      simp only [update_self]
      exact hpc
    · simp only [update_of_ne hu]
      exact (h.pc u).grows hgrows (hptail u · hu) (hctail u · hu)

theorem Grows.refl (q : BoundedMpmc) (enqs : List (Nat × Nat)) : Grows q q enqs enqs :=
  ⟨le_rfl, le_rfl, le_rfl, le_rfl, rfl, List.prefix_refl _⟩

theorem wadd_one {curr : Nat} (h : curr + 1 < 2 ^ 32) : wadd 32 curr 1 = curr + 1 :=
  Nat.mod_eq_of_lt h

theorem Inv.quiet (h : Inv n s) {pc : Pc} (hwrite : ∀ v p, s.pc t ≠ .enqWrite v p)
    (hclaim : ∀ p, pc.claim = some p → (s.pc t).claim = some p)
    (hgrab : ∀ p, pc.grab = some p → (s.pc t).grab = some p)
    (hpc : PcOk s.q s.enqs pc) : Inv n (s.goto t pc) := by
  refine h.move h.order (Grows.refl _ _) h.positions h.returned ?_ ?_ ?_ ?_ ?_ hpc
  · intro p entry hle hentry hothers _
    refine h.slots p entry hle hentry fun u v => ?_
    by_cases hu : u = t
    · rw [hu]
      exact hwrite v p
    · exact hothers u v hu
  · intro p hp u hu hsame
    exact hu (h.claims u t p hsame (hclaim p hp))
  · intro p hp u hu hsame
    exact hu (h.grabs u t p hsame (hgrab p hp))
  · intro u p _ hp
    exact (h.claim_range hp).1
  · intro u p _ hp
    exact (h.grab_range hp).1

/-- A thread goes on from where no position is claimed to where none is. -/
theorem Inv.wander (h : Inv n s) {before pc : Pc} (hat : s.pc t = before)
    (hpc : PcOk s.q s.enqs pc) (hwrite : ∀ v p, before ≠ .enqWrite v p := by rintro _ _ ⟨⟩)
    (hclaim : pc.claim = none := by rfl) (hgrab : pc.grab = none := by rfl) :
    Inv n (s.goto t pc) := by
  refine h.quiet (hat ▸ hwrite) (fun p hp => ?_) (fun p hp => ?_) hpc
  · rw [hclaim] at hp
    cases hp
  · rw [hgrab] at hp
    cases hp

theorem Inv.enqCas (h : Inv n s) {v curr : Nat} (hat : s.pc t = .enqCas v curr)
    (hhead : s.q.phead = curr) (hfit : s.enqs.length + 1 < 2 ^ 32) :
    Inv n ({ s with
      q := { s.q with phead := wadd 32 curr 1 }
      enqs := s.enqs ++ [(curr, v)] }.goto t (.enqWrite v curr)) := by
  have hpc := h.pc t
  rw [hat] at hpc
  have hroom := hpc.2 hhead
  have hlast := h.order.phead
  rw [wadd_one (by omega)]
  have hgrows : Grows s.q { s.q with phead := curr + 1 } s.enqs (s.enqs ++ [(curr, v)]) :=
    ⟨by change s.q.phead ≤ curr + 1; omega, le_rfl, le_rfl, le_rfl, rfl, List.prefix_append _ _⟩
  have hnew : (s.enqs ++ [(curr, v)])[curr]? = some (curr, v) := by
    have hlen : curr = s.enqs.length := by omega
    rw [hlen, List.getElem?_concat_length]
  have hcases (p : Nat) (entry : Nat × Nat) (hentry : (s.enqs ++ [(curr, v)])[p]? = some entry) :
      s.enqs[p]? = some entry ∨ p = curr ∧ entry = (curr, v) := by
    by_cases hlt : p < s.enqs.length
    · rw [List.getElem?_append_left hlt] at hentry
      exact .inl hentry
    · have hle : p < (s.enqs ++ [(curr, v)]).length := (List.getElem?_eq_some_iff.mp hentry).1
      rw [List.length_append, List.length_singleton] at hle
      have hp : p = curr := by omega
      rw [hp, hnew] at hentry
      exact .inr ⟨hp, (Option.some.inj hentry).symm⟩
  refine h.move ⟨?_, h.order.consumers, h.order.filled, ?_, ?_⟩ hgrows ?_ ?_ ?_ ?_ nofun ?_ ?_
    ⟨?_, Nat.lt_succ_self curr, hnew⟩
  · rw [List.length_append, List.length_singleton]
    change curr + 1 = _
    omega
  · have hle := h.order.producers
    change s.q.ptail ≤ curr + 1
    omega
  · change curr + 1 ≤ s.q.ctail + s.q.size
    omega
  · intro p entry hentry
    rcases hcases p entry hentry with hold | ⟨hp, rfl⟩
    · exact h.positions p entry hold
    · exact hp.symm
  · have hle : s.q.ctail ≤ s.enqs.length := by
      have := h.order.consumers
      have := h.order.filled
      have := h.order.producers
      omega
    change s.deqs = (s.enqs ++ [(curr, v)]).take s.q.ctail
    rw [List.take_append_of_le_length hle]
    exact h.returned
  · intro p entry hle hentry hothers hself
    rcases hcases p entry hentry with hold | ⟨hp, -⟩
    · refine h.slots p entry hle hold fun u w => ?_
      by_cases hu : u = t
      · rw [hu, hat]
        exact nofun
      · exact hothers u w hu
    · exact absurd (hp ▸ rfl) (hself v)
  · intro p hp u _ hother
    cases hp
    have hlt := (h.claim_range hother).2
    omega
  · intro u p _ hp
    exact (h.claim_range hp).1
  · intro u p _ hp
    exact (h.grab_range hp).1
  · have hle := h.order.producers
    change s.q.ptail ≤ curr
    omega

/-- A producer fills the slot of its position. The positions in use are less than
a lap apart, so no other one has that slot. -/
theorem Inv.enqWrite (h : Inv n s) {v curr : Nat} (hat : s.pc t = .enqWrite v curr) :
    Inv n ({ s with
      q := { s.q with buf := update s.q.buf (curr % s.q.size) v } }.goto t
        (.enqAwait v curr)) := by
  have hpc := h.pc t
  rw [hat] at hpc
  obtain ⟨hptail, hphead, hmine⟩ := hpc
  have hgrows : Grows s.q { s.q with buf := update s.q.buf (curr % s.q.size) v } s.enqs
      s.enqs := ⟨le_rfl, le_rfl, le_rfl, le_rfl, rfl, List.prefix_refl _⟩
  refine h.move ⟨h.order.phead, h.order.consumers, h.order.filled, h.order.producers,
    h.order.room⟩ hgrows h.positions h.returned ?_ ?_ nofun ?_ ?_ ⟨hptail, hphead⟩
  · intro p entry hle hentry hothers _
    change update s.q.buf (curr % s.q.size) v (p % n) = entry.2
    change s.q.ctail ≤ p at hle
    rw [h.size]
    by_cases hp : p = curr
    · rw [hp, hmine] at hentry
      cases hentry
      rw [hp, update_self]
    · have hlt : p < s.enqs.length := (List.getElem?_eq_some_iff.mp hentry).1
      have hfar : p % n ≠ curr % n := by
        intro hslot
        have hroom := h.order.room
        have hlast := h.order.phead
        have hconsumers := h.order.consumers
        have hfilled := h.order.filled
        have hsize := h.size
        rcases Nat.lt_or_gt_of_ne hp with hbelow | habove
        · have hlap := lap_apart hbelow hslot
          omega
        · have hlap := lap_apart habove hslot.symm
          omega
      rw [update_of_ne hfar]
      refine h.slots p entry hle hentry fun u w => ?_
      by_cases hu : u = t
      · rw [hu, hat]
        intro heq
        cases heq
        exact hp rfl
      · exact hothers u w hu
  · intro p hp u hu hother
    exact hu (h.claims u t p hother (by rw [hat]; exact hp))
  · intro u p _ hp
    exact (h.claim_range hp).1
  · intro u p _ hp
    exact (h.grab_range hp).1

theorem Inv.enqMove (h : Inv n s) {v curr : Nat} (hat : s.pc t = .enqMove v curr)
    (hfit : s.enqs.length < 2 ^ 32) :
    Inv n ({ s with q := { s.q with ptail := wadd 32 curr 1 } }.goto t (.enqRet v .ok)) := by
  have hpc := h.pc t
  rw [hat] at hpc
  obtain ⟨hptail, hphead⟩ := hpc
  have hlast := h.order.phead
  rw [wadd_one (by omega)]
  have hgrows : Grows s.q { s.q with ptail := curr + 1 } s.enqs s.enqs :=
    ⟨le_rfl, by change s.q.ptail ≤ curr + 1; omega, le_rfl, le_rfl, rfl, List.prefix_refl _⟩
  refine h.move ⟨hlast, h.order.consumers, ?_, hphead, h.order.room⟩ hgrows h.positions
    h.returned ?_ nofun nofun ?_ ?_ trivial
  · have hfilled := h.order.filled
    change s.q.chead ≤ curr + 1
    omega
  · intro p entry hle hentry hothers _
    refine h.slots p entry hle hentry fun u w => ?_
    by_cases hu : u = t
    · rw [hu, hat]
      exact nofun
    · exact hothers u w hu
  · intro u p hu hp
    have hle := (h.claim_range hp).1
    have hne : p ≠ curr := by
      intro heq
      exact hu (h.claims u t p hp (by rw [hat, heq]; rfl))
    change curr + 1 ≤ p
    omega
  · intro u p _ hp
    exact (h.grab_range hp).1

theorem Inv.deqCas (h : Inv n s) {curr : Nat} (hat : s.pc t = .deqCas curr)
    (hhead : s.q.chead = curr) (hfit : s.enqs.length < 2 ^ 32) :
    Inv n ({ s with q := { s.q with chead := wadd 32 curr 1 } }.goto t (.deqRead curr)) := by
  have hpc := h.pc t
  rw [hat] at hpc
  have hfilled := hpc.2 hhead
  have hlast := h.order.phead
  have hproducers := h.order.producers
  have hconsumers := h.order.consumers
  rw [wadd_one (by omega)]
  have hgrows : Grows s.q { s.q with chead := curr + 1 } s.enqs s.enqs :=
    ⟨le_rfl, le_rfl, by change s.q.chead ≤ curr + 1; omega, le_rfl, rfl, List.prefix_refl _⟩
  refine h.move ⟨hlast, ?_, hfilled, hproducers, h.order.room⟩ hgrows h.positions h.returned ?_
    nofun ?_ ?_ ?_ ⟨hhead ▸ hconsumers, Nat.lt_succ_self curr⟩
  · change s.q.ctail ≤ curr + 1
    omega
  · intro p entry hle hentry hothers _
    refine h.slots p entry hle hentry fun u w => ?_
    by_cases hu : u = t
    · rw [hu, hat]
      exact nofun
    · exact hothers u w hu
  · intro p hp u _ hother
    cases hp
    have hlt := (h.grab_range hother).2
    omega
  · intro u p _ hp
    exact (h.claim_range hp).1
  · intro u p _ hp
    exact (h.grab_range hp).1

theorem Inv.deqMove (h : Inv n s) {curr v : Nat} (hat : s.pc t = .deqMove curr v)
    (hfit : s.enqs.length < 2 ^ 32) :
    Inv n ({ s with
      q := { s.q with ctail := wadd 32 curr 1 }
      deqs := s.deqs ++ [(curr, v)] }.goto t (.deqRet .ok (some v))) := by
  have hpc := h.pc t
  rw [hat] at hpc
  obtain ⟨hctail, hchead, hentry⟩ := hpc
  have hlast := h.order.phead
  have hproducers := h.order.producers
  have hfilled := h.order.filled
  have hroom := h.order.room
  rw [wadd_one (by omega)]
  have hgrows : Grows s.q { s.q with ctail := curr + 1 } s.enqs s.enqs :=
    ⟨le_rfl, le_rfl, le_rfl, by change s.q.ctail ≤ curr + 1; omega, rfl, List.prefix_refl _⟩
  refine h.move ⟨hlast, hchead, hfilled, hproducers, ?_⟩ hgrows h.positions ?_ ?_ nofun nofun
    ?_ ?_ trivial
  · change s.q.phead ≤ curr + 1 + s.q.size
    omega
  · change s.deqs ++ [(curr, v)] = s.enqs.take (curr + 1)
    rw [List.take_add_one, hentry, h.returned, hctail]
    rfl
  · intro p entry hle hentry hothers _
    change curr + 1 ≤ p at hle
    refine h.slots p entry (by omega) hentry fun u w => ?_
    by_cases hu : u = t
    · rw [hu, hat]
      exact nofun
    · exact hothers u w hu
  · intro u p _ hp
    exact (h.claim_range hp).1
  · intro u p hu hp
    have hle := (h.grab_range hp).1
    have hne : p ≠ curr := by
      intro heq
      exact hu (h.grabs u t p hp (by rw [hat, heq]; rfl))
    change curr + 1 ≤ p
    omega

omit [DecidableEq Tid] in
/-- The slot of a position that a consumer may claim holds its value. -/
theorem Inv.read_slot (h : Inv n s) {p : Nat} (hle : s.q.ctail ≤ p) (hlt : p < s.q.chead) :
    s.enqs[p]? = some (p, s.q.buf (p % n)) := by
  have hfilled := h.order.filled
  have hproducers := h.order.producers
  have hlast := h.order.phead
  obtain ⟨entry, hentry⟩ : ∃ entry, s.enqs[p]? = some entry :=
    ⟨_, List.getElem?_eq_getElem (by omega)⟩
  have hvalue := h.slots p entry hle hentry fun u v hat => by
    have hrange := (h.claim_range (t := u) (p := p) (by rw [hat]; rfl)).1
    omega
  rw [hentry, hvalue, ← h.positions p entry hentry]

theorem Inv.nextStep (h : Inv n s) (hstep : nextStep s t = some s')
    (hfit : s'.enqs.length < 2 ^ 32) : Inv n s' := by
  have hpc := h.pc t
  have horder := h.order
  rw [Mpmc.nextStep] at hstep
  cases hat : s.pc t with
  | idle =>
    rw [hat] at hstep
    cases hstep
  | enqHead v | deqHead =>
    rw [hat] at hstep
    cases hstep
    exact h.wander hat le_rfl
  | enqTail v curr =>
    simp only [hat] at hstep hpc
    split at hstep
    · cases hstep
      exact h.wander hat trivial
    · rename_i hnotfull
      cases hstep
      refine h.wander hat ⟨hpc, fun heq => ?_⟩
      -- the head did not move, so the difference is the one of the two counters
      have hle : s.q.ctail ≤ curr := by
        have := horder.consumers
        have := horder.filled
        have := horder.producers
        omega
      have hroom := horder.room
      have hlen := horder.phead
      change s.enqs.length < 2 ^ 32 at hfit
      rw [wsub] at hnotfull
      omega
  | enqCas v curr =>
    simp only [hat] at hstep
    split at hstep
    · rename_i hhead
      cases hstep
      refine h.enqCas hat hhead ?_
      simpa [State.goto] using hfit
    · cases hstep
      exact h.wander hat trivial
  | enqWrite v curr =>
    rw [hat] at hstep
    cases hstep
    exact h.enqWrite hat
  | enqAwait v curr =>
    simp only [hat] at hstep
    rw [hat] at hpc
    split at hstep
    · rename_i htail
      cases hstep
      refine h.quiet (by rw [hat]; rintro _ _ ⟨⟩) ?_ (by intros; contradiction) ⟨htail, hpc.2⟩
      rw [hat]
      exact fun p hp => hp
    · cases hstep
  | enqMove v curr =>
    rw [hat] at hstep
    cases hstep
    exact h.enqMove hat hfit
  | enqRet v r | deqRet r v =>
    rw [hat] at hstep
    cases hstep
    exact h.wander hat trivial
  | deqTail curr =>
    simp only [hat] at hstep hpc
    split at hstep
    · cases hstep
      exact h.wander hat trivial
    · rename_i hnotempty
      cases hstep
      refine h.wander hat ⟨hpc, fun heq => ?_⟩
      have hfilled := horder.filled
      omega
  | deqCas curr =>
    simp only [hat] at hstep
    split at hstep
    · rename_i hhead
      cases hstep
      exact h.deqCas hat hhead hfit
    · cases hstep
      exact h.wander hat trivial
  | deqRead curr =>
    rw [hat] at hstep hpc
    cases hstep
    refine h.quiet (by rw [hat]; rintro _ _ ⟨⟩) (by intros; contradiction) ?_ ⟨hpc.1, hpc.2, ?_⟩
    · rw [hat]
      exact fun p hp => hp
    · rw [h.size]
      exact h.read_slot hpc.1 hpc.2
  | deqAwait curr v =>
    simp only [hat] at hstep
    rw [hat] at hpc
    split at hstep
    · rename_i htail
      cases hstep
      refine h.quiet (by rw [hat]; rintro _ _ ⟨⟩) (by intros; contradiction) ?_ ⟨htail, hpc.2⟩
      rw [hat]
      exact fun p hp => hp
    · cases hstep
  | deqMove curr v =>
    rw [hat] at hstep
    cases hstep
    exact h.deqMove hat hfit

theorem Inv.step (h : Inv n s) {a : Act Tid} (hstep : step s a = some s')
    (hfit : s'.enqs.length < 2 ^ 32) : Inv n s' := by
  cases a with
  | enq t v | deq t =>
    simp only [Mpmc.step] at hstep
    split at hstep
    · rename_i hidle
      cases hstep
      exact h.wander hidle trivial
    · cases hstep
  | step t => exact h.nextStep hstep hfit

def Pc.enq : Pc → Bool
  | .enqHead _ | .enqTail _ _ | .enqCas _ _ | .enqWrite _ _ | .enqAwait _ _ | .enqMove _ _
  | .enqRet _ _ => true
  | _ => false

def Pc.deq : Pc → Bool
  | .deqHead | .deqTail _ | .deqCas _ | .deqRead _ | .deqAwait _ _ | .deqMove _ _
  | .deqRet _ _ => true
  | _ => false

theorem goto_self (s : State Tid) (t : Tid) (pc : Pc) : (s.goto t pc).pc t = pc :=
  update_self ..

theorem nextStep_answer (hstep : nextStep s t = some s') :
    (∀ v, s'.pc t = .enqRet v .full → ∃ curr, s.pc t = .enqTail v curr ∧
      wsub 32 curr s.q.ctail = s.q.size ∧ s'.q = s.q) ∧
    ∀ r, s'.pc t = .deqRet .empty r → s.pc t = .deqTail s.q.ptail ∧ s'.q = s.q := by
  rw [nextStep] at hstep
  cases hat : s.pc t with
  | idle =>
    rw [hat] at hstep
    cases hstep
  | enqHead _ | enqWrite _ _ | enqMove _ _ | enqRet _ _ | deqHead | deqRead _ | deqMove _ _
  | deqRet _ _ =>
    rw [hat] at hstep
    cases hstep
    rw [goto_self]
    exact ⟨nofun, nofun⟩
  | enqTail v curr =>
    simp only [hat] at hstep
    split at hstep
    · rename_i hfull
      cases hstep
      rw [goto_self]
      refine ⟨fun w hw => ?_, nofun⟩
      cases hw
      exact ⟨curr, rfl, hfull, rfl⟩
    · cases hstep
      rw [goto_self]
      exact ⟨nofun, nofun⟩
  | deqTail curr =>
    simp only [hat] at hstep
    split at hstep
    · rename_i hempty
      cases hstep
      rw [goto_self]
      exact ⟨nofun, fun r _ => ⟨by rw [hempty], rfl⟩⟩
    · cases hstep
      rw [goto_self]
      exact ⟨nofun, nofun⟩
  | enqCas _ _ | deqCas _ =>
    simp only [hat] at hstep
    split at hstep <;> cases hstep <;> rw [goto_self] <;> exact ⟨nofun, nofun⟩
  | enqAwait _ _ | deqAwait _ _ =>
    simp only [hat] at hstep
    split at hstep
    · cases hstep
      rw [goto_self]
      exact ⟨nofun, nofun⟩
    · cases hstep

theorem step_answer {a : Act Tid} (hstep : step s a = some s') :
    (∀ v, s'.pc a.thread = .enqRet v .full → a = .step a.thread ∧ ∃ curr,
      s.pc a.thread = .enqTail v curr ∧ wsub 32 curr s.q.ctail = s.q.size ∧ s'.q = s.q) ∧
    ∀ r, s'.pc a.thread = .deqRet .empty r →
      s.pc a.thread = .deqTail s.q.ptail ∧ s'.q = s.q := by
  cases a with
  | enq t v | deq t =>
    simp only [step] at hstep
    split at hstep
    · cases hstep
      rw [Act.thread, goto_self]
      exact ⟨nofun, nofun⟩
    · cases hstep
  | step t =>
    obtain ⟨hfull, hempty⟩ := nextStep_answer hstep
    exact ⟨fun v hret => ⟨rfl, hfull v hret⟩, hempty⟩

/-- What a step does to the threads and to the claimed positions. -/
theorem step_frame {a : Act Tid} (hstep : step s a = some s') :
    (∀ u, u ≠ a.thread → s'.pc u = s.pc u) ∧ s.enqs <+: s'.enqs := by
  have hother {s₁ : State Tid} {t : Tid} {pc : Pc} (hpc : s₁.pc = s.pc) (u : Tid) (hu : u ≠ t) :
      (s₁.goto t pc).pc u = s.pc u := by
    rw [State.goto]
    simp only [update_of_ne hu, hpc]
  cases a with
  | enq t v | deq t =>
    simp only [step] at hstep
    split at hstep
    · cases hstep
      exact ⟨hother rfl, List.prefix_refl _⟩
    · cases hstep
  | step t =>
    simp only [step, nextStep] at hstep
    cases hat : s.pc t with
    | idle =>
      rw [hat] at hstep
      cases hstep
    | enqHead _ | enqWrite _ _ | enqMove _ _ | enqRet _ _ | deqHead | deqRead _ | deqMove _ _
    | deqRet _ _ =>
      rw [hat] at hstep
      cases hstep
      exact ⟨hother rfl, List.prefix_refl _⟩
    | enqTail _ _ | deqTail _ | deqCas _ =>
      simp only [hat] at hstep
      split at hstep <;> cases hstep <;> exact ⟨hother rfl, List.prefix_refl _⟩
    | enqCas v curr =>
      simp only [hat] at hstep
      split at hstep
      · cases hstep
        exact ⟨hother rfl, List.prefix_append _ _⟩
      · cases hstep
        exact ⟨hother rfl, List.prefix_refl _⟩
    | enqAwait _ _ | deqAwait _ _ =>
      simp only [hat] at hstep
      split at hstep
      · cases hstep
        exact ⟨hother rfl, List.prefix_refl _⟩
      · cases hstep

/-- The queue was full, or empty, at a moment of the call that says so. -/
structure History (past : List (State Tid × Act Tid)) (s : State Tid) : Prop where
  full : ∀ t v, s.pc t = .enqRet v .full →
    During (fun s => (s.pc t).enq = true) (fun s => wsub 32 s.q.phead s.q.ctail = s.q.size)
      (moments past s)
  empty : ∀ t r, s.pc t = .deqRet .empty r →
    During (fun s => (s.pc t).deq = true) (fun s => s.q.chead = s.q.ptail) (moments past s)

omit [DecidableEq Tid] in
theorem Inv.full (h : Inv n s) {v curr : Nat} (hat : s.pc t = .enqTail v curr)
    (hreal : FullReal s (.step t)) (hfull : wsub 32 curr s.q.ctail = s.q.size)
    (hfit : s.enqs.length < 2 ^ 32) : wsub 32 s.q.phead s.q.ctail = s.q.size := by
  have hpc := h.pc t
  rw [hat] at hpc
  simp only [FullReal, hat] at hreal
  change curr ≤ s.q.phead at hpc
  have hroom := h.order.room
  have hlast := h.order.phead
  have hle : s.q.ctail ≤ s.q.phead := by
    have := h.order.consumers
    have := h.order.filled
    have := h.order.producers
    omega
  have hcurr : s.q.phead = curr := by
    rw [wsub] at hfull
    omega
  rw [hcurr]
  exact hfull

theorem History.step {past : List (State Tid × Act Tid)} (hist : History past s) (h : Inv n s)
    {a : Act Tid} (hreal : FullReal s a) (hstep : step s a = some s')
    (hfit : s.enqs.length < 2 ^ 32) : History ((s, a) :: past) s' := by
  have hothers := (step_frame hstep).1
  constructor
  · intro t v hret
    have hbusy : (s'.pc t).enq = true := by rw [hret]; rfl
    by_cases ht : t = a.thread
    · subst ht
      obtain ⟨ha, curr, hat, hfull, hq⟩ := (step_answer hstep).1 v hret
      refine .now hbusy ?_
      rw [hq]
      exact h.full hat (ha ▸ hreal) hfull hfit
    · refine .before hbusy (hist.full t v ?_)
      rw [← hothers t ht]
      exact hret
  · intro t r hret
    have hbusy : (s'.pc t).deq = true := by rw [hret]; rfl
    by_cases ht : t = a.thread
    · subst ht
      obtain ⟨hat, hq⟩ := (step_answer hstep).2 r hret
      have hpc := h.pc a.thread
      rw [hat] at hpc
      change s.q.ptail ≤ s.q.chead at hpc
      have hfilled := h.order.filled
      refine .now hbusy ?_
      rw [hq]
      omega
    · refine .before hbusy (hist.empty t r ?_)
      rw [← hothers t ht]
      exact hret

variable {b : Nat → Nat} {past : List (State Tid × Act Tid)}

theorem start_inv (hstart : (machine Tid b n).start s) : Inv n s ∧ History [] s := by
  obtain ⟨hinit, hidle, henqs, hdeqs⟩ := hstart
  have hsize : n ≠ 0 := by
    rintro rfl
    cases hinit
  have hq : s.q = ⟨0, 0, 0, 0, b, n⟩ := by
    rw [boundedMpmcInit, check_true hsize] at hinit
    exact (Except.ok.inj hinit).symm
  refine ⟨⟨?_, ?_, ?_, ?_, ?_, ?_, ?_, ?_⟩, ?_, ?_⟩
  · rw [hq]
  · rw [hq, henqs]
    exact ⟨rfl, le_rfl, le_rfl, le_rfl, Nat.zero_le _⟩
  · rw [henqs]
    (intros; contradiction)
  · rw [henqs, hdeqs, List.take_nil]
  · rw [henqs]
    (intros; contradiction)
  · intro t u p hp
    rw [hidle] at hp
    cases hp
  · intro t u p hp
    rw [hidle] at hp
    cases hp
  · intro t
    rw [hidle]
    trivial
  · intro t v hret
    rw [hidle] at hret
    cases hret
  · intro t r hret
    rw [hidle] at hret
    cases hret

theorem run_inv (run : (machine Tid b n).Run past s) (hreal : AllSteps FullReal past) :
    s.enqs.length < 2 ^ 32 → Inv n s ∧ History past s := by
  refine run.history_invariant
    (I := fun past s => s.enqs.length < 2 ^ 32 → Inv n s ∧ History past s) ?_ ?_ hreal
  · intro s hstart _
    exact start_inv hstart
  · intro past s a s' _ ih hreal hstep hfit
    have hfit' : s.enqs.length < 2 ^ 32 := (step_frame hstep).2.length_le.trans_lt hfit
    obtain ⟨h, hist⟩ := ih hfit'
    exact ⟨h.step hstep hfit, hist.step h hreal hstep hfit'⟩

/-- The operations of a queue. What a call has seen that returns FULL or EMPTY is said apart. -/
def mpmcSpec (queue : List Nat) :
    QueueCall Nat → BoundedRet × Option Nat → List Nat → Prop
  | .enq v, (.ok, none), queue' => queue' = queue ++ [v]
  | .deq, (.ok, some v), queue' => queue = v :: queue'
  | .enq _, (.full, none), queue' | .enq _, (.again, none), queue'
  | .deq, (.empty, none), queue' | .deq, (.again, none), queue' => queue' = queue
  | _, _, _ => False

/-- What a call will return, once that is fixed. -/
def Pc.settled : Pc → Option (QueueCall Nat × (BoundedRet × Option Nat))
  | .enqWrite v _ | .enqAwait v _ | .enqMove v _ => some (.enq v, (.ok, none))
  | .enqRet v r => some (.enq v, (r, none))
  | .deqRet r v => some (.deq, (r, v))
  | _ => none

def view : View (State Tid) Tid (List Nat) (QueueCall Nat) (BoundedRet × Option Nat) :=
  .ofPlaces (fun s => waiting s.enqs s.deqs.length) State.pc .idle Pc.settled rfl

omit [DecidableEq Tid] in
theorem Inv.deqs_length (h : Inv n s) :
    s.deqs.length = s.q.ctail ∧ s.q.ctail ≤ s.enqs.length := by
  have horder := h.order
  have hle : s.q.ctail ≤ s.enqs.length := by
    have := horder.consumers
    have := horder.filled
    have := horder.producers
    have := horder.phead
    omega
  refine ⟨?_, hle⟩
  rw [h.returned, List.length_take]
  exact Nat.min_eq_left hle

theorem Inv.nextStep_moves (h : Inv n s) (hstep : Mpmc.nextStep s t = some s') :
    Moves view mpmcSpec t past s s' := by
  obtain ⟨hlength, hle⟩ := h.deqs_length
  have hpc := h.pc t
  rw [Mpmc.nextStep] at hstep
  cases hat : s.pc t with
  | idle =>
    rw [hat] at hstep
    cases hstep
  | enqHead _ | enqWrite _ _ | enqMove _ _ | deqHead | deqRead _ =>
    rw [hat] at hstep
    cases hstep
    exact .walkTo rfl rfl (.inl (by rw [hat]; rfl))
  | enqRet _ _ | deqRet _ _ =>
    rw [hat] at hstep
    cases hstep
    exact .walkTo rfl rfl (.inr rfl)
  | enqTail v curr =>
    simp only [hat] at hstep
    split at hstep <;> cases hstep
    · exact .settleTo (.enq v) (.full, none) rfl (by rw [hat]; rfl) rfl rfl
    · exact .walkTo rfl rfl (.inl (by rw [hat]; rfl))
  | enqCas v curr =>
    simp only [hat] at hstep
    split at hstep <;> cases hstep
    · exact .settleTo (.enq v) (.ok, none) rfl (by rw [hat]; rfl) rfl
        (waiting_enq (hlength.trans_le hle))
    · exact .settleTo (.enq v) (.again, none) rfl (by rw [hat]; rfl) rfl rfl
  | deqTail curr =>
    simp only [hat] at hstep
    split at hstep <;> cases hstep
    · exact .settleTo .deq (.empty, none) rfl (by rw [hat]; rfl) rfl rfl
    · exact .walkTo rfl rfl (.inl (by rw [hat]; rfl))
  | deqCas curr =>
    simp only [hat] at hstep
    split at hstep <;> cases hstep
    · exact .walkTo rfl rfl (.inl (by rw [hat]; rfl))
    · exact .settleTo .deq (.again, none) rfl (by rw [hat]; rfl) rfl rfl
  | enqAwait _ _ | deqAwait _ _ =>
    simp only [hat] at hstep
    split at hstep <;> cases hstep
    exact .walkTo rfl rfl (.inl (by rw [hat]; rfl))
  | deqMove curr v =>
    rw [hat] at hstep hpc
    cases hstep
    obtain ⟨hctail, -, hentry⟩ := hpc
    refine .settleTo .deq (.ok, some v) rfl (by rw [hat]; rfl) rfl ?_
    rw [← hctail, ← hlength] at hentry
    exact queueSpec_taken (curr, v) hentry

theorem Inv.step_moves (h : Inv n s) {a : Act Tid} (hstep : Mpmc.step s a = some s') :
    Moves view mpmcSpec a.thread past s s' := by
  cases a with
  | enq t _ | deq t =>
    simp only [Mpmc.step] at hstep
    split at hstep
    · rename_i hidle
      cases hstep
      exact .walkTo rfl rfl (.inl (congrArg Pc.settled hidle).symm)
    · cases hstep
  | step t => exact h.nextStep_moves hstep

theorem nextStep_answers (hstep : nextStep s t = some s') (hidle : s'.pc t = .idle) :
    ∃ x, (s.pc t).settled = some x := by
  rw [nextStep] at hstep
  cases hat : s.pc t with
  | enqRet _ _ | deqRet _ _ => exact ⟨_, rfl⟩
  | _ =>
    exfalso
    simp only [hat] at hstep
    repeat' split at hstep
    all_goals cases hstep
    all_goals
      rw [goto_self] at hidle
      cases hidle

theorem run_answers : Answers (machine Tid b n) Act.thread view s := by
  refine .ofPlaces fun a s' hstep hbusy hidle => ?_
  cases a with
  | enq t _ | deq t =>
    change s.pc t ≠ .idle at hbusy
    simp only [machine, step] at hstep
    cases hstep
  | step t => exact nextStep_answers hstep hidle

/-- The claims of the past were fewer. -/
theorem run_fits (run : (machine Tid b n).Run past s) :
    ∀ p ∈ past, p.1.enqs.length ≤ s.enqs.length := by
  induction run with
  | start _ => exact fun p hp => absurd hp List.not_mem_nil
  | step _ hstep ih =>
    have hle := (step_frame hstep).2.length_le
    intro p hp
    rcases List.mem_cons.mp hp with rfl | hp
    · exact hle
    · exact (ih p hp).trans hle

theorem run_linear (run : (machine Tid b n).Run past s) (hfit : s.enqs.length < 2 ^ 32)
    (hreal : AllSteps FullReal past) :
    Linear (machine Tid b n) Act.thread view mpmcSpec past s := by
  have hall : AllSteps (fun s _ => decide (s.enqs.length < 2 ^ 32) = true) past :=
    fun p hp => decide_eq_true ((run_fits run p hp).trans_lt hfit)
  have hlinear : Linear ((machine Tid b n).guarded fun s _ => decide (s.enqs.length < 2 ^ 32))
      Act.thread view mpmcSpec past s := by
    apply (run.guard hall).linear _ _ hreal
    · intro s hs t
      exact congrArg Pc.settled (hs.2.1 t)
    · intro past s a s' run hreal hstep
      obtain ⟨hok, hstep⟩ := Option.ite_none_right_eq_some.mp hstep
      exact (run_inv run.of_guarded.1 hreal (of_decide_eq_true hok)).1.step_moves hstep
  exact hlinear.of_guarded fun _ => decide_eq_true hfit

/-- The calls that return OK are atomic operations of a queue. The finished dequeues return the
values of the first claimed positions, in order, and one was finished for each position that was
released. A producer writes to a slot that every earlier position of the slot has released, and a
consumer reads the value of its position. -/
structure Safe (b : Nat → Nat) (n : Nat) (past : List (State Tid × Act Tid)) (s : State Tid) :
    Prop where
  linear : Linear (machine Tid b n) Act.thread view mpmcSpec past s
  answers : Answers (machine Tid b n) Act.thread view s
  released : s.deqs.length = s.q.ctail
  positions : s.enqs.map Prod.fst = List.range s.enqs.length
  fifo : s.deqs <+: s.enqs
  written : ∀ t v p, s.pc t = .enqWrite v p → ∀ r, r < p → r % n = p % n → r < s.q.ctail
  read : ∀ t p, s.pc t = .deqRead p → p < s.q.ptail ∧ s.enqs[p]? = some (p, s.q.buf (p % n))
  full : ∀ t v, s.pc t = .enqRet v .full →
    During (fun s => (s.pc t).enq = true) (fun s => wsub 32 s.q.phead s.q.ctail = s.q.size)
      (moments past s)
  empty : ∀ t r, s.pc t = .deqRet .empty r →
    During (fun s => (s.pc t).deq = true) (fun s => s.q.chead = s.q.ptail) (moments past s)

theorem bounded_mpmc_safe (run : (machine Tid b n).Run past s)
    (hfit : s.enqs.length < 2 ^ 32) (hreal : AllSteps FullReal past) : Safe b n past s := by
  obtain ⟨h, hist⟩ := run_inv run hreal hfit
  refine ⟨run_linear run hfit hreal, run_answers, h.deqs_length.1, ?_, ?_, ?_, ?_, hist.full,
    hist.empty⟩
  · refine List.ext_getElem (by simp) fun p hp hp' => ?_
    rw [List.getElem_map, List.getElem_range]
    exact h.positions p _ (List.getElem?_eq_getElem (by simpa using hp))
  · rw [h.returned]
    exact List.take_prefix _ _
  · intro t v p hat r hlt hslot
    have hlap := lap_apart hlt hslot
    have hrange := h.claim_range (t := t) (p := p) (by rw [hat]; rfl)
    have hroom := h.order.room
    have hsize := h.size
    omega
  · intro t p hat
    have hrange := h.grab_range (t := t) (p := p) (by rw [hat]; rfl)
    have hfilled := h.order.filled
    exact ⟨by omega, h.read_slot hrange.1 hrange.2⟩

instance (s : State Tid) (a : Act Tid) : Decidable (FullReal s a) := by
  cases a with
  | step t =>
    simp only [FullReal]
    cases s.pc t <;> infer_instance
  | enq _ _ | deq _ => exact .isTrue trivial

def mpmcStart (b : Nat → Nat) (size : Nat) : State Bool :=
  ⟨⟨0, 0, 0, 0, b, size⟩, fun _ => .idle, [], []⟩

/-- A queue with one slot: the second producer meets a full queue. -/
def oneSlot : List (Act Bool) :=
  [.enq true 8, .step true, .step true, .step true, .step true, .step true, .step true, .step true,
    .enq false 7, .step false, .step false]

theorem bounded_mpmc_safe_full :
    ∃ past s, (machine Bool (fun _ => 0) 1).Run past s ∧ s.enqs.length < 2 ^ 32 ∧
      AllSteps FullReal past ∧ Safe (fun _ => 0) 1 past s ∧ s.pc false = .enqRet 7 .full := by
  let M := machine Bool (fun _ => 0) 1
  have hexec : (M.exec (mpmcStart (fun _ => 0) 1) oneSlot).map
      (fun s => (s.enqs.length, s.pc false)) = some (1, .enqRet 7 .full) := by
    decide +kernel
  obtain ⟨s, hs, hview⟩ := Option.map_eq_some_iff.mp hexec
  obtain ⟨hlen, hpc⟩ := Prod.mk.inj hview
  have hreal : ∀ p ∈ M.pastOf (mpmcStart (fun _ => 0) 1) [] oneSlot, FullReal p.1 p.2 := by
    decide +kernel
  have run := (Machine.Run.start (M := M) (s := mpmcStart (fun _ => 0) 1)
    ⟨rfl, fun _ => rfl, rfl, rfl⟩).exec hs
  have hfit : s.enqs.length < 2 ^ 32 := by
    rw [hlen]
    decide
  exact ⟨_, s, run, hfit, hreal, bounded_mpmc_safe run hfit hreal, hpc⟩

/-- A producer reads `phead`, and one value goes through the queue before it reads
`ctail`: the difference of the two is `2 ^ 32 - 1`. -/
def stalledProducer : List (Act Bool) :=
  [.enq false 7, .step false,
    .enq true 8, .step true, .step true, .step true, .step true, .step true, .step true, .step true,
    .deq true, .step true, .step true, .step true, .step true, .step true, .step true,
    .step false]

/-- FULL is returned though the queue never held more than one value of its
`2 ^ 32 - 1` slots. -/
theorem bounded_mpmc_spurious_full :
    ∃ past s, (machine Bool (fun _ => 0) (2 ^ 32 - 1)).Run past s ∧ s.enqs.length < 2 ^ 32 ∧
      s.pc false = .enqRet 7 .full ∧
      ¬ During (fun s => (s.pc false).enq = true)
        (fun s => wsub 32 s.q.phead s.q.ctail = s.q.size) (moments past s) := by
  let M := machine Bool (fun _ => 0) (2 ^ 32 - 1)
  have hexec : (M.exec (mpmcStart (fun _ => 0) (2 ^ 32 - 1)) stalledProducer).map
      (fun s => (s.enqs.length, s.pc false, decide (wsub 32 s.q.phead s.q.ctail = s.q.size))) =
      some (1, .enqRet 7 .full, false) := by
    decide +kernel
  obtain ⟨s, hs, hview⟩ := Option.map_eq_some_iff.mp hexec
  obtain ⟨hlen, hrest⟩ := Prod.mk.inj hview
  obtain ⟨hpc, hnow⟩ := Prod.mk.inj hrest
  have hnever : ∀ p ∈ M.pastOf (mpmcStart (fun _ => 0) (2 ^ 32 - 1)) [] stalledProducer,
      wsub 32 p.1.q.phead p.1.q.ctail ≠ p.1.q.size := by
    decide +kernel
  have run := (Machine.Run.start (M := M) (s := mpmcStart (fun _ => 0) (2 ^ 32 - 1))
    ⟨rfl, fun _ => rfl, rfl, rfl⟩).exec hs
  refine ⟨_, s, run, by rw [hlen]; decide, hpc, fun hduring => ?_⟩
  obtain ⟨s₁, hmoment, -, hfull⟩ := hduring.exists
  rcases List.mem_cons.mp hmoment with rfl | hmoment
  · exact of_decide_eq_false hnow hfull
  · obtain ⟨p, hp, rfl⟩ := List.mem_map.mp hmoment
    exact hnever p hp hfull

end Libvsync.Queue.Bounded.Mpmc
