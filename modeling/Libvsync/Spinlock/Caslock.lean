import Libvsync.Core.Lock
import Libvsync.Core.Owner

/-!
The two locks that are one word, `caslock` and `ttaslock`. The first one takes
the word with a compare-and-exchange, the second one waits until it can be read
as free and then takes it with an exchange, which may find that another thread
was faster. They release the word in the same way.

An await of the atomics is one step, which is taken when the condition holds.
-/

namespace Libvsync.Spinlock.Caslock

open Libvsync.Core

/-- Which of the two locks. -/
inductive Kind where
  | cas
  | ttas
  deriving DecidableEq

/-- Where a call stands: the next atomic operation. -/
inductive Pc where
  | idle
  | casAwait
  | casTry
  | ttasAwait
  | ttasXchg
  | ttasTry
  | critical
  | relWrite
  deriving DecidableEq

structure State (Tid : Type) where
  lock : Nat
  pc : Tid → Pc

variable {Tid : Type} [DecidableEq Tid]

def State.goto (s : State Tid) (t : Tid) (pc : Pc) : State Tid :=
  { s with pc := Function.update s.pc t pc }

/-- The next atomic operation of thread `t`. -/
def nextStep (s : State Tid) (t : Tid) : Option (State Tid) :=
  match s.pc t with
  | .idle | .critical => none
  -- caslock_acquire
  | .casAwait => if s.lock = 0 then some ({ s with lock := 1 }.goto t .critical) else none
  -- caslock_tryacquire
  | .casTry =>
    if s.lock = 0 then some ({ s with lock := 1 }.goto t .critical) else some (s.goto t .idle)
  -- ttaslock_acquire
  | .ttasAwait => if s.lock = 0 then some (s.goto t .ttasXchg) else none
  | .ttasXchg =>
    some ({ s with lock := 1 }.goto t (if s.lock = 0 then .critical else .ttasAwait))
  -- ttaslock_tryacquire
  | .ttasTry => some ({ s with lock := 1 }.goto t (if s.lock = 0 then .critical else .idle))
  -- caslock_release, ttaslock_release
  | .relWrite => some ({ s with lock := 0 }.goto t .idle)

def Kind.acquire : Kind → Pc
  | .cas => .casAwait
  | .ttas => .ttasAwait

def Kind.tryacquire : Kind → Pc
  | .cas => .casTry
  | .ttas => .ttasTry

def step (kind : Kind) (s : State Tid) : LockAct Tid → Option (State Tid)
  | .acquire _ t => if s.pc t = .idle then some (s.goto t kind.acquire) else none
  | .tryacquire _ t => if s.pc t = .idle then some (s.goto t kind.tryacquire) else none
  | .release t => if s.pc t = .critical then some (s.goto t .relWrite) else none
  | .step t => nextStep s t

/-- `caslock_init` and `ttaslock_init` -/
def init : State Tid where
  lock := 0
  pc := fun _ => .idle

def machine (kind : Kind) : Machine (State Tid) (LockAct Tid) where
  start s := s = init
  step := step kind

/-- From the step that takes the word to the step that gives it back. -/
def Pc.holds : Pc → Bool
  | .critical | .relWrite => true
  | _ => false

def Pc.phase : Pc → Phase
  | .idle => .out
  | .casAwait | .ttasAwait | .ttasXchg => .acquires false
  | .casTry | .ttasTry => .tries false
  | .critical => .has false
  | .relWrite => .releases

/-- The word tells whether a thread has the lock, and at most one has it. -/
def Inv (s : State Tid) : Prop :=
  ∃ cell, Owner (fun t => (s.pc t).holds) cell ∧ (s.lock = 0 ↔ cell = none)

variable {s s' : State Tid} {t u : Tid} {kind : Kind}

theorem goto_self (s : State Tid) (t : Tid) (pc : Pc) : (s.goto t pc).pc t = pc :=
  Function.update_self ..

theorem goto_other (s : State Tid) (pc : Pc) (hu : u ≠ t) : (s.goto t pc).pc u = s.pc u :=
  Function.update_of_ne hu ..

theorem holds_other (lock : Nat) (pc : Pc) (u : Tid) (hu : u ≠ t) :
    ((({ s with lock := lock } : State Tid).goto t pc).pc u).holds = (s.pc u).holds := by
  rw [goto_other _ _ hu]

/-- A thread moves on, and the word stays as it is. -/
theorem Inv.stay (h : Inv s) {lock : Nat} {pc : Pc} (hlock : lock = 0 ↔ s.lock = 0)
    (hholds : pc.holds = (s.pc t).holds) : Inv ({ s with lock := lock }.goto t pc) := by
  obtain ⟨cell, howner, hword⟩ := h
  refine ⟨cell, howner.keep (t := t) (holds_other lock pc) ?_, hlock.trans hword⟩
  rw [goto_self]
  exact hholds

theorem Inv.take (h : Inv s) (hfree : s.lock = 0) :
    Inv ({ s with lock := 1 }.goto t .critical) := by
  obtain ⟨cell, howner, hword⟩ := h
  obtain rfl := hword.mp hfree
  refine ⟨some t, howner.acquire (t := t) (holds_other 1 .critical) ?_, ?_⟩
  · rw [goto_self]
    rfl
  · exact iff_of_false Nat.one_ne_zero (Option.some_ne_none t)

theorem Inv.relWrite (h : Inv s) (hpc : s.pc t = .relWrite) :
    Inv ({ s with lock := 0 }.goto t .idle) := by
  obtain ⟨cell, howner, -⟩ := h
  refine ⟨none, howner.release (t := t) (holds_other 0 .idle) ?_ ?_, iff_of_true rfl rfl⟩
  · rw [hpc]
    rfl
  · rw [goto_self]
    rfl

theorem Inv.next (h : Inv s) (hstep : nextStep s t = some s') : Inv s' := by
  cases hpc : s.pc t with
  | idle => simp only [nextStep, hpc] at hstep; cases hstep
  | critical => simp only [nextStep, hpc] at hstep; cases hstep
  | casAwait =>
    simp only [nextStep, hpc] at hstep
    obtain ⟨hfree, hstep⟩ := Option.ite_none_right_eq_some.mp hstep
    cases hstep
    exact h.take hfree
  | casTry =>
    simp only [nextStep, hpc] at hstep
    split at hstep
    next hfree =>
      cases hstep
      exact h.take hfree
    next =>
      cases hstep
      exact h.stay Iff.rfl (by rw [hpc]; rfl)
  | ttasAwait =>
    simp only [nextStep, hpc] at hstep
    obtain ⟨-, hstep⟩ := Option.ite_none_right_eq_some.mp hstep
    cases hstep
    exact h.stay Iff.rfl (by rw [hpc]; rfl)
  | ttasXchg | ttasTry =>
    simp only [nextStep, hpc] at hstep
    cases hstep
    split
    next hfree => exact h.take hfree
    next htaken => exact h.stay (iff_of_false Nat.one_ne_zero htaken) (by rw [hpc]; rfl)
  | relWrite =>
    simp only [nextStep, hpc] at hstep
    cases hstep
    exact h.relWrite hpc

theorem Inv.step (h : Inv s) {a : LockAct Tid} (hstep : step kind s a = some s') : Inv s' := by
  cases a with
  | acquire reading t | tryacquire reading t =>
    obtain ⟨hidle, hstep⟩ := Option.ite_none_right_eq_some.mp hstep
    cases hstep
    apply h.stay Iff.rfl
    rw [hidle]
    cases kind <;> rfl
  | release t =>
    obtain ⟨hcritical, hstep⟩ := Option.ite_none_right_eq_some.mp hstep
    cases hstep
    apply h.stay Iff.rfl
    rw [hcritical]
    rfl
  | step t => exact h.next hstep

theorem run_inv {past : List (State Tid × LockAct Tid)} (run : (machine kind).Run past s) :
    Inv s := by
  apply run.invariant
  · rintro _ rfl
    exact ⟨none, .start fun _ => rfl, iff_of_true rfl rfl⟩
  · intro s₁ a s₂ h hstep
    exact h.step hstep

theorem step_goto {a : LockAct Tid} (hstep : step kind s a = some s') :
    ∃ lock pc, s' = { s with lock := lock }.goto a.thread pc ∧
      Phase.Next a (s.pc a.thread).phase pc.phase := by
  cases a with
  | acquire reading t =>
    obtain ⟨hidle, hstep⟩ := Option.ite_none_right_eq_some.mp hstep
    cases hstep
    refine ⟨s.lock, kind.acquire, rfl, ?_⟩
    rw [LockAct.thread, hidle]
    cases kind <;> exact .acquire Bool.noConfusion
  | tryacquire reading t =>
    obtain ⟨hidle, hstep⟩ := Option.ite_none_right_eq_some.mp hstep
    cases hstep
    refine ⟨s.lock, kind.tryacquire, rfl, ?_⟩
    rw [LockAct.thread, hidle]
    cases kind <;> exact .tryacquire Bool.noConfusion
  | release t =>
    obtain ⟨hcritical, hstep⟩ := Option.ite_none_right_eq_some.mp hstep
    cases hstep
    refine ⟨s.lock, .relWrite, rfl, ?_⟩
    rw [LockAct.thread, hcritical]
    exact .release
  | step t =>
    rw [LockAct.thread]
    cases hpc : s.pc t <;> simp only [step, nextStep, hpc] at hstep
    case idle => cases hstep
    case critical => cases hstep
    case casAwait =>
      obtain ⟨-, hstep⟩ := Option.ite_none_right_eq_some.mp hstep
      cases hstep
      exact ⟨_, _, rfl, .acquired⟩
    case casTry =>
      split at hstep <;> cases hstep
      · exact ⟨_, _, rfl, .taken⟩
      · exact ⟨s.lock, _, rfl, .failed⟩
    case ttasAwait =>
      obtain ⟨-, hstep⟩ := Option.ite_none_right_eq_some.mp hstep
      cases hstep
      exact ⟨s.lock, _, rfl, .goesOn rfl⟩
    case ttasXchg =>
      cases hstep
      refine ⟨_, _, rfl, ?_⟩
      split
      · exact .acquired
      · exact .goesOn rfl
    case ttasTry =>
      cases hstep
      refine ⟨_, _, rfl, ?_⟩
      split
      · exact .taken
      · exact .failed
    case relWrite =>
      cases hstep
      exact ⟨_, _, rfl, .released⟩

omit [DecidableEq Tid] in
theorem holds_of_has {pc : Pc} {reading : Bool} (h : pc.phase = .has reading) :
    pc.holds = true := by
  cases pc <;> first | rfl | cases h

/-- While nobody has the lock, a thread in a call goes on. -/
theorem Inv.live (h : Inv s) (ht : (s.pc t).phase.calling = true) :
    (∃ u reading, (s.pc u).phase = .has reading) ∨
      ∃ u s', (s.pc u).phase.calling = true ∧ nextStep s u = some s' := by
  obtain ⟨cell, howner, hword⟩ := h
  cases cell with
  | some u =>
    have hholds : (s.pc u).holds = true := (howner u).mpr rfl
    cases hpc : s.pc u with
    | critical => exact .inl ⟨u, false, by rw [hpc]; rfl⟩
    | relWrite =>
      refine .inr ⟨u, { s with lock := 0 }.goto u .idle, by rw [hpc]; rfl, ?_⟩
      simp only [nextStep, hpc]
    | _ => rw [hpc] at hholds; cases hholds
  | none =>
    have hfree : s.lock = 0 := hword.mpr rfl
    have hnobody : (s.pc t).holds = false := howner.nobody t
    refine .inr ⟨t, ?_⟩
    cases hpc : s.pc t <;> rw [hpc] at ht hnobody <;> simp only [nextStep, hpc, hfree, if_true]
    case idle => cases ht
    case critical => cases ht
    case relWrite => cases hnobody
    all_goals exact ⟨_, ht, rfl⟩

/-- A tryacquire fails because another thread has the lock or is about to release it. -/
theorem Inv.refused (h : Inv s) {reading : Bool} (hstep : nextStep s t = some s')
    (ht : (s.pc t).phase = .tries reading) (hout : (s'.pc t).phase = .out) :
    ∃ u, u ≠ t ∧ ((s.pc u).phase = .has false ∨ (s.pc u).phase = .releases) := by
  obtain ⟨cell, howner, hword⟩ := h
  have htaken : s.lock ≠ 0 := by
    intro hfree
    cases hpc : s.pc t <;> rw [hpc] at ht <;> simp only [nextStep, hpc, hfree, if_true] at hstep
    case casTry =>
      cases hstep
      rw [goto_self] at hout
      cases hout
    case ttasTry =>
      cases hstep
      rw [goto_self] at hout
      cases hout
    all_goals cases ht
  cases cell with
  | none => exact absurd (hword.mpr rfl) htaken
  | some u =>
    have hholds : (s.pc u).holds = true := (howner u).mpr rfl
    refine ⟨u, ?_, ?_⟩
    · rintro rfl
      cases hpc : s.pc u <;> rw [hpc] at hholds ht <;>
        first | exact Bool.noConfusion hholds | cases ht
    · cases hpc : s.pc u <;> rw [hpc] at hholds
      case critical => exact .inl rfl
      case relWrite => exact .inr rfl
      all_goals cases hholds

end Libvsync.Spinlock.Caslock

namespace Libvsync.Spinlock

open Libvsync.Core Caslock

/-- Each of the two locks is a lock. -/
def wordLock (Tid : Type) [DecidableEq Tid] (kind : Kind) : Lock Tid where
  State := State Tid
  machine := machine kind
  phase s t := (s.pc t).phase
  start := by
    rintro _ rfl t
    rfl
  own s a s' hstep := by
    obtain ⟨lock, pc, rfl, hnext⟩ := step_goto hstep
    rw [goto_self]
    exact hnext
  others s a s' hstep u hu := by
    obtain ⟨lock, pc, rfl, -⟩ := step_goto hstep
    rw [goto_other _ _ hu]
  excludes past s run t u reading ht hu := by
    obtain ⟨cell, howner, -⟩ := run_inv run
    have hmine := (howner t).mp (holds_of_has ht)
    have hother := (howner u).mp (holds_of_has hu)
    exact Option.some.inj (hother.symm.trans hmine)
  live past s run t ht := (run_inv run).live ht
  calls s t reading hout := by
    have hidle : s.pc t = .idle := by
      cases hpc : s.pc t <;> rw [hpc] at hout <;> first | rfl | cases hout
    simp only [machine, step, hidle, if_true]
    rfl
  leaves s t reading hhas := by
    have hcritical : s.pc t = .critical := by
      cases hpc : s.pc t <;> rw [hpc] at hhas <;> first | rfl | cases hhas
    simp only [machine, step, hcritical, if_true]
    rfl

/-- `caslock_t` -/
def caslock (Tid : Type) [DecidableEq Tid] : Lock Tid := wordLock Tid .cas

/-- `ttaslock_t` -/
def ttaslock (Tid : Type) [DecidableEq Tid] : Lock Tid := wordLock Tid .ttas

end Libvsync.Spinlock
