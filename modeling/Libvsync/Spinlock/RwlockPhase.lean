import Libvsync.Core.Lock
import Libvsync.Spinlock.Rwlock

/-!
The reader-writer lock as a lock of its callers: readers share it, a writer has
it alone, and while nobody has it some call goes on.
-/

namespace Libvsync.Spinlock.Rwlock

open Libvsync.Core

def Pc.phase : Pc → Phase
  | .idle => .out
  | .wAcqWb | .wAcqSem => .acquires false
  | .wTryWb | .wTryRead | .wTryCas _ | .wTryBack => .tries false
  | .writing => .has false
  | .rAcqWb | .rAcqSem => .acquires true
  | .rTryWb | .rTryRead | .rTryCas _ => .tries true
  | .reading => .has true
  | .wRelWb | .wRelSem | .rRelSem => .releases

/-- The call of `rwlock` that a caller means. Who reads releases as a reader. -/
def called {Tid : Type} (s : State Tid) : LockAct Tid → Act Tid
  | .acquire true t => .readAcquire t
  | .acquire false t => .writeAcquire t
  | .tryacquire true t => .readTryacquire t
  | .tryacquire false t => .writeTryacquire t
  | .release t => if s.pc t = .reading then .readRelease t else .writeRelease t
  | .step t => .step t

variable {Tid : Type} [DecidableEq Tid] {n : Nat} {s s' : State Tid} {t u : Tid}

def phased (Tid : Type) [DecidableEq Tid] (n : Nat) : Machine (State Tid) (LockAct Tid) where
  start := Initial n
  step s a := step n s (called s a)

theorem run_of_phased {past : List (State Tid × LockAct Tid)} (run : (phased Tid n).Run past s) :
    (machine Tid n).Run (past.map fun p => (p.1, called p.1 p.2)) s := by
  induction run with
  | start h => exact .start h
  | step prior hstep ih => exact ih.step hstep

theorem call_goto {before after : Pc} (hstep : s.call t before after = some s') :
    s.pc t = before ∧ s' = s.goto t after := by
  obtain ⟨hbefore, hstep⟩ := Option.ite_none_right_eq_some.mp hstep
  cases hstep
  exact ⟨hbefore, rfl⟩

/-- The phase that a step of a call leads to. -/
theorem nextStep_phase (hstep : nextStep n s t = some s') :
    Phase.Next (.step t) (s.pc t).phase (s'.pc t).phase := by
  have hself (s : State Tid) (pc : Pc) : (s.goto t pc).pc t = pc := Function.update_self ..
  cases hat : s.pc t <;> simp only [nextStep, hat] at hstep
  case idle | writing | reading => cases hstep
  case wAcqWb | rAcqWb =>
    obtain ⟨-, hstep⟩ := Option.ite_none_right_eq_some.mp hstep
    cases hstep
    rw [hself]
    exact .goesOn rfl
  case wAcqSem | rAcqSem =>
    obtain ⟨-, hstep⟩ := Option.ite_none_right_eq_some.mp hstep
    cases hstep
    rw [hself]
    exact .acquired
  case wTryWb | rTryWb =>
    split at hstep <;> cases hstep <;> rw [hself]
    · exact .goesOn rfl
    · exact .failed
  case wTryRead =>
    cases hstep
    dsimp only [State.semaphoreTryRead]
    split <;> rw [hself] <;> exact .goesOn rfl
  case wTryCas old =>
    cases hstep
    dsimp only [State.semaphoreTryCas]
    split <;> rw [hself]
    · exact .taken
    · exact .goesOn rfl
  case wTryBack =>
    cases hstep
    rw [hself]
    exact .failed
  case rTryRead =>
    cases hstep
    dsimp only [State.semaphoreTryRead]
    split <;> rw [hself]
    · exact .failed
    · exact .goesOn rfl
  case rTryCas old =>
    cases hstep
    dsimp only [State.semaphoreTryCas]
    split <;> rw [hself]
    · exact .taken
    · exact .failed
  case wRelWb =>
    cases hstep
    rw [hself]
    exact .goesOn rfl
  case wRelSem | rRelSem =>
    cases hstep
    dsimp only [State.semaphoreRelease]
    rw [hself]
    exact .released

theorem phased_own {a : LockAct Tid} (hstep : (phased Tid n).step s a = some s') :
    Phase.Next a (s.pc a.thread).phase (s'.pc a.thread).phase := by
  have hself (s : State Tid) (t : Tid) (pc : Pc) : (s.goto t pc).pc t = pc :=
    Function.update_self ..
  cases a with
  | acquire reading t =>
    cases reading with
    | false =>
      obtain ⟨hidle, rfl⟩ := call_goto hstep
      rw [LockAct.thread, hidle, hself]
      exact .acquire Bool.noConfusion
    | true =>
      obtain ⟨hidle, rfl⟩ := call_goto hstep
      rw [LockAct.thread, hidle, hself]
      exact .acquire fun _ => rfl
  | tryacquire reading t =>
    cases reading with
    | false =>
      obtain ⟨hidle, rfl⟩ := call_goto hstep
      rw [LockAct.thread, hidle, hself]
      exact .tryacquire Bool.noConfusion
    | true =>
      obtain ⟨hidle, rfl⟩ := call_goto hstep
      rw [LockAct.thread, hidle, hself]
      exact .tryacquire fun _ => rfl
  | release t =>
    simp only [phased, called] at hstep
    split at hstep
    next hreading =>
      obtain ⟨-, rfl⟩ := call_goto hstep
      rw [LockAct.thread, hreading, hself]
      exact .release
    next =>
      obtain ⟨hwriting, rfl⟩ := call_goto hstep
      rw [LockAct.thread, hwriting, hself]
      exact .release
  | step t => exact nextStep_phase hstep

theorem phased_others {a : LockAct Tid} (hstep : (phased Tid n).step s a = some s')
    (hu : u ≠ a.thread) : s'.pc u = s.pc u := by
  have hother {t : Tid} (hu : u ≠ t) (s : State Tid) (pc : Pc) : (s.goto t pc).pc u = s.pc u :=
    Function.update_of_ne hu ..
  cases a with
  | acquire reading t | tryacquire reading t =>
    cases reading <;> obtain ⟨-, rfl⟩ := call_goto hstep <;> exact hother hu s _
  | release t =>
    simp only [phased, called] at hstep
    split at hstep <;> obtain ⟨-, rfl⟩ := call_goto hstep <;> exact hother hu s _
  | step t => exact nextStep_pc hstep hu

/-- A call waits only for `wb` to be free and for resources of the semaphore. -/
theorem goes_of_free (hcalling : (s.pc t).phase.calling = true)
    (hwb : s.pc t = .wAcqWb ∨ s.pc t = .rAcqWb → s.wb = 0)
    (hrs : s.pc t = .wAcqSem ∨ s.pc t = .rAcqSem → n ≤ s.rs ∧ 1 ≤ s.rs) :
    ∃ s', nextStep n s t = some s' := by
  cases hat : s.pc t <;> rw [hat] at hcalling hwb hrs <;> simp only [nextStep, hat]
  case idle | writing | reading => cases hcalling
  case wAcqWb | rAcqWb => simp [hwb]
  case wAcqSem | rAcqSem => simp [State.semaphoreAcquire, hrs]
  case wTryWb | rTryWb => split <;> exact ⟨_, rfl⟩
  all_goals exact ⟨_, rfl⟩

variable [Fintype Tid]

/-- While nobody has the lock, a thread in a call goes on: one that has resources
to give back, or else the one that blocks the readers, or else any. -/
theorem Inv.live (h : Inv n s) (hpos : 1 ≤ n) (ht : (s.pc t).phase.calling = true) :
    (∃ u reading, (s.pc u).phase = .has reading) ∨
      ∃ u s', (s.pc u).phase.calling = true ∧ nextStep n s u = some s' := by
  rcases Classical.em (∃ u, ((s.pc u).reads || (s.pc u).writes) = true) with ⟨u, hu⟩ | hnobody
  · cases hat : s.pc u <;> rw [hat] at hu
    case writing => exact .inl ⟨u, false, by rw [hat]; rfl⟩
    case reading => exact .inl ⟨u, true, by rw [hat]; rfl⟩
    case wRelWb | wRelSem | rRelSem =>
      have hcalling : (s.pc u).phase.calling = true := by rw [hat]; rfl
      obtain ⟨s', hs'⟩ := goes_of_free (n := n) hcalling (by simp [hat]) (by simp [hat])
      exact .inr ⟨u, s', hcalling, hs'⟩
    all_goals cases hu
  · have hcount (p : Pc → Bool) (hp : ∀ pc, p pc = true → (pc.reads || pc.writes) = true) :
        count s p = 0 := by
      rw [count, Finset.card_eq_zero, Finset.filter_eq_empty_iff]
      intro u _ hu
      exact hnobody ⟨u, hp _ hu⟩
    have hreads := hcount Pc.reads fun pc hpc => by rw [hpc]; rfl
    have hwrites := hcount Pc.writes fun pc hpc => by rw [hpc, Bool.or_true]
    have hfree : n ≤ s.rs ∧ 1 ≤ s.rs := by
      have hresources := h.resources
      rw [hreads, hwrites] at hresources
      omega
    rcases Classical.em (∃ u, (s.pc u).blocks = true) with ⟨u, hu⟩ | hopen
    · have hcalling : (s.pc u).phase.calling = true := by
        have hnot : ((s.pc u).reads || (s.pc u).writes) ≠ true := fun hmem => hnobody ⟨u, hmem⟩
        cases hat : s.pc u <;> rw [hat] at hu hnot <;>
          first | rfl | exact Bool.noConfusion hu | exact absurd rfl hnot
      obtain ⟨s', hs'⟩ := goes_of_free (n := n) hcalling
        (fun hwait => by rcases hwait with hat | hat <;> rw [hat] at hu <;> cases hu)
        (fun _ => hfree)
      exact .inr ⟨u, s', hcalling, hs'⟩
    · have hwb : s.wb = 0 := by
        rw [h.wb_eq, if_neg hopen]
      obtain ⟨s', hs'⟩ := goes_of_free (n := n) ht (fun _ => hwb) (fun _ => hfree)
      exact .inr ⟨t, s', ht, hs'⟩

end Libvsync.Spinlock.Rwlock

namespace Libvsync.Spinlock

open Libvsync.Core Rwlock

/-- `rwlock_t` with `n` resources. -/
def rwlock (Tid : Type) [DecidableEq Tid] [Fintype Tid] (n : Nat) (hpos : 1 ≤ n)
    (hn : n < 2 ^ 32) : Lock Tid where
  State := Rwlock.State Tid
  machine := phased Tid n
  phase s t := (s.pc t).phase
  start s h t := by
    rw [h.pc]
    rfl
  own s a s' hstep := phased_own hstep
  others s a s' hstep u hu := by
    rw [phased_others hstep hu]
  excludes past s run t u reading ht hu := by
    have h := run_inv hn (run_of_phased run)
    have hwrites : (s.pc t).writes = true := by
      cases hpc : s.pc t <;> rw [hpc] at ht <;> first | rfl | cases ht
    refine Classical.byContradiction fun hne => ?_
    obtain ⟨hnot, hnot'⟩ := h.exclusive hpos hwrites hne
    cases hpc : s.pc u <;> rw [hpc] at hu hnot hnot' <;>
      first | exact Bool.noConfusion hnot | exact Bool.noConfusion hnot' | cases hu
  live past s run t ht := (run_inv hn (run_of_phased run)).live hpos ht
  calls s t reading hout := by
    have hidle : s.pc t = .idle := by
      cases hpc : s.pc t <;> rw [hpc] at hout <;> first | rfl | cases hout
    cases reading <;> simp [phased, called, step, State.call, hidle]
  leaves s t reading hhas := by
    have hcases : s.pc t = .reading ∨ s.pc t = .writing := by
      cases hpc : s.pc t <;> rw [hpc] at hhas <;>
        first | exact .inl rfl | exact .inr rfl | cases hhas
    rcases hcases with hpc | hpc <;> simp [phased, called, step, State.call, hpc]

end Libvsync.Spinlock
