import Libvsync.Smr.EbrEpochs

/-!
The grace period of `vebr_sync`. A critical section that was open when the
call began keeps its published epoch at most two below the target, and the
global epoch at most one above its entry; each walk over the threads therefore
reports an epoch below the target as long as that section stays open, and the
loop goes on.
-/

namespace Libvsync.Smr.Ebr

open Libvsync.Core Function

variable {Tid Node Dest : Type}

/-- What the open critical section of `t` forces on a `vebr_sync` call of
thread `r` that began inside it, by the place the call has reached: it is in
its loop, the target is two above the entry, and a walk that has passed `t`
reports at most the epoch that `t` published. -/
def SyncGuard (s : State Tid Node Dest) (t : Tid) : Pc Tid Node Dest → Prop
  | .syncRead => True
  | .epochsLock _ (.sync targetEpoch _) => s.entry t + 2 ≤ targetEpoch
  | .epochsRead _ rest minEpoch (.sync targetEpoch _) =>
    s.entry t + 2 ≤ targetEpoch ∧ (t ∈ rest ∨ minEpoch ≤ s.epochLocal t)
  | .epochsUnlock _ minEpoch (.sync targetEpoch _) =>
    s.entry t + 2 ≤ targetEpoch ∧ minEpoch ≤ s.epochLocal t
  | .advance _ (.sync targetEpoch _) => s.entry t + 2 ≤ targetEpoch
  | _ => False

variable {s s' : State Tid Node Dest}

theorem SyncGuard.frame {t : Tid} {pc : Pc Tid Node Dest} (h : SyncGuard s t pc)
    (hentry : s'.entry t = s.entry t) (hlocal : s'.epochLocal t = s.epochLocal t) :
    SyncGuard s' t pc := by
  unfold SyncGuard at h ⊢
  rw [hentry, hlocal]
  exact h

variable [DecidableEq Tid]

theorem State.syncLoop_eq_goto (s : State Tid Node Dest) (t : Tid)
    (curEpoch targetEpoch i : Nat) :
    ∃ pc, s.syncLoop t curEpoch targetEpoch i = s.goto t pc := by
  unfold State.syncLoop
  split
  · exact ⟨_, rfl⟩
  · exact ⟨_, rfl⟩

theorem State.epochsReturn_eq_goto (s : State Tid Node Dest) (t : Tid) (epoch lclEpoch : Nat)
    (caller : Caller Node) : ∃ pc, s.epochsReturn t epoch lclEpoch caller = s.goto t pc := by
  cases caller with
  | recycle head => exact ⟨_, rfl⟩
  | sync targetEpoch i =>
    simp only [State.epochsReturn]
    split
    · exact ⟨_, rfl⟩
    · exact ⟨_, rfl⟩

theorem State.advanced_eq_goto (s : State Tid Node Dest) (t : Tid) (epoch retEpoch : Nat)
    (caller : Caller Node) : ∃ pc, s.advanced t epoch retEpoch caller = s.goto t pc := by
  cases caller with
  | recycle head => exact ⟨_, rfl⟩
  | sync targetEpoch i => exact s.syncLoop_eq_goto t _ _ _

theorem State.syncLoop_pc {r : Tid} {curEpoch targetEpoch i : Nat} (hlt : curEpoch < targetEpoch) :
    (s.syncLoop r curEpoch targetEpoch i).pc r = .epochsLock curEpoch (.sync targetEpoch i) := by
  simp [State.syncLoop, hlt, State.goto]

variable [DecidableEq Node]

/-- What a step of thread `t` writes beside the lock, the lists and its own place. -/
inductive Writes (s s' : State Tid Node Dest) (t : Tid) : Prop
  | stay (hs : s' = s)
  | quiet {lock : Option Tid} {retiredLst : Nat → List Node} {destOf : Node → Option Dest}
      {retired : Node → Bool} {destroyed : List (Node × Option Dest)} (pc : Pc Tid Node Dest)
      (hs : s' = { s with
        lock := lock
        retiredLst := retiredLst
        destOf := destOf
        retired := retired
        destroyed := destroyed }.goto t pc)
  | threads {threads : List Tid} (hkeep : ∀ u, u ≠ t → u ∈ s.threads → u ∈ threads)
      (pc : Pc Tid Node Dest) (hs : s' = { s with threads := threads }.goto t pc)
  | enter (e : Nat) (hpc : s.pc t = .enterWrite e)
      (hs : s' = { s with
        epochLocal := update s.epochLocal t e
        depth := update s.depth t (s.depth t + 1)
        entry := update s.entry t s.epochGlobal }.goto t .idle)
  | exit (hpc : s.pc t = .exitWrite)
      (hs : s' = { s with
        epochLocal := update s.epochLocal t 0
        enterCount := update s.enterCount t (wsub 32 (s.enterCount t) 1)
        depth := update s.depth t (s.depth t - 1) }.goto t .idle)
  | stamp (node : Node) (dest : Dest) (hpc : s.pc t = .retireRead node dest)
      (hs : s' = { s with
        epochOf := update s.epochOf node s.epochGlobal }.goto t
          (.retireListRead node dest (epochIdx s.epochGlobal)))
  | advance (pc : Pc Tid Node Dest)
      (hs : s' = { s with epochGlobal := wadd 64 s.epochGlobal 1 }.goto t pc)

theorem nextStep_writes {t : Tid} (hstep : nextStep s t = some s') : Writes s s' t := by
  unfold nextStep at hstep
  cases hpc : s.pc t with
  | idle | assertFailed message => simp [hpc] at hstep
  | registerLock | deregisterLock | retireCas node idx cmp | epochsLock epoch caller =>
    simp only [hpc] at hstep
    split at hstep <;> cases hstep
    all_goals exact .quiet _ rfl
  | registerAdd =>
    simp only [hpc, Option.some.injEq] at hstep
    exact .threads (fun u _ => List.mem_cons_of_mem _) _ hstep.symm
  | deregisterRem =>
    simp only [hpc, Option.some.injEq] at hstep
    exact .threads (fun u hu => (List.mem_erase_of_ne hu).mpr) _ hstep.symm
  | enterWrite e =>
    simp only [hpc, Option.some.injEq] at hstep
    exact .enter e hpc hstep.symm
  | exitWrite =>
    simp only [hpc, Option.some.injEq] at hstep
    exact .exit hpc hstep.symm
  | retireRead node dest =>
    simp only [hpc, Option.some.injEq] at hstep
    exact .stamp node dest hpc hstep.symm
  | registerUnlock | deregisterUnlock | enterRead | retireListRead node dest idx | recycleRead
  | recycleDetach epoch | recycleRet count | syncRet =>
    simp only [hpc, Option.some.injEq] at hstep
    exact .quiet _ hstep.symm
  | syncRead =>
    simp only [hpc, Option.some.injEq] at hstep
    obtain ⟨pc, heq⟩ := s.syncLoop_eq_goto t s.epochGlobal (wadd 64 s.epochGlobal 2) 0
    exact .quiet pc (hstep.symm.trans heq)
  | epochsRead epoch rest minEpoch caller =>
    cases rest with
    | nil =>
      simp only [hpc, Option.some.injEq] at hstep
      exact .quiet _ hstep.symm
    | cons thrd rest =>
      simp only [hpc] at hstep
      split at hstep
      · cases hstep
        exact .quiet _ rfl
      · split at hstep <;> cases hstep
        · exact .quiet _ rfl
        · exact .stay rfl
  | epochsUnlock epoch minEpoch caller =>
    simp only [hpc, Option.some.injEq] at hstep
    obtain ⟨pc, heq⟩ := State.epochsReturn_eq_goto { s with lock := none } t epoch
      (if minEpoch = uint64Max then 0 else minEpoch) caller
    exact .quiet pc (hstep.symm.trans heq)
  | advance epoch caller =>
    simp only [hpc] at hstep
    split at hstep <;> cases hstep
    · rename_i hcur
      subst hcur
      obtain ⟨pc, heq⟩ := State.advanced_eq_goto
        { s with epochGlobal := wadd 64 s.epochGlobal 1 } t s.epochGlobal s.epochGlobal caller
      exact .advance pc heq
    · obtain ⟨pc, heq⟩ := s.advanced_eq_goto t epoch s.epochGlobal caller
      exact .quiet pc heq
  | recycleDestroy rest count =>
    cases rest with
    | nil | cons node rest =>
      simp only [hpc, Option.some.injEq] at hstep
      exact .quiet _ hstep.symm

/-- A step of one thread leaves the others alone. -/
theorem nextStep_sameThread {t u : Tid} (hu : u ≠ t) (hstep : nextStep s t = some s') :
    SameThread s s' u := by
  cases nextStep_writes hstep with
  | stay hs =>
    subst hs
    exact ⟨rfl, rfl, rfl, rfl, rfl, id⟩
  | quiet pc hs | stamp node dest hpc hs | advance pc hs =>
    subst hs
    exact ⟨update_of_ne hu _ _, rfl, rfl, rfl, rfl, id⟩
  | threads hkeep pc hs =>
    subst hs
    exact ⟨update_of_ne hu _ _, rfl, rfl, rfl, rfl, hkeep u hu⟩
  | enter e hpc hs =>
    subst hs
    exact ⟨update_of_ne hu _ _, rfl, update_of_ne hu _ _, update_of_ne hu _ _,
      update_of_ne hu _ _, id⟩
  | exit hpc hs =>
    subst hs
    exact ⟨update_of_ne hu _ _, update_of_ne hu _ _, update_of_ne hu _ _, update_of_ne hu _ _,
      rfl, id⟩

variable {a : Act Tid Node Dest}

theorem beginCall_sameThread {t u : Tid} (hu : u ≠ t) (hstep : beginCall s t a = some s') :
    SameThread s s' u := by
  cases a with
  | register v =>
    simp only [beginCall] at hstep
    split at hstep <;> cases hstep
    exact ⟨update_of_ne hu _ _, update_of_ne hu _ _, rfl,
      update_of_ne hu _ _, rfl, id⟩
  | deregister v | retire v node dest =>
    simp only [beginCall] at hstep
    split at hstep <;> cases hstep
    exact ⟨update_of_ne hu _ _, rfl, rfl, rfl, rfl, id⟩
  | enter v =>
    simp only [beginCall] at hstep
    split at hstep
    · split at hstep <;> cases hstep
      · exact ⟨update_of_ne hu _ _, update_of_ne hu _ _, rfl, rfl, rfl, id⟩
      · exact ⟨rfl, update_of_ne hu _ _, update_of_ne hu _ _, rfl, rfl, id⟩
    · cases hstep
  | exit v =>
    simp only [beginCall] at hstep
    split at hstep
    · cases hstep
    · split at hstep
      · cases hstep
        exact ⟨update_of_ne hu _ _, rfl, rfl, rfl, rfl, id⟩
      · split at hstep <;> cases hstep
        · exact ⟨update_of_ne hu _ _, rfl, rfl, rfl, rfl, id⟩
        · exact ⟨rfl, update_of_ne hu _ _, update_of_ne hu _ _, rfl, rfl,
            id⟩
  | recycle v | sync v =>
    simp only [beginCall, Option.some.injEq] at hstep
    subst hstep
    exact ⟨update_of_ne hu _ _, rfl, rfl, rfl, rfl, id⟩
  | next v => simp [beginCall] at hstep

theorem step_sameThread {u : Tid} (hu : u ≠ a.thread) (hstep : step s a = some s') :
    SameThread s s' u := by
  rcases step_cases hstep with ⟨t, rfl, hnext⟩ | ⟨_, hbegin⟩
  · exact nextStep_sameThread hu hnext
  · exact beginCall_sameThread hu hbegin

/-- Only the two writes of an outermost entry and exit publish an epoch. -/
theorem nextStep_section {t : Tid} (hstep : nextStep s t = some s') :
    (∃ e, s.pc t = .enterWrite e) ∨
      (s.pc t = .exitWrite ∧ s'.depth t = s.depth t - 1) ∨
      (s'.entry t = s.entry t ∧ s'.epochLocal t = s.epochLocal t) := by
  cases nextStep_writes hstep with
  | enter e hpc hs => exact Or.inl ⟨e, hpc⟩
  | exit hpc hs =>
    subst hs
    exact Or.inr (Or.inl ⟨hpc, update_self _ _ _⟩)
  | stay hs | quiet pc hs | threads hkeep pc hs | stamp node dest hpc hs | advance pc hs =>
    subst hs
    exact Or.inr (Or.inr ⟨rfl, rfl⟩)

/-- A call that begins resets the published epoch only at registration. -/
theorem beginCall_section {t : Tid} (hstep : beginCall s t a = some s') :
    t ∉ s.threads ∨ (s'.entry t = s.entry t ∧ s'.epochLocal t = s.epochLocal t) := by
  cases a with
  | register v =>
    simp only [beginCall] at hstep
    split at hstep <;> cases hstep
    rename_i hnot
    exact Or.inl hnot
  | deregister v | retire v node dest =>
    simp only [beginCall] at hstep
    split at hstep <;> cases hstep
    exact Or.inr ⟨rfl, rfl⟩
  | enter v =>
    simp only [beginCall] at hstep
    split at hstep
    · split at hstep <;> cases hstep
      all_goals exact Or.inr ⟨rfl, rfl⟩
    · cases hstep
  | exit v =>
    simp only [beginCall] at hstep
    split at hstep
    · cases hstep
    · split at hstep
      · cases hstep
        exact Or.inr ⟨rfl, rfl⟩
      · split at hstep <;> cases hstep
        all_goals exact Or.inr ⟨rfl, rfl⟩
  | recycle v | sync v =>
    simp only [beginCall, Option.some.injEq] at hstep
    subst hstep
    exact Or.inr ⟨rfl, rfl⟩
  | next v => simp [beginCall] at hstep

/-- While a critical section stays open its published epoch and the epoch of
its entry do not change. -/
theorem step_inside {t : Tid} (h : EpochInv s) (hstep : step s a = some s') (hin : Inside t s)
    (hin' : Inside t s') : s'.entry t = s.entry t ∧ s'.epochLocal t = s.epochLocal t := by
  have hthread := h.thread t
  by_cases ht : t = a.thread
  · unfold Inside at hin hin'
    rcases step_cases hstep with ⟨u, rfl, hnext⟩ | ⟨_, hbegin⟩
    · cases ht
      rcases nextStep_section hnext with ⟨e, hpc⟩ | ⟨hpc, hdepth⟩ | hsame
      · have := hthread.outside (by simp [Act.thread, hpc, Pc.outside])
        omega
      · -- the exit is the outermost one, so the section is left
        have hone := hthread.exit hpc
        have hcount := hthread.count
        simp only [hpc, Pc.entering, Act.thread] at hcount hone hdepth hin'
        omega
      · exact hsame
    · rw [← ht] at hbegin
      rcases beginCall_section hbegin with hnot | hsame
      · exact absurd (hthread.member (Or.inl hin)) hnot
      · exact hsame
  · have same := step_sameThread ht hstep
    exact ⟨same.entry, same.epochLocal⟩

/-- The guarded call itself moves on within its loop. -/
theorem nextStep_syncGuard {r t : Tid} (h : EpochInv s) (h' : EpochInv s')
    (hfit : s.epochGlobal + 2 < 2 ^ 64) (hin : Inside t s) (hin' : Inside t s')
    (hstep : nextStep s r = some s') (hentry : s'.entry t = s.entry t)
    (hguard : SyncGuard s t (s.pc r)) : SyncGuard s t (s'.pc r) := by
  have hbound := (h.thread t).bound hin
  have hbound' := (h'.thread t).bound hin'
  have hzero : s.epochLocal t ≠ 0 := by
    intro hz
    have := (h.thread t).zero.mp hz
    unfold Inside at hin
    omega
  have hwalk := h.walk r
  unfold nextStep at hstep
  cases hpc : s.pc r with
  | syncRead =>
    simp only [hpc, Option.some.injEq] at hstep
    have htarget : wadd 64 s.epochGlobal 2 = s.epochGlobal + 2 := wadd_of_lt hfit
    rw [htarget] at hstep
    subst hstep
    rw [State.syncLoop_pc (by omega)]
    simp only [SyncGuard]
    omega
  | epochsLock epoch caller =>
    cases caller with
    | recycle head => simp [hpc, SyncGuard] at hguard
    | sync targetEpoch i =>
      simp only [hpc, SyncGuard] at hguard hstep
      split at hstep <;> cases hstep
      simp only [State.goto, update_self, SyncGuard]
      exact ⟨hguard, Or.inl ((h.thread t).member (Or.inl hin))⟩
  | epochsRead epoch rest minEpoch caller =>
    cases caller with
    | recycle head => simp [hpc, SyncGuard] at hguard
    | sync targetEpoch i =>
      simp only [hpc, SyncGuard] at hguard
      obtain ⟨htarget, hpassed⟩ := hguard
      cases rest with
      | nil =>
        simp only [hpc, Option.some.injEq] at hstep
        subst hstep
        simp only [State.goto, update_self, SyncGuard]
        rcases hpassed with hmem | hmin
        · simp at hmem
        · exact ⟨htarget, hmin⟩
      | cons thrd rest =>
        simp only [hpc] at hstep
        split at hstep
        · rename_i hleft
          cases hstep
          simp only [State.goto, update_self, SyncGuard]
          rcases hpassed with hmem | hmin
          · rcases List.mem_cons.mp hmem with rfl | hmem
            · exact absurd hleft hzero
            · exact ⟨htarget, Or.inl hmem⟩
          · exact ⟨htarget, Or.inr hmin⟩
        · split at hstep <;> cases hstep
          · simp only [State.goto, update_self, SyncGuard]
            rcases hpassed with hmem | hmin
            · rcases List.mem_cons.mp hmem with rfl | hmem
              · exact ⟨htarget, Or.inr (min_le_right _ _)⟩
              · exact ⟨htarget, Or.inl hmem⟩
            · exact ⟨htarget, Or.inr ((min_le_left _ _).trans hmin)⟩
          · rw [hpc]
            exact ⟨htarget, hpassed⟩
  | epochsUnlock epoch minEpoch caller =>
    cases caller with
    | recycle head => simp [hpc, SyncGuard] at hguard
    | sync targetEpoch i =>
      simp only [hpc, SyncGuard, Option.some.injEq] at hguard hstep hwalk
      obtain ⟨htarget, hmin⟩ := hguard
      obtain ⟨_, ⟨hi, _⟩, hepoch, _⟩ := hwalk
      -- neither "all inactive" nor "target observed" can be reported
      have hreal : ¬ minEpoch = uint64Max := by
        unfold uint64Max
        omega
      have hstay : ¬ (minEpoch = 0 ∨ targetEpoch ≤ minEpoch) := by omega
      simp only [State.epochsReturn, if_neg hreal, if_neg hstay] at hstep
      subst hstep
      simp only [State.goto, update_self, SyncGuard]
      exact htarget
  | advance epoch caller =>
    cases caller with
    | recycle head => simp [hpc, SyncGuard] at hguard
    | sync targetEpoch i =>
      simp only [hpc, SyncGuard, WalkOk] at hguard hstep hwalk
      have hnext : wadd 64 epoch 1 = epoch + 1 := wadd_of_lt (by omega)
      split at hstep <;> cases hstep
      · have hglobal : epoch + 1 ≤ s.entry t + 1 := by
          obtain ⟨pc, heq⟩ := State.advanced_eq_goto
            { s with epochGlobal := wadd 64 epoch 1 } r epoch epoch (.sync targetEpoch i)
          rw [heq] at hbound'
          simp only [State.goto, hnext] at hbound'
          exact hbound'.2.2
        simp only [State.advanced, if_true, hnext]
        rw [State.syncLoop_pc (by omega)]
        exact hguard
      · rename_i hne
        simp only [State.advanced, if_neg hne]
        rw [State.syncLoop_pc (by omega)]
        exact hguard
  | _ => simp [hpc, SyncGuard] at hguard

/-- Thread `t` is inside a critical section when `r` begins to synchronise. -/
def SyncBegins (r t : Tid) (s : State Tid Node Dest) (a : Act Tid Node Dest)
    (_ : State Tid Node Dest) : Prop :=
  a = .sync r ∧ Inside t s

/-- A `vebr_sync` call that began inside the critical section that is open now
is still in its loop. -/
theorem run_syncGuard {past : List (State Tid Node Dest × Act Tid Node Dest)}
    (run : (machine Tid Node Dest).Run past s) (hfit : AllSteps NoWrap past) (r t : Tid)
    (took : Took (Inside t) (SyncBegins r t) past s) : SyncGuard s t (s.pc r) := by
  induction run with
  | start h => cases took
  | @step past s s' a prior hmove ih =>
    have hstep : step s a = some s' := hmove
    have h := run_epochInv prior hfit.tail
    have h' := step_epochInv h hfit.head hstep
    cases took with
    | now hin' hbegin =>
      obtain ⟨rfl, _⟩ := hbegin
      rcases step_cases hstep with ⟨u, hu, _⟩ | ⟨_, hcall⟩
      · cases hu
      · simp only [beginCall, Act.thread, Option.some.injEq] at hcall
        subst hcall
        simp [State.goto, SyncGuard]
    | before hin' took =>
      have hin : Inside t s := took.busy
      have hguard := ih hfit.tail took
      obtain ⟨hentry, hlocal⟩ := step_inside h hstep hin hin'
      apply SyncGuard.frame _ hentry hlocal
      by_cases hr : r = a.thread
      · rcases step_cases hstep with ⟨u, rfl, hnext⟩ | ⟨hidle, _⟩
        · cases hr
          exact nextStep_syncGuard h h' hfit.head.1 hin hin' hnext hentry hguard
        · rw [hr, hidle] at hguard
          simp [SyncGuard] at hguard
      · rw [(step_sameThread hr hstep).pc]
        exact hguard

/-- The grace period of `vebr_sync`, for any threads and any interleaving in
which the 64-bit epoch and the 32-bit nesting counters do not wrap: when a
call is about to return, no critical section that was open when it began is
still open; and no assertion of the module fails, in particular not `i <= 2`. -/
theorem sync_grace_period {past : List (State Tid Node Dest × Act Tid Node Dest)}
    {s : State Tid Node Dest} (run : (machine Tid Node Dest).Run past s)
    (hfit : AllSteps NoWrap past) :
    (∀ r t, s.pc r = .syncRet → ¬ Took (Inside t) (SyncBegins r t) past s) ∧
    ∀ r message, s.pc r ≠ .assertFailed message := by
  constructor
  · intro r t hret took
    have hguard := run_syncGuard run hfit r t took
    rw [hret] at hguard
    exact hguard
  · intro r message hpc
    have hwalk := (run_epochInv run hfit).walk r
    rw [hpc] at hwalk
    exact hwalk

/-- A `vebr_sync` call that returns on its own, without the reader moving, has
overlooked the reader. -/
theorem sync_overlooks {past : List (State Tid Node Dest × Act Tid Node Dest)} {r t : Tid}
    (run : (machine Tid Node Dest).Run past s) (hidle : s.pc r = .idle) (hin : Inside t s)
    (hne : t ≠ r) (k : Nat)
    (hexec : (machine Tid Node Dest).exec (s.goto r .syncRead) (List.replicate k (.next r)) =
      some s') :
    ∃ past, (machine Tid Node Dest).Run past s' ∧
      Took (Inside t) (SyncBegins r t) past s' := by
  have hbegin : (machine Tid Node Dest).step s (.sync r) = some (s.goto r .syncRead) := by
    simp [machine, step, Act.thread, hidle, beginCall]
  have took : Took (Inside t) (SyncBegins r t) ((s, .sync r) :: past) (s.goto r .syncRead) :=
    .now hin ⟨rfl, hin⟩
  refine ⟨_, (run.step hbegin).exec hexec, took.exec hexec ?_⟩
  intro s a s' ha hin hstep
  obtain rfl := List.eq_of_mem_replicate ha
  have same := nextStep_sameThread hne hstep
  unfold Inside at hin ⊢
  rw [same.depth]
  exact hin

/-- An idle system in epoch `e`. -/
def quiet (e : Nat) : State Bool Unit Unit := { vebrInit with epochGlobal := e }

/-- One whole `vebr_recycle` call of an idle thread. -/
def recycleLap : List (Act Bool Unit Unit) := .recycle true :: List.replicate 8 (.next true)

theorem exec_recycleLap (e : Nat) (he : e + 1 < 2 ^ 64) :
    (machine Bool Unit Unit).exec (quiet e) recycleLap = some (quiet (e + 1)) := by
  have hnext : wadd 64 e 1 = e + 1 := wadd_of_lt he
  unfold recycleLap
  iterate 6 apply Machine.exec_cons rfl
  apply Machine.exec_cons (if_pos rfl)
  simp [Machine.exec, machine, step, nextStep, Act.thread, quiet, vebrInit, State.goto,
    State.goIf, State.epochsReturn, State.advanced, hnext, prevEpochIdx]

def recycleLaps : Nat → List (Act Bool Unit Unit)
  | 0 => []
  | k + 1 => recycleLap ++ recycleLaps k

theorem exec_recycleLaps (k e : Nat) (he : e + k < 2 ^ 64) :
    (machine Bool Unit Unit).exec (quiet e) (recycleLaps k) = some (quiet (e + k)) := by
  induction k generalizing e with
  | zero => rfl
  | succ k ih =>
    rw [recycleLaps, Machine.exec_append, exec_recycleLap e (by omega)]
    have hrest := ih (e + 1) (by omega)
    rw [Nat.add_assoc, Nat.add_comm 1 k] at hrest
    exact hrest

/-- A single reader at nesting depth `depth`, in epoch `e`. -/
def reading (e local' count depth : Nat) : State Bool Unit Unit :=
  { vebrInit with
    epochGlobal := e
    threads := [false]
    epochLocal := update (fun _ => 0) false local'
    enterCount := update (fun _ => 0) false count
    depth := update (fun _ => 0) false depth
    entry := update (fun _ => 0) false e }

def registerThenEnter : List (Act Bool Unit Unit) :=
  [.register false, .next false, .next false, .next false, .enter false, .next false, .next false]

theorem exec_registerThenEnter (e : Nat) :
    (machine Bool Unit Unit).exec (quiet e) registerThenEnter = some (reading e e 1 1) := by
  unfold registerThenEnter
  iterate 7 apply Machine.exec_cons rfl
  simp [Machine.exec, Act.thread, quiet, vebrInit, State.goto, reading, wadd]

theorem exec_enters (k e l count depth : Nat) (hpos : 1 ≤ count) (hfit : count + k < 2 ^ 32) :
    (machine Bool Unit Unit).exec (reading e l count depth) (List.replicate k (.enter false)) =
      some (reading e l (count + k) (depth + k)) := by
  induction k generalizing count depth with
  | zero => rfl
  | succ k ih =>
    have hnext : wadd 32 count 1 = count + 1 := wadd_of_lt (by omega)
    have hmore : count ≠ 0 := by omega
    have hstep : (machine Bool Unit Unit).step (reading e l count depth) (.enter false) =
        some (reading e l (count + 1) (depth + 1)) := by
      simp [machine, step, beginCall, reading, Act.thread, vebrInit, hnext, hmore]
    have hrest := ih (count + 1) (depth + 1) (by omega) (by omega)
    rw [Nat.add_assoc, Nat.add_comm 1 k, Nat.add_assoc depth, Nat.add_comm 1 k] at hrest
    simp only [List.replicate, Machine.exec, hstep]
    exact hrest

/-- The target of a `vebr_sync` call in epoch `2 ^ 64 - 2` is 0: the call
returns at once. -/
theorem sync_overlooks_wrapped_epoch (k : Nat) (hk : 1 + k + 2 = 2 ^ 64) :
    ∃ past s, (machine Bool Unit Unit).Run past s ∧ s.pc true = .syncRet ∧
      s.depth false = 1 ∧ Took (Inside false) (SyncBegins true false) past s := by
  have hlaps := exec_recycleLaps k 1 (by omega)
  have hread := exec_registerThenEnter (1 + k)
  have htarget : wadd 64 (1 + k) 2 = 0 := by
    unfold wadd
    omega
  have run : (machine Bool Unit Unit).Run [] (quiet 1) := .start rfl
  have run' := (run.exec hlaps).exec hread
  have hexec : (machine Bool Unit Unit).exec
      ((reading (1 + k) (1 + k) 1 1).goto true .syncRead) (List.replicate 1 (.next true)) =
      some ((reading (1 + k) (1 + k) 1 1).goto true .syncRet) := by
    simp [List.replicate, Machine.exec, machine, step, nextStep, State.goto, State.syncLoop,
      State.goIf, reading, htarget]
  obtain ⟨past, run'', took⟩ := sync_overlooks run' rfl (t := false)
    (by simp [Inside, reading]) (by simp) 1 hexec
  exact ⟨past, _, run'', by simp [State.goto], by simp [State.goto, reading], took⟩

/-- The last nested entry makes the counter 0, one more is taken for an
outermost entry and its exit clears the published epoch. -/
def overflowEntries : List (Act Bool Unit Unit) :=
  [.enter false, .enter false, .next false, .next false, .exit false, .next false]

theorem sync_overlooks_wrapped_count (k : Nat) (hk : 1 + k + 1 = 2 ^ 32) :
    ∃ past s, (machine Bool Unit Unit).Run past s ∧ s.pc true = .syncRet ∧
      s.epochGlobal = 1 ∧ Took (Inside false) (SyncBegins true false) past s := by
  have hread := exec_registerThenEnter 1
  have henters := exec_enters k 1 1 1 1 (by omega) (by omega)
  have hzero : wadd 32 (1 + k) 1 = 0 := by
    unfold wadd
    omega
  have hone : wadd 32 0 1 = 1 := rfl
  have hback : wsub 32 1 1 = 0 := rfl
  have hover : (machine Bool Unit Unit).exec (reading 1 1 (1 + k) (1 + k)) overflowEntries =
      some (reading 1 0 0 (1 + k + 1)) := by
    have hfirst : (machine Bool Unit Unit).step (reading 1 1 (1 + k) (1 + k)) (.enter false) =
        some (reading 1 1 0 (1 + k + 1)) := by
      simp [machine, step, beginCall, reading, Act.thread, vebrInit, hzero]
    apply Machine.exec_cons hfirst
    iterate 5 apply Machine.exec_cons rfl
    simp [Machine.exec, Act.thread, vebrInit, State.goto, reading, hone, hback]
  have run : (machine Bool Unit Unit).Run [] (quiet 1) := .start rfl
  have run' := ((run.exec hread).exec henters).exec hover
  have hexec : ∃ s, (machine Bool Unit Unit).exec
      ((reading 1 0 0 (1 + k + 1)).goto true .syncRead) (List.replicate 5 (.next true)) =
        some s ∧ s.pc true = .syncRet ∧ s.epochGlobal = 1 :=
    ⟨_, rfl, rfl, rfl⟩
  obtain ⟨s, hexec, hret, hglobal⟩ := hexec
  obtain ⟨past, run'', took⟩ := sync_overlooks run' rfl (t := false)
    (by simp [Inside, reading]) (by simp) 5 hexec
  exact ⟨past, s, run'', hret, hglobal, took⟩

/-- Both counters matter: with the epoch at `2 ^ 64 - 2`, or with a reader
nested `2 ^ 32` deep, `vebr_sync` returns while the reader is inside. -/
theorem sync_grace_period_wraps :
    (∃ past s, (machine Bool Unit Unit).Run past s ∧ s.pc true = .syncRet ∧
      s.depth false = 1 ∧ Took (Inside false) (SyncBegins true false) past s) ∧
    (∃ past s, (machine Bool Unit Unit).Run past s ∧ s.pc true = .syncRet ∧
      s.epochGlobal = 1 ∧ Took (Inside false) (SyncBegins true false) past s) :=
  ⟨sync_overlooks_wrapped_epoch (2 ^ 64 - 3) (by norm_num),
    sync_overlooks_wrapped_count (2 ^ 32 - 2) (by norm_num)⟩

/-- A reader enters, a call begins, advances the epoch, waits for the reader
and returns after its exit. -/
def readerLeaves : List (Act Bool Unit Unit) :=
  registerThenEnter ++ .sync true :: List.replicate 8 (.next true) ++
    [.exit false, .next false, .next true, .next true, .next true]

theorem sync_grace_period_reader_leaves :
    ∃ past s, (machine Bool Unit Unit).Run past s ∧ s.pc true = .syncRet ∧
      (∃ p ∈ past, SyncBegins true false p.1 p.2 p.1) ∧
      ¬ Took (Inside false) (SyncBegins true false) past s := by
  let M := machine Bool Unit Unit
  have hsome : (M.exec vebrInit readerLeaves).isSome := rfl
  have hrun := M.run_of_exec rfl hsome
  have hfit : AllSteps NoWrap (M.pastOf vebrInit [] readerLeaves) := by
    intro p hp
    have hall : ∀ p ∈ M.pastOf vebrInit [] readerLeaves,
        p.1.epochGlobal + 2 < 2 ^ 64 ∧ ∀ t, p.1.enterCount t + 1 < 2 ^ 32 := by
      decide
    exact hall p hp
  have hsafe := sync_grace_period hrun hfit
  refine ⟨_, _, hrun, rfl, ?_, hsafe.1 true false rfl⟩
  refine ⟨(M.pastOf vebrInit [] readerLeaves)[13], List.getElem_mem _, rfl, ?_⟩
  show 0 < _
  decide

end Libvsync.Smr.Ebr
