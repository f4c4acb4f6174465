import Libvsync.Smr.Ebr

/-!
The epoch discipline. While a thread stays inside a critical section, the
global epoch is at most one ahead of its value at the entry: whoever advances
it a second time has walked the thread list after the first advance and
waited for that thread. From this, `vebr_sync` gives a grace period.
-/

namespace Libvsync.Smr.Ebr

open Libvsync.Core Function

variable {Tid Node Dest : Type}

/-- Between counting an outermost entry and publishing its epoch. -/
def Pc.entering : Pc Tid Node Dest → Bool
  | .enterRead | .enterWrite _ => true
  | _ => false

/-- Inside a call that a thread only makes outside critical sections. -/
def Pc.outside : Pc Tid Node Dest → Bool
  | .enterRead | .enterWrite _ | .registerLock | .registerAdd | .registerUnlock
  | .deregisterLock | .deregisterRem | .deregisterUnlock => true
  | _ => false

structure ThreadOk (s : State Tid Node Dest) (t : Tid) : Prop where
  count : s.enterCount t = s.depth t + (if (s.pc t).entering then 1 else 0)
  zero : s.epochLocal t = 0 ↔ s.depth t = 0
  member : 0 < s.depth t ∨ (s.pc t).entering = true → t ∈ s.threads
  outside : (s.pc t).outside = true → s.depth t = 0
  bound : 0 < s.depth t →
    s.epochLocal t ≤ s.entry t ∧ s.entry t ≤ s.epochGlobal ∧
      s.epochGlobal ≤ s.entry t + 1
  value : ∀ e, s.pc t = .enterWrite e → 1 ≤ e ∧ e ≤ s.epochGlobal
  exit : s.pc t = .exitWrite → s.enterCount t = 1

/-- The iterations of `vebr_sync` so far have brought the epoch from its
first value, two below the target, up to `epoch`. -/
def CallerOk (epoch : Nat) : Caller Node → Prop
  | .recycle _ => True
  | .sync targetEpoch i => i + targetEpoch ≤ epoch + 2 ∧ epoch < targetEpoch

/-- Every critical section that is open and was passed by the walk over the
threads began in epoch `epoch` or later. -/
def Passed (s : State Tid Node Dest) (epoch : Nat) (rest : List Tid) : Prop :=
  ∀ t, Inside t s → t ∉ rest → epoch ≤ s.entry t

def WalkOk (s : State Tid Node Dest) : Pc Tid Node Dest → Prop
  | .recycleDetach epoch => epoch ≤ s.epochGlobal
  | .epochsLock epoch caller => epoch ≤ s.epochGlobal ∧ CallerOk epoch caller
  | .epochsRead epoch rest minEpoch caller =>
    epoch ≤ s.epochGlobal ∧ CallerOk epoch caller ∧ epoch ≤ minEpoch ∧
      Passed s epoch rest
  | .epochsUnlock epoch minEpoch caller =>
    epoch ≤ s.epochGlobal ∧ CallerOk epoch caller ∧ epoch ≤ minEpoch ∧
      Passed s epoch []
  | .advance epoch caller =>
    epoch ≤ s.epochGlobal ∧ CallerOk epoch caller ∧ Passed s epoch []
  | .assertFailed _ => False
  | _ => True

structure EpochInv (s : State Tid Node Dest) : Prop where
  pos : 1 ≤ s.epochGlobal
  thread : ∀ t, ThreadOk s t
  walk : ∀ t, WalkOk s (s.pc t)

/-- The 64-bit epoch and the 32-bit nesting counters do not wrap. -/
def NoWrap (s : State Tid Node Dest) (_ : Act Tid Node Dest) : Prop :=
  s.epochGlobal + 2 < 2 ^ 64 ∧ ∀ t, s.enterCount t + 1 < 2 ^ 32

theorem vebrInit_epochInv : EpochInv (vebrInit : State Tid Node Dest) where
  pos := Nat.le_refl 1
  thread t :=
    { count := rfl
      zero := Iff.rfl
      member := by simp [vebrInit, Pc.entering]
      outside := by simp [vebrInit]
      bound := by simp [vebrInit]
      value := by simp [vebrInit]
      exit := by simp [vebrInit] }
  walk t := trivial

/-- A critical section that is open after a step was open before it, from the
same entry, or began in the current epoch. -/
def Continues (s s' : State Tid Node Dest) : Prop :=
  ∀ t, Inside t s' → (Inside t s ∧ s'.entry t = s.entry t) ∨ s.epochGlobal ≤ s'.entry t

variable {s s' : State Tid Node Dest}

theorem Passed.frame {epoch : Nat} {rest : List Tid} (h : Passed s epoch rest)
    (hle : epoch ≤ s.epochGlobal) (hc : Continues s s') : Passed s' epoch rest := by
  intro t hin hnot
  rcases hc t hin with ⟨hold, hentry⟩ | hnew
  · rw [hentry]
    exact h t hold hnot
  · exact hle.trans hnew

variable {pc : Pc Tid Node Dest}

theorem WalkOk.frame (h : WalkOk s pc) (hg : s.epochGlobal ≤ s'.epochGlobal) (hc : Continues s s') :
    WalkOk s' pc := by
  cases pc with
  | recycleDetach epoch => exact le_trans h hg
  | epochsLock epoch caller => exact ⟨h.1.trans hg, h.2⟩
  | epochsRead epoch rest minEpoch caller | epochsUnlock epoch minEpoch caller =>
    exact ⟨h.1.trans hg, h.2.1, h.2.2.1, h.2.2.2.frame h.1 hc⟩
  | advance epoch caller => exact ⟨h.1.trans hg, h.2.1, h.2.2.frame h.1 hc⟩
  | assertFailed message => exact h
  | _ => trivial

/-- A step of thread `t` leaves what belongs to another thread alone. -/
structure SameThread (s s' : State Tid Node Dest) (u : Tid) : Prop where
  pc : s'.pc u = s.pc u
  enterCount : s'.enterCount u = s.enterCount u
  depth : s'.depth u = s.depth u
  epochLocal : s'.epochLocal u = s.epochLocal u
  entry : s'.entry u = s.entry u
  member : u ∈ s.threads → u ∈ s'.threads

theorem ThreadOk.frame {u : Tid} (h : ThreadOk s u) (same : SameThread s s' u)
    (hg : s.epochGlobal ≤ s'.epochGlobal)
    (hbound : 0 < s.depth u → s'.epochGlobal ≤ s.entry u + 1) : ThreadOk s' u where
  count := by rw [same.enterCount, same.depth, same.pc]; exact h.count
  zero := by rw [same.epochLocal, same.depth]; exact h.zero
  member := by
    rw [same.depth, same.pc]
    intro hm
    exact same.member (h.member hm)
  outside := by rw [same.depth, same.pc]; exact h.outside
  bound := by
    rw [same.depth, same.epochLocal, same.entry]
    intro hd
    have hb := h.bound hd
    exact ⟨hb.1, hb.2.1.trans hg, hbound hd⟩
  value := by
    rw [same.pc]
    intro e he
    have hv := h.value e he
    exact ⟨hv.1, hv.2.trans hg⟩
  exit := by rw [same.pc, same.enterCount]; exact h.exit

/-- How a step of thread `t` keeps the invariant: everybody else is left
alone, and the mover's own clauses hold again. -/
theorem EpochInv.move (h : EpochInv s) (t : Tid) (same : ∀ u, u ≠ t → SameThread s s' u)
    (hg : s.epochGlobal ≤ s'.epochGlobal)
    (hbound : ∀ u, u ≠ t → 0 < s.depth u → s'.epochGlobal ≤ s.entry u + 1) (hcont : Inside t s' →
      (Inside t s ∧ s'.entry t = s.entry t) ∨ s.epochGlobal ≤ s'.entry t) (hthread : ThreadOk s' t)
    (hwalk : WalkOk s' (s'.pc t)) : EpochInv s' := by
  have hc : Continues s s' := by
    intro u hin
    by_cases hu : u = t
    · subst hu
      exact hcont hin
    · have hs := same u hu
      unfold Inside at hin ⊢
      rw [hs.depth] at hin
      exact Or.inl ⟨hin, hs.entry⟩
  refine ⟨h.pos.trans hg, ?_, ?_⟩
  · intro u
    by_cases hu : u = t
    · subst hu
      exact hthread
    · exact (h.thread u).frame (same u hu) hg (hbound u hu)
  · intro u
    by_cases hu : u = t
    · subst hu
      exact hwalk
    · rw [(same u hu).pc]
      exact (h.walk u).frame hg hc

/-- The compare-and-swap succeeds only after a walk that every open critical
section has passed, so the epoch stays at most one ahead of each of them. -/
theorem EpochInv.advance (h : EpochInv s) (t : Tid) (hpassed : Passed s s.epochGlobal [])
    (hpc : ∀ e, s.pc t ≠ .enterWrite e) (hexit : s.pc t ≠ .exitWrite)
    (hwalk : WalkOk { s with epochGlobal := s.epochGlobal + 1 } (s.pc t)) :
    EpochInv { s with epochGlobal := s.epochGlobal + 1 } := by
  have hthread := h.thread t
  apply h.move t
  · intro u hu
    exact ⟨rfl, rfl, rfl, rfl, rfl, id⟩
  · exact Nat.le_succ _
  · intro u _ hd
    have := hpassed u hd (by simp)
    show s.epochGlobal + 1 ≤ s.entry u + 1
    omega
  · intro hin
    exact Or.inl ⟨hin, rfl⟩
  · constructor
    · exact hthread.count
    · exact hthread.zero
    · exact hthread.member
    · exact hthread.outside
    · intro hd
      have hb := hthread.bound hd
      have := hpassed t hd (by simp)
      refine ⟨hb.1, hb.2.1.trans (Nat.le_succ _), ?_⟩
      show s.epochGlobal + 1 ≤ s.entry t + 1
      omega
    · intro e he
      exact absurd he (hpc e)
    · intro he
      exact absurd he hexit
  · exact hwalk

variable [DecidableEq Tid]

/-- A step that, for the epochs, only moves thread `t` to `pc`. -/
structure Jump (s s' : State Tid Node Dest) (t : Tid) (pc : Pc Tid Node Dest) : Prop where
  pc : s'.pc = update s.pc t pc
  epochGlobal : s'.epochGlobal = s.epochGlobal
  threads : s'.threads = s.threads
  epochLocal : s'.epochLocal = s.epochLocal
  enterCount : s'.enterCount = s.enterCount
  depth : s'.depth = s.depth
  entry : s'.entry = s.entry

theorem EpochInv.jump {t : Tid} (h : EpochInv s) (jump : Jump s s' t pc)
    (hentering : pc.entering = (s.pc t).entering) (houtside : pc.outside = true → s.depth t = 0)
    (hvalue : ∀ e, pc = .enterWrite e → 1 ≤ e ∧ e ≤ s.epochGlobal)
    (hexit : pc = .exitWrite → s.enterCount t = 1) (hwalk : WalkOk s pc) : EpochInv s' := by
  obtain ⟨hpc, hglobal, hthreads, hlocal, hcount, hdepth, hentry⟩ := jump
  have hself : s'.pc t = pc := by rw [hpc, update_self]
  have hcont : Continues s s' := by
    intro u hin
    unfold Inside at hin ⊢
    rw [hdepth] at hin
    exact Or.inl ⟨hin, by rw [hentry]⟩
  have hthread := h.thread t
  apply h.move t
  · intro u hu
    constructor
    · rw [hpc, update_of_ne hu]
    · rw [hcount]
    · rw [hdepth]
    · rw [hlocal]
    · rw [hentry]
    · rw [hthreads]
      exact id
  · exact hglobal.ge
  · intro u hu hd
    rw [hglobal]
    exact ((h.thread u).bound hd).2.2
  · intro hin
    exact hcont t hin
  · constructor
    · rw [hself, hcount, hdepth, hentering]
      exact hthread.count
    · rw [hlocal, hdepth]
      exact hthread.zero
    · rw [hself, hdepth, hthreads, hentering]
      exact hthread.member
    · rw [hself, hdepth]
      exact houtside
    · rw [hdepth, hlocal, hentry, hglobal]
      exact hthread.bound
    · rw [hself, hglobal]
      exact hvalue
    · rw [hself, hcount]
      exact hexit
  · rw [hself]
    exact hwalk.frame hglobal.ge hcont

/-- A jump between places that no critical section is bound to. -/
theorem EpochInv.calm {t : Tid} (h : EpochInv s) (jump : Jump s s' t pc)
    (hfrom : (s.pc t).entering = false) (hto : pc.outside = false) (hexit : pc ≠ .exitWrite)
    (hwalk : WalkOk s pc) : EpochInv s' := by
  apply h.jump jump
  · rw [hfrom]
    cases pc <;> first | rfl | simp [Pc.outside] at hto
  · intro hout
    simp [hto] at hout
  · intro e he
    simp [he, Pc.outside] at hto
  · intro he
    exact absurd he hexit
  · exact hwalk

/-- The loop test of `vebr_sync`, after `i` iterations. -/
theorem EpochInv.syncLoop (h : EpochInv s) (t : Tid) {curEpoch targetEpoch i : Nat}
    (hfrom : (s.pc t).entering = false) (hcur : curEpoch ≤ s.epochGlobal)
    (htarget : i + targetEpoch ≤ curEpoch + 2) (hi : i ≤ 2) :
    EpochInv (s.syncLoop t curEpoch targetEpoch i) := by
  unfold State.syncLoop
  by_cases hlt : curEpoch < targetEpoch
  · rw [if_pos hlt]
    exact h.calm ⟨rfl, rfl, rfl, rfl, rfl, rfl, rfl⟩ hfrom rfl (by simp)
      ⟨hcur, htarget, hlt⟩
  · rw [if_neg hlt]
    unfold State.goIf
    rw [if_pos hi]
    exact h.calm ⟨rfl, rfl, rfl, rfl, rfl, rfl, rfl⟩ hfrom rfl (by simp) trivial

/-- What follows the compare-and-swap on the global epoch. -/
theorem EpochInv.advanced (h : EpochInv s) (t : Tid) {epoch retEpoch : Nat} {caller : Caller Node}
    (hfrom : (s.pc t).entering = false) (hcaller : CallerOk epoch caller)
    (hfit : epoch + 1 < 2 ^ 64) (hret : epoch ≤ retEpoch)
    (hcur : (if retEpoch = epoch then epoch + 1 else retEpoch) ≤ s.epochGlobal) :
    EpochInv (s.advanced t epoch retEpoch caller) := by
  cases caller with
  | recycle head =>
    simp only [State.advanced, State.goIf, if_pos hret]
    exact h.calm ⟨rfl, rfl, rfl, rfl, rfl, rfl, rfl⟩ hfrom rfl (by simp) trivial
  | sync targetEpoch i =>
    have hnext : wadd 64 epoch 1 = epoch + 1 := wadd_of_lt hfit
    obtain ⟨hi, hlt⟩ := hcaller
    simp only [State.advanced, hnext]
    apply h.syncLoop t hfrom hcur
    · split <;> omega
    · omega

/-- The walk over the threads: a thread that has left, or whose critical
section has seen the epoch, is passed; else the step spins. -/
theorem Passed.next {epoch : Nat} {thrd : Tid} {rest : List Tid} (h : Passed s epoch (thrd :: rest))
    (hseen : Inside thrd s → epoch ≤ s.entry thrd) : Passed s epoch rest := by
  intro u hin hnot
  by_cases hu : u = thrd
  · subst hu
    exact hseen hin
  · exact h u hin (by simp [hu, hnot])

/-- Leaving and joining the thread list happen outside critical sections. -/
theorem EpochInv.setThreads {t : Tid} (h : EpochInv s) (threads : List Tid)
    (hkeep : ∀ u, u ≠ t → u ∈ s.threads → u ∈ threads) (hfrom : (s.pc t).outside = true)
    (hquiet : (s.pc t).entering = false) (hentering : pc.entering = false) (hexit : pc ≠ .exitWrite)
    (hwalk : WalkOk s pc) : EpochInv ({ s with threads := threads }.goto t pc) := by
  have hthread := h.thread t
  have hdepth := hthread.outside hfrom
  have hzero := hthread.zero.mpr hdepth
  have hcount := hthread.count
  simp only [hquiet, hdepth] at hcount
  apply h.move t
  · intro u hu
    exact ⟨update_of_ne hu _ _, rfl, rfl, rfl, rfl, hkeep u hu⟩
  · exact Nat.le_refl _
  · intro u _ hd
    exact ((h.thread u).bound hd).2.2
  · intro hin
    exact Or.inl ⟨hin, rfl⟩
  · constructor
    · simpa [State.goto, hentering, hdepth] using hcount
    · simp [State.goto, hzero, hdepth]
    · simp [State.goto, hentering, hdepth]
    · simp [State.goto, hdepth]
    · simp [State.goto, hdepth]
    · intro e he
      simp only [State.goto, update_self] at he
      simp [he, Pc.entering] at hentering
    · intro he
      simp only [State.goto, update_self] at he
      exact absurd he hexit
  · simp only [State.goto, update_self]
    refine hwalk.frame (Nat.le_refl _) ?_
    intro u hin
    exact Or.inl ⟨hin, rfl⟩

theorem EpochInv.enterWrite {t : Tid} {e : Nat} (h : EpochInv s) (hpc : s.pc t = .enterWrite e) :
    EpochInv ({ s with
      epochLocal := update s.epochLocal t e
      depth := update s.depth t (s.depth t + 1)
      entry := update s.entry t s.epochGlobal }.goto t .idle) := by
  have hthread := h.thread t
  have hdepth := hthread.outside (by simp [hpc, Pc.outside])
  have hcount := hthread.count
  have hmem := hthread.member (Or.inr (by simp [hpc, Pc.entering]))
  have hvalue := hthread.value e hpc
  simp only [hpc, Pc.entering, hdepth] at hcount
  apply h.move t
  · intro u hu
    exact ⟨update_of_ne hu _ _, rfl, update_of_ne hu _ _,
      update_of_ne hu _ _, update_of_ne hu _ _, id⟩
  · exact Nat.le_refl _
  · intro u _ hd
    exact ((h.thread u).bound hd).2.2
  · intro _
    right
    simp [State.goto]
  · constructor
    · simpa [State.goto, Pc.entering, hdepth] using hcount
    · simp [State.goto]
      omega
    · simp [State.goto, hmem]
    · simp [State.goto, Pc.outside]
    · simp [State.goto, hvalue.2]
    · simp [State.goto]
    · simp [State.goto]
  · simp [State.goto, WalkOk]

theorem EpochInv.exitWrite {t : Tid} (h : EpochInv s) (hpc : s.pc t = .exitWrite) :
    EpochInv ({ s with
      epochLocal := update s.epochLocal t 0
      enterCount := update s.enterCount t (wsub 32 (s.enterCount t) 1)
      depth := update s.depth t (s.depth t - 1) }.goto t .idle) := by
  have hthread := h.thread t
  have hone := hthread.exit hpc
  have hcount := hthread.count
  simp only [hpc, Pc.entering, hone] at hcount
  have hdepth : s.depth t = 1 := by simpa using hcount.symm
  apply h.move t
  · intro u hu
    exact ⟨update_of_ne hu _ _, update_of_ne hu _ _,
      update_of_ne hu _ _, update_of_ne hu _ _, rfl, id⟩
  · exact Nat.le_refl _
  · intro u _ hd
    exact ((h.thread u).bound hd).2.2
  · intro hin
    simp [Inside, State.goto, hdepth] at hin
  · constructor <;> simp [State.goto, Pc.entering, Pc.outside, hdepth, hone, wsub]
  · simp [State.goto, WalkOk]

/-- A nested entry or exit, or the beginning of an outermost one: only the
counters of the mover change. -/
theorem EpochInv.setCount {t : Tid} (h : EpochInv s) (pc : Pc Tid Node Dest) (count depth : Nat)
    (hcount : count = depth + if pc.entering then 1 else 0) (hzero : depth = 0 ↔ s.depth t = 0)
    (hmember : pc.entering = true → t ∈ s.threads)
    (hto : pc = .idle ∨ pc = .enterRead ∧ s.depth t = 0) :
    EpochInv ({ s with
      enterCount := update s.enterCount t count
      depth := update s.depth t depth }.goto t pc) := by
  have hthread := h.thread t
  have hpos : 0 < depth ↔ 0 < s.depth t := by omega
  apply h.move t
  · intro u hu
    exact ⟨update_of_ne hu _ _, update_of_ne hu _ _,
      update_of_ne hu _ _, rfl, rfl, id⟩
  · exact Nat.le_refl _
  · intro u _ hd
    exact ((h.thread u).bound hd).2.2
  · intro hin
    simp only [Inside, State.goto, update_self] at hin
    exact Or.inl ⟨hpos.mp hin, rfl⟩
  · constructor
    · simpa [State.goto] using hcount
    · simp [State.goto, hthread.zero, hzero]
    · simp only [State.goto, update_self]
      rintro (hd | he)
      · exact hthread.member (Or.inl (hpos.mp hd))
      · exact hmember he
    · rcases hto with rfl | ⟨rfl, hd⟩
      · simp [State.goto, Pc.outside]
      · simp [State.goto, hzero, hd]
    · simp only [State.goto, update_self, hpos]
      exact hthread.bound
    · rcases hto with rfl | ⟨rfl, hd⟩ <;> simp [State.goto]
    · rcases hto with rfl | ⟨rfl, hd⟩ <;> simp [State.goto]
  · rcases hto with rfl | ⟨rfl, hd⟩ <;> simp [State.goto, WalkOk]

variable [DecidableEq Node]

theorem nextStep_epochInv {t : Tid} (h : EpochInv s) (hfit : s.epochGlobal + 2 < 2 ^ 64)
    (hstep : nextStep s t = some s') : EpochInv s' := by
  have hthread := h.thread t
  have hwalk := h.walk t
  unfold nextStep at hstep
  cases hpc : s.pc t with
  | idle | assertFailed message => simp [hpc] at hstep
  | registerLock | deregisterLock =>
    simp only [hpc] at hstep
    split at hstep <;> cases hstep
    refine h.jump ⟨rfl, rfl, rfl, rfl, rfl, rfl, rfl⟩ ?_ ?_ ?_ ?_ trivial
    · simp [hpc, Pc.entering]
    · intro _
      exact hthread.outside (by simp [hpc, Pc.outside])
    · simp
    · simp
  | registerAdd =>
    simp only [hpc, Option.some.injEq] at hstep
    subst hstep
    apply h.setThreads
    · intro u _ hm
      exact List.mem_cons_of_mem _ hm
    all_goals simp [hpc, Pc.outside, Pc.entering, WalkOk]
  | deregisterRem =>
    simp only [hpc, Option.some.injEq] at hstep
    subst hstep
    apply h.setThreads
    · intro u hu hm
      exact (List.mem_erase_of_ne hu).mpr hm
    all_goals simp [hpc, Pc.outside, Pc.entering, WalkOk]
  | registerUnlock | deregisterUnlock | retireListRead node dest idx | retireRead node dest
  | recycleRet count | syncRet =>
    simp only [hpc, Option.some.injEq] at hstep
    subst hstep
    exact h.calm ⟨rfl, rfl, rfl, rfl, rfl, rfl, rfl⟩ (by simp [hpc, Pc.entering]) rfl
      (by simp) trivial
  | enterRead =>
    simp only [hpc, Option.some.injEq] at hstep
    subst hstep
    refine h.jump ⟨rfl, rfl, rfl, rfl, rfl, rfl, rfl⟩ ?_ ?_ ?_ ?_ trivial
    · simp [hpc, Pc.entering]
    · intro _
      exact hthread.outside (by simp [hpc, Pc.outside])
    · intro e he
      cases he
      exact ⟨h.pos, Nat.le_refl _⟩
    · simp
  | enterWrite e =>
    simp only [hpc, Option.some.injEq] at hstep
    subst hstep
    exact h.enterWrite hpc
  | exitWrite =>
    simp only [hpc, Option.some.injEq] at hstep
    subst hstep
    exact h.exitWrite hpc
  | retireCas node idx cmp =>
    simp only [hpc] at hstep
    split at hstep <;> cases hstep
    all_goals
      exact h.calm ⟨rfl, rfl, rfl, rfl, rfl, rfl, rfl⟩ (by simp [hpc, Pc.entering]) rfl
        (by simp) trivial
  | recycleRead =>
    simp only [hpc, Option.some.injEq] at hstep
    subst hstep
    exact h.calm ⟨rfl, rfl, rfl, rfl, rfl, rfl, rfl⟩ (by simp [hpc, Pc.entering]) rfl
      (by simp) (Nat.le_refl _)
  | recycleDetach epoch =>
    simp only [hpc, Option.some.injEq] at hwalk hstep
    subst hstep
    exact h.calm ⟨rfl, rfl, rfl, rfl, rfl, rfl, rfl⟩ (by simp [hpc, Pc.entering]) rfl
      (by simp) ⟨hwalk, trivial⟩
  | syncRead =>
    simp only [hpc, Option.some.injEq] at hstep
    subst hstep
    have htarget : wadd 64 s.epochGlobal 2 = s.epochGlobal + 2 := wadd_of_lt hfit
    rw [htarget]
    apply h.syncLoop t
    · simp [hpc, Pc.entering]
    · exact Nat.le_refl _
    · omega
    · omega
  | epochsLock epoch caller =>
    simp only [hpc] at hwalk hstep
    split at hstep <;> cases hstep
    refine h.calm ⟨rfl, rfl, rfl, rfl, rfl, rfl, rfl⟩ (by simp [hpc, Pc.entering]) rfl
      (by simp) ⟨hwalk.1, hwalk.2, ?_, ?_⟩
    · have := hwalk.1
      unfold uint64Max
      omega
    · intro u hin hnot
      exact absurd ((h.thread u).member (Or.inl hin)) hnot
  | epochsRead epoch rest minEpoch caller =>
    simp only [hpc] at hwalk
    obtain ⟨hle, hcaller, hmin, hpassed⟩ := hwalk
    cases rest with
    | nil =>
      simp only [hpc, Option.some.injEq] at hstep
      subst hstep
      exact h.calm ⟨rfl, rfl, rfl, rfl, rfl, rfl, rfl⟩ (by simp [hpc, Pc.entering]) rfl
        (by simp) ⟨hle, hcaller, hmin, hpassed⟩
    | cons thrd rest =>
      simp only [hpc] at hstep
      split at hstep
      · rename_i hzero
        cases hstep
        refine h.calm ⟨rfl, rfl, rfl, rfl, rfl, rfl, rfl⟩ (by simp [hpc, Pc.entering]) rfl
          (by simp) ⟨hle, hcaller, hmin, hpassed.next ?_⟩
        intro hin
        have := (h.thread thrd).zero.mp hzero
        unfold Inside at hin
        omega
      · split at hstep <;> cases hstep
        · rename_i hge
          refine h.calm ⟨rfl, rfl, rfl, rfl, rfl, rfl, rfl⟩ (by simp [hpc, Pc.entering])
            rfl (by simp) ⟨hle, hcaller, le_min hmin hge, hpassed.next ?_⟩
          intro hin
          exact hge.trans ((h.thread thrd).bound hin).1
        · exact h
  | epochsUnlock epoch minEpoch caller =>
    simp only [hpc, Option.some.injEq] at hwalk hstep
    obtain ⟨hle, hcaller, hmin, hpassed⟩ := hwalk
    subst hstep
    have hadvance : WalkOk s (.advance epoch caller) := ⟨hle, hcaller, hpassed⟩
    cases caller with
    | recycle head =>
      have hcheck : (if minEpoch = uint64Max then 0 else minEpoch) = 0 ∨
          epoch ≤ (if minEpoch = uint64Max then 0 else minEpoch) := by
        split
        · exact Or.inl rfl
        · exact Or.inr hmin
      simp only [State.epochsReturn, State.goIf, if_pos hcheck]
      exact h.calm ⟨rfl, rfl, rfl, rfl, rfl, rfl, rfl⟩ (by simp [hpc, Pc.entering]) rfl
        (by simp) hadvance
    | sync targetEpoch i =>
      generalize (if minEpoch = uint64Max then 0 else minEpoch) = lclEpoch
      simp only [State.epochsReturn]
      split
      · exact h.calm ⟨rfl, rfl, rfl, rfl, rfl, rfl, rfl⟩ (by simp [hpc, Pc.entering]) rfl
          (by simp) trivial
      · exact h.calm ⟨rfl, rfl, rfl, rfl, rfl, rfl, rfl⟩ (by simp [hpc, Pc.entering]) rfl
          (by simp) hadvance
  | advance epoch caller =>
    simp only [hpc] at hwalk hstep
    obtain ⟨hle, hcaller, hpassed⟩ := hwalk
    split at hstep <;> cases hstep
    · rename_i heq
      subst heq
      have hnext : wadd 64 s.epochGlobal 1 = s.epochGlobal + 1 :=
        Nat.mod_eq_of_lt (by omega)
      rw [hnext]
      apply EpochInv.advanced
      · apply h.advance t hpassed
        · simp [hpc]
        · simp [hpc]
        · rw [hpc]
          exact ⟨Nat.le_succ _, hcaller, hpassed⟩
      · simp [hpc, Pc.entering]
      · exact hcaller
      · omega
      · exact Nat.le_refl _
      · simp
    · rename_i hne
      apply h.advanced t
      · simp [hpc, Pc.entering]
      · exact hcaller
      · omega
      · exact hle
      · rw [if_neg hne]
  | recycleDestroy rest count =>
    cases rest with
    | nil | cons node rest =>
      simp only [hpc, Option.some.injEq] at hstep
      subst hstep
      exact h.calm ⟨rfl, rfl, rfl, rfl, rfl, rfl, rfl⟩ (by simp [hpc, Pc.entering]) rfl
        (by simp) trivial

variable {a : Act Tid Node Dest}

/-- The beginning of a call keeps the epoch invariant. -/
theorem beginCall_epochInv {t : Tid} (h : EpochInv s) (hfit : s.enterCount t + 1 < 2 ^ 32)
    (hpc : s.pc t = .idle) (hstep : beginCall s t a = some s') : EpochInv s' := by
  have hthread := h.thread t
  have hcount := hthread.count
  simp only [hpc, Pc.entering] at hcount
  cases a with
  | register u =>
    simp only [beginCall] at hstep
    split at hstep <;> cases hstep
    rename_i hnot
    have hdepth : s.depth t = 0 := by
      by_contra hne
      exact hnot (hthread.member (Or.inl (Nat.pos_of_ne_zero hne)))
    apply h.move t
    · intro u hu
      exact ⟨update_of_ne hu _ _, update_of_ne hu _ _, rfl,
        update_of_ne hu _ _, rfl, id⟩
    · exact Nat.le_refl _
    · intro u _ hd
      exact ((h.thread u).bound hd).2.2
    · intro hin
      exact Or.inl ⟨hin, rfl⟩
    · constructor <;> simp [State.goto, Pc.entering, hdepth]
    · simp [State.goto, WalkOk]
  | deregister u =>
    simp only [beginCall] at hstep
    split at hstep <;> cases hstep
    rename_i hcan
    have hzero : s.epochLocal t = 0 := hthread.zero.mpr hcan.2
    simp only [State.goIf, if_pos hzero]
    refine h.jump ⟨rfl, rfl, rfl, rfl, rfl, rfl, rfl⟩ ?_ ?_ ?_ ?_ trivial
    · simp [hpc, Pc.entering]
    · intro _
      exact hcan.2
    · simp
    · simp
  | enter u =>
    have hnext : wadd 32 (s.enterCount t) 1 = s.enterCount t + 1 := wadd_of_lt hfit
    simp only [beginCall, hnext] at hstep
    split at hstep
    · rename_i hmem
      split at hstep <;> cases hstep
      · rename_i hone
        have hdepth : s.depth t = 0 := by simp at hcount hone; omega
        have hsame : s.depth = update s.depth t (s.depth t) := by simp
        rw [hsame]
        apply h.setCount
        · simp at hcount
          simp [Pc.entering, hcount]
        · simp
        · intro _
          exact hmem
        · exact Or.inr ⟨rfl, hdepth⟩
      · rename_i hmore
        have hsame : s.pc = update s.pc t .idle := by simp [← hpc]
        have hset := h.setCount (t := t) .idle (s.enterCount t + 1) (s.depth t + 1)
        simp only [State.goto, ← hsame] at hset
        simp at hcount hmore
        apply hset
        · simp [Pc.entering, hcount]
        · omega
        · simp [Pc.entering]
        · exact Or.inl trivial
    · cases hstep
  | exit u =>
    simp only [beginCall] at hstep
    split at hstep
    · cases hstep
    · rename_i hdepth
      simp at hcount
      rw [hcount, if_neg hdepth] at hstep
      split at hstep <;> cases hstep
      · rename_i hone
        refine h.jump ⟨rfl, rfl, rfl, rfl, rfl, rfl, rfl⟩ ?_ ?_ ?_ ?_ trivial
        · simp [hpc, Pc.entering]
        · simp [Pc.outside]
        · simp
        · intro _
          omega
      · rename_i hmore
        have hsub : wsub 32 (s.depth t) 1 = s.depth t - 1 := by
          unfold wsub
          omega
        have hsame : s.pc = update s.pc t .idle := by simp [← hpc]
        have hset := h.setCount (t := t) .idle (s.depth t - 1) (s.depth t - 1)
        simp only [State.goto, ← hsame] at hset
        rw [hsub]
        apply hset
        · simp [Pc.entering]
        · omega
        · simp [Pc.entering]
        · exact Or.inl trivial
  | retire u node dest =>
    simp only [beginCall] at hstep
    split at hstep <;> cases hstep
    exact h.calm ⟨rfl, rfl, rfl, rfl, rfl, rfl, rfl⟩ (by simp [hpc, Pc.entering]) rfl
      (by simp) trivial
  | recycle u | sync u =>
    simp only [beginCall, Option.some.injEq] at hstep
    subst hstep
    exact h.calm ⟨rfl, rfl, rfl, rfl, rfl, rfl, rfl⟩ (by simp [hpc, Pc.entering]) rfl
      (by simp) trivial
  | next u => simp [beginCall] at hstep

/-- A step is the beginning of a call by an idle thread, or the next step of
a call. -/
theorem step_cases (hstep : step s a = some s') :
    (∃ t, a = .next t ∧ nextStep s t = some s') ∨
      s.pc a.thread = .idle ∧ beginCall s a.thread a = some s' := by
  cases a with
  | next t => exact Or.inl ⟨t, rfl, hstep⟩
  | _ =>
    right
    simp only [step] at hstep
    split at hstep
    · rename_i hpc
      exact ⟨hpc, hstep⟩
    · cases hstep

theorem step_epochInv (h : EpochInv s) (hfit : NoWrap s a) (hstep : step s a = some s') :
    EpochInv s' := by
  rcases step_cases hstep with ⟨t, rfl, hnext⟩ | ⟨hpc, hbegin⟩
  · exact nextStep_epochInv h hfit.1 hnext
  · exact beginCall_epochInv h (hfit.2 _) hpc hbegin

/-- In every run whose counters do not wrap the epoch invariant holds. -/
theorem run_epochInv {past : List (State Tid Node Dest × Act Tid Node Dest)}
    (run : (machine Tid Node Dest).Run past s) (hfit : AllSteps NoWrap past) : EpochInv s := by
  apply run.invariant_if _ _ hfit
  · intro s hs
    rw [hs]
    exact vebrInit_epochInv
  · intro s a s' h hok hstep
    exact step_epochInv h hok hstep

end Libvsync.Smr.Ebr
