import Mathlib.Data.Fintype.Card
import Libvsync.Core.Word
import Libvsync.Thread.Mutex

/-!
The futex mutex `musl`. The word `lock` is 0 when the mutex is free and 2 when a thread of
the slow path has marked it, and `waiters` counts the threads between their increment and
their decrement of it. A woken thread takes the mutex without the mark, so the next release
wakes someone only because it reads `waiters` after it has written 0.

The futex is that of `slim` and `tristate`. The number of rounds of the spin loop is a
parameter, and 0 when the loop is switched off.
-/

namespace Libvsync.Thread.Musl

open Libvsync.Core Function
open Libvsync.Thread.Mutex (Act)

/-- Where a call stands. `wait` is the call of `vfutex_wait` and `relWake` the call of
`vfutex_wake`. -/
inductive Pc where
  | idle
  | acqCas
  | acqSpinLock (spin : Nat)
  | acqSpinWaiters (spin : Nat)
  | acqTake
  | acqInc
  | acqMark
  | wait
  | asleep
  | acqDec
  | critical
  | relXchg
  | relRead (old : Nat)
  | relWake
  deriving DecidableEq

structure State (Tid : Type) where
  lock : Nat
  waiters : Nat
  sleepers : List Tid
  pc : Tid → Pc

variable {Tid : Type} [DecidableEq Tid]

def State.goto (s : State Tid) (t : Tid) (pc : Pc) : State Tid :=
  { s with pc := update s.pc t pc }

/-- `vfutex_wait(&m->lock, 2)` -/
def State.vfutexWait (s : State Tid) (t : Tid) : State Tid :=
  if s.lock = 2 then { s with sleepers := t :: s.sleepers }.goto t .asleep
  else s.goto t .acqDec

/-- `u` returns from its sleep. -/
def State.awake (s : State Tid) (u : Tid) : State Tid :=
  { s with sleepers := s.sleepers.erase u }.goto u .acqDec

/-- The test of the spin loop, before it reads the words. -/
def spinLoop : Nat → Pc
  | 0 => .acqTake
  | spin + 1 => .acqSpinLock spin

/-- The next atomic operation of `t`. -/
def nextStep (maxSpin : Nat) (s : State Tid) (t : Tid) : Option (State Tid) :=
  match s.pc t with
  | .acqCas =>
    if s.lock = 0 then some ({ s with lock := 1 }.goto t .critical)
    else some (s.goto t (spinLoop maxSpin))
  | .acqSpinLock spin =>
    if s.lock ≠ 0 then some (s.goto t (.acqSpinWaiters spin)) else some (s.goto t .acqTake)
  | .acqSpinWaiters spin =>
    if s.waiters = 0 then some (s.goto t (spinLoop spin)) else some (s.goto t .acqTake)
  | .acqTake =>
    if s.lock = 0 then some ({ s with lock := 1 }.goto t .critical)
    else some (s.goto t .acqInc)
  | .acqInc => some ({ s with waiters := wadd 32 s.waiters 1 }.goto t .acqMark)
  | .acqMark =>
    if s.lock = 1 then some ({ s with lock := 2 }.goto t .wait) else some (s.goto t .wait)
  | .wait => some (s.vfutexWait t)
  | .acqDec => some ({ s with waiters := wsub 32 s.waiters 1 }.goto t .acqTake)
  | .relXchg => some ({ s with lock := 0 }.goto t (.relRead s.lock))
  | .relRead old =>
    if s.waiters > 0 ∨ old ≠ 1 then some (s.goto t .relWake) else some (s.goto t .idle)
  | .relWake => if s.sleepers = [] then some (s.goto t .idle) else none
  | _ => none

def step (maxSpin : Nat) (s : State Tid) : Act Tid → Option (State Tid)
  | .acquire t => if s.pc t = .idle then some (s.goto t .acqCas) else none
  | .release t => if s.pc t = .critical then some (s.goto t .relXchg) else none
  | .wake t u =>
    if s.pc t = .relWake ∧ u ∈ s.sleepers then some ((s.awake u).goto t .idle) else none
  | .spurious u => if u ∈ s.sleepers then some (s.awake u) else none
  | .step t => nextStep maxSpin s t

/-- `vmutex_init` -/
structure Initial (s : State Tid) : Prop where
  lock : s.lock = 0
  waiters : s.waiters = 0
  sleepers : s.sleepers = []
  pc : s.pc = fun _ => .idle

def machine (Tid : Type) [DecidableEq Tid] (maxSpin : Nat) : Machine (State Tid) (Act Tid) where
  start := Initial
  step := step maxSpin

/-- From the step of acquire that takes the mutex to the step of release that frees it. -/
def Pc.holds : Pc → Bool
  | .critical | .relXchg => true
  | _ => false

/-- Between the increment of `waiters` and the decrement. -/
def Pc.between : Pc → Bool
  | .acqMark | .wait | .asleep | .acqDec => true
  | _ => false

/-- Inside `vmutex_acquire` and not asleep. -/
def Pc.acquiring : Pc → Bool
  | .acqCas | .acqSpinLock _ | .acqSpinWaiters _ | .acqTake | .acqInc | .acqMark | .wait
  | .acqDec => true
  | _ => false

/-- Between the exchange of `vmutex_release` and the end of its wake decision. -/
def Pc.releasing : Pc → Bool
  | .relRead _ | .relWake => true
  | _ => false

/-- `between` are the threads between their increment and their decrement. -/
def Between (s : State Tid) (between : Finset Tid) : Prop :=
  ∀ t, t ∈ between ↔ (s.pc t).between = true

/-- Fewer than `2 ^ 32` threads are between increment and decrement, also after the step. -/
def Few (s : State Tid) (a : Act Tid) : Prop :=
  ∀ t between, a = .step t → s.pc t = .acqInc → Between s between → between.card + 1 < 2 ^ 32

/-- The mutex is free and threads sleep for it, but nobody else is going to look at it or to
wake them. -/
structure Stuck (s : State Tid) : Prop where
  free : s.lock = 0
  asleep : ∃ u, s.pc u = .asleep
  acquiring : ∀ t, (s.pc t).acquiring = false
  releasing : ∀ t, (s.pc t).releasing = false

def Pc.rouses (pc : Pc) : Bool := pc.acquiring || pc.releasing

/-- `few` says that `Few` held in every step of the past. -/
structure Inv (few : Prop) (s : State Tid) (holder : Option Tid) (busy : Finset Tid) :
    Prop where
  holds : ∀ t, (s.pc t).holds = true ↔ holder = some t
  lock : s.lock = 0 ↔ holder = none
  between : Between s busy
  waiters : s.waiters = busy.card % 2 ^ 32
  sleepers : ∀ t, t ∈ s.sleepers ↔ s.pc t = .asleep
  nodup : s.sleepers.Nodup
  count : few → busy.card < 2 ^ 32
  covered : few → ∀ u, s.pc u = .asleep → s.lock = 0 → ∃ t, (s.pc t).rouses = true

variable {few few' : Prop} {s s' : State Tid} {holder holder' : Option Tid}
  {busy busy' : Finset Tid} {t u : Tid} {pc : Pc} {m n maxSpin : Nat}

theorem goto_self (s : State Tid) (t : Tid) (pc : Pc) : (s.goto t pc).pc t = pc :=
  update_self ..

theorem goto_other (s : State Tid) (pc : Pc) (hu : u ≠ t) : (s.goto t pc).pc u = s.pc u :=
  update_of_ne hu ..

/-- A thread that is awake writes the two words and moves on, awake. The last premise says
that it takes nothing from those that sleep. -/
theorem Inv.move (h : Inv few s holder busy) (hfew : few' → few) (hold : s.pc t ≠ .asleep)
    (hnew : pc ≠ .asleep)
    (hholds : ∀ u, holder' = some u ↔ if u = t then pc.holds = true else holder = some u)
    (hlock : m = 0 ↔ holder' = none)
    (hbetween : ∀ u, u ∈ busy' ↔ if u = t then pc.between = true else u ∈ busy)
    (hwaiters : n = busy'.card % 2 ^ 32) (hcount : few' → busy'.card < 2 ^ 32)
    (hcovers : few' → m = 0 → pc.rouses = true ∨
      (s.lock = 0 ∧ (s.pc t).rouses = false) ∨ ∀ u, s.pc u ≠ .asleep) :
    Inv few' ({ s with lock := m, waiters := n }.goto t pc) holder' busy' := by
  set s' := ({ s with lock := m, waiters := n } : State Tid).goto t pc
  have hself : s'.pc t = pc := goto_self ..
  have hother : ∀ u, u ≠ t → s'.pc u = s.pc u := fun u hu => goto_other _ _ hu
  refine ⟨fun u => ?_, hlock, fun u => ?_, hwaiters, fun u => ?_, h.nodup, hcount,
    fun hfew' u hu hfree => ?_⟩
  · rw [hholds]
    by_cases hut : u = t
    · rw [hut, hself, if_pos rfl]
    · rw [hother u hut, if_neg hut, h.holds]
  · rw [hbetween]
    by_cases hut : u = t
    · rw [hut, hself, if_pos rfl]
    · rw [hother u hut, if_neg hut, h.between]
  · refine (h.sleepers u).trans ?_
    by_cases hut : u = t
    · rw [hut, hself]
      exact iff_of_false hold hnew
    · rw [hother u hut]
  · have hut : u ≠ t := by
      rintro rfl
      exact hnew (hself.symm.trans hu)
    rw [hother u hut] at hu
    rcases hcovers hfew' hfree with hrouses | ⟨hlock, hquiet⟩ | hnone
    · exact ⟨t, by rw [hself]; exact hrouses⟩
    · obtain ⟨w, hw⟩ := h.covered (hfew hfew') u hu hlock
      have hwt : w ≠ t := by
        rintro rfl
        rw [hquiet] at hw
        cases hw
      exact ⟨w, by rw [hother w hwt]; exact hw⟩
    · exact absurd hu (hnone u)

/-- The thread stays on its side of every boundary. -/
theorem Inv.keep (h : Inv few s holder busy) (hfew : few' → few) (hold : s.pc t ≠ .asleep)
    (hnew : pc ≠ .asleep) (hholds : pc.holds = (s.pc t).holds)
    (hbetween : pc.between = (s.pc t).between) (hlock : m = 0 ↔ s.lock = 0)
    (hcovers : few' → m = 0 → pc.rouses = true ∨ (s.pc t).rouses = false ∨
      ∀ u, s.pc u ≠ .asleep) :
    Inv few' ({ s with lock := m }.goto t pc) holder busy := by
  refine h.move hfew hold hnew (fun u => ?_) (hlock.trans h.lock) (fun u => ?_) h.waiters
    (fun hfew' => h.count (hfew hfew')) fun hfew' hfree => ?_
  · by_cases hut : u = t
    · rw [hut, if_pos rfl, hholds, h.holds]
    · rw [if_neg hut]
  · by_cases hut : u = t
    · rw [hut, if_pos rfl, hbetween, h.between]
    · rw [if_neg hut]
  · exact (hcovers hfew' hfree).imp_right (Or.imp_left fun hquiet => ⟨hlock.mp hfree, hquiet⟩)

theorem Inv.goto (h : Inv few s holder busy) (hfew : few' → few) (hold : s.pc t ≠ .asleep)
    (hnew : pc ≠ .asleep) (hholds : pc.holds = (s.pc t).holds)
    (hbetween : pc.between = (s.pc t).between)
    (hcovers : pc.rouses = true ∨ (s.pc t).rouses = false) :
    Inv few' (s.goto t pc) holder busy :=
  h.keep (m := s.lock) hfew hold hnew hholds hbetween Iff.rfl fun _ _ =>
    hcovers.imp_right .inl

theorem Inv.take (h : Inv few s holder busy) (hfew : few' → few) (hold : s.pc t ≠ .asleep)
    (hbetween : (s.pc t).between = false) (hfree : s.lock = 0) :
    Inv few' ({ s with lock := 1 }.goto t .critical) (some t) busy := by
  obtain rfl := h.lock.mp hfree
  refine h.move hfew hold (by decide) (fun u => ?_) (iff_of_false Nat.one_ne_zero nofun)
    (fun u => ?_) h.waiters (fun hfew' => h.count (hfew hfew')) fun _ hlock => nomatch hlock
  · by_cases hut : u = t
    · rw [hut, if_pos rfl]
      exact iff_of_true rfl rfl
    · rw [if_neg hut]
      exact iff_of_false (fun heq => hut (Option.some.inj heq).symm) nofun
  · by_cases hut : u = t
    · rw [hut, if_pos rfl, h.between, hbetween]
      exact Iff.rfl
    · rw [if_neg hut]

theorem Inv.leave (h : Inv few s holder busy) (hfew : few' → few) (hat : s.pc t = .relXchg) :
    Inv few' ({ s with lock := 0 }.goto t (.relRead s.lock)) none busy := by
  have hheld : holder = some t := (h.holds t).mp (by rw [hat]; rfl)
  refine h.move hfew (by rw [hat]; decide) (fun heq => nomatch heq) (fun u => ?_)
    (iff_of_true rfl rfl) (fun u => ?_) h.waiters (fun hfew' => h.count (hfew hfew'))
    fun _ _ => .inl rfl
  · by_cases hut : u = t
    · rw [hut, if_pos rfl]
      exact iff_of_false nofun Bool.false_ne_true
    · rw [if_neg hut, hheld]
      exact iff_of_false nofun fun heq => hut (Option.some.inj heq).symm
  · by_cases hut : u = t
    · rw [hut, if_pos rfl, h.between, hat]
      exact Iff.rfl
    · rw [if_neg hut]

theorem Inv.inc (h : Inv few s holder busy) (hfew : few' → few) (hat : s.pc t = .acqInc)
    (hroom : few' → busy.card + 1 < 2 ^ 32) :
    Inv few' ({ s with waiters := wadd 32 s.waiters 1 }.goto t .acqMark) holder
      (insert t busy) := by
  have hout : t ∉ busy := by
    rw [h.between, hat]
    exact Bool.false_ne_true
  have hcard : (insert t busy).card = busy.card + 1 := Finset.card_insert_of_notMem hout
  refine h.move hfew (by rw [hat]; decide) (by decide) (fun u => ?_) h.lock (fun u => ?_) ?_
    (fun hfew' => ?_) fun _ _ => .inl rfl
  · by_cases hut : u = t
    · rw [hut, if_pos rfl, ← h.holds, hat]
      exact Iff.rfl
    · rw [if_neg hut]
  · by_cases hut : u = t
    · rw [hut, if_pos rfl]
      exact iff_of_true (Finset.mem_insert_self t busy) rfl
    · rw [if_neg hut, Finset.mem_insert, or_iff_right hut]
  · rw [hcard, h.waiters, wadd_mod]
  · rw [hcard]
    exact hroom hfew'

theorem Inv.dec (h : Inv few s holder busy) (hfew : few' → few) (hat : s.pc t = .acqDec) :
    Inv few' ({ s with waiters := wsub 32 s.waiters 1 }.goto t .acqTake) holder
      (busy.erase t) := by
  have hin : t ∈ busy := by
    rw [h.between, hat]
    rfl
  have hcard : (busy.erase t).card + 1 = busy.card := Finset.card_erase_add_one hin
  refine h.move hfew (by rw [hat]; decide) (by decide) (fun u => ?_) h.lock (fun u => ?_) ?_
    (fun hfew' => ?_) fun _ _ => .inl rfl
  · by_cases hut : u = t
    · rw [hut, if_pos rfl, ← h.holds, hat]
      exact Iff.rfl
    · rw [if_neg hut]
  · by_cases hut : u = t
    · rw [hut, if_pos rfl]
      exact iff_of_false (Finset.notMem_erase t busy) Bool.false_ne_true
    · rw [if_neg hut, Finset.mem_erase, and_iff_right hut]
  · rw [h.waiters, ← hcard, wsub]
    omega
  · have hlt := h.count (hfew hfew')
    omega

/-- A thread goes to sleep, or sees that the word is not 2. -/
theorem Inv.vfutexWait (h : Inv few s holder busy) (hfew : few' → few) (hat : s.pc t = .wait) :
    Inv few' (s.vfutexWait t) holder busy := by
  unfold State.vfutexWait
  split
  · rename_i hmark
    set s' := ({ s with sleepers := t :: s.sleepers } : State Tid).goto t .asleep
    have hself : s'.pc t = .asleep := goto_self ..
    have hother : ∀ u, u ≠ t → s'.pc u = s.pc u := fun u hu => goto_other _ _ hu
    refine ⟨fun u => ?_, h.lock, fun u => ?_, h.waiters, fun u => ?_,
      List.nodup_cons.mpr ⟨fun ht => ?_, h.nodup⟩, fun hfew' => h.count (hfew hfew'),
      fun _ _ _ hfree => ?_⟩
    · by_cases hut : u = t
      · rw [hut, hself, ← h.holds t, hat]
        exact Iff.rfl
      · rw [hother u hut]
        exact h.holds u
    · by_cases hut : u = t
      · rw [hut, hself, h.between, hat]
        exact Iff.rfl
      · rw [hother u hut]
        exact h.between u
    · change u ∈ t :: s.sleepers ↔ _
      rw [List.mem_cons]
      by_cases hut : u = t
      · rw [hut, hself]
        exact iff_of_true (.inl rfl) rfl
      · rw [hother u hut, or_iff_right hut]
        exact h.sleepers u
    · rw [h.sleepers, hat] at ht
      cases ht
    · change s.lock = 0 at hfree
      rw [hmark] at hfree
      cases hfree
  · exact h.goto hfew (by rw [hat]; decide) (by decide) (by rw [hat]; rfl) (by rw [hat]; rfl)
      (.inl rfl)

theorem Inv.awake (h : Inv few s holder busy) (hfew : few' → few) (hu : u ∈ s.sleepers) :
    Inv few' (s.awake u) holder busy ∧ (s.awake u).pc u = .acqDec := by
  have hasleep := (h.sleepers u).mp hu
  have hself : (s.awake u).pc u = .acqDec := goto_self ..
  have hother : ∀ w, w ≠ u → (s.awake u).pc w = s.pc w := fun w hw => goto_other _ _ hw
  refine ⟨⟨fun w => ?_, h.lock, fun w => ?_, h.waiters, fun w => ?_, h.nodup.erase u,
    fun hfew' => h.count (hfew hfew'), fun _ _ _ _ => ⟨u, by rw [hself]; rfl⟩⟩, hself⟩
  · by_cases hwu : w = u
    · rw [hwu, hself, ← h.holds u, hasleep]
      exact Iff.rfl
    · rw [hother w hwu]
      exact h.holds w
  · by_cases hwu : w = u
    · rw [hwu, hself, h.between, hasleep]
      exact Iff.rfl
    · rw [hother w hwu]
      exact h.between w
  · change w ∈ s.sleepers.erase u ↔ _
    rw [h.nodup.mem_erase_iff]
    by_cases hwu : w = u
    · rw [hwu, hself]
      exact iff_of_false (fun hw => hw.1 rfl) (by decide)
    · rw [hother w hwu, ← h.sleepers w]
      exact and_iff_right hwu

omit [DecidableEq Tid] in
/-- As long as `waiters` is the number of threads, it is not 0 when one of them sleeps. -/
theorem Inv.waiters_pos (h : Inv few s holder busy) (hfew : few) (hu : s.pc u = .asleep) :
    0 < s.waiters := by
  have hin : u ∈ busy := by
    rw [h.between, hu]
    rfl
  rw [h.waiters, Nat.mod_eq_of_lt (h.count hfew)]
  exact Finset.card_pos.mpr ⟨u, hin⟩

theorem spinLoop_cases (spin : Nat) : spinLoop spin = .acqTake ∨
    ∃ k, spinLoop spin = .acqSpinLock k := by
  cases spin with
  | zero => exact .inl rfl
  | succ k => exact .inr ⟨k, rfl⟩

theorem Inv.spin (h : Inv few s holder busy) (hfew : few' → few) (hold : s.pc t ≠ .asleep)
    (hholds : (s.pc t).holds = false) (hbetween : (s.pc t).between = false) (spin : Nat) :
    Inv few' (s.goto t (spinLoop spin)) holder busy := by
  rcases spinLoop_cases spin with hpc | ⟨k, hpc⟩
  · rw [hpc]
    exact h.goto hfew hold (by decide) hholds.symm hbetween.symm (.inl rfl)
  · rw [hpc]
    exact h.goto hfew hold (fun heq => nomatch heq) hholds.symm hbetween.symm (.inl rfl)

theorem Inv.nextStep (h : Inv few s holder busy) (hfew : few' → few)
    (hroom : few' → s.pc t = .acqInc → busy.card + 1 < 2 ^ 32)
    (hstep : nextStep maxSpin s t = some s') : ∃ holder' busy', Inv few' s' holder' busy' := by
  unfold Musl.nextStep at hstep
  cases hat : s.pc t <;> rw [hat] at hstep
  case acqCas =>
    dsimp only at hstep
    split at hstep
    · rename_i hfree
      cases hstep
      exact ⟨_, _, h.take hfew (by rw [hat]; decide) (by rw [hat]; rfl) hfree⟩
    · cases hstep
      exact ⟨_, _, h.spin hfew (by rw [hat]; decide) (by rw [hat]; rfl) (by rw [hat]; rfl) _⟩
  case acqSpinLock spin =>
    dsimp only at hstep
    split at hstep <;> cases hstep
    · exact ⟨_, _, h.goto hfew (fun heq => nomatch hat.symm.trans heq) (fun heq => nomatch heq)
        (by rw [hat]; rfl) (by rw [hat]; rfl) (.inl rfl)⟩
    · exact ⟨_, _, h.goto hfew (fun heq => nomatch hat.symm.trans heq) (by decide)
        (by rw [hat]; rfl) (by rw [hat]; rfl) (.inl rfl)⟩
  case acqSpinWaiters spin =>
    dsimp only at hstep
    split at hstep <;> cases hstep
    · exact ⟨_, _, h.spin hfew (fun heq => nomatch hat.symm.trans heq) (by rw [hat]; rfl)
        (by rw [hat]; rfl) _⟩
    · exact ⟨_, _, h.goto hfew (fun heq => nomatch hat.symm.trans heq) (by decide)
        (by rw [hat]; rfl) (by rw [hat]; rfl) (.inl rfl)⟩
  case acqTake =>
    dsimp only at hstep
    split at hstep
    · rename_i hfree
      cases hstep
      exact ⟨_, _, h.take hfew (by rw [hat]; decide) (by rw [hat]; rfl) hfree⟩
    · cases hstep
      exact ⟨_, _, h.goto hfew (by rw [hat]; decide) (by decide) (by rw [hat]; rfl)
        (by rw [hat]; rfl) (.inl rfl)⟩
  case acqInc =>
    cases hstep
    exact ⟨_, _, h.inc hfew hat fun hfew' => hroom hfew' hat⟩
  case acqMark =>
    dsimp only at hstep
    split at hstep
    · rename_i hone
      cases hstep
      exact ⟨_, _, h.keep hfew (by rw [hat]; decide) (by decide) (by rw [hat]; rfl)
        (by rw [hat]; rfl) (iff_of_false (by decide) (by omega)) fun _ _ => .inl rfl⟩
    · cases hstep
      exact ⟨_, _, h.goto hfew (by rw [hat]; decide) (by decide) (by rw [hat]; rfl)
        (by rw [hat]; rfl) (.inl rfl)⟩
  case wait =>
    cases hstep
    exact ⟨_, _, h.vfutexWait hfew hat⟩
  case acqDec =>
    cases hstep
    exact ⟨_, _, h.dec hfew hat⟩
  case relXchg =>
    cases hstep
    exact ⟨_, _, h.leave hfew hat⟩
  case relRead old =>
    dsimp only at hstep
    split at hstep
    · cases hstep
      exact ⟨_, _, h.goto hfew (fun heq => nomatch hat.symm.trans heq) (by decide)
        (by rw [hat]; rfl) (by rw [hat]; rfl) (.inl rfl)⟩
    · rename_i hquiet
      cases hstep
      -- `waiters` was 0, so nobody sleeps
      refine ⟨_, _, h.keep (m := s.lock) hfew (fun heq => nomatch hat.symm.trans heq)
        (by decide) (by rw [hat]; rfl) (by rw [hat]; rfl) Iff.rfl fun hfew' _ =>
          .inr (.inr fun u hu => ?_)⟩
      exact hquiet (.inl (h.waiters_pos (hfew hfew') hu))
  case relWake =>
    dsimp only at hstep
    split at hstep
    · rename_i hnone
      cases hstep
      refine ⟨_, _, h.keep (m := s.lock) hfew (by rw [hat]; decide) (by decide)
        (by rw [hat]; rfl) (by rw [hat]; rfl) Iff.rfl fun _ _ => .inr (.inr fun u hu => ?_)⟩
      rw [← h.sleepers u, hnone] at hu
      exact List.not_mem_nil hu
    · cases hstep
  all_goals cases hstep

theorem Inv.step {a : Act Tid} (h : Inv few s holder busy) (hfew : few' → few ∧ Few s a)
    (hstep : step maxSpin s a = some s') : ∃ holder' busy', Inv few' s' holder' busy' := by
  have hpast : few' → few := fun hfew' => (hfew hfew').1
  cases a with
  | acquire t =>
    obtain ⟨hat, hs⟩ := Option.ite_none_right_eq_some.mp hstep
    cases hs
    exact ⟨_, _, h.goto hpast (by rw [hat]; decide) (by decide) (by rw [hat]; rfl)
      (by rw [hat]; rfl) (.inl rfl)⟩
  | release t =>
    obtain ⟨hat, hs⟩ := Option.ite_none_right_eq_some.mp hstep
    cases hs
    exact ⟨_, _, h.goto hpast (by rw [hat]; decide) (by decide) (by rw [hat]; rfl)
      (by rw [hat]; rfl) (.inr (by rw [hat]; rfl))⟩
  | wake t u =>
    obtain ⟨⟨hat, hu⟩, hs⟩ := Option.ite_none_right_eq_some.mp hstep
    cases hs
    obtain ⟨hinv, hback⟩ := h.awake hpast hu
    have htu : u ≠ t := by
      rintro rfl
      rw [h.sleepers, hat] at hu
      cases hu
    have hat' : (s.awake u).pc t = .relWake := (goto_other _ _ htu.symm).trans hat
    -- the woken thread is awake inside acquire
    have hwoken : ((s.awake u).goto t .idle).pc u = .acqDec := (goto_other _ _ htu).trans hback
    have hkept : Inv False ((s.awake u).goto t .idle) holder busy :=
      hinv.keep (m := s.lock) False.elim (by rw [hat']; decide) (by decide)
        (by rw [hat']; rfl) (by rw [hat']; rfl) Iff.rfl fun hno => hno.elim
    exact ⟨holder, busy, hkept.holds, hkept.lock, hkept.between, hkept.waiters, hkept.sleepers,
      hkept.nodup, hinv.count, fun _ _ _ _ => ⟨u, by rw [hwoken]; rfl⟩⟩
  | spurious u =>
    obtain ⟨hu, hs⟩ := Option.ite_none_right_eq_some.mp hstep
    cases hs
    exact ⟨_, _, (h.awake hpast hu).1⟩
  | step t =>
    exact h.nextStep hpast (fun hfew' hat => (hfew hfew').2 t busy rfl hat h.between) hstep

omit [DecidableEq Tid] in
theorem Initial.inv (h : Initial s) : Inv few s none ∅ := by
  refine ⟨fun t => ?_, iff_of_true h.lock rfl, fun t => ?_, h.waiters, fun t => ?_, ?_,
    fun _ => by rw [Finset.card_empty]; decide, fun _ u hu => ?_⟩
  · rw [h.pc]
    exact iff_of_false Bool.false_ne_true nofun
  · rw [h.pc]
    exact iff_of_false (Finset.notMem_empty t) Bool.false_ne_true
  · rw [h.sleepers, h.pc]
    exact iff_of_false List.not_mem_nil Pc.noConfusion
  · rw [h.sleepers]
    exact List.nodup_nil
  · rw [h.pc] at hu
    cases hu

theorem run_inv {past : List (State Tid × Act Tid)} (run : (machine Tid maxSpin).Run past s) :
    ∃ holder busy, Inv (AllSteps Few past) s holder busy := by
  have hall : AllSteps (fun _ _ => True) past := fun _ _ => trivial
  refine run.history_invariant
    (I := fun past s => ∃ holder busy, Inv (AllSteps Few past) s holder busy)
    (fun _ hstart => ⟨none, ∅, Initial.inv hstart⟩) ?_ hall
  intro past s a s' _ ⟨holder, busy, h⟩ _ hstep
  exact h.step (fun hfew => ⟨hfew.tail, hfew.head⟩) hstep

/-- At most one thread has the mutex, and `waiters` is the number of threads between their
increment and their decrement, modulo the width of the word. As long as that number fits the
word, the mutex is never free with only sleeping threads waiting for it. -/
theorem musl_safe (Tid : Type) [DecidableEq Tid] (maxSpin : Nat)
    {past : List (State Tid × Act Tid)} {s : State Tid}
    (run : (machine Tid maxSpin).Run past s) :
    (∀ t u, (s.pc t).holds = true → (s.pc u).holds = true → t = u) ∧
      (∃ between, Between s between ∧ s.waiters = between.card % 2 ^ 32) ∧
      (AllSteps Few past →
        (∃ between, Between s between ∧ s.waiters = between.card) ∧ ¬ Stuck s) := by
  obtain ⟨holder, busy, h⟩ := run_inv run
  refine ⟨fun t u ht hu => ?_, ⟨busy, h.between, h.waiters⟩, fun hfew => ⟨⟨busy, h.between, ?_⟩,
    fun hstuck => ?_⟩⟩
  · exact Option.some.inj (((h.holds t).mp ht).symm.trans ((h.holds u).mp hu))
  · rw [h.waiters, Nat.mod_eq_of_lt (h.count hfew)]
  · obtain ⟨u, hu⟩ := hstuck.asleep
    obtain ⟨t, ht⟩ := h.covered hfew u hu hstuck.free
    rw [Pc.rouses, hstuck.acquiring t, hstuck.releasing t] at ht
    cases ht

def freeMutex : State Bool := ⟨0, 0, [], fun _ => .idle⟩

/-- Thread `false` has the mutex and thread `true` spins once and sleeps, until the release
wakes it. -/
def woken : List (Act Bool) :=
  [.acquire false, .step false, .acquire true, .step true, .step true, .step true, .step true,
    .step true, .step true, .step true, .release false, .step false, .step false,
    .wake false true]

theorem musl_safe_woken : ∃ past s, (machine Bool 1).Run past s ∧ s.lock = 0 ∧
    s.pc true = .acqDec ∧ s.waiters = 1 ∧ (∃ between, Between s between ∧ between.card = 1) ∧
      ¬ Stuck s := by
  have hexec : ((machine Bool 1).exec freeMutex woken).map
      (fun s => (s.lock, s.pc true, s.waiters)) = some (0, .acqDec, 1) := by
    decide +kernel
  obtain ⟨s, hs, hview⟩ := Option.map_eq_some_iff.mp hexec
  obtain ⟨hlock, hrest⟩ := Prod.mk.inj hview
  obtain ⟨hpc, hwaiters⟩ := Prod.mk.inj hrest
  have run := (Machine.Run.start (M := machine Bool 1) (s := freeMutex)
    ⟨rfl, rfl, rfl, rfl⟩).exec hs
  have hfew : AllSteps Few ((machine Bool 1).pastOf freeMutex [] woken) := by
    intro p _ t between _ _ _
    have hcard : between.card ≤ 2 := Finset.card_le_univ between
    omega
  obtain ⟨-, -, hsafe⟩ := musl_safe Bool 1 run
  obtain ⟨⟨between, hbetween, hcount⟩, hstuck⟩ := hsafe hfew
  exact ⟨_, s, run, hlock, hpc, hwaiters, ⟨between, hbetween, hcount.symm.trans hwaiters⟩, hstuck⟩

section ManySleepers

variable {s s' : State Nat} {k : Nat}

def Reached (maxSpin : Nat) (s : State Nat) : Prop := ∃ past, (machine Nat maxSpin).Run past s

theorem Reached.step {a : Act Nat} (h : Reached maxSpin s)
    (hstep : step maxSpin s a = some s') : Reached maxSpin s' :=
  h.elim fun _ run => ⟨_, run.step hstep⟩

omit [DecidableEq Tid] in
theorem goto_goto [DecidableEq Tid] (s : State Tid) (t : Tid) (pc pc' : Pc) :
    (s.goto t pc).goto t pc' = s.goto t pc' := by
  rw [State.goto, State.goto, State.goto, update_idem]

/-- Thread 0 has the mutex, and threads 1 to `k` sleep. -/
structure Parked (k : Nat) (s : State Nat) : Prop where
  lock : s.lock = 1 ∨ s.lock = 2
  waiters : s.waiters = k % 2 ^ 32
  holder : s.pc 0 = .critical
  asleep : ∀ t, 1 ≤ t → t ≤ k → s.pc t = .asleep
  idle : ∀ t, k < t → s.pc t = .idle

theorem Reached.spin {t : Nat} (hlock : s.lock ≠ 0) {spin : Nat}
    (h : Reached maxSpin (s.goto t (spinLoop spin))) : Reached maxSpin (s.goto t .acqTake) := by
  induction spin with
  | zero => exact h
  | succ spin ih =>
    have hwaiters : Reached maxSpin (s.goto t (.acqSpinWaiters spin)) := by
      refine h.step (a := .step t) ?_
      rw [spinLoop, Musl.step, nextStep, goto_self]
      exact (if_pos hlock).trans (congrArg some (goto_goto ..))
    by_cases hzero : s.waiters = 0
    · refine ih (hwaiters.step (a := .step t) ?_)
      rw [Musl.step, nextStep, goto_self]
      exact (if_pos hzero).trans (congrArg some (goto_goto ..))
    · refine hwaiters.step (a := .step t) ?_
      rw [Musl.step, nextStep, goto_self]
      exact (if_neg hzero).trans (congrArg some (goto_goto ..))

theorem Parked.next (h : Parked k s) (hreach : Reached maxSpin s) :
    ∃ s', Parked (k + 1) s' ∧ Reached maxSpin s' := by
  have htaken : s.lock ≠ 0 := by
    have hlock := h.lock
    omega
  set t := k + 1 with ht
  have hidle : s.pc t = .idle := h.idle t (Nat.lt_succ_self k)
  have hcas : Reached maxSpin (s.goto t .acqCas) := hreach.step (a := .acquire t) (if_pos hidle)
  have hspin : Reached maxSpin (s.goto t (spinLoop maxSpin)) := by
    refine hcas.step (a := .step t) ?_
    rw [Musl.step, nextStep, goto_self]
    exact (if_neg htaken).trans (congrArg some (goto_goto ..))
  have hinc : Reached maxSpin (s.goto t .acqInc) := by
    refine (hspin.spin htaken).step (a := .step t) ?_
    rw [Musl.step, nextStep, goto_self]
    exact (if_neg htaken).trans (congrArg some (goto_goto ..))
  set counted : State Nat := { s with waiters := wadd 32 s.waiters 1 }
  have hmark : Reached maxSpin (counted.goto t .acqMark) := by
    refine hinc.step (a := .step t) ?_
    rw [Musl.step, nextStep, goto_self]
    exact congrArg some (goto_goto counted t .acqInc .acqMark)
  set marked : State Nat := { counted with lock := 2 }
  have hwait : Reached maxSpin (marked.goto t .wait) := by
    refine hmark.step (a := .step t) ?_
    rw [Musl.step, nextStep, goto_self]
    rcases h.lock with hone | htwo
    · exact (if_pos hone).trans (congrArg some (goto_goto marked t .acqMark .wait))
    · have hsame : marked = counted := by
        rw [State.mk.injEq]
        exact ⟨htwo.symm, rfl, rfl, rfl⟩
      have hnot : ¬ s.lock = 1 := by omega
      rw [hsame]
      exact (if_neg hnot).trans (congrArg some (goto_goto counted t .acqMark .wait))
  set parked := ({ marked.goto t .wait with sleepers := t :: s.sleepers } :
  State Nat).goto t .asleep
  have hasleep : Reached maxSpin parked := by
    refine hwait.step (a := .step t) ?_
    rw [Musl.step, nextStep, goto_self]
    rfl
  have hother : ∀ u, u ≠ t → parked.pc u = s.pc u := fun u hu =>
    (goto_other _ _ hu).trans (goto_other _ _ hu)
  refine ⟨parked, ⟨.inr rfl, ?_, ?_, fun u hlow hhigh => ?_, fun u hu => ?_⟩, hasleep⟩
  · change wadd 32 s.waiters 1 = _
    rw [h.waiters, wadd_mod]
  · rw [hother 0 (by omega)]
    exact h.holder
  · by_cases hut : u = t
    · rw [hut]
      exact goto_self ..
    · rw [hother u hut]
      exact h.asleep u hlow (by omega)
  · rw [hother u (by omega)]
    exact h.idle u (by omega)

theorem parked_reached (maxSpin k : Nat) : ∃ s, Parked k s ∧ Reached maxSpin s := by
  induction k with
  | zero =>
    let start : State Nat := ⟨0, 0, [], fun _ => .idle⟩
    have hstart : Reached maxSpin start := ⟨[], .start ⟨rfl, rfl, rfl, rfl⟩⟩
    have hcas : Reached maxSpin (start.goto 0 .acqCas) := hstart.step (a := .acquire 0) rfl
    have htaken : Reached maxSpin (({ start with lock := 1 } : State Nat).goto 0 .critical) := by
      refine hcas.step (a := .step 0) (congrArg some ?_)
      exact goto_goto { start with lock := 1 } 0 .acqCas .critical
    refine ⟨_, ⟨.inl rfl, rfl, rfl, fun t hlow hhigh => by omega, fun t ht => ?_⟩, htaken⟩
    exact goto_other _ _ ht.ne'
  | succ k ih =>
    obtain ⟨s, h, hreach⟩ := ih
    exact h.next hreach

/-- When all of `k` threads sleep and `k` is 1 in 32 bits, the one that is woken leaves the
counter at 0, and its release wakes nobody. -/
theorem Parked.strand (h : Parked k s) (hreach : Reached maxSpin s) (hk : k % 2 ^ 32 = 1)
    (hmany : 2 ≤ k) : ∃ s', Reached maxSpin s' ∧ Stuck s' ∧ s'.waiters = 0 := by
  obtain ⟨past, run⟩ := hreach
  obtain ⟨holder, busy, hinv⟩ := run_inv run
  have hone : 1 ∈ s.sleepers := (hinv.sleepers 1).mpr (h.asleep 1 le_rfl (by omega))
  have hwaiters : s.waiters = 1 := h.waiters.trans hk
  -- thread 0 releases and wakes thread 1
  have hxchg : Reached maxSpin (s.goto 0 .relXchg) :=
    Reached.step ⟨past, run⟩ (a := .release 0) (if_pos h.holder)
  set freed : State Nat := { s with lock := 0 }
  have hread : Reached maxSpin (freed.goto 0 (.relRead s.lock)) := by
    refine hxchg.step (a := .step 0) ?_
    rw [Musl.step, nextStep, goto_self]
    exact congrArg some (goto_goto freed 0 .relXchg _)
  have hwake : Reached maxSpin (freed.goto 0 .relWake) := by
    refine hread.step (a := .step 0) ?_
    rw [Musl.step, nextStep, goto_self]
    exact (if_pos (.inl (hwaiters ▸ Nat.one_pos))).trans (congrArg some (goto_goto ..))
  set roused : State Nat := { freed with sleepers := s.sleepers.erase 1 }
  set woken : State Nat := roused.goto 0 .idle
  have hdec : Reached maxSpin (woken.goto 1 .acqDec) := by
    refine hwake.step (a := .wake 0 1) ?_
    refine (if_pos ⟨goto_self .., hone⟩).trans (congrArg some ?_)
    refine State.mk.injEq .. ▸ ⟨rfl, rfl, rfl, ?_⟩
    change update (update (update s.pc 0 .relWake) 1 .acqDec) 0 .idle =
      update (update s.pc 0 .idle) 1 .acqDec
    rw [update_comm Nat.zero_ne_one, update_idem,
      update_comm Nat.one_ne_zero]
  -- thread 1 takes the mutex and releases it
  set counted : State Nat := { woken with waiters := wsub 32 s.waiters 1 }
  have htake : Reached maxSpin (counted.goto 1 .acqTake) := by
    refine hdec.step (a := .step 1) ?_
    rw [Musl.step, nextStep, goto_self]
    exact congrArg some (goto_goto counted 1 .acqDec .acqTake)
  set taken : State Nat := { counted with lock := 1 }
  have hcritical : Reached maxSpin (taken.goto 1 .critical) := by
    refine htake.step (a := .step 1) ?_
    rw [Musl.step, nextStep, goto_self]
    exact congrArg some (goto_goto taken 1 .acqTake .critical)
  have hxchg : Reached maxSpin (taken.goto 1 .relXchg) := by
    refine hcritical.step (a := .release 1) ?_
    rw [Musl.step, goto_self, if_pos rfl, goto_goto]
  have hread : Reached maxSpin (counted.goto 1 (.relRead 1)) := by
    refine hxchg.step (a := .step 1) ?_
    rw [Musl.step, nextStep, goto_self]
    exact congrArg some (goto_goto counted 1 .relXchg _)
  have hzero : counted.waiters = 0 := by
    change wsub 32 s.waiters 1 = 0
    rw [hwaiters]
    rfl
  have hidle : Reached maxSpin (counted.goto 1 .idle) := by
    refine hread.step (a := .step 1) ?_
    rw [Musl.step, nextStep, goto_self]
    refine (if_neg ?_).trans (congrArg some (goto_goto ..))
    rintro (hpos | hne)
    · exact absurd hzero hpos.ne'
    · exact hne rfl
  set last := counted.goto 1 .idle
  have hother : ∀ u, 2 ≤ u → last.pc u = s.pc u := by
    intro u hu
    have hone : u ≠ 1 := (Nat.lt_of_lt_of_le Nat.one_lt_two hu).ne'
    have hzero : u ≠ 0 := (Nat.lt_of_lt_of_le Nat.two_pos hu).ne'
    have hwoken : woken.pc u = s.pc u := goto_other roused .idle hzero
    exact (goto_other counted .idle hone).trans hwoken
  have hquiet : ∀ u, last.pc u = .idle ∨ last.pc u = .asleep := by
    intro u
    rcases Nat.lt_or_ge u 2 with hlow | hhigh
    · have hcases : u = 0 ∨ u = 1 := by omega
      rcases hcases with rfl | rfl
      · have hwoken : woken.pc 0 = .idle := goto_self roused 0 .idle
        exact .inl ((goto_other counted .idle Nat.zero_ne_one).trans hwoken)
      · exact .inl (goto_self counted 1 .idle)
    · rw [hother u hhigh]
      rcases Nat.lt_or_ge k u with hout | hin
      · exact .inl (h.idle u hout)
      · exact .inr (h.asleep u (by omega) hin)
  refine ⟨last, hidle, ⟨rfl, ⟨2, ?_⟩, fun t => ?_, fun t => ?_⟩, hzero⟩
  · rw [hother 2 le_rfl]
    exact h.asleep 2 one_le_two hmany
  · rcases hquiet t with hpc | hpc <;> rw [hpc] <;> rfl
  · rcases hquiet t with hpc | hpc <;> rw [hpc] <;> rfl

/-- With `2 ^ 32 + 1` waiting threads the counter is 0 while threads sleep, and nobody is left
to wake them. -/
theorem musl_many_sleepers : ∃ past s, (machine Nat 100).Run past s ∧ Stuck s ∧
    ∀ between, Between s between → s.waiters ≠ between.card := by
  obtain ⟨s, hparked, hreach⟩ := parked_reached 100 (2 ^ 32 + 1)
  obtain ⟨s', ⟨past, run⟩, hstuck, hzero⟩ := hparked.strand hreach rfl (by decide)
  refine ⟨past, s', run, hstuck, fun between hbetween hcard => ?_⟩
  obtain ⟨u, hu⟩ := hstuck.asleep
  have hin : u ∈ between := (hbetween u).mpr (by rw [hu]; rfl)
  rw [hzero, eq_comm, Finset.card_eq_zero] at hcard
  rw [hcard] at hin
  exact Finset.notMem_empty u hin

end ManySleepers

end Libvsync.Thread.Musl
