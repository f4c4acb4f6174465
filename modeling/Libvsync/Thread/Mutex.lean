import Mathlib.Data.List.Nodup
import Libvsync.Core.Machine

/-!
The futex mutexes of one word, `slim` and `tristate`. The word is 0 when the mutex is
free, and 2 when there may be threads that sleep. In `slim` a thread of the slow path
always writes 2; in `tristate` it marks a taken mutex, and takes a free one with the mark.

`vfutex_wait` compares the word and goes to sleep in one step, and `vfutex_wake` wakes one
thread that sleeps when there is one. A thread may also return from its sleep without
being woken.
-/

namespace Libvsync.Thread.Mutex

open Libvsync.Core

/-- Where a call stands. `wait` is the call of `vfutex_wait` and `relWake` the call of
`vfutex_wake`. -/
inductive Pc where
  | idle
  | acqCas
  | acqXchg
  | acqMark
  | wait
  | asleep
  | acqTake
  | critical
  | relXchg
  | relCas
  | relWrite
  | relWake
  deriving DecidableEq

structure State (Tid : Type) where
  m : Nat
  sleepers : List Tid
  pc : Tid → Pc

inductive Act (Tid : Type) where
  | acquire (t : Tid)
  | release (t : Tid)
  | wake (t u : Tid)
  | spurious (t : Tid)
  | step (t : Tid)

variable {Tid : Type} [DecidableEq Tid]

def State.goto (s : State Tid) (t : Tid) (pc : Pc) : State Tid :=
  { s with pc := Function.update s.pc t pc }

def State.write (s : State Tid) (m : Nat) (t : Tid) (pc : Pc) : State Tid :=
  { s with m := m }.goto t pc

/-- `vfutex_wait(m, 2)`, which returns to `back`. -/
def State.vfutexWait (s : State Tid) (t : Tid) (back : Pc) : State Tid :=
  if s.m = 2 then { s with sleepers := t :: s.sleepers }.goto t .asleep else s.goto t back

/-- `u` returns from its sleep to `back`. -/
def State.awake (s : State Tid) (u : Tid) (back : Pc) : State Tid :=
  { s with sleepers := s.sleepers.erase u }.goto u back

/-- `vfutex_wake` finds nobody. -/
def State.wakeNone (s : State Tid) (t : Tid) : Option (State Tid) :=
  if s.sleepers = [] then some (s.goto t .idle) else none

/-- The next atomic operation of `t` in `slim.h`. -/
def slimStep (s : State Tid) (t : Tid) : Option (State Tid) :=
  match s.pc t with
  | .acqCas => if s.m = 0 then some (s.write 1 t .critical) else some (s.goto t .acqXchg)
  | .acqXchg => if s.m ≠ 0 then some (s.write 2 t .wait) else some (s.write 2 t .critical)
  | .wait => some (s.vfutexWait t .acqXchg)
  | .relXchg => if s.m = 1 then some (s.write 0 t .idle) else some (s.write 0 t .relWake)
  | .relWake => s.wakeNone t
  | _ => none

/-- The next atomic operation of `t` in `tristate.h`. -/
def tristateStep (s : State Tid) (t : Tid) : Option (State Tid) :=
  match s.pc t with
  | .acqCas => if s.m = 0 then some (s.write 1 t .critical) else some (s.goto t .acqMark)
  | .acqMark => if s.m = 1 then some (s.write 2 t .wait) else some (s.goto t .wait)
  | .wait => some (s.vfutexWait t .acqTake)
  | .acqTake => if s.m ≠ 0 then some (s.goto t .acqMark) else some (s.write 2 t .critical)
  | .relCas => if s.m = 1 then some (s.write 0 t .idle) else some (s.goto t .relWrite)
  | .relWrite => some (s.write 0 t .relWake)
  | .relWake => s.wakeNone t
  | _ => none

/-- One of the two mutexes: its steps, where its release begins and where it goes on after
`vfutex_wait`. -/
structure Variant (Tid : Type) where
  next : State Tid → Tid → Option (State Tid)
  release : Pc
  back : Pc

def slim (Tid : Type) [DecidableEq Tid] : Variant Tid := ⟨slimStep, .relXchg, .acqXchg⟩

def tristate (Tid : Type) [DecidableEq Tid] : Variant Tid := ⟨tristateStep, .relCas, .acqTake⟩

def step (v : Variant Tid) (s : State Tid) : Act Tid → Option (State Tid)
  | .acquire t => if s.pc t = .idle then some (s.goto t .acqCas) else none
  | .release t => if s.pc t = .critical then some (s.goto t v.release) else none
  | .wake t u =>
    if s.pc t = .relWake ∧ u ∈ s.sleepers then some ((s.awake u v.back).goto t .idle) else none
  | .spurious u => if u ∈ s.sleepers then some (s.awake u v.back) else none
  | .step t => v.next s t

/-- `vmutex_init` -/
structure Initial (s : State Tid) : Prop where
  m : s.m = 0
  sleepers : s.sleepers = []
  pc : s.pc = fun _ => .idle

def machine (v : Variant Tid) : Machine (State Tid) (Act Tid) where
  start := Initial
  step := step v

/-- From the step of acquire that takes the mutex to the step of release that frees it. -/
def Pc.holds : Pc → Bool
  | .critical | .relXchg | .relCas | .relWrite => true
  | _ => false

/-- Inside the slow path of acquire and not asleep. -/
def Pc.slow : Pc → Bool
  | .acqXchg | .acqMark | .wait | .acqTake => true
  | _ => false

/-- The thread is going to wake someone or to look at the word again. -/
def Pc.rouses (pc : Pc) : Prop := pc = .relWake ∨ pc.slow = true

structure Inv (s : State Tid) (holder : Option Tid) : Prop where
  holds : ∀ t, (s.pc t).holds = true ↔ holder = some t
  word : s.m = 0 ↔ holder = none
  sleepers : ∀ t, t ∈ s.sleepers ↔ s.pc t = .asleep
  nodup : s.sleepers.Nodup
  covered : ∀ u, s.pc u = .asleep → s.m = 2 ∨ ∃ t, (s.pc t).rouses

variable {v : Variant Tid} {s s' : State Tid} {holder : Option Tid} {t u : Tid} {pc : Pc} {m : Nat}

theorem goto_self (s : State Tid) (t : Tid) (pc : Pc) : (s.goto t pc).pc t = pc :=
  Function.update_self ..

theorem goto_other (s : State Tid) (pc : Pc) (hu : u ≠ t) : (s.goto t pc).pc u = s.pc u :=
  Function.update_of_ne hu ..

/-- The step of `t` takes nothing from the threads that sleep: the mark is in the word, or
`t` rouses someone afterwards or did not before, or another thread does. -/
def Covers (s : State Tid) (t : Tid) (m : Nat) (pc : Pc) : Prop :=
  m = 2 ∨ pc.rouses ∨ ((s.m = 2 → m = 2) ∧ ¬ (s.pc t).rouses) ∨ ∃ w, w ≠ t ∧ (s.pc w).rouses

theorem Inv.write_sleepers (h : Inv s holder) (hold : s.pc t ≠ .asleep) (hnew : pc ≠ .asleep)
    (u : Tid) : u ∈ s.sleepers ↔ (s.write m t pc).pc u = .asleep := by
  by_cases hut : u = t
  · rw [hut, h.sleepers]
    exact iff_of_false hold (by rw [State.write, goto_self]; exact hnew)
  · rw [h.sleepers, State.write, goto_other _ _ hut]

theorem Inv.write_covered (h : Inv s holder) (hnew : pc ≠ .asleep) (hcovers : Covers s t m pc)
    (u : Tid) (hu : (s.write m t pc).pc u = .asleep) :
    m = 2 ∨ ∃ w, ((s.write m t pc).pc w).rouses := by
  have hself : (s.write m t pc).pc t = pc := goto_self ..
  rcases hcovers with hmark | hrouses | ⟨hkeep, hquiet⟩ | ⟨w, hwt, hw⟩
  · exact .inl hmark
  · exact .inr ⟨t, by rw [hself]; exact hrouses⟩
  · have hut : u ≠ t := by
      rintro rfl
      exact hnew (hself.symm.trans hu)
    rw [State.write, goto_other _ _ hut] at hu
    rcases h.covered u hu with hmark | ⟨w, hw⟩
    · exact .inl (hkeep hmark)
    · have hwt : w ≠ t := fun heq => hquiet (heq ▸ hw)
      exact .inr ⟨w, by rw [State.write, goto_other _ _ hwt]; exact hw⟩
  · exact .inr ⟨w, by rw [State.write, goto_other _ _ hwt]; exact hw⟩

/-- A thread moves on, and the mutex stays with its holder. -/
theorem Inv.keep (h : Inv s holder) (hold : s.pc t ≠ .asleep) (hnew : pc ≠ .asleep)
    (hholds : pc.holds = (s.pc t).holds) (hword : m = 0 ↔ s.m = 0)
    (hcovers : Covers s t m pc) : Inv (s.write m t pc) holder := by
  refine ⟨fun u => ?_, hword.trans h.word, h.write_sleepers hold hnew, h.nodup,
    h.write_covered hnew hcovers⟩
  by_cases hut : u = t
  · rw [hut, State.write, goto_self, hholds]
    exact h.holds t
  · rw [State.write, goto_other _ _ hut]
    exact h.holds u

theorem Inv.take (h : Inv s holder) (hold : s.pc t ≠ .asleep) (hfree : s.m = 0)
    (hword : m ≠ 0) (hcovers : Covers s t m .critical) :
    Inv (s.write m t .critical) (some t) := by
  obtain rfl := h.word.mp hfree
  refine ⟨fun u => ?_, iff_of_false hword nofun, h.write_sleepers hold (by decide), h.nodup,
    h.write_covered (by decide) hcovers⟩
  by_cases hut : u = t
  · rw [hut, State.write, goto_self]
    exact iff_of_true rfl rfl
  · rw [State.write, goto_other _ _ hut]
    refine (h.holds u).trans (iff_of_false nofun fun heq => ?_)
    exact hut (Option.some.inj heq).symm

theorem Inv.leave (h : Inv s holder) (hholds : (s.pc t).holds = true) (hpc : pc.holds = false)
    (hold : s.pc t ≠ .asleep) (hnew : pc ≠ .asleep) (hcovers : Covers s t 0 pc) :
    Inv (s.write 0 t pc) none := by
  obtain rfl := (h.holds t).mp hholds
  refine ⟨fun u => ?_, iff_of_true rfl rfl, h.write_sleepers hold hnew, h.nodup,
    h.write_covered hnew hcovers⟩
  by_cases hut : u = t
  · rw [hut, State.write, goto_self, hpc]
    exact iff_of_false Bool.false_ne_true nofun
  · rw [State.write, goto_other _ _ hut]
    refine (h.holds u).trans (iff_of_false (fun heq => ?_) nofun)
    exact hut (Option.some.inj heq).symm

theorem Inv.goto (h : Inv s holder) (hold : s.pc t ≠ .asleep) (hnew : pc ≠ .asleep)
    (hholds : pc.holds = (s.pc t).holds) (hcovers : pc.rouses ∨ ¬ (s.pc t).rouses) :
    Inv (s.goto t pc) holder :=
  h.keep (m := s.m) hold hnew hholds Iff.rfl (.inr (hcovers.imp_right fun hquiet =>
    .inl ⟨fun hmark => hmark, hquiet⟩))

theorem slow_awake (hpc : pc.slow = true) : pc.holds = false ∧ pc ≠ .asleep := by
  cases pc <;> first | exact ⟨rfl, by decide⟩ | cases hpc

/-- A thread goes to sleep, or sees that the word has changed. -/
theorem Inv.vfutexWait (h : Inv s holder) (hat : s.pc t = .wait) {back : Pc}
    (hback : back.slow = true) : Inv (s.vfutexWait t back) holder := by
  obtain ⟨hholds, hawake⟩ := slow_awake hback
  unfold State.vfutexWait
  split
  · rename_i hmark
    set s' := ({ s with sleepers := t :: s.sleepers } : State Tid).goto t .asleep with hs'
    have hself : s'.pc t = .asleep := goto_self ..
    have hpc : ∀ u, u ≠ t → s'.pc u = s.pc u := fun u hu => goto_other _ _ hu
    refine ⟨fun u => ?_, h.word, fun u => ?_, List.nodup_cons.mpr ⟨fun ht => ?_, h.nodup⟩,
      fun _ _ => .inl hmark⟩
    · by_cases hut : u = t
      · rw [hut, hself, ← h.holds t, hat]
        exact iff_of_false Bool.false_ne_true Bool.false_ne_true
      · rw [hpc u hut]
        exact h.holds u
    · change u ∈ t :: s.sleepers ↔ _
      rw [List.mem_cons]
      by_cases hut : u = t
      · rw [hut, hself]
        exact iff_of_true (.inl rfl) rfl
      · rw [hpc u hut, or_iff_right hut]
        exact h.sleepers u
    · rw [h.sleepers, hat] at ht
      cases ht
  · exact h.goto (by rw [hat]; decide) hawake (by rw [hat, hholds]; rfl) (.inl (.inr hback))

theorem Inv.awake (h : Inv s holder) (hu : u ∈ s.sleepers) {back : Pc}
    (hback : back.slow = true) : Inv (s.awake u back) holder ∧ (s.awake u back).pc u = back := by
  obtain ⟨hholds, hawake⟩ := slow_awake hback
  have hasleep := (h.sleepers u).mp hu
  have hself : (s.awake u back).pc u = back := goto_self ..
  have hpc : ∀ w, w ≠ u → (s.awake u back).pc w = s.pc w := fun w hw => goto_other _ _ hw
  refine ⟨⟨fun w => ?_, h.word, fun w => ?_, h.nodup.erase u, fun _ _ =>
    .inr ⟨u, by rw [hself]; exact .inr hback⟩⟩, hself⟩
  · by_cases hwu : w = u
    · rw [hwu, hself, ← h.holds u, hholds, hasleep]
      exact Iff.rfl
    · rw [hpc w hwu]
      exact h.holds w
  · change w ∈ s.sleepers.erase u ↔ _
    rw [h.nodup.mem_erase_iff]
    by_cases hwu : w = u
    · rw [hwu, hself]
      exact iff_of_false (fun hw => hw.1 rfl) hawake
    · rw [hpc w hwu, ← h.sleepers w]
      exact and_iff_right hwu

theorem Inv.wakeNone (h : Inv s holder) (hat : s.pc t = .relWake)
    (hstep : s.wakeNone t = some s') : Inv s' holder := by
  unfold State.wakeNone at hstep
  split at hstep
  · rename_i hnone
    cases hstep
    have hawake (u : Tid) : s.pc u ≠ .asleep := by
      intro hu
      rw [← h.sleepers u, hnone] at hu
      exact List.not_mem_nil hu
    refine ⟨fun u => ?_, h.word, h.write_sleepers (m := s.m) (hawake t) (by decide), h.nodup,
      fun u hu => ?_⟩
    · by_cases hut : u = t
      · rw [hut, goto_self, ← h.holds t, hat]
        exact Iff.rfl
      · rw [goto_other _ _ hut]
        exact h.holds u
    · by_cases hut : u = t
      · rw [hut, goto_self] at hu
        cases hu
      · rw [goto_other _ _ hut] at hu
        exact absurd hu (hawake u)
  · cases hstep

/-- What a mutex must do so that its steps keep the invariant. -/
structure Variant.Sound (v : Variant Tid) : Prop where
  next : ∀ s s' t holder, Inv s holder → v.next s t = some s' → ∃ holder', Inv s' holder'
  release : v.release.holds = true
  back : v.back.slow = true

theorem slim_sound : (slim Tid).Sound := by
  refine ⟨fun s s' t holder h hstep => ?_, rfl, rfl⟩
  simp only [slim, slimStep] at hstep
  cases hat : s.pc t <;> rw [hat] at hstep
  case acqCas =>
    dsimp only at hstep
    split at hstep
    · rename_i hfree
      cases hstep
      refine ⟨some t, h.take (by rw [hat]; decide) hfree Nat.one_ne_zero
        (.inr (.inr (.inl ⟨?_, ?_⟩)))⟩
      · omega
      · rw [hat, Pc.rouses]
        decide
    · cases hstep
      exact ⟨holder, h.goto (by rw [hat]; decide) (by decide) (by rw [hat]; rfl)
        (.inl (.inr rfl))⟩
  case acqXchg =>
    dsimp only at hstep
    split at hstep
    · rename_i htaken
      cases hstep
      exact ⟨holder, h.keep (by rw [hat]; decide) (by decide) (by rw [hat]; rfl)
        (iff_of_false (by decide) htaken) (.inl rfl)⟩
    · rename_i hfree
      cases hstep
      exact ⟨some t, h.take (by rw [hat]; decide) (not_not.mp hfree) (by decide) (.inl rfl)⟩
  case wait =>
    cases hstep
    exact ⟨holder, h.vfutexWait hat rfl⟩
  case relXchg =>
    dsimp only at hstep
    split at hstep
    · rename_i hone
      cases hstep
      refine ⟨none, h.leave (by rw [hat]; rfl) rfl (by rw [hat]; decide) (by decide)
        (.inr (.inr (.inl ⟨?_, ?_⟩)))⟩
      · omega
      · rw [hat, Pc.rouses]
        decide
    · cases hstep
      exact ⟨none, h.leave (by rw [hat]; rfl) rfl (by rw [hat]; decide) (by decide)
        (.inr (.inl (.inl rfl)))⟩
  case relWake => exact ⟨holder, h.wakeNone hat hstep⟩
  all_goals cases hstep

theorem tristate_sound : (tristate Tid).Sound := by
  refine ⟨fun s s' t holder h hstep => ?_, rfl, rfl⟩
  simp only [tristate, tristateStep] at hstep
  cases hat : s.pc t <;> rw [hat] at hstep
  case acqCas =>
    dsimp only at hstep
    split at hstep
    · rename_i hfree
      cases hstep
      refine ⟨some t, h.take (by rw [hat]; decide) hfree Nat.one_ne_zero
        (.inr (.inr (.inl ⟨?_, ?_⟩)))⟩
      · omega
      · rw [hat, Pc.rouses]
        decide
    · cases hstep
      exact ⟨holder, h.goto (by rw [hat]; decide) (by decide) (by rw [hat]; rfl)
        (.inl (.inr rfl))⟩
  case acqMark =>
    dsimp only at hstep
    split at hstep
    · rename_i hone
      cases hstep
      exact ⟨holder, h.keep (by rw [hat]; decide) (by decide) (by rw [hat]; rfl)
        (iff_of_false (by decide) (by omega)) (.inl rfl)⟩
    · cases hstep
      exact ⟨holder, h.goto (by rw [hat]; decide) (by decide) (by rw [hat]; rfl)
        (.inl (.inr rfl))⟩
  case wait =>
    cases hstep
    exact ⟨holder, h.vfutexWait hat rfl⟩
  case acqTake =>
    dsimp only at hstep
    split at hstep
    · cases hstep
      exact ⟨holder, h.goto (by rw [hat]; decide) (by decide) (by rw [hat]; rfl)
        (.inl (.inr rfl))⟩
    · rename_i hfree
      cases hstep
      exact ⟨some t, h.take (by rw [hat]; decide) (not_not.mp hfree) (by decide) (.inl rfl)⟩
  case relCas =>
    dsimp only at hstep
    split at hstep
    · rename_i hone
      cases hstep
      refine ⟨none, h.leave (by rw [hat]; rfl) rfl (by rw [hat]; decide) (by decide)
        (.inr (.inr (.inl ⟨?_, ?_⟩)))⟩
      · omega
      · rw [hat, Pc.rouses]
        decide
    · cases hstep
      refine ⟨holder, h.goto (by rw [hat]; decide) (by decide) (by rw [hat]; rfl) (.inr ?_)⟩
      rw [hat, Pc.rouses]
      decide
  case relWrite =>
    cases hstep
    exact ⟨none, h.leave (by rw [hat]; rfl) rfl (by rw [hat]; decide) (by decide)
      (.inr (.inl (.inl rfl)))⟩
  case relWake => exact ⟨holder, h.wakeNone hat hstep⟩
  all_goals cases hstep

theorem Inv.step {a : Act Tid} (h : Inv s holder) (sound : v.Sound)
    (hstep : step v s a = some s') : ∃ holder', Inv s' holder' := by
  cases a with
  | acquire t =>
    simp only [Mutex.step] at hstep
    split at hstep
    · rename_i hat
      cases hstep
      refine ⟨holder, h.goto (by rw [hat]; decide) (by decide) (by rw [hat]; rfl) (.inr ?_)⟩
      rw [hat, Pc.rouses]
      decide
    · cases hstep
  | release t =>
    simp only [Mutex.step] at hstep
    split at hstep
    · rename_i hat
      cases hstep
      have hrelease := sound.release
      refine ⟨holder, h.goto (by rw [hat]; decide) (fun hsleep => ?_) ?_ (.inr ?_)⟩
      · rw [hsleep] at hrelease
        cases hrelease
      · rw [hat]
        exact hrelease
      · rw [hat, Pc.rouses]
        decide
    · cases hstep
  | wake t u =>
    simp only [Mutex.step] at hstep
    split at hstep
    · rename_i hwake
      cases hstep
      obtain ⟨hinv, hback⟩ := h.awake hwake.2 sound.back
      have htu : t ≠ u := by
        rintro rfl
        have hasleep := (h.sleepers t).mp hwake.2
        rw [hwake.1] at hasleep
        cases hasleep
      have hat : (s.awake u v.back).pc t = .relWake := (goto_other _ _ htu).trans hwake.1
      refine ⟨holder, hinv.keep (by rw [hat]; decide) (by decide) (by rw [hat]; rfl) Iff.rfl
        (.inr (.inr (.inr ⟨u, htu.symm, ?_⟩)))⟩
      rw [hback]
      exact .inr sound.back
    · cases hstep
  | spurious u =>
    simp only [Mutex.step] at hstep
    split at hstep
    · rename_i hu
      cases hstep
      exact ⟨holder, (h.awake hu sound.back).1⟩
    · cases hstep
  | step t => exact sound.next s s' t holder h hstep

section

omit [DecidableEq Tid]

theorem Initial.inv (h : Initial s) : Inv s none := by
  refine ⟨fun t => ?_, iff_of_true h.m rfl, fun t => ?_, ?_, fun u hu => ?_⟩
  · rw [h.pc]
    exact iff_of_false Bool.false_ne_true nofun
  · rw [h.sleepers, h.pc]
    exact iff_of_false List.not_mem_nil Pc.noConfusion
  · rw [h.sleepers]
    exact List.nodup_nil
  · rw [h.pc] at hu
    cases hu

/-- At most one thread has the mutex. When a thread sleeps, then the word has the mark, or a
releaser is between its write of 0 and its wake call, or a thread that is awake is inside
the slow path. So the mutex is not free with only sleeping threads waiting for it. -/
structure Safe (s : State Tid) : Prop where
  exclusive : ∀ t u, (s.pc t).holds = true → (s.pc u).holds = true → t = u
  wakes : ∀ u, s.pc u = .asleep →
    s.m = 2 ∨ (∃ t, s.pc t = .relWake) ∨ ∃ t, (s.pc t).slow = true
  taken : s.m = 2 → ∃ t, (s.pc t).holds = true

theorem Inv.safe (h : Inv s holder) : Safe s := by
  refine ⟨fun t u ht hu => ?_, fun u hu => ?_, fun hmark => ?_⟩
  · exact Option.some.inj (((h.holds t).mp ht).symm.trans ((h.holds u).mp hu))
  · refine (h.covered u hu).imp_right ?_
    rintro ⟨t, hwake | hslow⟩
    · exact .inl ⟨t, hwake⟩
    · exact .inr ⟨t, hslow⟩
  · cases holder with
    | none =>
      rw [h.word.mpr rfl] at hmark
      cases hmark
    | some t => exact ⟨t, (h.holds t).mpr rfl⟩

end

theorem run_safe (sound : v.Sound) {past : List (State Tid × Act Tid)}
    (run : (machine v).Run past s) : Safe s := by
  obtain ⟨holder, h⟩ := run.invariant (I := fun s => ∃ holder, Inv s holder)
    (fun _ hstart => ⟨none, Initial.inv hstart⟩) fun _ _ _ ⟨_, h⟩ hstep => h.step sound hstep
  exact h.safe

theorem mutex_safe (Tid : Type) [DecidableEq Tid] :
    (∀ past s, (machine (slim Tid)).Run past s → Safe s) ∧
      ∀ past s, (machine (tristate Tid)).Run past s → Safe s :=
  ⟨fun _ _ run => run_safe slim_sound run, fun _ _ run => run_safe tristate_sound run⟩

def freeMutex : State Nat := ⟨0, [], fun _ => .idle⟩

/-- Thread 0 has the mutex and thread 1 sleeps. Thread 0 writes 0, and before it wakes
thread 1, thread 2 takes the mutex on the fast path. -/
def overtake (word : List (Act Nat)) : List (Act Nat) :=
  [.acquire 0, .step 0, .acquire 1, .step 1, .step 1, .step 1, .release 0] ++ word ++
    [.acquire 2, .step 2]

theorem mutex_safe_overtake :
    (∃ past s, (machine (slim Nat)).Run past s ∧ Safe s ∧ s.pc 1 = .asleep ∧
      s.pc 2 = .critical ∧ s.m = 1) ∧
    ∃ past s, (machine (tristate Nat)).Run past s ∧ Safe s ∧ s.pc 1 = .asleep ∧
      s.pc 2 = .critical ∧ s.m = 1 := by
  have hslim : ((machine (slim Nat)).exec freeMutex (overtake [.step 0])).map
      (fun s => (s.pc 1, s.pc 2, s.m)) = some (.asleep, .critical, 1) := by
    decide +kernel
  have htristate : ((machine (tristate Nat)).exec freeMutex (overtake [.step 0, .step 0])).map
      (fun s => (s.pc 1, s.pc 2, s.m)) = some (.asleep, .critical, 1) := by
    decide +kernel
  have hsafe := mutex_safe Nat
  obtain ⟨s, hs, hview⟩ := Option.map_eq_some_iff.mp hslim
  obtain ⟨hone, hrest⟩ := Prod.mk.inj hview
  obtain ⟨htwo, hm⟩ := Prod.mk.inj hrest
  obtain ⟨s', hs', hview'⟩ := Option.map_eq_some_iff.mp htristate
  obtain ⟨hone', hrest'⟩ := Prod.mk.inj hview'
  obtain ⟨htwo', hm'⟩ := Prod.mk.inj hrest'
  have run := (Machine.Run.start (M := machine (slim Nat)) (s := freeMutex) ⟨rfl, rfl, rfl⟩).exec hs
  have run' := (Machine.Run.start (M := machine (tristate Nat)) (s := freeMutex)
    ⟨rfl, rfl, rfl⟩).exec hs'
  exact ⟨⟨_, s, run, hsafe.1 _ _ run, hone, htwo, hm⟩,
    ⟨_, s', run', hsafe.2 _ _ run', hone', htwo', hm'⟩⟩

end Libvsync.Thread.Mutex
