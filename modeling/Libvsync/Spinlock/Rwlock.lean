import Libvsync.Core.Machine
import Libvsync.Core.Tally
import Libvsync.Core.Word

/-!
The reader-writer lock on a counting semaphore with `n` resources. A reader takes one
resource and a writer takes all of them; the word `wb` stops new readers as soon as there
is a writer. A writer sets `wb` before it takes the resources and clears it before it
gives them back, so the next writer may have set `wb` while the last one still has the
resources.

An await of the atomics is one step, which is taken when the condition holds.
-/

namespace Libvsync.Spinlock.Rwlock

open Libvsync.Core Function

/-- Where a call stands. A try operation that returns false is back at `idle`. -/
inductive Pc where
  | idle
  | wAcqWb
  | wAcqSem
  | wTryWb
  | wTryRead
  | wTryCas (old : Nat)
  | wTryBack
  | writing
  | wRelWb
  | wRelSem
  | rAcqWb
  | rAcqSem
  | rTryWb
  | rTryRead
  | rTryCas (old : Nat)
  | reading
  | rRelSem
  deriving DecidableEq

structure State (Tid : Type) where
  wb : Nat
  rs : Nat
  pc : Tid → Pc

inductive Act (Tid : Type) where
  | writeAcquire (t : Tid)
  | writeTryacquire (t : Tid)
  | writeRelease (t : Tid)
  | readAcquire (t : Tid)
  | readTryacquire (t : Tid)
  | readRelease (t : Tid)
  | step (t : Tid)

variable {Tid : Type} [DecidableEq Tid]

def State.goto (s : State Tid) (t : Tid) (pc : Pc) : State Tid :=
  { s with pc := update s.pc t pc }

/-- `semaphore_acquire` of `i` resources. -/
def State.semaphoreAcquire (s : State Tid) (t : Tid) (i : Nat) (pc : Pc) : Option (State Tid) :=
  if i ≤ s.rs then some ({ s with rs := s.rs - i }.goto t pc) else none

/-- `semaphore_tryacquire` of `i` resources, from the read on: `again` is the position of
the compare-and-exchange. -/
def State.semaphoreTryRead (s : State Tid) (t : Tid) (i : Nat) (again : Nat → Pc) (fail : Pc) :
    State Tid :=
  if s.rs < i then s.goto t fail else s.goto t (again s.rs)

/-- The compare-and-exchange of `semaphore_tryacquire`. -/
def State.semaphoreTryCas (s : State Tid) (t : Tid) (i old : Nat) (pc fail : Pc) : State Tid :=
  if s.rs = old then { s with rs := old - i }.goto t pc else s.goto t fail

/-- `semaphore_release` of `i` resources. -/
def State.semaphoreRelease (s : State Tid) (t : Tid) (i : Nat) : State Tid :=
  { s with rs := wadd 32 s.rs i }.goto t .idle

/-- The next atomic operation of thread `t`. -/
def nextStep (n : Nat) (s : State Tid) (t : Tid) : Option (State Tid) :=
  match s.pc t with
  | .idle | .writing | .reading => none
  | .wAcqWb => if s.wb = 0 then some ({ s with wb := 1 }.goto t .wAcqSem) else none
  | .wAcqSem => s.semaphoreAcquire t n .writing
  | .wTryWb =>
    if s.wb = 0 then some ({ s with wb := 1 }.goto t .wTryRead) else some (s.goto t .idle)
  | .wTryRead => some (s.semaphoreTryRead t n .wTryCas .wTryBack)
  | .wTryCas old => some (s.semaphoreTryCas t n old .writing .wTryBack)
  | .wTryBack => some ({ s with wb := 0 }.goto t .idle)
  | .wRelWb => some ({ s with wb := 0 }.goto t .wRelSem)
  | .wRelSem => some (s.semaphoreRelease t n)
  | .rAcqWb => if s.wb = 0 then some (s.goto t .rAcqSem) else none
  | .rAcqSem => s.semaphoreAcquire t 1 .reading
  | .rTryWb => if s.wb = 0 then some (s.goto t .rTryRead) else some (s.goto t .idle)
  | .rTryRead => some (s.semaphoreTryRead t 1 .rTryCas .idle)
  | .rTryCas old => some (s.semaphoreTryCas t 1 old .reading .idle)
  | .rRelSem => some (s.semaphoreRelease t 1)

def State.call (s : State Tid) (t : Tid) (before after : Pc) : Option (State Tid) :=
  if s.pc t = before then some (s.goto t after) else none

def step (n : Nat) (s : State Tid) : Act Tid → Option (State Tid)
  | .writeAcquire t => s.call t .idle .wAcqWb
  | .writeTryacquire t => s.call t .idle .wTryWb
  | .writeRelease t => s.call t .writing .wRelWb
  | .readAcquire t => s.call t .idle .rAcqWb
  | .readTryacquire t => s.call t .idle .rTryWb
  | .readRelease t => s.call t .reading .rRelSem
  | .step t => nextStep n s t

/-- `RWLOCK_INITN` -/
structure Initial (n : Nat) (s : State Tid) : Prop where
  wb : s.wb = 0
  rs : s.rs = n
  pc : s.pc = fun _ => .idle

def machine (Tid : Type) [DecidableEq Tid] (n : Nat) : Machine (State Tid) (Act Tid) where
  start := Initial n
  step := step n

/-- From the step that takes a resource to the step that gives it back. -/
def Pc.reads : Pc → Bool
  | .reading | .rRelSem => true
  | _ => false

/-- From the step that takes all resources to the step that gives them back. -/
def Pc.writes : Pc → Bool
  | .writing | .wRelWb | .wRelSem => true
  | _ => false

/-- A writer has set `wb` and has not cleared it. -/
def Pc.blocks : Pc → Bool
  | .wAcqSem | .wTryRead | .wTryCas _ | .wTryBack | .writing | .wRelWb => true
  | _ => false

/-- Inside a try operation. -/
def Pc.tries : Pc → Bool
  | .wTryWb | .wTryRead | .wTryCas _ | .wTryBack | .rTryWb | .rTryRead | .rTryCas _ => true
  | _ => false

/-- What `semaphore_tryacquire` has checked of the value that it read. -/
def OldOk (n : Nat) : Pc → Prop
  | .wTryCas old => n ≤ old
  | .rTryCas old => 1 ≤ old
  | _ => True

variable [Fintype Tid]

/-- How many threads are at a position with `p`. -/
def count (s : State Tid) (p : Pc → Bool) : Nat := (Finset.univ.filter fun t => p (s.pc t)).card

structure Inv (n : Nat) (s : State Tid) : Prop where
  blocks : s.wb = count s Pc.blocks
  single : s.wb ≤ 1
  resources : s.rs + count s Pc.reads + n * count s Pc.writes = n
  old : ∀ t, OldOk n (s.pc t)

variable {n : Nat} {s s' : State Tid} {t u : Tid}

theorem count_update (p : Pc → Bool) {pc : Pc} (hpc : s'.pc = update s.pc t pc) :
    count s' p + (p (s.pc t)).toNat = count s p + (p pc).toNat := by
  have htally (s : State Tid) : count s p = tally (fun a => (p a).toNat) s.pc := by
    rw [count, Finset.card_filter, tally]
    refine Finset.sum_congr rfl fun u _ => ?_
    cases p (s.pc u) <;> rfl
  rw [htally, htally, hpc]
  exact tally_update _ _ _ _

/-- The two words account for the new position of the thread that moves. -/
theorem Inv.move (h : Inv n s) {pc : Pc} (hpc : s'.pc = update s.pc t pc)
    (hwb : s'.wb + (s.pc t).blocks.toNat = s.wb + pc.blocks.toNat) (hle : s'.wb ≤ 1)
    (hrs : s'.rs + pc.reads.toNat + n * pc.writes.toNat =
      s.rs + (s.pc t).reads.toNat + n * (s.pc t).writes.toNat)
    (hok : OldOk n pc) : Inv n s' := by
  have hblocks := count_update Pc.blocks hpc
  have hreads := count_update Pc.reads hpc
  have hwrites := congrArg (n * ·) (count_update Pc.writes hpc)
  simp only [Nat.mul_add] at hwrites
  have hold := h.resources
  have holdb := h.blocks
  refine ⟨by omega, hle, by omega, fun u => ?_⟩
  rw [hpc]
  by_cases hut : u = t
  · rw [hut, update_self]
    exact hok
  · rw [update_of_ne hut]
    exact h.old u

omit [DecidableEq Tid] in
theorem count_pos {p : Pc → Bool} (ht : p (s.pc t) = true) : 1 ≤ count s p :=
  Finset.card_pos.mpr ⟨t, Finset.mem_filter.mpr ⟨Finset.mem_univ t, ht⟩⟩

/-- A thread that moves without touching the words. -/
theorem Inv.goto (h : Inv n s) {pc : Pc} (hblocks : pc.blocks = (s.pc t).blocks)
    (hreads : pc.reads = (s.pc t).reads) (hwrites : pc.writes = (s.pc t).writes)
    (hok : OldOk n pc) : Inv n (s.goto t pc) :=
  h.move rfl (by rw [hblocks]; rfl) h.single (by rw [hreads, hwrites]; rfl) hok

theorem Inv.set (h : Inv n s) (hwb : s.wb = 0) {pc : Pc} (hblocks : (s.pc t).blocks = false)
    (hpc : pc.blocks = true) (hreads : pc.reads = (s.pc t).reads)
    (hwrites : pc.writes = (s.pc t).writes) (hok : OldOk n pc) :
    Inv n ({ s with wb := 1 }.goto t pc) := by
  refine h.move rfl ?_ le_rfl (by rw [hreads, hwrites]; rfl) hok
  rw [hblocks, hpc, hwb]
  rfl

theorem Inv.clear (h : Inv n s) {pc : Pc} (hblocks : (s.pc t).blocks = true)
    (hpc : pc.blocks = false) (hreads : pc.reads = (s.pc t).reads)
    (hwrites : pc.writes = (s.pc t).writes) (hok : OldOk n pc) :
    Inv n ({ s with wb := 0 }.goto t pc) := by
  have hpos := count_pos hblocks
  rw [← h.blocks] at hpos
  have hsingle := h.single
  refine h.move rfl ?_ (Nat.zero_le 1) (by rw [hreads, hwrites]; rfl) hok
  rw [hblocks, hpc]
  change 0 + 1 = s.wb + 0
  omega

theorem Inv.semaphoreAcquire (h : Inv n s) {pc : Pc} {i : Nat}
    (hstep : s.semaphoreAcquire t i pc = some s') (hblocks : pc.blocks = (s.pc t).blocks)
    (hweight : pc.reads.toNat + n * pc.writes.toNat = i)
    (hreads : (s.pc t).reads = false) (hwrites : (s.pc t).writes = false)
    (hok : OldOk n pc) : Inv n s' := by
  unfold State.semaphoreAcquire at hstep
  split at hstep
  · cases hstep
    refine h.move rfl (by rw [hblocks]; rfl) h.single ?_ hok
    rw [hreads, hwrites]
    change s.rs - i + pc.reads.toNat + n * pc.writes.toNat = s.rs + 0 + n * 0
    omega
  · cases hstep

theorem Inv.semaphoreTryRead (h : Inv n s) {again : Nat → Pc} {fail : Pc} {i : Nat}
    (hagain : ∀ old, (again old).blocks = (s.pc t).blocks ∧ (again old).reads = (s.pc t).reads ∧
      (again old).writes = (s.pc t).writes ∧ (i ≤ old → OldOk n (again old)))
    (hfail : fail.blocks = (s.pc t).blocks ∧ fail.reads = (s.pc t).reads ∧
      fail.writes = (s.pc t).writes ∧ OldOk n fail) :
    Inv n (s.semaphoreTryRead t i again fail) := by
  unfold State.semaphoreTryRead
  split
  · exact h.goto hfail.1 hfail.2.1 hfail.2.2.1 hfail.2.2.2
  · rename_i hi
    obtain ⟨hblocks, hreads, hwrites, hok⟩ := hagain s.rs
    exact h.goto hblocks hreads hwrites (hok (not_lt.mp hi))

theorem Inv.semaphoreTryCas (h : Inv n s) {pc fail : Pc} {i old : Nat} (hi : i ≤ old)
    (hblocks : pc.blocks = (s.pc t).blocks)
    (hweight : pc.reads.toNat + n * pc.writes.toNat = i) (hreads : (s.pc t).reads = false)
    (hwrites : (s.pc t).writes = false) (hok : OldOk n pc)
    (hfail : fail.blocks = (s.pc t).blocks ∧ fail.reads = (s.pc t).reads ∧
      fail.writes = (s.pc t).writes ∧ OldOk n fail) :
    Inv n (s.semaphoreTryCas t i old pc fail) := by
  unfold State.semaphoreTryCas
  split
  · refine h.move rfl (by rw [hblocks]; rfl) h.single ?_ hok
    rw [hreads, hwrites]
    change old - i + pc.reads.toNat + n * pc.writes.toNat = s.rs + 0 + n * 0
    omega
  · exact h.goto hfail.1 hfail.2.1 hfail.2.2.1 hfail.2.2.2

omit [DecidableEq Tid] in
/-- The resources of a thread that has some are not in the semaphore. -/
theorem Inv.room (h : Inv n s) (t : Tid) :
    s.rs + ((s.pc t).reads.toNat + n * (s.pc t).writes.toNat) ≤ n := by
  have hresources := h.resources
  have hr : (s.pc t).reads.toNat ≤ count s Pc.reads := by
    cases hreads : (s.pc t).reads with
    | false => exact Nat.zero_le _
    | true => exact count_pos hreads
  have hw : n * (s.pc t).writes.toNat ≤ n * count s Pc.writes := by
    refine Nat.mul_le_mul_left n ?_
    cases hwrites : (s.pc t).writes with
    | false => exact Nat.zero_le _
    | true => exact count_pos hwrites
  omega

/-- The resources of a thread go back to the semaphore, and the counter does not wrap. -/
theorem Inv.semaphoreRelease (h : Inv n s) (hn : n < 2 ^ 32) {i : Nat}
    (hblocks : (s.pc t).blocks = false)
    (hweight : (s.pc t).reads.toNat + n * (s.pc t).writes.toNat = i) :
    Inv n (s.semaphoreRelease t i) := by
  have hroom := h.room t
  refine h.move rfl (by rw [hblocks]; rfl) h.single ?_ trivial
  change wadd 32 s.rs i + 0 + n * 0 = _
  rw [wadd, Nat.mod_eq_of_lt (by omega)]
  omega

theorem Inv.call (h : Inv n s) {before after : Pc} (hstep : s.call t before after = some s')
    (hblocks : after.blocks = before.blocks) (hreads : after.reads = before.reads)
    (hwrites : after.writes = before.writes) (hok : OldOk n after) : Inv n s' := by
  unfold State.call at hstep
  split at hstep
  · rename_i hat
    cases hstep
    exact h.goto (by rw [hat, hblocks]) (by rw [hat, hreads]) (by rw [hat, hwrites]) hok
  · cases hstep

theorem Inv.thread_step (h : Inv n s) (hn : n < 2 ^ 32) (hstep : nextStep n s t = some s') :
    Inv n s' := by
  have hold := h.old t
  cases hat : s.pc t <;> rw [nextStep, hat] at hstep <;> rw [hat] at hold
  case idle | writing | reading => cases hstep
  case wAcqWb =>
    dsimp only at hstep
    split at hstep
    · rename_i hwb
      cases hstep
      exact h.set hwb (by rw [hat]; rfl) rfl (by rw [hat]; rfl) (by rw [hat]; rfl) trivial
    · cases hstep
  case wAcqSem =>
    refine h.semaphoreAcquire hstep (by rw [hat]; rfl) ?_ (by rw [hat]; rfl) (by rw [hat]; rfl)
      trivial
    change 0 + n * 1 = n
    omega
  case wTryWb =>
    dsimp only at hstep
    split at hstep
    · rename_i hwb
      cases hstep
      exact h.set hwb (by rw [hat]; rfl) rfl (by rw [hat]; rfl) (by rw [hat]; rfl) trivial
    · cases hstep
      exact h.goto (by rw [hat]; rfl) (by rw [hat]; rfl) (by rw [hat]; rfl) trivial
  case wTryRead | rTryRead =>
    cases hstep
    refine h.semaphoreTryRead (fun old => ?_) ?_ <;> rw [hat]
    · exact ⟨rfl, rfl, rfl, id⟩
    · exact ⟨rfl, rfl, rfl, trivial⟩
  case wTryCas old =>
    cases hstep
    refine h.semaphoreTryCas hold (by rw [hat]; rfl) ?_ (by rw [hat]; rfl) (by rw [hat]; rfl)
      trivial (by rw [hat]; exact ⟨rfl, rfl, rfl, trivial⟩)
    change 0 + n * 1 = n
    omega
  case wTryBack | wRelWb =>
    cases hstep
    exact h.clear (by rw [hat]; rfl) rfl (by rw [hat]; rfl) (by rw [hat]; rfl) trivial
  case wRelSem =>
    cases hstep
    refine h.semaphoreRelease hn (by rw [hat]; rfl) ?_
    rw [hat]
    change 0 + n * 1 = n
    omega
  case rAcqWb =>
    dsimp only at hstep
    split at hstep
    · cases hstep
      exact h.goto (by rw [hat]; rfl) (by rw [hat]; rfl) (by rw [hat]; rfl) trivial
    · cases hstep
  case rAcqSem =>
    exact h.semaphoreAcquire hstep (by rw [hat]; rfl) rfl (by rw [hat]; rfl) (by rw [hat]; rfl)
      trivial
  case rTryWb =>
    dsimp only at hstep
    split at hstep
    · cases hstep
      exact h.goto (by rw [hat]; rfl) (by rw [hat]; rfl) (by rw [hat]; rfl) trivial
    · cases hstep
      exact h.goto (by rw [hat]; rfl) (by rw [hat]; rfl) (by rw [hat]; rfl) trivial
  case rTryCas old =>
    cases hstep
    exact h.semaphoreTryCas hold (by rw [hat]; rfl) rfl (by rw [hat]; rfl) (by rw [hat]; rfl)
      trivial (by rw [hat]; exact ⟨rfl, rfl, rfl, trivial⟩)
  case rRelSem =>
    cases hstep
    exact h.semaphoreRelease hn (by rw [hat]; rfl) (by rw [hat]; rfl)

theorem Inv.step {a : Act Tid} (h : Inv n s) (hn : n < 2 ^ 32) (hstep : step n s a = some s') :
    Inv n s' := by
  cases a with
  | writeAcquire t | writeTryacquire t | writeRelease t | readAcquire t | readTryacquire t
  | readRelease t => exact h.call hstep rfl rfl rfl trivial
  | step t => exact h.thread_step hn hstep

omit [DecidableEq Tid] in
theorem Initial.inv (h : Initial n s) : Inv n s := by
  have hzero (p : Pc → Bool) (hp : p .idle = false) : count s p = 0 := by
    refine Finset.card_eq_zero.mpr (Finset.filter_eq_empty_iff.mpr fun t _ => ?_)
    rw [h.pc, hp]
    exact Bool.false_ne_true
  refine ⟨?_, ?_, ?_, fun t => ?_⟩
  · rw [h.wb, hzero Pc.blocks rfl]
  · rw [h.wb]
    exact Nat.zero_le 1
  · rw [h.rs, hzero Pc.reads rfl, hzero Pc.writes rfl]
    rfl
  · rw [h.pc]
    trivial

variable {past : List (State Tid × Act Tid)}

theorem run_inv (hn : n < 2 ^ 32) (run : (machine Tid n).Run past s) : Inv n s :=
  run.invariant (I := Inv n) (fun _ hstart => Initial.inv hstart) fun _ _ _ h hstep =>
    h.step hn hstep

/-- The semaphore has what the readers and the writers have not taken. So a writer excludes
everyone else, and no release makes the counter wrap. `wb` is set exactly when a writer has
set it and has not cleared it, and there is at most one such writer. When a try operation
fails, the two words are what the other threads account for. -/
structure Safe (n : Nat) (s : State Tid) : Prop where
  resources : s.rs + count s Pc.reads + n * count s Pc.writes = n
  exclusive : ∀ t u, (s.pc t).writes = true → u ≠ t →
    (s.pc u).writes = false ∧ (s.pc u).reads = false
  fits : ∀ t, (s.pc t = .wRelSem → s.rs + n < 2 ^ 32) ∧ (s.pc t = .rRelSem → s.rs + 1 < 2 ^ 32)
  wb : s.wb = if ∃ t, (s.pc t).blocks = true then 1 else 0
  blocks : ∀ t u, (s.pc t).blocks = true → (s.pc u).blocks = true → t = u
  failed : ∀ t s', step n s (.step t) = some s' → (s.pc t).tries = true → s'.pc t = .idle →
    s'.rs = s.rs ∧ s'.wb = if ∃ u, u ≠ t ∧ (s.pc u).blocks = true then 1 else 0

section

omit [DecidableEq Tid]

theorem count_le_one {p : Pc → Bool} (hcount : count s p ≤ 1) (ht : p (s.pc t) = true)
    (hu : p (s.pc u) = true) : t = u :=
  Finset.card_le_one.mp hcount t (Finset.mem_filter.mpr ⟨Finset.mem_univ t, ht⟩) u
    (Finset.mem_filter.mpr ⟨Finset.mem_univ u, hu⟩)

theorem Inv.wb_eq (h : Inv n s) : s.wb = if ∃ t, (s.pc t).blocks = true then 1 else 0 := by
  have hsingle := h.single
  split
  · rename_i hexists
    obtain ⟨t, ht⟩ := hexists
    have hpos := count_pos ht
    rw [← h.blocks] at hpos
    omega
  · rename_i hnone
    rw [h.blocks, count, Finset.card_eq_zero, Finset.filter_eq_empty_iff]
    exact fun t _ ht => hnone ⟨t, ht⟩

theorem Inv.exclusive (h : Inv n s) (hn : 1 ≤ n) (ht : (s.pc t).writes = true) (hu : u ≠ t) :
    (s.pc u).writes = false ∧ (s.pc u).reads = false := by
  have hresources := h.resources
  have hpos : n ≤ n * count s Pc.writes := Nat.le_mul_of_pos_right n (count_pos ht)
  have hsingle : count s Pc.writes ≤ 1 := by
    by_contra hmany
    have hdouble : n * 2 ≤ n * count s Pc.writes := Nat.mul_le_mul_left n (by omega)
    omega
  constructor
  · exact Bool.eq_false_iff.mpr fun hwrites => hu (count_le_one hsingle hwrites ht)
  · refine Bool.eq_false_iff.mpr fun hreads => ?_
    have hreader := count_pos hreads
    omega

end

section

omit [Fintype Tid]

/-- A try operation that returns false leaves the semaphore alone. -/
theorem failed_rs (hstep : nextStep n s t = some s') (htries : (s.pc t).tries = true)
    (hidle : s'.pc t = .idle) : s'.rs = s.rs := by
  have hself (s : State Tid) (pc : Pc) : (s.goto t pc).pc t = pc := update_self ..
  cases hat : s.pc t <;> rw [hat] at htries <;> rw [nextStep, hat] at hstep
  case wTryWb | rTryWb =>
    dsimp only at hstep
    split at hstep
    · cases hstep
      rfl
    · cases hstep
      rfl
  case wTryRead | rTryRead =>
    cases hstep
    unfold State.semaphoreTryRead
    split <;> rfl
  case wTryBack =>
    cases hstep
    rfl
  case wTryCas | rTryCas =>
    cases hstep
    unfold State.semaphoreTryCas at hidle ⊢
    split at hidle
    · rw [hself] at hidle
      cases hidle
    · rename_i hold
      rw [if_neg hold]
      rfl
  all_goals cases htries

theorem nextStep_pc (hstep : nextStep n s t = some s') (hu : u ≠ t) : s'.pc u = s.pc u := by
  have hother (s : State Tid) (pc : Pc) : (s.goto t pc).pc u = s.pc u :=
    update_of_ne hu ..
  unfold nextStep State.semaphoreAcquire State.semaphoreTryRead State.semaphoreTryCas
    State.semaphoreRelease at hstep
  split at hstep <;> (try split at hstep) <;> cases hstep <;> exact hother _ _

end

theorem rwlock_safe (hpos : 1 ≤ n) (hn : n < 2 ^ 32) (run : (machine Tid n).Run past s) :
    Safe n s := by
  have h := run_inv hn run
  refine ⟨h.resources, fun t u => h.exclusive hpos, fun t => ⟨fun hat => ?_, fun hat => ?_⟩,
    h.wb_eq, fun t u => count_le_one (h.blocks ▸ h.single), fun t s' hstep htries hidle =>
      ⟨failed_rs hstep htries hidle, ?_⟩⟩
  · have hroom := h.room t
    rw [hat] at hroom
    change s.rs + (0 + n * 1) ≤ n at hroom
    omega
  · have hroom := h.room t
    rw [hat] at hroom
    change s.rs + (1 + n * 0) ≤ n at hroom
    omega
  · rw [(h.thread_step hn hstep).wb_eq]
    have hiff : (∃ u, (s'.pc u).blocks = true) ↔ ∃ u, u ≠ t ∧ (s.pc u).blocks = true := by
      constructor
      · rintro ⟨u, hu⟩
        have hut : u ≠ t := by
          rintro rfl
          rw [hidle] at hu
          cases hu
        rw [nextStep_pc hstep hut] at hu
        exact ⟨u, hut, hu⟩
      · rintro ⟨u, hut, hu⟩
        exact ⟨u, by rw [nextStep_pc hstep hut]; exact hu⟩
    simp only [hiff]

def freeLock : State Bool := ⟨0, 2, fun _ => .idle⟩

/-- One thread reads when the other one tries to write, and the reader still reads when the
writer has set `wb` and taken it back. -/
def tryWrite : List (Act Bool) :=
  [.readAcquire true, .step true, .step true, .writeTryacquire false, .step false, .step false,
    .step false]

theorem rwlock_safe_tryWrite :
    ∃ past s, (machine Bool 2).Run past s ∧ Safe 2 s ∧ s.pc true = .reading ∧
      s.pc false = .idle ∧ (s.wb, s.rs) = (0, 1) := by
  have hexec : ((machine Bool 2).exec freeLock tryWrite).map
      (fun s => (s.pc true, s.pc false, s.wb, s.rs)) = some (.reading, .idle, 0, 1) := by
    decide +kernel
  obtain ⟨s, hs, hview⟩ := Option.map_eq_some_iff.mp hexec
  obtain ⟨htrue, hrest⟩ := Prod.mk.inj hview
  obtain ⟨hfalse, hwords⟩ := Prod.mk.inj hrest
  have run := (Machine.Run.start (M := machine Bool 2) (s := freeLock) ⟨rfl, rfl, rfl⟩).exec hs
  exact ⟨_, s, run, rwlock_safe (by decide) (by decide) run, htrue, hfalse, hwords⟩

end Libvsync.Spinlock.Rwlock
