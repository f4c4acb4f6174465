import Libvsync.Core.Object
import Libvsync.Core.Word

/-!
The bounded queues `bounded_spsc`, `bounded_mpmc` and `bounded_locked`, each
driven by one caller at a time, against a FIFO of the same capacity. The
32-bit head and tail counters wrap, and a counter selects its slot by
remainder modulo the size, so the two sides of a wrap use different slots
unless the size divides `2 ^ 32`.
-/

namespace Libvsync.Queue.Bounded

open Libvsync.Core Function

/-- `bounded_ret_t`. -/
inductive BoundedRet where
  | ok
  | full
  | empty
  | again
  deriving DecidableEq, Repr

/-- `bounded_spsc_t`. -/
structure BoundedSpsc where
  buf : Nat → Nat
  head : Nat
  tail : Nat
  size : Nat

def boundedSpscInit (b : Nat → Nat) (s : Nat) : Except Fault BoundedSpsc := do
  check (s ≠ 0) "buffer with 0 size"
  return { buf := b, head := 0, tail := 0, size := s }

def boundedSpscEnq (q : BoundedSpsc) (v : Nat) :
    Except Fault (BoundedSpsc × BoundedRet) := do
  check (v ≠ 0) "v == NULL"
  if wsub 32 q.tail q.head = q.size then
    return (q, .full)
  return ({ q with
    buf := update q.buf (q.tail % q.size) v
    tail := wadd 32 q.tail 1 }, .ok)

/-- The second component is the value written through the output parameter. -/
def boundedSpscDeq (q : BoundedSpsc) :
    Except Fault (BoundedSpsc × BoundedRet × Option Nat) := do
  if wsub 32 q.tail q.head = 0 then
    return (q, .empty, none)
  return ({ q with head := wadd 32 q.head 1 }, .ok, some (q.buf (q.head % q.size)))

/-- `bounded_mpmc_t`. -/
structure BoundedMpmc where
  phead : Nat
  ptail : Nat
  chead : Nat
  ctail : Nat
  buf : Nat → Nat
  size : Nat

def boundedMpmcInit (b : Nat → Nat) (s : Nat) : Except Fault BoundedMpmc := do
  check (s ≠ 0) "buffer with 0 size"
  return { phead := 0, ptail := 0, chead := 0, ctail := 0, buf := b, size := s }

/-- `vatomic32_await_eq` with nobody else running: the awaited value is there
or never comes. -/
def awaitEq (word expected : Nat) : Except Fault Unit :=
  if word = expected then .ok () else .error .blocked

/-- One caller at a time: the compare-and-swap on `phead` meets the value just
read, so `QUEUE_BOUNDED_AGAIN` is left to its failing branch. -/
def boundedMpmcEnq (q : BoundedMpmc) (v : Nat) :
    Except Fault (BoundedMpmc × BoundedRet) := do
  let curr := q.phead
  if wsub 32 curr q.ctail = q.size then
    return (q, .full)
  let next := wadd 32 curr 1
  if q.phead ≠ curr then
    return (q, .again)
  let q := { q with phead := next, buf := update q.buf (curr % q.size) v }
  awaitEq q.ptail curr
  return ({ q with ptail := next }, .ok)

def boundedMpmcDeq (q : BoundedMpmc) :
    Except Fault (BoundedMpmc × BoundedRet × Option Nat) := do
  let curr := q.chead
  let next := wadd 32 curr 1
  if curr = q.ptail then
    return (q, .empty, none)
  if q.chead ≠ curr then
    return (q, .again, none)
  let q := { q with chead := next }
  let v := q.buf (curr % q.size)
  awaitEq q.ctail curr
  return ({ q with ctail := next }, .ok, some v)

/-- `bounded_locked_t`; the lock is the word of a `caslock_t`. -/
structure BoundedLocked where
  buf : Nat → Nat
  head : Nat
  tail : Nat
  size : Nat
  lock : Nat

def boundedLockedInit (b : Nat → Nat) (s : Nat) : Except Fault BoundedLocked := do
  check (s ≠ 0) "buffer with 0 size"
  return { buf := b, head := 0, tail := 0, size := s, lock := 0 }

def caslockTryacquire (lock : Nat) : Nat × Bool :=
  if lock = 0 then (1, true) else (lock, false)

def caslockRelease (_lock : Nat) : Nat := 0

def boundedLockedEnq (q : BoundedLocked) (v : Nat) :
    Except Fault (BoundedLocked × BoundedRet) := do
  check (v ≠ 0) "v == NULL"
  let (lock, acquired) := caslockTryacquire q.lock
  if acquired = false then
    return (q, .again)
  let q := { q with lock := lock }
  check (wsub 32 q.tail q.head ≤ q.size) "inconsistent state"
  let head := q.head
  if wsub 32 q.tail head = q.size then
    return ({ q with lock := caslockRelease q.lock }, .full)
  let q := { q with
    buf := update q.buf (q.tail % q.size) v
    tail := wadd 32 q.tail 1 }
  return ({ q with lock := caslockRelease q.lock }, .ok)

def boundedLockedDeq (q : BoundedLocked) :
    Except Fault (BoundedLocked × BoundedRet × Option Nat) := do
  let (lock, acquired) := caslockTryacquire q.lock
  if acquired = false then
    return (q, .again, none)
  let q := { q with lock := lock }
  check (q.head ≤ q.tail) "head > tail"
  let tail := q.tail
  if wsub 32 tail q.head = 0 then
    return ({ q with lock := caslockRelease q.lock }, .empty, none)
  let v := q.buf (q.head % q.size)
  let q := { q with head := wadd 32 q.head 1 }
  return ({ q with lock := caslockRelease q.lock }, .ok, some v)

/-- A call of the queue interface. -/
inductive Call where
  | enq (v : Nat)
  | deq
  deriving DecidableEq, Repr

/-- The returned status and the value stored through the output parameter. -/
abbrev Result := BoundedRet × Option Nat

/-- Both operations of a queue behind one interface. -/
def asObject {σ : Type} (enq : σ → Nat → Except Fault (σ × BoundedRet))
    (deq : σ → Except Fault (σ × BoundedRet × Option Nat)) : Object σ Call Result
  | q, .enq v => (enq q v).map fun p => (p.1, p.2, none)
  | q, .deq => deq q

def boundedSpsc : Object BoundedSpsc Call Result :=
  asObject boundedSpscEnq boundedSpscDeq

def boundedMpmc : Object BoundedMpmc Call Result :=
  asObject boundedMpmcEnq boundedMpmcDeq

def boundedLocked : Object BoundedLocked Call Result :=
  asObject boundedLockedEnq boundedLockedDeq

/-- What the queues are for: a FIFO that holds at most `n` values. -/
def fifo (n : Nat) (stored : List Nat) : Call → List Nat × Result
  | .enq v =>
    if stored.length = n then (stored, .full, none)
    else (stored ++ [v], .ok, none)
  | .deq =>
    match stored with
    | [] => ([], .empty, none)
    | v :: rest => (rest, .ok, some v)

def FifoStep (n : Nat) (stored : List Nat) (c : Call) (r : Result)
    (stored' : List Nat) : Prop :=
  fifo n stored c = (stored', r)

/-- The calls all return, without a failed assertion, the results of a FIFO of
capacity `n` that starts empty. -/
def RefinesFifo {σ : Type} (n : Nat) (O : Object σ Call Result) (q : σ)
    (calls : List Call) : Prop :=
  ∃ final results stored, Object.run O q calls = .ok (final, results) ∧
    SpecRun (FifoStep n) [] calls results stored

/-- The slot at `tail` is not that of a stored value: none of the counters
from `head` on, up to `tail`, leaves the same remainder. -/
def SlotFree (head tail size : Nat) : Prop :=
  ∀ i < wsub 32 tail head, wadd 32 head i % size ≠ tail % size

instance (head tail size : Nat) : Decidable (SlotFree head tail size) :=
  inferInstanceAs (Decidable (∀ i < wsub 32 tail head, _))

/-- An enqueue that finds room does not write the slot of a value that is still
stored. -/
def enqOk (head tail size : Nat) : Prop :=
  wsub 32 tail head = size ∨ SlotFree head tail size

instance (head tail size : Nat) : Decidable (enqOk head tail size) :=
  inferInstanceAs (Decidable (_ ∨ _))

/-- `bounded_spsc_enq` asserts that the value is not NULL. -/
def spscOk (q : BoundedSpsc) : Call → Prop
  | .enq v => v ≠ 0 ∧ enqOk q.head q.tail q.size
  | .deq => True

def mpmcOk (q : BoundedMpmc) : Call → Prop
  | .enq _ => enqOk q.chead q.ptail q.size
  | .deq => True

/-- A dequeue of the locked queue also needs the counters on the same side of
the wrap, because it asserts `head <= tail`. -/
def lockedOk (q : BoundedLocked) : Call → Prop
  | .enq v => v ≠ 0 ∧ enqOk q.head q.tail q.size
  | .deq => q.head ≤ q.tail

/-- The buffer holds the values of `stored` at the counters from `low` on. -/
structure Holds (size : Nat) (buf : Nat → Nat) (low : Nat) (stored : List Nat) :
    Prop where
  fits : stored.length ≤ size
  slot : ∀ i (h : i < stored.length), buf ((low + i) % 2 ^ 32 % size) = stored[i]

theorem Holds.nil (size low : Nat) (buf : Nat → Nat) : Holds size buf low [] :=
  ⟨Nat.zero_le _, fun _ h => absurd h (Nat.not_lt_zero _)⟩

/-- Writing a free slot behind the stored values appends the value. -/
theorem Holds.push {size low v : Nat} {buf : Nat → Nat} {stored : List Nat}
    (h : Holds size buf low stored) (hroom : stored.length < size)
    (hfree : ∀ i < stored.length, (low + i) % 2 ^ 32 % size ≠
      (low + stored.length) % 2 ^ 32 % size) :
    Holds size (update buf ((low + stored.length) % 2 ^ 32 % size) v) low
      (stored ++ [v]) := by
  refine ⟨by simp; omega, ?_⟩
  intro i hi
  rcases Nat.lt_or_ge i stored.length with hold | hnew
  · rw [update_of_ne (hfree i hold), List.getElem_append_left hold]
    exact h.slot i hold
  · have heq : i = stored.length := by
      simp only [List.length_append, List.length_singleton] at hi
      omega
    subst heq
    simp

theorem Holds.pop {size low v : Nat} {buf : Nat → Nat} {rest : List Nat}
    (h : Holds size buf low (v :: rest)) :
    buf (low % 2 ^ 32 % size) = v ∧ Holds size buf (low + 1) rest := by
  have hfits := h.fits
  simp only [List.length_cons] at hfits
  refine ⟨h.slot 0 (Nat.succ_pos _), by omega, ?_⟩
  intro i hi
  have hslot := h.slot (i + 1) (by simpa using hi)
  simpa [Nat.add_assoc, Nat.add_comm 1 i] using hslot

/-- The head and tail words of a queue that stores `stored` from the ideal
counter `low` on. -/
structure Counts (size head tail low : Nat) (stored : List Nat) : Prop where
  size_fits : size < 2 ^ 32
  head_eq : head = low % 2 ^ 32
  tail_eq : tail = (low + stored.length) % 2 ^ 32
  room : stored.length ≤ size

theorem Counts.length_eq {size head tail low : Nat} {stored : List Nat}
    (h : Counts size head tail low stored) : wsub 32 tail head = stored.length := by
  have hroom := h.room
  have hsize := h.size_fits
  rw [h.head_eq, h.tail_eq, wsub_counter (Nat.le_add_right _ _) (by omega)]
  omega

theorem Counts.slot_free {size head tail low : Nat} {stored : List Nat}
    (h : Counts size head tail low stored) (hfree : SlotFree head tail size) :
    ∀ i < stored.length, (low + i) % 2 ^ 32 % size ≠
      (low + stored.length) % 2 ^ 32 % size := by
  intro i hi
  have hne := hfree i (by rwa [h.length_eq])
  rwa [h.head_eq, h.tail_eq, wadd_mod] at hne

theorem Counts.push {size head tail low v : Nat} {stored : List Nat}
    (h : Counts size head tail low stored) (hroom : stored.length < size) :
    Counts size head (wadd 32 tail 1) low (stored ++ [v]) := by
  refine ⟨h.size_fits, h.head_eq, ?_, by simp; omega⟩
  rw [h.tail_eq, wadd_mod]
  simp [Nat.add_assoc]

theorem Counts.pop {size head tail low v : Nat} {rest : List Nat}
    (h : Counts size head tail low (v :: rest)) :
    Counts size (wadd 32 head 1) tail (low + 1) rest := by
  have hroom := h.room
  simp only [List.length_cons] at hroom
  refine ⟨h.size_fits, ?_, ?_, by omega⟩
  · rw [h.head_eq, wadd_mod]
  · rw [h.tail_eq, List.length_cons]
    congr 1
    omega

/-- The counters and the buffer of a queue of capacity `n` together represent
the stored values. -/
def Represents (n head tail size : Nat) (buf : Nat → Nat) (stored : List Nat) : Prop :=
  size = n ∧ ∃ low, Counts size head tail low stored ∧ Holds size buf low stored

theorem represents_empty {n : Nat} (hfit : n < 2 ^ 32) (buf : Nat → Nat) :
    Represents n 0 0 n buf [] :=
  ⟨rfl, 0, ⟨hfit, rfl, rfl, Nat.zero_le _⟩, Holds.nil n 0 buf⟩

theorem Represents.length_eq {n head tail size : Nat} {buf : Nat → Nat}
    {stored : List Nat} (h : Represents n head tail size buf stored) :
    wsub 32 tail head = stored.length := by
  obtain ⟨_, low, hcounts, _⟩ := h
  exact hcounts.length_eq

theorem Represents.length_le {n head tail size : Nat} {buf : Nat → Nat}
    {stored : List Nat} (h : Represents n head tail size buf stored) :
    stored.length ≤ size := by
  obtain ⟨_, low, hcounts, _⟩ := h
  exact hcounts.room

/-- The enqueue that all three queues perform once they found room. -/
theorem Represents.push {n head tail size v : Nat} {buf : Nat → Nat}
    {stored : List Nat} (h : Represents n head tail size buf stored)
    (hroom : wsub 32 tail head ≠ size) (hok : enqOk head tail size) :
    Represents n head (wadd 32 tail 1) size
      (update buf (tail % size) v) (stored ++ [v]) := by
  have hlen := h.length_eq
  have hle := h.length_le
  obtain ⟨hsize, low, hcounts, hholds⟩ := h
  have hfree := hok.resolve_left hroom
  have hlt : stored.length < size := by omega
  refine ⟨hsize, low, hcounts.push hlt, ?_⟩
  rw [hcounts.tail_eq]
  exact hholds.push hlt (hcounts.slot_free hfree)

/-- The dequeue that all three queues perform once they found a value. -/
theorem Represents.pop {n head tail size v : Nat} {buf : Nat → Nat}
    {rest : List Nat} (h : Represents n head tail size buf (v :: rest)) :
    buf (head % size) = v ∧ Represents n (wadd 32 head 1) tail size buf rest := by
  obtain ⟨hsize, low, hcounts, hholds⟩ := h
  obtain ⟨hslot, hrest⟩ := hholds.pop
  refine ⟨?_, hsize, low + 1, hcounts.pop, hrest⟩
  rw [hcounts.head_eq]
  exact hslot

def SpscRel (n : Nat) (q : BoundedSpsc) (stored : List Nat) : Prop :=
  Represents n q.head q.tail q.size q.buf stored

theorem spsc_step {n : Nat} (q : BoundedSpsc) (stored : List Nat) (c : Call)
    (h : SpscRel n q stored) (hok : spscOk q c) :
    ∃ q' r stored', boundedSpsc q c = .ok (q', r) ∧
      FifoStep n stored c r stored' ∧ SpscRel n q' stored' := by
  have hlen := Represents.length_eq h
  have hsize : q.size = n := h.1
  cases c with
  | enq v =>
    have hv : check (v ≠ 0) "v == NULL" = .ok () := check_true hok.1 _
    by_cases hfull : wsub 32 q.tail q.head = q.size
    · refine ⟨q, (.full, none), stored, ?_, ?_, h⟩
      · simp [boundedSpsc, asObject, boundedSpscEnq, hv, hfull, bind, Except.bind,
          pure, Except.pure, Except.map]
      · simp [FifoStep, fifo, ← hlen, hfull, hsize]
    · let next : BoundedSpsc := { q with
        buf := update q.buf (q.tail % q.size) v
        tail := wadd 32 q.tail 1 }
      refine ⟨next, (.ok, none), stored ++ [v], ?_, ?_, Represents.push h hfull hok.2⟩
      · simp [next, boundedSpsc, asObject, boundedSpscEnq, hv, hfull, bind, Except.bind,
          pure, Except.pure, Except.map]
      · simp [FifoStep, fifo, ← hlen, ← hsize, hfull]
  | deq =>
    cases stored with
    | nil =>
      refine ⟨q, (.empty, none), [], ?_, rfl, h⟩
      simp [boundedSpsc, asObject, boundedSpscDeq, hlen, pure, Except.pure]
    | cons v rest =>
      obtain ⟨hslot, hrest⟩ := Represents.pop h
      refine ⟨{ q with head := wadd 32 q.head 1 }, (.ok, some v), rest, ?_, rfl, hrest⟩
      simp [boundedSpsc, asObject, boundedSpscDeq, hlen, hslot, pure, Except.pure]

/-- Between calls the heads of `bounded_mpmc` have caught up with their tails,
which are the counters of the other two queues. -/
def MpmcRel (n : Nat) (q : BoundedMpmc) (stored : List Nat) : Prop :=
  q.phead = q.ptail ∧ q.chead = q.ctail ∧
    Represents n q.chead q.ptail q.size q.buf stored

theorem mpmc_step {n : Nat} (q : BoundedMpmc) (stored : List Nat) (c : Call)
    (h : MpmcRel n q stored) (hok : mpmcOk q c) :
    ∃ q' r stored', boundedMpmc q c = .ok (q', r) ∧
      FifoStep n stored c r stored' ∧ MpmcRel n q' stored' := by
  obtain ⟨hprod, hcons, hrep⟩ := h
  have hlen := hrep.length_eq
  have hsize : q.size = n := hrep.1
  cases c with
  | enq v =>
    by_cases hfull : wsub 32 q.ptail q.chead = q.size
    · refine ⟨q, (.full, none), stored, ?_, ?_, hprod, hcons, hrep⟩
      · simp [boundedMpmc, asObject, boundedMpmcEnq, hprod, ← hcons, hfull,
          pure, Except.pure, Except.map]
      · simp [FifoStep, fifo, ← hlen, hfull, hsize]
    · let next : BoundedMpmc := { q with
        phead := wadd 32 q.ptail 1
        ptail := wadd 32 q.ptail 1
        buf := update q.buf (q.ptail % q.size) v }
      refine ⟨next, (.ok, none), stored ++ [v], ?_, ?_, rfl, hcons,
        hrep.push hfull hok⟩
      · simp [next, boundedMpmc, asObject, boundedMpmcEnq, awaitEq, hprod, ← hcons, hfull,
          bind, Except.bind, pure, Except.pure, Except.map]
      · simp [FifoStep, fifo, ← hlen, ← hsize, hfull]
  | deq =>
    have hempty : q.chead = q.ptail ↔ stored = [] := by
      rw [← List.length_eq_zero_iff, ← hlen]
      obtain ⟨_, low, hcounts, _⟩ := hrep
      have hroom := hcounts.room
      have hfits := hcounts.size_fits
      constructor
      · intro heq
        rw [hlen]
        rw [hcounts.head_eq, hcounts.tail_eq] at heq
        have := counter_eq_of_mod_eq (Nat.le_add_right low stored.length)
          (by omega) heq.symm
        omega
      · intro hzero
        have hnil : stored.length = 0 := hlen ▸ hzero
        rw [hcounts.head_eq, hcounts.tail_eq, hnil, Nat.add_zero]
    cases stored with
    | nil =>
      refine ⟨q, (.empty, none), [], ?_, rfl, hprod, hcons, hrep⟩
      simp [boundedMpmc, asObject, boundedMpmcDeq, hempty.mpr rfl, pure, Except.pure]
    | cons v rest =>
      obtain ⟨hslot, hrest⟩ := hrep.pop
      have hne : q.chead ≠ q.ptail := fun heq => by
        cases hempty.mp heq
      let next : BoundedMpmc := { q with
        chead := wadd 32 q.chead 1
        ctail := wadd 32 q.chead 1 }
      refine ⟨next, (.ok, some v), rest, ?_, rfl, hprod, rfl, hrest⟩
      simp [next, boundedMpmc, asObject, boundedMpmcDeq, awaitEq, hne, ← hcons, hslot,
        bind, Except.bind, pure, Except.pure]

def LockedRel (n : Nat) (q : BoundedLocked) (stored : List Nat) : Prop :=
  q.lock = 0 ∧ Represents n q.head q.tail q.size q.buf stored

theorem locked_step {n : Nat} (q : BoundedLocked) (stored : List Nat) (c : Call)
    (h : LockedRel n q stored) (hok : lockedOk q c) :
    ∃ q' r stored', boundedLocked q c = .ok (q', r) ∧
      FifoStep n stored c r stored' ∧ LockedRel n q' stored' := by
  obtain ⟨hlock, hrep⟩ := h
  have hlen := hrep.length_eq
  have hle := hrep.length_le
  have hsize : q.size = n := hrep.1
  cases c with
  | enq v =>
    have hv : check (v ≠ 0) "v == NULL" = .ok () := check_true hok.1 _
    have hcons : check (wsub 32 q.tail q.head ≤ q.size) "inconsistent state" =
        .ok () := check_true (hlen ▸ hle) _
    by_cases hfull : wsub 32 q.tail q.head = q.size
    · refine ⟨{ q with lock := 0 }, (.full, none), stored, ?_, ?_, rfl, hrep⟩
      · simp [boundedLocked, asObject, boundedLockedEnq, caslockTryacquire,
          caslockRelease, hlock, hv, hfull, bind, Except.bind, pure,
          Except.pure, Except.map]
      · simp [FifoStep, fifo, ← hlen, hfull, hsize]
    · let next : BoundedLocked := { q with
        buf := update q.buf (q.tail % q.size) v
        tail := wadd 32 q.tail 1
        lock := 0 }
      refine ⟨next, (.ok, none), stored ++ [v], ?_, ?_, rfl, hrep.push hfull hok.2⟩
      · simp [next, boundedLocked, asObject, boundedLockedEnq, caslockTryacquire,
          caslockRelease, hlock, hv, hcons, hfull, bind, Except.bind, pure,
          Except.pure, Except.map]
      · simp [FifoStep, fifo, ← hlen, ← hsize, hfull]
  | deq =>
    have horder : check (q.head ≤ q.tail) "head > tail" = .ok () :=
      check_true (show q.head ≤ q.tail from hok) _
    cases stored with
    | nil =>
      refine ⟨{ q with lock := 0 }, (.empty, none), [], ?_, rfl, rfl, hrep⟩
      simp [boundedLocked, asObject, boundedLockedDeq, caslockTryacquire,
        caslockRelease, hlock, horder, hlen, bind, Except.bind, pure, Except.pure]
    | cons v rest =>
      obtain ⟨hslot, hrest⟩ := hrep.pop
      let next : BoundedLocked := { q with
        head := wadd 32 q.head 1
        lock := 0 }
      refine ⟨next, (.ok, some v), rest, ?_, rfl, rfl, hrest⟩
      simp [next, boundedLocked, asObject, boundedLockedDeq, caslockTryacquire,
        caslockRelease, hlock, horder, hlen, hslot, bind, Except.bind, pure,
        Except.pure]

/-- For every capacity that fits 32 bits and every sequence of calls, each of
the three queues returns the results of a FIFO of that capacity, and no
assertion fails, as long as no enqueue writes the slot of a value that is
still stored and, for the locked queue, no dequeue meets a wrapped tail. -/
theorem bounded_queues_refine_fifo (n : Nat) (hpos : 1 ≤ n) (hfit : n < 2 ^ 32)
    (b : Nat → Nat) (calls : List Call) :
    (∃ q, boundedSpscInit b n = .ok q ∧
      (Object.Meets boundedSpsc spscOk q calls → RefinesFifo n boundedSpsc q calls)) ∧
    (∃ q, boundedMpmcInit b n = .ok q ∧
      (Object.Meets boundedMpmc mpmcOk q calls → RefinesFifo n boundedMpmc q calls)) ∧
    (∃ q, boundedLockedInit b n = .ok q ∧
      (Object.Meets boundedLocked lockedOk q calls →
        RefinesFifo n boundedLocked q calls)) := by
  have hsize : check (n ≠ 0) "buffer with 0 size" = .ok () := check_true (by omega) _
  refine ⟨⟨⟨b, 0, 0, n⟩, ?_, ?_⟩, ⟨⟨0, 0, 0, 0, b, n⟩, ?_, ?_⟩, ⟨⟨b, 0, 0, n, 0⟩, ?_, ?_⟩⟩
  · simp [boundedSpscInit, hsize, bind, Except.bind, pure, Except.pure]
  · intro hok
    obtain ⟨final, results, stored, hrun, hspec, _⟩ :=
      Object.refines (fun q l c hq hc => spsc_step q l c hq hc)
        (show SpscRel n ⟨b, 0, 0, n⟩ [] from represents_empty hfit b) hok
    exact ⟨final, results, stored, hrun, hspec⟩
  · simp [boundedMpmcInit, hsize, bind, Except.bind, pure, Except.pure]
  · intro hok
    obtain ⟨final, results, stored, hrun, hspec, _⟩ :=
      Object.refines (fun q l c hq hc => mpmc_step q l c hq hc)
        (show MpmcRel n ⟨0, 0, 0, 0, b, n⟩ [] from ⟨rfl, rfl, represents_empty hfit b⟩) hok
    exact ⟨final, results, stored, hrun, hspec⟩
  · simp [boundedLockedInit, hsize, bind, Except.bind, pure, Except.pure]
  · intro hok
    obtain ⟨final, results, stored, hrun, hspec, _⟩ :=
      Object.refines (fun q l c hq hc => locked_step q l c hq hc)
        (show LockedRel n ⟨b, 0, 0, n, 0⟩ [] from ⟨rfl, represents_empty hfit b⟩) hok
    exact ⟨final, results, stored, hrun, hspec⟩

/-- When the size divides `2 ^ 32` the slot of a counter only depends on the
ideal counter, so the slot behind fewer than `size` values is always free. -/
theorem slotFree_of_dvd {n head tail size : Nat} {buf : Nat → Nat}
    {stored : List Nat} (h : Represents n head tail size buf stored)
    (hdvd : size ∣ 2 ^ 32) (hroom : wsub 32 tail head ≠ size) :
    SlotFree head tail size := by
  have hlen := h.length_eq
  have hle := h.length_le
  obtain ⟨_, low, hcounts, _⟩ := h
  intro i hi heq
  rw [hcounts.head_eq, hcounts.tail_eq, wadd_mod, Nat.mod_mod_of_dvd _ hdvd,
    Nat.mod_mod_of_dvd _ hdvd] at heq
  have hmod : low + stored.length ≡ low + i [MOD size] := heq.symm
  have hcancel : stored.length ≡ i [MOD size] := Nat.ModEq.add_left_cancel' low hmod
  rw [hlen] at hi
  have : stored.length = i := Nat.ModEq.eq_of_lt_of_lt hcancel (by omega) (by omega)
  omega

/-- `k` times an enqueue followed by a dequeue. -/
def laps : Nat → List Call
  | 0 => []
  | k + 1 => .enq 1 :: .deq :: laps k

def lapResults : Nat → List Result
  | 0 => []
  | k + 1 => (.ok, none) :: (.ok, some 1) :: lapResults k

/-- A FIFO with room for one value runs the laps and is empty again. -/
theorem specRun_laps {n k : Nat} {rest : List Call} {results : List Result}
    {stored : List Nat} (hpos : 1 ≤ n)
    (h : SpecRun (FifoStep n) [] (laps k ++ rest) results stored) :
    ∃ results', results = lapResults k ++ results' ∧
      SpecRun (FifoStep n) [] rest results' stored := by
  induction k generalizing results with
  | zero => exact ⟨results, rfl, h⟩
  | succ k ih =>
    cases h with
    | cons henq htail =>
      cases htail with
      | cons hdeq hlaps =>
        have hroom : (0 : Nat) ≠ n := by omega
        simp only [FifoStep, fifo, List.length_nil, hroom, if_false,
          List.nil_append, Prod.mk.injEq] at henq
        obtain ⟨rfl, rfl⟩ := henq
        simp only [FifoStep, fifo, Prod.mk.injEq] at hdeq
        obtain ⟨rfl, rfl⟩ := hdeq
        obtain ⟨results', rfl, hrest⟩ := ih hlaps
        exact ⟨results', rfl, hrest⟩

theorem wsub_self (c : Nat) (hc : c < 2 ^ 32) : wsub 32 c c = 0 := by
  have h := wsub_counter (w := 32) (le_refl c) (by simp)
  rwa [Nat.mod_eq_of_lt hc, Nat.sub_self] at h

theorem wsub_next (c : Nat) (hc : c < 2 ^ 32) : wsub 32 (wadd 32 c 1) c = 1 := by
  have h := wsub_counter (w := 32) (Nat.le_add_right c 1) (by simp)
  rwa [Nat.mod_eq_of_lt hc, Nat.add_sub_cancel_left] at h

/-- Laps of an empty queue only advance both counters. -/
theorem spsc_laps (k : Nat) (q : BoundedSpsc) (hempty : q.head = q.tail)
    (hword : q.tail < 2 ^ 32) (hsize : q.size ≠ 0) :
    ∃ buf, Object.run boundedSpsc q (laps k) =
      .ok (⟨buf, (q.tail + k) % 2 ^ 32, (q.tail + k) % 2 ^ 32, q.size⟩, lapResults k) := by
  induction k generalizing q with
  | zero =>
    obtain ⟨buf, head, tail, size⟩ := q
    cases hempty
    refine ⟨buf, ?_⟩
    simp only at hword
    simp only [laps, lapResults, Object.run, Nat.add_zero, Nat.mod_eq_of_lt hword]
  | succ k ih =>
    obtain ⟨buf, head, tail, size⟩ := q
    simp only at hempty hword hsize
    subst hempty
    let mid : BoundedSpsc := ⟨update buf (head % size) 1, head, wadd 32 head 1, size⟩
    let next : BoundedSpsc :=
      ⟨update buf (head % size) 1, wadd 32 head 1, wadd 32 head 1, size⟩
    have henq : boundedSpsc ⟨buf, head, head, size⟩ (.enq 1) = .ok (mid, .ok, none) := by
      simp [boundedSpsc, asObject, boundedSpscEnq, wsub_self head hword, Ne.symm hsize,
        mid, bind, Except.bind, pure, Except.pure, Except.map]
    have hdeq : boundedSpsc mid .deq = .ok (next, .ok, some 1) := by
      simp [boundedSpsc, asObject, boundedSpscDeq, mid, next, wsub_next head hword,
        pure, Except.pure]
    obtain ⟨buf', hrun⟩ := ih next rfl (wadd_lt _ _ _) hsize
    refine ⟨buf', Object.run_cons henq (Object.run_cons hdeq ?_)⟩
    rw [hrun]
    simp [next, wadd, Nat.mod_add_mod, Nat.add_assoc, Nat.add_comm 1 k]

theorem locked_laps (k : Nat) (q : BoundedLocked) (hempty : q.head = q.tail)
    (hlock : q.lock = 0) (hk : q.tail + k < 2 ^ 32) (hsize : q.size ≠ 0) :
    ∃ buf, Object.run boundedLocked q (laps k) =
      .ok (⟨buf, q.tail + k, q.tail + k, q.size, 0⟩, lapResults k) := by
  induction k generalizing q with
  | zero =>
    obtain ⟨buf, head, tail, size, lock⟩ := q
    cases hempty
    cases hlock
    exact ⟨buf, by simp [laps, lapResults, Object.run]⟩
  | succ k ih =>
    obtain ⟨buf, head, tail, size, lock⟩ := q
    simp only at hempty hlock hk hsize
    subst hempty hlock
    have hword : head < 2 ^ 32 := by omega
    have hnext : wadd 32 head 1 = head + 1 := wadd_of_lt (by omega)
    let mid : BoundedLocked := ⟨update buf (head % size) 1, head, head + 1, size, 0⟩
    let next : BoundedLocked :=
      ⟨update buf (head % size) 1, head + 1, head + 1, size, 0⟩
    have hone : wsub 32 (head + 1) head = 1 := hnext ▸ wsub_next head hword
    have henq : boundedLocked ⟨buf, head, head, size, 0⟩ (.enq 1) =
        .ok (mid, .ok, none) := by
      simp [boundedLocked, asObject, boundedLockedEnq, caslockTryacquire, caslockRelease,
        wsub_self head hword, Ne.symm hsize, hnext, mid, bind, Except.bind, pure,
        Except.pure, Except.map]
    have hdeq : boundedLocked mid .deq = .ok (next, .ok, some 1) := by
      simp [boundedLocked, asObject, boundedLockedDeq, caslockTryacquire, caslockRelease,
        mid, next, hone, hnext, bind, Except.bind, pure, Except.pure]
    obtain ⟨buf', hrun⟩ := ih next rfl rfl (by simp [next]; omega) hsize
    refine ⟨buf', Object.run_cons henq (Object.run_cons hdeq ?_)⟩
    rw [hrun]
    simp [next, Nat.add_assoc, Nat.add_comm 1 k]

/-- With size 3 the values at the counters `2 ^ 32 - 1` and `0` share slot 0,
so the second of two enqueues around the wrap overwrites the first value. -/
theorem spsc_wrap_overwrites (k : Nat) (hk : k = 2 ^ 32 - 1) :
    ¬ RefinesFifo 3 boundedSpsc ⟨fun _ => 0, 0, 0, 3⟩
      (laps k ++ [.enq 1, .enq 2, .deq]) := by
  rintro ⟨final, results, stored, hrun, hspec⟩
  obtain ⟨buf, hlaps⟩ := spsc_laps k ⟨fun _ => 0, 0, 0, 3⟩ rfl (by simp) (by simp)
  rw [Object.run_append _ hlaps] at hrun
  obtain ⟨results', rfl, hrest⟩ := specRun_laps (by omega) hspec
  have hlast : Object.run boundedSpsc ⟨buf, (0 + k) % 2 ^ 32, (0 + k) % 2 ^ 32, 3⟩
      [.enq 1, .enq 2, .deq] =
      .ok (⟨update (update buf 0 1) 0 2, 0, 1, 3⟩,
        [(.ok, none), (.ok, none), (.ok, some 2)]) := by
    obtain ⟨c, hc⟩ : ∃ c, (0 + k) % 2 ^ 32 = c := ⟨_, rfl⟩
    rw [hc]
    have hslot : c % 3 = 0 := by omega
    have hnext : wadd 32 c 1 = 0 := by unfold wadd; omega
    have hnone : wsub 32 c c = 0 := by unfold wsub; omega
    have hone : wsub 32 0 c = 1 := by unfold wsub; omega
    have htwo : wsub 32 1 c = 2 := by unfold wsub; omega
    have hstep : wadd 32 0 1 = 1 := rfl
    simp [Object.run, boundedSpsc, asObject, boundedSpscEnq, boundedSpscDeq, hslot,
      hnext, hnone, hone, htwo, hstep, bind, Except.bind, pure, Except.pure, Except.map]
  rw [hlast] at hrun
  simp only [Except.map, Except.ok.injEq, Prod.mk.injEq, List.append_cancel_left_eq]
    at hrun
  obtain ⟨_, rfl⟩ := hrun
  cases hrest with
  | cons h1 hrest =>
    cases hrest with
    | cons h2 hrest =>
      cases hrest with
      | cons h3 _ =>
        cases h1
        cases h2
        cases h3

/-- Once the tail of the locked queue has wrapped past its head, a dequeue
fails `head <= tail`, for a size that divides `2 ^ 32` as well. -/
theorem locked_wrap_asserts (k : Nat) (hk : k = 2 ^ 32 - 1) :
    ¬ RefinesFifo 2 boundedLocked ⟨fun _ => 0, 0, 0, 2, 0⟩
      (laps k ++ [.enq 1, .deq]) := by
  rintro ⟨final, results, stored, hrun, _⟩
  obtain ⟨buf, hlaps⟩ := locked_laps k ⟨fun _ => 0, 0, 0, 2, 0⟩ rfl rfl
    (by simp [hk]) (by simp)
  rw [Object.run_append _ hlaps] at hrun
  have hlast : Object.run boundedLocked ⟨buf, 0 + k, 0 + k, 2, 0⟩
      [.enq 1, .deq] = .error (.assert "head > tail") := by
    rw [Nat.zero_add]
    have hnext : wadd 32 k 1 = 0 := by unfold wadd; omega
    have hnone : wsub 32 k k = 0 := by unfold wsub; omega
    have hpos : k ≠ 0 := by omega
    simp [Object.run, boundedLocked, asObject, boundedLockedEnq, boundedLockedDeq,
      caslockTryacquire, caslockRelease, hnext, hnone, hpos, bind, Except.bind, pure,
      Except.pure, Except.map]
  rw [hlast] at hrun
  cases hrun

theorem bounded_queues_wrap_counterexample :
    (∃ q, boundedSpscInit (fun _ => 0) 3 = .ok q ∧
      ¬ RefinesFifo 3 boundedSpsc q
        (laps (2 ^ 32 - 1) ++ [.enq 1, .enq 2, .deq])) ∧
    (∃ q, boundedLockedInit (fun _ => 0) 2 = .ok q ∧
      ¬ RefinesFifo 2 boundedLocked q (laps (2 ^ 32 - 1) ++ [.enq 1, .deq])) :=
  ⟨⟨⟨fun _ => 0, 0, 0, 3⟩, rfl, spsc_wrap_overwrites (2 ^ 32 - 1) rfl⟩,
    ⟨⟨fun _ => 0, 0, 0, 2, 0⟩, rfl, locked_wrap_asserts (2 ^ 32 - 1) rfl⟩⟩

/-- Values go through each queue of size 3, for `bounded_mpmc` also NULL, and an empty dequeue
reports empty: the run meets the conditions. -/
theorem bounded_queues_refine_fifo_three :
    RefinesFifo 3 boundedSpsc ⟨fun _ => 0, 0, 0, 3⟩ [.enq 7, .deq, .deq] ∧
    RefinesFifo 3 boundedMpmc ⟨0, 0, 0, 0, fun _ => 0, 3⟩ [.enq 0, .enq 5, .deq, .deq, .deq] ∧
    RefinesFifo 3 boundedLocked ⟨fun _ => 0, 0, 0, 3, 0⟩ [.enq 7, .deq, .deq] := by
  have henq : 7 ≠ 0 ∧ enqOk 0 0 3 := by decide
  have hsecond : enqOk 0 1 3 := by decide
  obtain ⟨⟨q1, hinit1, h1⟩, -, ⟨q3, hinit3, h3⟩⟩ :=
    bounded_queues_refine_fifo 3 (by omega) (by omega) (fun _ => 0) [.enq 7, .deq, .deq]
  obtain ⟨-, ⟨q2, hinit2, h2⟩, -⟩ := bounded_queues_refine_fifo 3 (by omega) (by omega)
    (fun _ => 0) [.enq 0, .enq 5, .deq, .deq, .deq]
  cases hinit1
  cases hinit2
  cases hinit3
  exact ⟨h1 ⟨henq, trivial, trivial, trivial⟩,
    h2 ⟨henq.2, hsecond, trivial, trivial, trivial, trivial⟩,
    h3 ⟨henq, Nat.zero_le _, Nat.le_refl _, trivial⟩⟩

end Libvsync.Queue.Bounded
