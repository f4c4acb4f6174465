import Libvsync.Core.Futex
import Libvsync.Core.Linked

/-!
The futex mock `futex_mock_liveness`. Every wait has a record on the stack of its thread, and
the records of the addresses with the same remainder are linked in a list. A wait pushes its
record in front while it has the lock and then waits without it for the state of the record
to change; a wake call walks through the list and takes out records of its address.

The lock is one that is held by one thread at a time. An address is a number, and other
threads may write the words at any time.
-/

namespace Libvsync.Thread.FutexMock

open Libvsync.Core Function

/-- `VFUTEX_NUM_HEADS` -/
def vfutexNumHeads : Nat := 16

/-- `vfutex_waiter_t`. The record of a thread is named by the thread. -/
structure Waiter (Tid : Type) where
  state : Nat
  futex : Nat
  next : Option Tid

/-- The pointer `h` of `vfutex_wake` is the address of a list head or of the field `next` of
a record. -/
inductive Slot (Tid : Type) where
  | head (b : Nat)
  | next (r : Tid)
  deriving DecidableEq

/-- Where a call stands, with its arguments and local variables. -/
inductive Pc (Tid : Type) where
  | idle
  | waitLock (m v : Nat)
  | waitRead (m v : Nat)
  | waitLink (m : Nat)
  | waitPush (m : Nat)
  | waitUnlock (done : Bool)
  | await
  | wakeLock (m v : Nat)
  | wakeLoop (m cnt : Nat) (h : Slot Tid)
  | wakeFutex (m cnt : Nat) (h : Slot Tid) (w : Tid)
  | wakeWrite (m cnt : Nat) (h : Slot Tid) (w : Tid)
  | wakeUnlock
  deriving DecidableEq

structure State (Tid : Type) where
  word : Nat → Nat
  lock : Option Tid
  head : Nat → Option Tid
  waiter : Tid → Waiter Tid
  pc : Tid → Pc Tid

inductive Act (Tid : Type) where
  | vfutexWait (t : Tid) (m v : Nat)
  | vfutexWake (t : Tid) (m v : Nat)
  | write (m v : Nat)
  | step (t : Tid)

variable {Tid : Type} [DecidableEq Tid]

def bucket (m : Nat) : Nat := m % vfutexNumHeads

def State.goto (s : State Tid) (t : Tid) (pc : Pc Tid) : State Tid :=
  { s with pc := update s.pc t pc }

def State.setWaiter (s : State Tid) (t : Tid) (w : Waiter Tid) : State Tid :=
  { s with waiter := update s.waiter t w }

def State.setHead (s : State Tid) (b : Nat) (p : Option Tid) : State Tid :=
  { s with head := update s.head b p }

/-- `*h` -/
def State.deref (s : State Tid) : Slot Tid → Option Tid
  | .head b => s.head b
  | .next r => (s.waiter r).next

/-- `*h = p` -/
def State.assign (s : State Tid) (p : Option Tid) : Slot Tid → State Tid
  | .head b => s.setHead b p
  | .next r => s.setWaiter r { s.waiter r with next := p }

/-- `caslock_acquire(&g_futex_lock)` -/
def State.acquire (s : State Tid) (t : Tid) (pc : Pc Tid) : Option (State Tid) :=
  if s.lock = none then some ({ s with lock := some t }.goto t pc) else none

/-- `caslock_release(&g_futex_lock)` -/
def State.release (s : State Tid) (t : Tid) (pc : Pc Tid) : State Tid :=
  { s with lock := none }.goto t pc

/-- The next step of `t` in `vfutex_wait` or `vfutex_wake`. -/
def nextStep (s : State Tid) (t : Tid) : Option (State Tid) :=
  match s.pc t with
  | .idle => none
  | .waitLock m v => s.acquire t (.waitRead m v)
  | .waitRead m v =>
    if s.word m = v then some (s.goto t (.waitLink m)) else some (s.goto t (.waitUnlock true))
  | .waitLink m =>
    some ((s.setWaiter t { s.waiter t with next := s.head (bucket m) }).goto t (.waitPush m))
  | .waitPush m => some ((s.setHead (bucket m) (some t)).goto t (.waitUnlock false))
  | .waitUnlock done => some (s.release t (if done then .idle else .await))
  | .await => if (s.waiter t).state ≠ 1 then some (s.goto t .idle) else none
  | .wakeLock m v => s.acquire t (.wakeLoop m v (.head (bucket m)))
  | .wakeLoop m cnt h =>
    match s.deref h with
    | none => some (s.goto t .wakeUnlock)
    | some w =>
      if cnt ≠ 0 then some (s.goto t (.wakeFutex m cnt h w)) else some (s.goto t .wakeUnlock)
  | .wakeFutex m cnt h w =>
    if (s.waiter w).futex = m then
      some ((s.assign (s.waiter w).next h).goto t (.wakeWrite m (cnt - 1) h w))
    else some (s.goto t (.wakeLoop m cnt (.next w)))
  | .wakeWrite m cnt h w =>
    some ((s.setWaiter w { s.waiter w with state := 0 }).goto t (.wakeLoop m cnt h))
  | .wakeUnlock => some (s.release t .idle)

def step (s : State Tid) : Act Tid → Option (State Tid)
  | .vfutexWait t m v =>
    if s.pc t = .idle then some ((s.setWaiter t ⟨1, m, none⟩).goto t (.waitLock m v)) else none
  | .vfutexWake t m v => if s.pc t = .idle then some (s.goto t (.wakeLock m v)) else none
  | .write m v => some { s with word := update s.word m v }
  | .step t => nextStep s t

structure Initial (s : State Tid) : Prop where
  lock : s.lock = none
  head : s.head = fun _ => none
  pc : s.pc = fun _ => .idle

def machine (Tid : Type) [DecidableEq Tid] : Machine (State Tid) (Act Tid) where
  start := Initial
  step := step

/-- What a step is for the callers. A wait is named by its thread. A wait has compared the
word when it reads it, and a wake call decides when it has the lock. -/
def event (s : State Tid) : Act Tid → Option (FutexEvent Nat Tid)
  | .write m v => some (.write m v)
  | .step t =>
    match s.pc t with
    | .waitRead m v => if s.word m = v then some (.sleep m v t) else none
    | .wakeLock m v => some (.wake m v)
    | .await => some (.back t)
    | _ => none
  | _ => none

/-- The abstract futex at a state. The wait of a thread that waits does not return. Unless a
call holds the lock, the threads in the loop of a wait are those that wait and those that
were selected, and the waits of the latter return. -/
structure Agrees (s : State Tid) (f : Futex Nat Tid) : Prop where
  word : f.word = s.word
  blocked : ∀ m t, t ∈ f.waiting m → (s.waiter t).state = 1
  released : s.lock = none → ∀ t ∈ f.woken, s.pc t = .await ∧ (s.waiter t).state ≠ 1
  waits : s.lock = none → ∀ t, s.pc t = .await → t ∈ f.woken ∨ ∃ m, t ∈ f.waiting m

end Libvsync.Thread.FutexMock
