import Libvsync.Core.Machine
import Libvsync.Core.Turns
import Libvsync.Core.Word

/-!
The ticket lock with a waiting array. All locks share the array. A thread whose ticket is
not the next one waits for a change of the slot of its ticket; a release writes `grant`
and increments the slot of the ticket behind the next one in a second step.

The tickets, the grants and the slots are words of 32 bits. The fields from `arrived` on
are not read by the code: who took a ticket of a lock, who was let in, how often a lock was
released and how often a slot was incremented. The positions of the threads carry the
numbers that stand behind the words which the code has read.
-/

namespace Libvsync.Spinlock.Twalock

open Libvsync.Core Function

/-- Where a call stands: the next atomic operation, with the local variables. A word `tx`
or `k` comes with its unbounded number `x` or `n`; `u` is the value of the slot, which had
been incremented `n` times when it was read. -/
inductive Pc (Lock : Type) where
  | idle
  | acqInc (l : Lock)
  | acqRead (l : Lock) (tx x : Nat)
  | slowArray (l : Lock) (tx x : Nat)
  | slowGrant (l : Lock) (tx x u n : Nat)
  | slowAwait (l : Lock) (tx x u n : Nat)
  | acqAwait (l : Lock) (tx x : Nat)
  | tryRead (l : Lock)
  | tryCas (l : Lock) (k n : Nat)
  | relRead (l : Lock)
  | relWrite (l : Lock) (k : Nat)
  | relInc (l : Lock) (k n : Nat)
  deriving DecidableEq

/-- `held` is which locks a thread has acquired and not released. -/
structure State (Tid Lock : Type) where
  ticket : Lock → Nat
  grant : Lock → Nat
  array : Nat → Nat
  pc : Tid → Pc Lock
  held : Tid → Lock → Bool
  arrived : Lock → List Tid
  granted : Lock → List Tid
  released : Lock → Nat
  bumps : Nat → Nat

inductive Act (Tid Lock : Type) where
  | acquire (t : Tid) (l : Lock)
  | tryacquire (t : Tid) (l : Lock)
  | release (t : Tid) (l : Lock)
  | step (t : Tid)

variable {Tid Lock : Type} [DecidableEq Tid] [DecidableEq Lock]

def State.goto (s : State Tid Lock) (t : Tid) (pc : Pc Lock) : State Tid Lock :=
  { s with pc := update s.pc t pc }

def State.setHeld (s : State Tid Lock) (t : Tid) (l : Lock) (b : Bool) : State Tid Lock :=
  { s with held := update s.held t (update (s.held t) l b) }

/-- `t` takes a ticket, and `ticket` is the next one. -/
def State.arrive (s : State Tid Lock) (t : Tid) (l : Lock) (ticket : Nat) : State Tid Lock :=
  { s with
    ticket := update s.ticket l ticket
    arrived := update s.arrived l (s.arrived l ++ [t]) }

/-- `t` returns with the lock. -/
def State.enter (s : State Tid Lock) (t : Tid) (l : Lock) : State Tid Lock :=
  ({ s with granted := update s.granted l (s.granted l ++ [t]) }.setHeld t l true).goto t
    .idle

/-- The holder `t` writes `grant`. -/
def State.pass (s : State Tid Lock) (t : Tid) (l : Lock) (grant : Nat) : State Tid Lock :=
  { s with
    grant := update s.grant l grant
    released := update s.released l (s.released l + 1) }.setHeld t l false

/-- `TWA_DIFF` -/
def twaDiff (a b : Nat) : Nat := wsub 32 a b

/-- `TWA_HASH`, for an array of `size` slots. -/
def twaHash (size t : Nat) : Nat := t % size

def twaL : Nat := 1

/-- `_twalock_acquire_slowpath`, with the slot just read: the next step reads `grant`. -/
def State.readSlot (size : Nat) (s : State Tid Lock) (t : Tid) (l : Lock) (tx x : Nat) :
    State Tid Lock :=
  s.goto t (.slowGrant l tx x (s.array (twaHash size tx)) (s.bumps (twaHash size tx)))

/-- The next atomic operation of thread `t`. -/
def nextStep (size : Nat) (s : State Tid Lock) (t : Tid) : Option (State Tid Lock) :=
  match s.pc t with
  | .idle => none
  | .acqInc l =>
    some ((s.arrive t l (wadd 32 (s.ticket l) 1)).goto t
      (.acqRead l (s.ticket l) (s.arrived l).length))
  | .acqRead l tx x =>
    if twaDiff tx (s.grant l) = 0 then some (s.enter t l)
    else if twaL < twaDiff tx (s.grant l) then some (s.goto t (.slowArray l tx x))
    else some (s.goto t (.acqAwait l tx x))
  | .slowArray l tx x => some (s.readSlot size t l tx x)
  | .slowGrant l tx x u n =>
    if twaL < twaDiff tx (s.grant l) then some (s.goto t (.slowAwait l tx x u n))
    else some (s.goto t (.acqAwait l tx x))
  | .slowAwait l tx x u _ =>
    if s.array (twaHash size tx) = u then none else some (s.readSlot size t l tx x)
  | .acqAwait l tx _ => if s.grant l = tx then some (s.enter t l) else none
  | .tryRead l => some (s.goto t (.tryCas l (s.grant l) (s.released l)))
  | .tryCas l k _ =>
    if s.ticket l = k then some ((s.arrive t l (wadd 32 k 1)).enter t l)
    else some (s.goto t .idle)
  | .relRead l => some (s.goto t (.relWrite l (wadd 32 (s.grant l) 1)))
  | .relWrite l k =>
    some ((s.pass t l k).goto t (.relInc l k (s.released l + 1)))
  | .relInc _ k _ =>
    let i := twaHash size (wadd 32 k twaL)
    some ({ s with
      array := update s.array i (wadd 32 (s.array i) 1)
      bumps := update s.bumps i (s.bumps i + 1) }.goto t .idle)

def step (size : Nat) (s : State Tid Lock) : Act Tid Lock → Option (State Tid Lock)
  | .acquire t l => if s.pc t = .idle then some (s.goto t (.acqInc l)) else none
  | .tryacquire t l => if s.pc t = .idle then some (s.goto t (.tryRead l)) else none
  | .release t l =>
    if s.pc t = .idle ∧ s.held t l = true then some (s.goto t (.relRead l)) else none
  | .step t => nextStep size s t

/-- `twalock_init` for every lock. The array is a global variable. -/
structure Initial (s : State Tid Lock) : Prop where
  ticket : s.ticket = fun _ => 0
  grant : s.grant = fun _ => 0
  array : s.array = fun _ => 0
  pc : s.pc = fun _ => .idle
  held : s.held = fun _ _ => false
  arrived : s.arrived = fun _ => []
  granted : s.granted = fun _ => []
  released : s.released = fun _ => 0
  bumps : s.bumps = fun _ => 0

def machine (Tid Lock : Type) [DecidableEq Tid] [DecidableEq Lock] (size : Nat) :
    Machine (State Tid Lock) (Act Tid Lock) where
  start := Initial
  step := step size

/-- A step that takes a ticket of a lock leaves fewer than `2 ^ 32` tickets of it that are
not released. -/
def few (s : State Tid Lock) : Act Tid Lock → Bool
  | .step t =>
    match s.pc t with
    | .acqInc l => (s.arrived l).length + 1 < s.released l + 2 ^ 32
    | .tryCas l k _ => s.ticket l = k → (s.arrived l).length + 1 < s.released l + 2 ^ 32
    | _ => true
  | _ => true

/-- The ticket that a tryacquire compares with the `grant` that it has read is not that
number plus a multiple of `2 ^ 32`. -/
def fresh (s : State Tid Lock) : Act Tid Lock → Bool
  | .step t =>
    match s.pc t with
    | .tryCas l _ n => (s.arrived l).length % 2 ^ 32 = n % 2 ^ 32 → (s.arrived l).length = n
    | _ => true
  | _ => true

/-- What holds of each lock. -/
structure LockInv (s : State Tid Lock) (l : Lock) : Prop where
  ticket : s.ticket l = (s.arrived l).length % 2 ^ 32
  grant : s.grant l = s.released l % 2 ^ 32
  fits : (s.arrived l).length < s.released l + 2 ^ 32
  order : Serving (s.arrived l) (s.granted l) (s.released l) fun t => s.held t l

/-- `t` has ticket number `x` of lock `l` and has not been let in. -/
def Ticket (s : State Tid Lock) (t : Tid) (l : Lock) (tx x : Nat) : Prop :=
  tx = x % 2 ^ 32 ∧ (s.granted l).length ≤ x ∧ (s.arrived l)[x]? = some t

/-- If ticket `x` is the next one or is let in, then its slot was incremented after it had
been incremented `n` times, or is going to be. -/
def Woken (size : Nat) (s : State Tid Lock) (l : Lock) (tx x n : Nat) : Prop :=
  x ≤ s.released l + 1 →
    n < s.bumps (twaHash size tx) ∨ ∃ r k j, s.pc r = .relInc l k j ∧ j + 1 = x

def PcOk (size : Nat) (s : State Tid Lock) (t : Tid) : Pc Lock → Prop
  | .idle | .acqInc _ | .tryRead _ => True
  | .acqRead l tx x | .slowArray l tx x | .acqAwait l tx x => Ticket s t l tx x
  | .slowGrant l tx x u n =>
    Ticket s t l tx x ∧ u = n % 2 ^ 32 ∧ n ≤ s.bumps (twaHash size tx)
  | .slowAwait l tx x u n =>
    Ticket s t l tx x ∧ u = n % 2 ^ 32 ∧ n ≤ s.bumps (twaHash size tx) ∧ Woken size s l tx x n
  | .tryCas l k n => k = n % 2 ^ 32 ∧ n ≤ s.released l
  | .relRead l => s.held t l = true
  | .relWrite l k => s.held t l = true ∧ k = wadd 32 (s.grant l) 1
  | .relInc _ k n => k = n % 2 ^ 32

/-- The thread is between the two writes of release. -/
def Pc.passed : Pc Lock → Bool
  | .relInc .. => true
  | _ => false

structure Inv (size : Nat) (s : State Tid Lock) : Prop where
  locks : ∀ l, LockInv s l
  array : ∀ i, s.array i = s.bumps i % 2 ^ 32
  pcs : ∀ t, PcOk size s t (s.pc t)

end Libvsync.Spinlock.Twalock
