import Libvsync.Core.Machine
import Libvsync.Core.Turns

/-!
The Hemlock. A thread has one node for all locks, with one word `grant`. A thread that
exchanges itself into the tail of a lock waits until the `grant` of the thread in front of
it names the lock, and clears it; a thread that releases a lock and has someone behind it
writes the lock into its `grant` and waits until the word is cleared. So several threads can
wait at one word, each for its own lock. `ctr` is `HEMLOCK_USE_CTR`: a waiter finds and
clears the grant in one compare-and-swap.

The fields from `arrived` on are not read by the code: who exchanged itself into the tail,
who was let in, and how many have released the lock. The positions of a waiter and of a
releaser carry the number of their exchange.
-/

namespace Libvsync.Spinlock.Hemlock

open Libvsync.Core Function

inductive Pc (Tid Lock : Type) where
  | idle
  | tryClear (l : Lock)
  | tryCas (l : Lock)
  | acqClear (l : Lock)
  | acqXchg (l : Lock)
  | acqAwait (l : Lock) (pred : Tid) (i : Nat)
  | acqWrite (l : Lock) (pred : Tid) (i : Nat)
  | relRead (l : Lock)
  | relCas (l : Lock)
  | relGrant (l : Lock)
  | relAwait (l : Lock) (i : Nat)
  deriving DecidableEq

/-- `held` is which locks a thread has acquired and not released. -/
structure State (Tid Lock : Type) where
  tail : Lock → Option Tid
  grant : Tid → Option Lock
  pc : Tid → Pc Tid Lock
  held : Tid → Lock → Bool
  arrived : Lock → List Tid
  granted : Lock → List Tid
  released : Lock → Nat

inductive Act (Tid Lock : Type) where
  | acquire (t : Tid) (l : Lock)
  | tryacquire (t : Tid) (l : Lock)
  | release (t : Tid) (l : Lock)
  | step (t : Tid)

variable {Tid Lock : Type} [DecidableEq Tid] [DecidableEq Lock]

def State.goto (s : State Tid Lock) (t : Tid) (pc : Pc Tid Lock) : State Tid Lock :=
  { s with pc := update s.pc t pc }

def State.setGrant (s : State Tid Lock) (t : Tid) (grant : Option Lock) : State Tid Lock :=
  { s with grant := update s.grant t grant }

def State.setHeld (s : State Tid Lock) (t : Tid) (l : Lock) (b : Bool) : State Tid Lock :=
  { s with held := update s.held t (update (s.held t) l b) }

/-- `t` puts itself into the tail. -/
def State.arrive (s : State Tid Lock) (t : Tid) (l : Lock) : State Tid Lock :=
  { s with
    tail := update s.tail l (some t)
    arrived := update s.arrived l (s.arrived l ++ [t]) }

/-- `t` returns with the lock. -/
def State.enter (s : State Tid Lock) (t : Tid) (l : Lock) : State Tid Lock :=
  ({ s with granted := update s.granted l (s.granted l ++ [t]) }.setHeld t l true).goto t
    .idle

/-- `t` gives the lock up. -/
def State.leave (s : State Tid Lock) (t : Tid) (l : Lock) : State Tid Lock :=
  { s with released := update s.released l (s.released l + 1) }.setHeld t l false

/-- The next atomic operation of thread `t`. -/
def nextStep (ctr : Bool) (s : State Tid Lock) (t : Tid) : Option (State Tid Lock) :=
  match s.pc t with
  | .idle => none
  | .tryClear l => some ((s.setGrant t none).goto t (.tryCas l))
  | .tryCas l =>
    if s.tail l = none then some ((s.arrive t l).enter t l) else some (s.goto t .idle)
  | .acqClear l => some ((s.setGrant t none).goto t (.acqXchg l))
  | .acqXchg l =>
    match s.tail l with
    | none => some ((s.arrive t l).enter t l)
    | some pred => some ((s.arrive t l).goto t (.acqAwait l pred (s.arrived l).length))
  | .acqAwait l pred i =>
    if s.grant pred = some l then
      if ctr then some ((s.setGrant pred none).enter t l)
      else some (s.goto t (.acqWrite l pred i))
    else none
  | .acqWrite l pred _ => some ((s.setGrant pred none).enter t l)
  | .relRead l =>
    if s.tail l = some t then some (s.goto t (.relCas l)) else some (s.goto t (.relGrant l))
  | .relCas l =>
    if s.tail l = some t then
      some (({ s with tail := update s.tail l none }.leave t l).goto t .idle)
    else some (s.goto t (.relGrant l))
  | .relGrant l => some (((s.setGrant t (some l)).leave t l).goto t (.relAwait l (s.released l)))
  | .relAwait _ _ => if s.grant t = none then some (s.goto t .idle) else none

def step (ctr : Bool) (s : State Tid Lock) : Act Tid Lock → Option (State Tid Lock)
  | .acquire t l => if s.pc t = .idle then some (s.goto t (.acqClear l)) else none
  | .tryacquire t l => if s.pc t = .idle then some (s.goto t (.tryClear l)) else none
  | .release t l =>
    if s.pc t = .idle ∧ s.held t l = true then some (s.goto t (.relRead l)) else none
  | .step t => nextStep ctr s t

/-- `hemlock_init` for every lock. The node of a thread has no initializer; its `grant` is
written before it is read. -/
structure Initial (s : State Tid Lock) : Prop where
  tail : s.tail = fun _ => none
  pc : s.pc = fun _ => .idle
  held : s.held = fun _ _ => false
  arrived : s.arrived = fun _ => []
  granted : s.granted = fun _ => []
  released : s.released = fun _ => 0

def machine (Tid Lock : Type) [DecidableEq Tid] [DecidableEq Lock] (ctr : Bool) :
    Machine (State Tid Lock) (Act Tid Lock) where
  start := Initial
  step := step ctr

/-- The lock, the thread in front and the number of a thread that waits. -/
def Pc.waits : Pc Tid Lock → Option (Lock × Tid × Nat)
  | .acqAwait l pred i | .acqWrite l pred i => some (l, pred, i)
  | _ => none

/-- Everyone who arrived and was not let in is waiting. -/
structure LockInv (s : State Tid Lock) (l : Lock) : Prop where
  tail : s.tail l =
    if s.released l < (s.arrived l).length then (s.arrived l).getLast? else none
  order : Serving (s.arrived l) (s.granted l) (s.released l) fun t => s.held t l
  waits : ∀ i t, (s.granted l).length ≤ i → (s.arrived l)[i]? = some t →
    ∃ pred, (s.pc t).waits = some (l, pred, i)

/-- The node of the thread has been in a tail. -/
def Used (s : State Tid Lock) (t : Tid) : Prop := ∃ l, t ∈ s.arrived l

/-- `t` arrived as number `i`, directly behind `pred`. -/
structure Waits (s : State Tid Lock) (t : Tid) (l : Lock) (pred : Tid) (i : Nat) : Prop where
  mine : (s.arrived l)[i]? = some t
  front : (s.arrived l)[i - 1]? = some pred
  pos : 0 < i
  out : (s.granted l).length ≤ i

/-- `t` arrived as number `i` and has released the lock, and the next one was not let in. -/
structure Passed (s : State Tid Lock) (t : Tid) (l : Lock) (i : Nat) : Prop where
  mine : (s.arrived l)[i]? = some t
  last : i + 1 = s.released l
  out : (s.granted l).length = s.released l
  next : s.released l < (s.arrived l).length

def PcOk (s : State Tid Lock) (t : Tid) : Pc Tid Lock → Prop
  | .idle | .acqClear _ | .tryClear _ => Used s t → s.grant t = none
  | .acqXchg _ | .tryCas _ => s.grant t = none
  | .acqAwait l pred i => s.grant t = none ∧ Waits s t l pred i
  | .acqWrite l pred i => s.grant t = none ∧ Waits s t l pred i ∧ s.grant pred = some l
  | .relRead l | .relCas l => s.grant t = none ∧ s.held t l = true
  | .relGrant l =>
    s.grant t = none ∧ s.held t l = true ∧ s.released l + 1 < (s.arrived l).length
  | .relAwait l i => Used s t ∧ ∀ l', s.grant t = some l' → l' = l ∧ Passed s t l i

structure Inv (s : State Tid Lock) : Prop where
  locks : ∀ l, LockInv s l
  pcs : ∀ t, PcOk s t (s.pc t)

end Libvsync.Spinlock.Hemlock
