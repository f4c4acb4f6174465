import Libvsync.Core.Linear
import Libvsync.Map.ListsetLfInv

/-!
The list set with one lock per node. A thread walks hand over hand: it holds
the lock of `pred` while it waits for the lock of `curr`. The acquisition of a
lock is one step, which waits until the lock is free; so is a release, and each
write to a pointer. Reads of pointers and comparisons belong to the step they
follow, for they read nodes that the thread has locked.

A removed node is retired after both locks were released, and the memory of a
retired node may be used at once for a new one. `inUse` records the nodes that
were passed to `vlistset_add` and not given back since, by a failed call or by
the retire callback; the code does not read it.
-/

namespace Libvsync.Map.ListsetFine

open Libvsync.Core Function
open Libvsync.Map.ListsetLf (Config rankOf)

inductive Op (Node : Type) where
  | add (node : Node)
  | remove
  | get
  deriving DecidableEq

/-- What a call has come to: for a successful removal, with the node it has
taken out of the list. -/
inductive Outcome (Node : Type) where
  | added (node : Node) (ok : Bool)
  | removed (node : Option Node)
  | got (node : Option Node)
  deriving DecidableEq

inductive Pc (Node Key : Type) where
  | idle
  | lockHead (key : Key) (op : Op Node)
  | lockCurr (key : Key) (op : Op Node) (pred curr : Node)
  | unlockPred (key : Key) (op : Op Node) (pred curr : Node)
  | decide (key : Key) (op : Op Node) (pred curr : Node)
  | addLink (key : Key) (node pred curr : Node)
  | removeLink (key : Key) (pred curr : Node)
  | unlockCurr (key : Key) (outcome : Outcome Node) (pred curr : Node)
  | unlockLast (key : Key) (outcome : Outcome Node) (pred : Node)
  | retire (key : Key) (curr : Node)
  | ret (key : Key) (outcome : Outcome Node)
  | crashed
  deriving DecidableEq

structure State (Tid Node Key : Type) where
  next : Node → Option Node
  owner : Node → Option Tid
  pc : Tid → Pc Node Key
  inUse : Node → Bool

inductive Act (Tid Node Key : Type) where
  | call (t : Tid) (key : Key) (op : Op Node)
  | step (t : Tid)

def Act.thread {Tid Node Key : Type} : Act Tid Node Key → Tid
  | .call t _ _ | .step t => t

variable {Tid Node Key : Type} [DecidableEq Tid] [DecidableEq Node] [LinearOrder Key]

def State.goto (s : State Tid Node Key) (t : Tid) (pc : Pc Node Key) : State Tid Node Key :=
  { s with pc := update s.pc t pc }

/-- `vlistset_lock_acquire`: the thread waits while the lock is taken. -/
def State.acquire (s : State Tid Node Key) (t : Tid) (n : Node) : Option (State Tid Node Key) :=
  if s.owner n = none then some { s with owner := update s.owner n (some t) } else none

/-- `vlistset_lock_release`. -/
def State.release (s : State Tid Node Key) (n : Node) : State Tid Node Key :=
  { s with owner := update s.owner n none }

/-- Where a thread that has locked `pred` goes on, with `curr = pred->next`. -/
def toCurr (key : Key) (op : Op Node) (pred : Node) : Option Node → Pc Node Key
  | some curr => .lockCurr key op pred curr
  | none => .crashed

/-- The test of the loop. -/
def loopTest (c : Config Node Key) (key : Key) (op : Op Node) (pred curr : Node) : Pc Node Key :=
  if curr ≠ c.tail ∧ c.cmpFun curr key < 0 then .unlockPred key op pred curr
  else .decide key op pred curr

/-- What follows the release of both locks. -/
def afterUnlock (key : Key) : Outcome Node → Pc Node Key
  | .removed (some curr) => .retire key curr
  | outcome => .ret key outcome

/-- The test behind the loop, and the initialisation of the node that is added. -/
def decideStep (c : Config Node Key) (s : State Tid Node Key) (t : Tid) (key : Key)
    (op : Op Node) (pred curr : Node) : State Tid Node Key :=
  match op with
  | .add node =>
    if curr ≠ c.tail ∧ c.cmpFun curr key = 0 then
      s.goto t (.unlockCurr key (.added node false) pred curr)
    else
      { s with
        owner := update s.owner node none
        next := update s.next node (some curr) }.goto t (.addLink key node pred curr)
  | .remove =>
    if c.tail ≠ curr ∧ c.cmpFun curr key = 0 then s.goto t (.removeLink key pred curr)
    else s.goto t (.unlockCurr key (.removed none) pred curr)
  | .get =>
    if curr ≠ c.tail ∧ c.cmpFun curr key = 0 then
      s.goto t (.unlockCurr key (.got (some curr)) pred curr)
    else s.goto t (.unlockCurr key (.got none) pred curr)

/-- The next step of thread `t`. -/
def nextStep (c : Config Node Key) (s : State Tid Node Key) (t : Tid) :
    Option (State Tid Node Key) :=
  match s.pc t with
  | .idle | .crashed => none
  | .lockHead key op =>
    (s.acquire t c.head).map fun s => s.goto t (toCurr key op c.head (s.next c.head))
  | .lockCurr key op pred curr =>
    (s.acquire t curr).map fun s => s.goto t (loopTest c key op pred curr)
  | .unlockPred key op pred curr =>
    some ((s.release pred).goto t (toCurr key op curr (s.next curr)))
  | .decide key op pred curr => some (decideStep c s t key op pred curr)
  | .addLink key node pred curr =>
    some ({ s with next := update s.next pred (some node) }.goto t
      (.unlockCurr key (.added node true) pred curr))
  | .removeLink key pred curr =>
    some ({ s with next := update s.next pred (s.next curr) }.goto t
      (.unlockCurr key (.removed (some curr)) pred curr))
  | .unlockCurr key outcome pred curr =>
    some ((s.release curr).goto t (.unlockLast key outcome pred))
  | .unlockLast key outcome pred => some ((s.release pred).goto t (afterUnlock key outcome))
  | .retire key curr =>
    some ({ s with inUse := update s.inUse curr false }.goto t
      (.ret key (.removed (some curr))))
  | .ret _ (.added node false) =>
    some ({ s with inUse := update s.inUse node false }.goto t .idle)
  | .ret _ _ => some (s.goto t .idle)

/-- The beginning of a call. The key is set in a node that is added, and the
node is not in use elsewhere. -/
def beginCall (c : Config Node Key) (s : State Tid Node Key) (t : Tid) (key : Key) :
    Op Node → Option (State Tid Node Key)
  | .add node =>
    if s.inUse node = false ∧ node ≠ c.head ∧ node ≠ c.tail ∧ c.key node = key then
      some ({ s with inUse := update s.inUse node true }.goto t
        (.lockHead key (.add node)))
    else none
  | op => some (s.goto t (.lockHead key op))

def step (c : Config Node Key) (s : State Tid Node Key) :
    Act Tid Node Key → Option (State Tid Node Key)
  | .step t => nextStep c s t
  | .call t key op =>
    match s.pc t with
    | .idle => beginCall c s t key op
    | _ => none

/-- `vlistset_init`. -/
def vlistsetInit (c : Config Node Key) : State Tid Node Key where
  next n := if n = c.head then some c.tail else none
  owner := fun _ => none
  pc := fun _ => .idle
  inUse := fun _ => false

def machine (Tid : Type) [DecidableEq Tid] (c : Config Node Key) :
    Machine (State Tid Node Key) (Act Tid Node Key) where
  start s := s = vlistsetInit c
  step := step c

/-- The nodes of the set. -/
def members (c : Config Node Key) (s : State Tid Node Key) : Set Node :=
  { n | Reaches s.next c.head n ∧ n ≠ c.head ∧ n ≠ c.tail }

/-- The nodes that thread `t` works on: those it has locked or waits for, and
one that it has taken out of the list and not retired yet. -/
def Pc.nodes : Pc Node Key → List Node
  | .idle | .lockHead _ _ | .ret _ _ | .crashed => []
  | .lockCurr _ _ pred curr | .unlockPred _ _ pred curr | .decide _ _ pred curr
  | .addLink _ _ pred curr | .removeLink _ pred curr => [pred, curr]
  | .unlockCurr _ _ pred curr => [pred, curr]
  | .unlockLast _ (.removed (some curr)) pred => [pred, curr]
  | .unlockLast _ _ pred => [pred]
  | .retire _ curr => [curr]

/-- The call of a thread once its outcome is settled, with its result. -/
def Outcome.settled (key : Key) : Outcome Node → SetCall Node Key × SetResult Node
  | .added node ok => (.add key node, .success ok)
  | .removed node => (.remove key, .success node.isSome)
  | .got node => (.get key, .found node)

def Pc.settled : Pc Node Key → Option (SetCall Node Key × SetResult Node)
  | .unlockCurr key outcome _ _ | .unlockLast key outcome _ | .ret key outcome =>
    some (outcome.settled key)
  | .retire key curr => some (Outcome.settled key (.removed (some curr)))
  | _ => none

def view (c : Config Node Key) :
    View (State Tid Node Key) Tid (Set Node) (SetCall Node Key) (SetResult Node) where
  abs := members c
  busy t s := s.pc t ≠ .idle
  settled t s := (s.pc t).settled
  settled_busy t s x h := by
    intro hidle
    rw [hidle] at h
    cases h

end Libvsync.Map.ListsetFine
