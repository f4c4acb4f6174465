import Libvsync.Core.Linear
import Libvsync.Core.SortedList
import Libvsync.Map.ListsetLfInv

/-!
The optimistic list set. Every operation finds its place without locks, locks
`pred` and `curr`, and validates them by a second walk from head, which takes no
locks either. There is no mark: only the second walk tells whether `pred` is
still in the list. The acquisition of a lock, its release, and every atomic read
or write are steps of their own; comparisons and moves of local variables belong
to the step they follow.

The fields `inUse`, `linked`, `detached`, `retired` and `stale` are not read by
the code: they record the nodes that were passed to `vlistset_add` and not given
back by a failed call, the nodes that were linked and detached, the calls of the
retire callback, and for each thread the nodes that were detached when its last
validation began.
-/

namespace Libvsync.Map.ListsetOpt

open Libvsync.Core Function
open Libvsync.Map.ListsetLf (Config rankOf)

inductive Op (Node : Type) where
  | add (node : Node)
  | remove
  | get
  deriving DecidableEq

/-- The result of a call: for a successful removal, with the node it has
detached. -/
inductive Outcome (Node : Type) where
  | added (node : Node) (ok : Bool)
  | removed (node : Option Node)
  | got (node : Option Node)
  deriving DecidableEq

/-- How a critical section ends: the search starts again, or the call returns. -/
inductive Fate (Node : Type) where
  | again (op : Op Node)
  | stop (outcome : Outcome Node)
  deriving DecidableEq

inductive Pc (Node Key : Type) where
  | idle
  | findRead (key : Key) (op : Op Node) (pred : Node)
  | lockPred (key : Key) (op : Op Node) (pred curr : Node)
  | lockCurr (key : Key) (op : Op Node) (pred curr : Node)
  | valWalk (key : Key) (op : Op Node) (pred curr node : Node)
  | valNext (key : Key) (op : Op Node) (pred curr : Node)
  | addInit (key : Key) (node pred curr : Node)
  | addNext (key : Key) (node pred curr : Node)
  | addLink (key : Key) (node pred curr : Node)
  | removeNext (key : Key) (pred curr : Node)
  | removeDetach (key : Key) (pred curr : Node) (succ : Option Node)
  | unlockPred (key : Key) (fate : Fate Node) (pred curr : Node)
  | unlockCurr (key : Key) (fate : Fate Node) (curr : Node)
  | retire (key : Key) (curr : Node)
  | ret (key : Key) (outcome : Outcome Node)
  | crashed
  deriving DecidableEq

structure State (Tid Node Key : Type) where
  next : Node → Option Node
  owner : Node → Option Tid
  pc : Tid → Pc Node Key
  inUse : Node → Bool
  linked : Node → Bool
  detached : Node → Bool
  retired : List Node
  stale : Tid → Node → Bool

inductive Act (Tid Node Key : Type) where
  | call (t : Tid) (key : Key) (op : Op Node)
  | step (t : Tid)

def Act.thread {Tid Node Key : Type} : Act Tid Node Key → Tid
  | .call t _ _ | .step t => t

variable {Tid Node Key : Type} [DecidableEq Tid] [DecidableEq Node] [LinearOrder Key]

def State.goto (s : State Tid Node Key) (t : Tid) (pc : Pc Node Key) : State Tid Node Key :=
  { s with pc := update s.pc t pc }

/-- `vlistset_lock_acquire`: the thread waits while the lock is taken. -/
def State.acquire (s : State Tid Node Key) (t : Tid) (n : Node) : Option (State Tid Node Key) :=
  if s.owner n = none then some { s with owner := update s.owner n (some t) } else none

/-- `vlistset_lock_release`. -/
def State.release (s : State Tid Node Key) (n : Node) : State Tid Node Key :=
  { s with owner := update s.owner n none }

/-- The test of the search loop, after `curr = pred->next`. -/
def findTest (c : Config Node Key) (key : Key) (op : Op Node) (pred : Node) :
    Option Node → Pc Node Key
  | some curr =>
    if curr ≠ c.tail ∧ c.cmpFun curr key < 0 then .findRead key op curr
    else .lockPred key op pred curr
  | none => .crashed

/-- The beginning of `_vlistset_validate`. -/
def validate (c : Config Node Key) (key : Key) (op : Op Node) (pred curr : Node) : Pc Node Key :=
  if pred = c.head then .valNext key op pred curr else .valWalk key op pred curr c.head

/-- The loop of `_vlistset_validate`, after a pointer was read. -/
def valTest (c : Config Node Key) (key : Key) (op : Op Node) (pred curr : Node) :
    Option Node → Pc Node Key
  | some node =>
    if node ≠ c.tail ∧ c.cmpFun node key < 0 then
      if node = pred then .valNext key op pred curr else .valWalk key op pred curr node
    else .unlockPred key (.again op) pred curr
  | none => .crashed

/-- What follows a successful `_vlistset_validate`. -/
def validated (c : Config Node Key) (key : Key) (op : Op Node) (pred curr : Node) : Pc Node Key :=
  if curr ≠ c.tail ∧ c.cmpFun curr key = 0 then
    match op with
    | .add node => .unlockPred key (.stop (.added node false)) pred curr
    | .remove => .removeNext key pred curr
    | .get => .unlockPred key (.stop (.got (some curr))) pred curr
  else
    match op with
    | .add node => .addInit key node pred curr
    | .remove => .unlockPred key (.stop (.removed none)) pred curr
    | .get => .unlockPred key (.stop (.got none)) pred curr

/-- What follows the release of both locks. -/
def afterUnlock (c : Config Node Key) (key : Key) : Fate Node → Pc Node Key
  | .again op => .findRead key op c.head
  | .stop (.removed (some curr)) => .retire key curr
  | .stop outcome => .ret key outcome

/-- The next step of thread `t`. -/
def nextStep (c : Config Node Key) (s : State Tid Node Key) (t : Tid) :
    Option (State Tid Node Key) :=
  match s.pc t with
  | .idle | .crashed => none
  | .findRead key op pred => some (s.goto t (findTest c key op pred (s.next pred)))
  | .lockPred key op pred curr =>
    (s.acquire t pred).map fun s => s.goto t (.lockCurr key op pred curr)
  | .lockCurr key op pred curr =>
    (s.acquire t curr).map fun s =>
      { s with stale := update s.stale t s.detached }.goto t
        (validate c key op pred curr)
  | .valWalk key op pred curr node => some (s.goto t (valTest c key op pred curr (s.next node)))
  | .valNext key op pred curr =>
    some (s.goto t (if s.next pred = some curr then validated c key op pred curr
      else .unlockPred key (.again op) pred curr))
  | .addInit key node pred curr => some ((s.release node).goto t (.addNext key node pred curr))
  | .addNext key node pred curr =>
    some ({ s with next := update s.next node (some curr) }.goto t
      (.addLink key node pred curr))
  | .addLink key node pred curr =>
    some ({ s with
      next := update s.next pred (some node)
      linked := update s.linked node true }.goto t
        (.unlockPred key (.stop (.added node true)) pred curr))
  | .removeNext key pred curr => some (s.goto t (.removeDetach key pred curr (s.next curr)))
  | .removeDetach key pred curr succ =>
    some ({ s with
      next := update s.next pred succ
      detached := update s.detached curr true }.goto t
        (.unlockPred key (.stop (.removed (some curr))) pred curr))
  | .unlockPred key fate pred curr =>
    some ((s.release pred).goto t (.unlockCurr key fate curr))
  | .unlockCurr key fate curr => some ((s.release curr).goto t (afterUnlock c key fate))
  | .retire key curr =>
    some ({ s with retired := curr :: s.retired }.goto t (.ret key (.removed (some curr))))
  | .ret _ (.added node false) =>
    some ({ s with inUse := update s.inUse node false }.goto t .idle)
  | .ret _ _ => some (s.goto t .idle)

/-- The beginning of a call. The key is set in a node that is added, and a node
that is in the list, or was during the run, is not added again. -/
def beginCall (c : Config Node Key) (s : State Tid Node Key) (t : Tid) (key : Key) :
    Op Node → Option (State Tid Node Key)
  | .add node =>
    if s.inUse node = false ∧ node ≠ c.head ∧ node ≠ c.tail ∧ c.key node = key then
      some ({ s with inUse := update s.inUse node true }.goto t
        (.findRead key (.add node) c.head))
    else none
  | op => some (s.goto t (.findRead key op c.head))

def step (c : Config Node Key) (s : State Tid Node Key) :
    Act Tid Node Key → Option (State Tid Node Key)
  | .step t => nextStep c s t
  | .call t key op =>
    match s.pc t with
    | .idle => beginCall c s t key op
    | _ => none

/-- `vlistset_init`. -/
def vlistsetInit (c : Config Node Key) : State Tid Node Key where
  next n := if n = c.head then some c.tail else none
  owner := fun _ => none
  pc := fun _ => .idle
  inUse := fun _ => false
  linked n := n = c.head ∨ n = c.tail
  detached := fun _ => false
  retired := []
  stale := fun _ _ => false

/-- No call is in progress, and nothing is recorded of earlier ones but the
list that they have left. -/
structure Quiet (c : Config Node Key) (s : State Tid Node Key) : Prop where
  idle : ∀ t, s.pc t = .idle
  list : SortedList c.rank c.head c.tail s.next s.linked s.detached
  known : ∀ n, s.linked n = true → s.inUse n = true ∨ n = c.head ∨ n = c.tail
  detached : s.detached = fun _ => false
  retired : s.retired = []

/-- The calls are over: the nodes that were detached are free again. -/
def State.renew (s : State Tid Node Key) : State Tid Node Key :=
  { s with
    inUse n := s.inUse n && (s.linked n && !s.detached n)
    linked n := s.linked n && !s.detached n
    detached := fun _ => false
    retired := [] }

def machine (Tid : Type) [DecidableEq Tid] (c : Config Node Key) :
    Machine (State Tid Node Key) (Act Tid Node Key) where
  start := Quiet c
  step := step c

/-- The nodes of the set. -/
def members (c : Config Node Key) (s : State Tid Node Key) : Set Node :=
  { n | Reaches s.next c.head n ∧ n ≠ c.head ∧ n ≠ c.tail }

def Outcome.settled (key : Key) : Outcome Node → SetCall Node Key × SetResult Node
  | .added node ok => (.add key node, .success ok)
  | .removed node => (.remove key, .success node.isSome)
  | .got node => (.get key, .found node)

/-- The call of a thread once its outcome is settled, with its result. -/
def Pc.settled : Pc Node Key → Option (SetCall Node Key × SetResult Node)
  | .unlockPred key (.stop outcome) _ _ | .unlockCurr key (.stop outcome) _ | .ret key outcome =>
    some (outcome.settled key)
  | .retire key curr => some (Outcome.settled key (.removed (some curr)))
  | _ => none

def view (c : Config Node Key) :
    View (State Tid Node Key) Tid (Set Node) (SetCall Node Key) (SetResult Node) where
  abs := members c
  busy t s := s.pc t ≠ .idle
  settled t s := (s.pc t).settled
  settled_busy t s x h := by
    intro hidle
    rw [hidle] at h
    cases h

end Libvsync.Map.ListsetOpt
