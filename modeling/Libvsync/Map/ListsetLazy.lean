import Libvsync.Core.Linear
import Libvsync.Core.SortedList
import Libvsync.Map.ListsetLfInv

/-!
The lazy list set. `vlistset_add` and `vlistset_remove` find their place without
locks, lock `pred` and `curr` and validate what they found; a node is removed by
its mark first and detached afterwards. `vlistset_get` takes no locks. The
acquisition of a lock, its release, and every atomic read or write are steps of
their own; comparisons and moves of local variables belong to the step they
follow.

The fields `inUse`, `linked`, `detached` and `retired` are not read by the code:
they record the nodes that were passed to `vlistset_add` and not given back by a
failed call, the nodes that were linked and detached, and the calls of the
retire callback.
-/

namespace Libvsync.Map.ListsetLazy

open Libvsync.Core Function
open Libvsync.Map.ListsetLf (Config rankOf)

/-- The two operations that lock. -/
inductive Op (Node : Type) where
  | add (node : Node)
  | remove
  deriving DecidableEq

/-- The result of a call. -/
inductive Outcome (Node : Type) where
  | added (node : Node) (ok : Bool)
  | removed (ok : Bool)
  | got (node : Option Node)
  deriving DecidableEq

/-- How a critical section ends: the search starts again, or the call returns. -/
inductive Fate (Node : Type) where
  | again (op : Op Node)
  | stop (outcome : Outcome Node)
  deriving DecidableEq

inductive Pc (Node Key : Type) where
  | idle
  | findRead (key : Key) (op : Op Node) (pred : Node)
  | lockPred (key : Key) (op : Op Node) (pred curr : Node)
  | lockCurr (key : Key) (op : Op Node) (pred curr : Node)
  | checkPred (key : Key) (op : Op Node) (pred curr : Node)
  | checkCurr (key : Key) (op : Op Node) (pred curr : Node)
  | checkNext (key : Key) (op : Op Node) (pred curr : Node)
  | addInit (key : Key) (node pred curr : Node)
  | addUnmark (key : Key) (node pred curr : Node)
  | addNext (key : Key) (node pred curr : Node)
  | addLink (key : Key) (node pred curr : Node)
  | removeMark (key : Key) (pred curr : Node)
  | removeNext (key : Key) (pred curr : Node)
  | removeDetach (key : Key) (pred curr : Node) (succ : Option Node)
  | removeRetire (key : Key) (pred curr : Node)
  | unlockPred (key : Key) (fate : Fate Node) (pred curr : Node)
  | unlockCurr (key : Key) (fate : Fate Node) (curr : Node)
  | getRead (key : Key) (pred : Node)
  | getMark (key : Key) (curr : Node)
  | ret (key : Key) (outcome : Outcome Node)
  | crashed
  deriving DecidableEq

structure State (Tid Node Key : Type) where
  next : Node → Option Node
  marked : Node → Bool
  owner : Node → Option Tid
  pc : Tid → Pc Node Key
  inUse : Node → Bool
  linked : Node → Bool
  detached : Node → Bool
  retired : List Node

/-- A call of `vlistset_add`, `vlistset_remove` or `vlistset_get`, or a step. -/
inductive Act (Tid Node Key : Type) where
  | add (t : Tid) (key : Key) (node : Node)
  | remove (t : Tid) (key : Key)
  | get (t : Tid) (key : Key)
  | step (t : Tid)

def Act.thread {Tid Node Key : Type} : Act Tid Node Key → Tid
  | .add t _ _ | .remove t _ | .get t _ | .step t => t

variable {Tid Node Key : Type} [DecidableEq Tid] [DecidableEq Node] [LinearOrder Key]

def State.goto (s : State Tid Node Key) (t : Tid) (pc : Pc Node Key) : State Tid Node Key :=
  { s with pc := update s.pc t pc }

/-- `vlistset_lock_acquire`: the thread waits while the lock is taken. -/
def State.acquire (s : State Tid Node Key) (t : Tid) (n : Node) (pc : Pc Node Key) :
    Option (State Tid Node Key) :=
  if s.owner n = none then
    some ({ s with owner := update s.owner n (some t) }.goto t pc)
  else none

/-- `vlistset_lock_release`. -/
def State.release (s : State Tid Node Key) (n : Node) : State Tid Node Key :=
  { s with owner := update s.owner n none }

/-- The test of the search loop, after `curr = pred->next`. -/
def findTest (c : Config Node Key) (key : Key) (op : Op Node) (pred : Node) :
    Option Node → Pc Node Key
  | some curr =>
    if curr ≠ c.tail ∧ c.cmpFun curr key < 0 then .findRead key op curr
    else .lockPred key op pred curr
  | none => .crashed

/-- The loop of `vlistset_get` and the test behind it. -/
def getTest (c : Config Node Key) (key : Key) : Option Node → Pc Node Key
  | some curr =>
    if curr ≠ c.tail ∧ c.cmpFun curr key < 0 then .getRead key curr
    else if curr ≠ c.tail ∧ c.cmpFun curr key = 0 then .getMark key curr
    else .ret key (.got none)
  | none => .crashed

/-- What follows a successful `_vlistset_validate`. -/
def validated (c : Config Node Key) (key : Key) (op : Op Node) (pred curr : Node) : Pc Node Key :=
  match op with
  | .add node =>
    if curr ≠ c.tail ∧ c.cmpFun curr key = 0 then
      .unlockPred key (.stop (.added node false)) pred curr
    else .addInit key node pred curr
  | .remove =>
    if curr ≠ c.tail ∧ c.cmpFun curr key = 0 then .removeMark key pred curr
    else .unlockPred key (.stop (.removed false)) pred curr

/-- The next step of thread `t`. -/
def nextStep (c : Config Node Key) (s : State Tid Node Key) (t : Tid) :
    Option (State Tid Node Key) :=
  match s.pc t with
  | .idle | .crashed => none
  | .findRead key op pred => some (s.goto t (findTest c key op pred (s.next pred)))
  | .lockPred key op pred curr => s.acquire t pred (.lockCurr key op pred curr)
  | .lockCurr key op pred curr => s.acquire t curr (.checkPred key op pred curr)
  | .checkPred key op pred curr =>
    some (s.goto t (if s.marked pred then .unlockPred key (.again op) pred curr
      else .checkCurr key op pred curr))
  | .checkCurr key op pred curr =>
    some (s.goto t (if s.marked curr then .unlockPred key (.again op) pred curr
      else .checkNext key op pred curr))
  | .checkNext key op pred curr =>
    some (s.goto t (if s.next pred = some curr then validated c key op pred curr
      else .unlockPred key (.again op) pred curr))
  | .addInit key node pred curr =>
    some ((s.release node).goto t (.addUnmark key node pred curr))
  | .addUnmark key node pred curr =>
    some ({ s with marked := update s.marked node false }.goto t
      (.addNext key node pred curr))
  | .addNext key node pred curr =>
    some ({ s with next := update s.next node (some curr) }.goto t
      (.addLink key node pred curr))
  | .addLink key node pred curr =>
    some ({ s with
      next := update s.next pred (some node)
      linked := update s.linked node true }.goto t
        (.unlockPred key (.stop (.added node true)) pred curr))
  | .removeMark key pred curr =>
    some ({ s with marked := update s.marked curr true }.goto t
      (.removeNext key pred curr))
  | .removeNext key pred curr => some (s.goto t (.removeDetach key pred curr (s.next curr)))
  | .removeDetach key pred curr succ =>
    some ({ s with
      next := update s.next pred succ
      detached := update s.detached curr true }.goto t (.removeRetire key pred curr))
  | .removeRetire key pred curr =>
    some ({ s with retired := curr :: s.retired }.goto t
      (.unlockPred key (.stop (.removed true)) pred curr))
  | .unlockPred key fate pred curr =>
    some ((s.release pred).goto t (.unlockCurr key fate curr))
  | .unlockCurr key (.again op) curr => some ((s.release curr).goto t (.findRead key op c.head))
  | .unlockCurr key (.stop outcome) curr => some ((s.release curr).goto t (.ret key outcome))
  | .getRead key pred => some (s.goto t (getTest c key (s.next pred)))
  | .getMark key curr =>
    some (s.goto t (.ret key (.got (if s.marked curr then none else some curr))))
  | .ret _ (.added node false) =>
    some ({ s with inUse := update s.inUse node false }.goto t .idle)
  | .ret _ _ => some (s.goto t .idle)

/-- The beginning of a call by an idle thread. The key is set in a node that is
added, and a node that is in the list, or was during the run, is not added again. -/
def beginCall (c : Config Node Key) (s : State Tid Node Key) :
    Act Tid Node Key → Option (State Tid Node Key)
  | .add t key node =>
    if s.inUse node = false ∧ node ≠ c.head ∧ node ≠ c.tail ∧ c.key node = key then
      some ({ s with inUse := update s.inUse node true }.goto t
        (.findRead key (.add node) c.head))
    else none
  | .remove t key => some (s.goto t (.findRead key .remove c.head))
  | .get t key => some (s.goto t (.getRead key c.head))
  | .step _ => none

def step (c : Config Node Key) (s : State Tid Node Key) :
    Act Tid Node Key → Option (State Tid Node Key)
  | .step t => nextStep c s t
  | a =>
    match s.pc a.thread with
    | .idle => beginCall c s a
    | _ => none

/-- `vlistset_init`. -/
def vlistsetInit (c : Config Node Key) : State Tid Node Key where
  next n := if n = c.head then some c.tail else none
  marked := fun _ => false
  owner := fun _ => none
  pc := fun _ => .idle
  inUse := fun _ => false
  linked n := n = c.head ∨ n = c.tail
  detached := fun _ => false
  retired := []

/-- No call is in progress, and nothing is recorded of earlier ones but the
list that they have left. -/
structure Quiet (c : Config Node Key) (s : State Tid Node Key) : Prop where
  idle : ∀ t, s.pc t = .idle
  list : SortedList c.rank c.head c.tail s.next s.linked s.detached
  sentinels : s.marked c.head = false ∧ s.marked c.tail = false
  known : ∀ n, s.linked n = true → s.inUse n = true ∨ n = c.head ∨ n = c.tail
  detached : s.detached = fun _ => false
  retired : s.retired = []

/-- The calls are over: the nodes that were detached are free again. -/
def State.renew (s : State Tid Node Key) : State Tid Node Key :=
  { s with
    inUse n := s.inUse n && (s.linked n && !s.detached n)
    linked n := s.linked n && !s.detached n
    detached := fun _ => false
    retired := [] }

def machine (Tid : Type) [DecidableEq Tid] (c : Config Node Key) :
    Machine (State Tid Node Key) (Act Tid Node Key) where
  start := Quiet c
  step := step c

/-- The nodes of the set: reachable from head and not marked. -/
def members (c : Config Node Key) (s : State Tid Node Key) : Set Node :=
  { n | Reaches s.next c.head n ∧ s.marked n = false ∧ n ≠ c.head ∧ n ≠ c.tail }

def Outcome.settled (key : Key) : Outcome Node → SetCall Node Key × SetResult Node
  | .added node ok => (.add key node, .success ok)
  | .removed ok => (.remove key, .success ok)
  | .got node => (.get key, .found node)

/-- The call of a thread once its outcome is settled, with its result. -/
def Pc.settled : Pc Node Key → Option (SetCall Node Key × SetResult Node)
  | .removeNext key _ _ | .removeDetach key _ _ _ | .removeRetire key _ _ =>
    some (Outcome.settled key (.removed true))
  | .unlockPred key (.stop outcome) _ _ | .unlockCurr key (.stop outcome) _ | .ret key outcome =>
    some (outcome.settled key)
  | _ => none

def view (c : Config Node Key) :
    View (State Tid Node Key) Tid (Set Node) (SetCall Node Key) (SetResult Node) where
  abs := members c
  busy t s := s.pc t ≠ .idle
  settled t s := (s.pc t).settled
  settled_busy t s x h := by
    intro hidle
    rw [hidle] at h
    cases h

end Libvsync.Map.ListsetLazy
