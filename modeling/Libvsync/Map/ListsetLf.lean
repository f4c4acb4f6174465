import Libvsync.Core.Chain
import Libvsync.Core.Machine
import Libvsync.Core.Places
import Libvsync.Core.SortedList
import Mathlib.Order.WithBot

/-!
The lock-free list set. Threads run `vlistset_add`, `vlistset_remove` and
`vlistset_get`, one atomic operation per step; comparisons and moves of local
variables belong to the step of the operation they follow. A markable pointer
is a pair of an address and a mark, and `none` is NULL.

The fields `inUse`, `linked`, `snipped` and `handed` are not read by the code:
they record which nodes have been passed to `vlistset_add` and not given back
by a failed call, which nodes have been linked and unlinked, and the calls of
the retire callback.
-/

namespace Libvsync.Map.ListsetLf

open Libvsync.Core Function

/-- The list object: its sentinels, the key of each node and the comparison of
a node with a key, which agrees with the order of the keys. -/
structure Config (Node Key : Type) [LinearOrder Key] where
  head : Node
  tail : Node
  distinct : head ≠ tail
  key : Node → Key
  cmpFun : Node → Key → Int
  cmp_neg : ∀ n k, cmpFun n k < 0 ↔ key n < k
  cmp_zero : ∀ n k, cmpFun n k = 0 ↔ key n = k

/-- The two callers of `_vlistset_find`. -/
inductive Caller (Node : Type) where
  | add (node : Node)
  | remove
  deriving DecidableEq

inductive Pc (Node Key : Type) where
  | idle
  | findStart (key : Key) (caller : Caller Node)
  | findRead (key : Key) (caller : Caller Node) (pred curr : Node)
  | findSnip (key : Key) (caller : Caller Node) (pred curr : Node) (succ : Option Node)
  | findRetire (key : Key) (caller : Caller Node) (pred curr : Node) (succ : Option Node)
  | addWrite (key : Key) (node pred curr : Node)
  | addCas (key : Key) (node pred curr : Node)
  | removeRead (key : Key) (pred curr : Node)
  | removeMark (key : Key) (pred curr : Node) (succ : Option Node)
  | removeDetach (key : Key) (pred curr : Node) (succ : Option Node)
  | removeRetire (key : Key) (curr : Node)
  | getStart (key : Key)
  | getNext (key : Key) (curr : Node)
  | getMark (key : Key) (curr : Node)
  | addRet (key : Key) (node : Node) (ok : Bool)
  | removeRet (key : Key) (ok : Bool)
  | getRet (key : Key) (result : Option Node)
  | crashed
  deriving DecidableEq

structure State (Tid Node Key : Type) where
  next : Node → Option Node × Bool
  pc : Tid → Pc Node Key
  inUse : Node → Bool
  linked : Node → Bool
  snipped : Node → Bool
  handed : List Node

inductive Act (Tid Node Key : Type) where
  | add (t : Tid) (key : Key) (node : Node)
  | remove (t : Tid) (key : Key)
  | get (t : Tid) (key : Key)
  | step (t : Tid)

variable {Tid Node Key : Type} [DecidableEq Tid] [DecidableEq Node] [LinearOrder Key]

def State.goto (s : State Tid Node Key) (t : Tid) (pc : Pc Node Key) : State Tid Node Key :=
  { s with pc := update s.pc t pc }

/-- What the caller of `_vlistset_find` does with its result. -/
def State.findReturn (c : Config Node Key) (s : State Tid Node Key) (t : Tid) (key : Key)
    (caller : Caller Node) (pred curr : Node) : State Tid Node Key :=
  match caller with
  | .add node =>
    if curr ≠ c.tail ∧ c.cmpFun curr key = 0 then s.goto t (.addRet key node false)
    else s.goto t (.addWrite key node pred curr)
  | .remove =>
    if curr = c.tail ∨ c.cmpFun curr key ≠ 0 then s.goto t (.removeRet key false)
    else s.goto t (.removeRead key pred curr)

/-- The test of the outer loop of `_vlistset_find_loop`. -/
def State.findLoop (c : Config Node Key) (s : State Tid Node Key) (t : Tid) (key : Key)
    (caller : Caller Node) (pred : Node) : Option Node → State Tid Node Key
  | some curr =>
    if curr = c.tail then s.findReturn c t key caller pred curr
    else s.goto t (.findRead key caller pred curr)
  | none => s.goto t .crashed

/-- The second half of the outer loop: stop at `curr`, or move on to `succ`. -/
def State.findForward (c : Config Node Key) (s : State Tid Node Key) (t : Tid) (key : Key)
    (caller : Caller Node) (pred curr : Node) (succ : Option Node) : State Tid Node Key :=
  if curr = c.tail ∨ 0 ≤ c.cmpFun curr key then s.findReturn c t key caller pred curr
  else s.findLoop c t key caller curr succ

/-- The loop of `vlistset_get` and the test behind it. -/
def State.getLoop (c : Config Node Key) (s : State Tid Node Key) (t : Tid) (key : Key) :
    Option Node → State Tid Node Key
  | some curr =>
    if curr ≠ c.tail ∧ c.cmpFun curr key < 0 then s.goto t (.getNext key curr)
    else if curr ≠ c.tail ∧ c.cmpFun curr key = 0 then s.goto t (.getMark key curr)
    else s.goto t (.getRet key none)
  | none => s.goto t .crashed

/-- The next atomic step of thread `t`. -/
def nextStep (c : Config Node Key) (s : State Tid Node Key) (t : Tid) :
    Option (State Tid Node Key) :=
  match s.pc t with
  | .idle | .crashed => none
  | .findStart key caller => some (s.findLoop c t key caller c.head (s.next c.head).1)
  | .findRead key caller pred curr =>
    match s.next curr with
    | (succ, true) => some (s.goto t (.findSnip key caller pred curr succ))
    | (succ, false) => some (s.findForward c t key caller pred curr succ)
  | .findSnip key caller pred curr succ =>
    if s.next pred = (some curr, false) then
      some ({ s with
        next := update s.next pred (succ, false)
        snipped := update s.snipped curr true }.goto t
          (.findRetire key caller pred curr succ))
    else
      some (s.goto t (.findStart key caller))
  | .findRetire key caller pred curr succ =>
    let s := { s with handed := curr :: s.handed }
    -- at the tail the inner loop is left with `curr` still the snipped node
    if succ = some c.tail then some (s.findForward c t key caller pred curr succ)
    else
      match succ with
      | some succ => some (s.goto t (.findRead key caller pred succ))
      | none => some (s.goto t .crashed)
  | .addWrite key node pred curr =>
    some ({ s with next := update s.next node (some curr, false) }.goto t
      (.addCas key node pred curr))
  | .addCas key node pred curr =>
    if s.next pred = (some curr, false) then
      some ({ s with
        next := update s.next pred (some node, false)
        linked := update s.linked node true }.goto t (.addRet key node true))
    else
      some (s.goto t (.findStart key (.add node)))
  | .removeRead key pred curr => some (s.goto t (.removeMark key pred curr (s.next curr).1))
  | .removeMark key pred curr succ =>
    if s.next curr = (succ, false) then
      some ({ s with next := update s.next curr (succ, true) }.goto t
        (.removeDetach key pred curr succ))
    else
      some (s.goto t (.findStart key .remove))
  | .removeDetach key pred curr succ =>
    if s.next pred = (some curr, false) then
      some ({ s with
        next := update s.next pred (succ, false)
        snipped := update s.snipped curr true }.goto t (.removeRetire key curr))
    else
      some (s.goto t (.removeRet key true))
  | .removeRetire key curr =>
    some ({ s with handed := curr :: s.handed }.goto t (.removeRet key true))
  | .getStart key => some (s.getLoop c t key (s.next c.head).1)
  | .getNext key curr => some (s.getLoop c t key (s.next curr).1)
  | .getMark key curr =>
    some (s.goto t (.getRet key (if (s.next curr).2 then none else some curr)))
  | .addRet _ node ok =>
    some ({ s with
      inUse := if ok then s.inUse else update s.inUse node false }.goto t .idle)
  | .removeRet _ _ | .getRet _ _ => some (s.goto t .idle)

/-- The beginning of a call by an idle thread. The key is set in the node that
is added, and a node that is in the list, or was during the run, is not added again. -/
def beginCall (c : Config Node Key) (s : State Tid Node Key) (t : Tid) :
    Act Tid Node Key → Option (State Tid Node Key)
  | .add _ key node =>
    if s.inUse node = false ∧ node ≠ c.head ∧ node ≠ c.tail ∧ c.key node = key then
      some ({ s with inUse := update s.inUse node true }.goto t
        (.findStart key (.add node)))
    else
      none
  | .remove _ key => some (s.goto t (.findStart key .remove))
  | .get _ key => some (s.goto t (.getStart key))
  | .step _ => none

def Act.thread : Act Tid Node Key → Tid
  | .add t _ _ | .remove t _ | .get t _ | .step t => t

def step (c : Config Node Key) (s : State Tid Node Key) :
    Act Tid Node Key → Option (State Tid Node Key)
  | .step t => nextStep c s t
  | a =>
    match s.pc a.thread with
    | .idle => beginCall c s a.thread a
    | _ => none

/-- `vlistset_init`. -/
def vlistsetInit (c : Config Node Key) : State Tid Node Key where
  next n := if n = c.head then (some c.tail, false) else (none, false)
  pc := fun _ => .idle
  inUse := fun _ => false
  linked n := n = c.head ∨ n = c.tail
  snipped := fun _ => false
  handed := []

/-- The pointers without their marks. -/
def State.pointer (s : State Tid Node Key) (n : Node) : Option Node := (s.next n).1

/-- The place of a node in the order: the sentinels are below and above all
keys. -/
def Config.rank (c : Config Node Key) (n : Node) : WithBot (WithTop Key) :=
  if n = c.head then ⊥ else if n = c.tail then ((⊤ : WithTop Key) : WithBot (WithTop Key))
  else ((c.key n : WithTop Key) : WithBot (WithTop Key))

/-- No call is in progress, and nothing is recorded of earlier ones but the
list that they have left. -/
structure Quiet (c : Config Node Key) (s : State Tid Node Key) : Prop where
  idle : ∀ t, s.pc t = .idle
  list : SortedList c.rank c.head c.tail s.pointer s.linked s.snipped
  sentinels : (s.next c.head).2 = false ∧ s.next c.tail = (none, false)
  known : ∀ n, s.linked n = true → s.inUse n = true ∨ n = c.head ∨ n = c.tail
  snipped : s.snipped = fun _ => false
  handed : s.handed = []

/-- The calls are over: the nodes that were unlinked are free again. -/
def State.renew (s : State Tid Node Key) : State Tid Node Key :=
  { s with
    inUse n := s.inUse n && (s.linked n && !s.snipped n)
    linked n := s.linked n && !s.snipped n
    snipped := fun _ => false
    handed := [] }

def machine (Tid : Type) [DecidableEq Tid] (c : Config Node Key) :
    Machine (State Tid Node Key) (Act Tid Node Key) where
  start := Quiet c
  step := step c

/-- The node is in the set: reachable from head, not marked, not a sentinel. -/
def Member (c : Config Node Key) (s : State Tid Node Key) (n : Node) : Prop :=
  Reaches s.pointer c.head n ∧ (s.next n).2 = false ∧ n ≠ c.head ∧ n ≠ c.tail

/-- Some unmarked node with the key is in the list. -/
def Present (c : Config Node Key) (k : Key) (s : State Tid Node Key) : Prop :=
  ∃ n, Member c s n ∧ c.key n = k

/-- Thread `t` is between the call and the return of an operation. -/
def Busy (t : Tid) (s : State Tid Node Key) : Prop := s.pc t ≠ .idle

end Libvsync.Map.ListsetLf
