import Libvsync.Core.Object
import Libvsync.Core.StableQueue
import Libvsync.Map.Skiplist

/-!
The priority queue on the lock-free skiplist, run by one thread. Equal
priorities are allowed: the comparison treats equality as less-than, so a search
walks past all nodes with the priority it looks for. A markable pointer is a
pair of an address and a mark, and `none` is NULL. A compare-and-exchange is a
test and a write.

The loops of the source are bounded by a number of rounds, from the number of
nodes that were added; running out of rounds is a fault. `added` is read for
nothing else. `retired` records the calls of `retire_cb`.
-/

namespace Libvsync.Queue.PrioSkiplist

open Libvsync.Core Function
open Libvsync.Map.Skiplist (set2)

/-- What `vqueue_prio_init` is given, and `VSKIPLIST_MAX_HEIGHT = topLevel + 1`,
which a static assertion keeps within 8 bits. -/
structure Config (Node : Type) where
  head : Node
  tail : Node
  distinct : head ≠ tail
  topLevel : Nat
  fits : topLevel + 1 ≤ 255

/-- The nodes (`vqueue_prio_node_t` with the skiplist node in it), the calls of
`retire_cb`, and the nodes that were added, newest first. -/
structure State (Node Key : Type) where
  next : Node → Nat → Option Node × Bool
  height : Node → Nat
  nonSnippedLevel : Node → Nat
  priority : Node → Key
  marked : Node → Bool
  retired : List Node
  added : List Node

variable {Node Key : Type}

def pointer (p : Option Node) : Except Fault Node :=
  match p with
  | some n => .ok n
  | none => .error .null

/-- A pointer that is asserted not to be NULL. -/
def asserted (p : Option Node) (message : String) : Except Fault Node :=
  match p with
  | some n => .ok n
  | none => .error (.assert message)

/-- More rounds than any loop of the source takes. -/
def rounds (c : Config Node) (s : State Node Key) : Nat :=
  (c.topLevel + 1) * (s.added.length + 2)

/-- The local variables of `_vskiplist_find`. -/
structure Find (Node : Type) where
  pred : Node
  level : Nat
  curr : Node
  preds : Nat → Node
  succs : Nat → Node

/-- The first node of a level, from `pred`. -/
def enterLevel (s : State Node Key) (level : Nat) (pred : Node) : Except Fault Node := do
  check (level < s.height pred) "level < pred->height"
  asserted (s.next pred level).1 "curr"

/-- `RETRY`. -/
def retry (c : Config Node) (s : State Node Key) (preds succs : Nat → Node) :
    Except Fault (Find Node) := do
  check (s.height c.head ≠ 0) "pred->height != 0"
  let curr ← enterLevel s c.topLevel c.head
  return { pred := c.head, level := c.topLevel, curr := curr, preds := preds, succs := succs }

variable [DecidableEq Node]

/-- `curr` is unlinked from a level, counted down, and retired after the last
one. -/
def snip (c : Config Node) (s : State Node Key) (level : Nat) (pred curr : Node)
    (succ : Option Node) : Except Fault (State Node Key) := do
  let s := { s with next := set2 s.next pred level (succ, false) }
  let oNonSnipLvl := s.nonSnippedLevel curr
  let s := { s with
    nonSnippedLevel := update s.nonSnippedLevel curr (wsub 64 oNonSnipLvl 1) }
  check (oNonSnipLvl ≠ 0) "o_non_snip_lvl != 0"
  if oNonSnipLvl = 1 then
    check (curr ≠ c.head) "curr != head"
    check (curr ≠ c.tail) "curr != tail"
    return { s with retired := curr :: s.retired }
  else
    return s

variable [LinearOrder Key]

/-- `_vqueue_prio_cmp_priority`. -/
def cmpPriority (s : State Node Key) (node : Node) (priority : Key) : Int :=
  if s.priority node ≤ priority then -1 else 1

/-- The loops of `_vskiplist_find`; `specific` is the node of a call with
`find_specific` set. -/
def findLoop (c : Config Node) (key : Key) (specific : Option Node) :
    Nat → State Node Key → Find Node → Except Fault (State Node Key × Find Node)
  | 0, _, _ => .error .blocked
  | rounds + 1, s, f =>
    match s.next f.curr f.level with
    | (succ, true) =>
      if s.next f.pred f.level = (some f.curr, false) then do
        let s ← snip c s f.level f.pred f.curr succ
        let curr ← pointer (s.next f.pred f.level).1
        findLoop c key specific rounds s { f with curr := curr }
      else do
        let f ← retry c s f.preds f.succs
        findLoop c key specific rounds s f
    | (succ, false) => do
        check (f.curr ≠ c.head) "curr != head"
        if f.curr ≠ c.tail ∧ cmpPriority s f.curr key < 0 ∧ specific ≠ some f.curr then
          let curr ← pointer succ
          findLoop c key specific rounds s { f with pred := f.curr, curr := curr }
        else
          let f := { f with
            preds := update f.preds f.level f.pred
            succs := update f.succs f.level f.curr }
          if f.level = 0 then
            return (s, f)
          else
            let curr ← enterLevel s (f.level - 1) f.pred
            findLoop c key specific rounds s { f with level := f.level - 1, curr := curr }

/-- `_vskiplist_find`. -/
def find (c : Config Node) (s : State Node Key) (key : Key) (specific : Option Node) :
    Except Fault (State Node Key × Find Node × Option Node) := do
  let f ← retry c s (fun _ => c.head) (fun _ => c.head)
  let (s, f) ← findLoop c key specific (rounds c s) s f
  check (f.curr ≠ c.head) "curr != head"
  if f.curr ≠ c.tail ∧ cmpPriority s f.curr key = 0 then
    return (s, f, some f.curr)
  else
    return (s, f, none)

/-- `_vskiplist_init_node`. -/
def initNode (c : Config Node) (s : State Node Key) (node : Node) (height : Nat) :
    Except Fault (State Node Key) := do
  check (height ≤ c.topLevel + 1) "height <= VSKIPLIST_MAX_HEIGHT"
  return { s with
    height := update s.height node height
    nonSnippedLevel := update s.nonSnippedLevel node height }

/-- The pointers of a new node, on the levels below `height`. -/
def setNexts (s : State Node Key) (node : Node) (succs : Nat → Node) : Nat → State Node Key
  | 0 => s
  | level + 1 =>
    let s := setNexts s node succs level
    { s with next := set2 s.next node level (some (succs level), false) }

/-- The loop of `vskiplist_add` over the levels from 1. -/
def linkLevels (c : Config Node) (key : Key) (node : Node) (height : Nat) :
    Nat → State Node Key → Nat → Find Node → Except Fault (State Node Key)
  | 0, _, _, _ => .error .blocked
  | rounds + 1, s, level, f =>
    if level < height then
      let s :=
        if (s.next node level).1 = some (f.succs level) then s
        else
          { s with
            next := set2 s.next node level (some (f.succs level), (s.next node level).2) }
      if s.next (f.preds level) level = (some (f.succs level), false) then
        let s := { s with next := set2 s.next (f.preds level) level (some node, false) }
        linkLevels c key node height rounds s (level + 1) f
      else do
        let (s, f, _) ← find c s key none
        linkLevels c key node height rounds s level f
    else
      .ok s

/-- The loop of `vskiplist_add`. -/
def addLoop (c : Config Node) (key : Key) (node : Node) (height : Nat) :
    Nat → State Node Key → Except Fault (State Node Key × Bool)
  | 0, _ => .error .blocked
  | more + 1, s => do
      let (s, f, found) ← find c s key none
      if found.isSome then
        return (s, false)
      else
        let s := setNexts s node f.succs height
        if s.next (f.preds 0) 0 = (some (f.succs 0), false) then
          let s := { s with next := set2 s.next (f.preds 0) 0 (some node, false) }
          let s ← linkLevels c key node height (rounds c s) s 1 f
          return (s, true)
        else
          addLoop c key node height more s

def vskiplistAdd (c : Config Node) (s : State Node Key) (key : Key) (node : Node) (height : Nat) :
    Except Fault (State Node Key × Bool) := do
  let s ← initNode c s node height
  addLoop c key node height (rounds c s) s

def vqueuePrioAdd (c : Config Node) (s : State Node Key) (node : Node) (priority : Key)
    (height : Nat) : Except Fault (State Node Key) := do
  let s := { s with
    priority := update s.priority node priority
    marked := update s.marked node false
    added := node :: s.added }
  let (s, success) ← vskiplistAdd c s priority node height
  check (success = true) "success && \"we should allow for inserting nodes with same priority \""
  return s

omit [LinearOrder Key] in
/-- The loop of `vskiplist_get_succ`. -/
def getSuccLoop (c : Config Node) (s : State Node Key) :
    Nat → Option Node → Except Fault (Option Node)
  | 0, _ => .error .blocked
  | rounds + 1, succNext => do
      let succ ← asserted succNext "succ_next"
      match s.next succ 0 with
      | (succNext, true) => getSuccLoop c s rounds succNext
      | (_, false) => return if succ = c.tail then none else some succ

/-- `vskiplist_get_first`. -/
def getFirst (c : Config Node) (s : State Node Key) : Except Fault (Option Node) := do
  let node ← pointer (s.next c.head 0).1
  if node = c.tail then
    return none
  else if (s.next node 0).2 then
    getSuccLoop c s (rounds c s) (s.next node 0).1
  else
    return some node

/-- `_vqueue_prio_find_and_mark_min`. -/
def findAndMarkMin (c : Config Node) :
    Nat → State Node Key → Except Fault (State Node Key × Option Node)
  | 0, _ => .error .blocked
  | rounds + 1, s => do
      match ← getFirst c s with
      | none => return (s, none)
      | some node =>
        if s.marked node = false then
          return ({ s with marked := update s.marked node true }, some node)
        else
          findAndMarkMin c rounds s

/-- One level of `_vskiplist_logically_remove_node`, with `i_marked_it`. -/
def markLevel (s : State Node Key) (node : Node) (level : Nat) : State Node Key × Bool :=
  match s.next node level with
  | (_, true) => (s, false)
  | (succ, false) => ({ s with next := set2 s.next node level (succ, true) }, true)

/-- The levels from `level` down. -/
def markLevels (s : State Node Key) (node : Node) : Nat → State Node Key × Bool
  | 0 => markLevel s node 0
  | level + 1 => markLevels (markLevel s node (level + 1)).1 node level

/-- `_vskiplist_detach_node`. -/
def detachNode (c : Config Node) (s : State Node Key) (key : Key) (node : Node) :
    Except Fault (State Node Key) := do
  check (0 < s.height node) "node->height > 0"
  let (s, marked) := markLevels s node (s.height node - 1)
  if marked then
    let (s, _, _) ← find c s key (some node)
    return s
  else
    return s

def vqueuePrioRemoveMin (c : Config Node) (s : State Node Key) :
    Except Fault (State Node Key × Option Node) := do
  let (s, pnode) ← findAndMarkMin c (rounds c s) s
  match pnode with
  | some node =>
    let s ← detachNode c s (s.priority node) node
    return (s, some node)
  | none => return (s, none)

/-- `_vqueue_prio_destroy_node`; the calls of `destroy_cb` are recorded. -/
def destroyNode (c : Config Node) (s : State Node Key) (destroyed : List Node) (node : Node) :
    Except Fault (State Node Key × List Node) := do
  let nonSnipped := wsub 64 (s.nonSnippedLevel node) 1
  let s := { s with nonSnippedLevel := update s.nonSnippedLevel node nonSnipped }
  check (nonSnipped ≤ c.topLevel + 1) "non_snipped <= VSKIPLIST_MAX_HEIGHT"
  if nonSnipped = 0 then
    return (s, node :: destroyed)
  else
    return (s, destroyed)

/-- The loop of `_vskiplist_visit_level`. -/
def visitLoop (c : Config Node) (level : Nat) :
    Nat → State Node Key → List Node → Node → Except Fault (State Node Key × List Node)
  | 0, _, _, _ => .error .blocked
  | rounds + 1, s, destroyed, curr => do
      let succ := (s.next curr level).1
      let (s, destroyed) ← destroyNode c s destroyed curr
      let curr ← pointer succ
      if curr = c.tail then
        return (s, destroyed)
      else
        visitLoop c level rounds s destroyed curr

/-- `_vskiplist_visit_level`. -/
def visitLevel (c : Config Node) (s : State Node Key) (destroyed : List Node) (level : Nat) :
    Except Fault (State Node Key × List Node) := do
  check (level < s.height c.head) "level < head->height"
  let curr ← asserted (s.next c.head level).1 "curr"
  if curr = c.tail then
    return (s, destroyed)
  else
    visitLoop c level (rounds c s) s destroyed curr

/-- The levels below `level`, from the top. -/
def visitLevels (c : Config Node) :
    Nat → State Node Key → List Node → Except Fault (State Node Key × List Node)
  | 0, s, destroyed => .ok (s, destroyed)
  | level + 1, s, destroyed => do
      let (s, destroyed) ← visitLevel c s destroyed level
      visitLevels c level s destroyed

/-- `vqueue_prio_destroy`, with the calls of `destroy_cb`, newest first. -/
def vqueuePrioDestroy (c : Config Node) (s : State Node Key) :
    Except Fault (State Node Key × List Node) :=
  visitLevels c (c.topLevel + 1) s []

/-- `vqueue_prio_init`; a node that is not a sentinel is not read before it is
added. -/
def vqueuePrioInit (c : Config Node) (memory : State Node Key) : State Node Key where
  next n l := if n = c.head then (some c.tail, false) else if n = c.tail then (none, false)
    else memory.next n l
  height n := if n = c.head ∨ n = c.tail then c.topLevel + 1 else memory.height n
  nonSnippedLevel n :=
    if n = c.head ∨ n = c.tail then c.topLevel + 1 else memory.nonSnippedLevel n
  priority := memory.priority
  marked := memory.marked
  retired := []
  added := []

inductive Call (Node Key : Type) where
  | add (node : Node) (priority : Key) (height : Nat)
  | removeMin

def object (c : Config Node) : Object (State Node Key) (Call Node Key) (Option Node)
  | s, .add node priority height => do
      let s ← vqueuePrioAdd c s node priority height
      return (s, none)
  | s, .removeMin => vqueuePrioRemoveMin c s

/-- A node is added once, with a height that it has room for. -/
def Allowed (c : Config Node) (s : State Node Key) : Call Node Key → Prop
  | .add node _ height => node ≠ c.head ∧ node ≠ c.tail ∧ node ∉ s.added ∧ 1 ≤ height ∧
      height ≤ c.topLevel + 1
  | .removeMin => True

/-- A stable priority queue: the nodes that were added and not returned yet, in
the order in which they were added. -/
def queueSpec (q : List (Node × Key)) : Call Node Key → Option Node → List (Node × Key) → Prop
  | .add node priority _, r, q' => r = none ∧ q' = q ++ [(node, priority)]
  | .removeMin, none, q' => q = [] ∧ q' = q
  | .removeMin, some node, q' => ∃ before priority after, q = before ++ (node, priority) :: after ∧
      (∀ e ∈ before, priority < e.2) ∧ (∀ e ∈ after, priority ≤ e.2) ∧ q' = before ++ after

end Libvsync.Queue.PrioSkiplist
