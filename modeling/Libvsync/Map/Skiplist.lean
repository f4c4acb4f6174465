import Libvsync.Core.Chain
import Libvsync.Core.Machine
import Libvsync.Core.Places
import Libvsync.Core.Word
import Mathlib.Data.Finset.Card

/-!
The lock-free skiplist. Threads run `vskiplist_add`, `vskiplist_remove`,
`vskiplist_remove_node`, `vskiplist_lookup` and `vskiplist_lookup_next`, one
atomic operation per step; comparisons and moves of local variables belong to
the step of the read they follow. A markable pointer is a pair of an address
and a mark, and `none` is NULL. The arrays `preds` and `succs` are filled by a
search before they are read.

The fields `added`, `linked`, `snipped`, `counted` and `handed` are not read by
the code: they record which nodes were passed to `vskiplist_add`, at which
levels a node has been linked, snipped and counted down after the snip, and
the calls of `fun_retire`.
-/

namespace Libvsync.Map.Skiplist

open Libvsync.Core Function

/-- What `vskiplist_init` is given: distinct sentinels, the comparison, and the
configured height `VSKIPLIST_MAX_HEIGHT = topLevel + 1`, which a static
assertion keeps within 8 bits. -/
structure Config (Node Key : Type) where
  head : Node
  tail : Node
  distinct : head ≠ tail
  funCmp : Node → Key → Int
  topLevel : Nat
  fits : topLevel + 1 ≤ 255

/-- The calls of `_vskiplist_find`: the first search of `vskiplist_add`, its
searches while it links the upper levels, the search of a removal (with the
expected node of `vskiplist_remove_node`) and the one that detaches a marked
node. -/
inductive Caller (Node : Type) where
  | add (node : Node) (height : Nat)
  | link (node : Node) (height level : Nat)
  | remove (expected : Option Node)
  | detach

/-- The local variables of `_vskiplist_find`; `specific` is the node of a call
with `find_specific` set. -/
structure Find (Node Key : Type) where
  key : Key
  specific : Option Node
  caller : Caller Node
  pred : Node
  level : Nat
  preds : Nat → Node
  succs : Nat → Node

/-- The local variables of `vskiplist_add` between two searches. -/
structure Adding (Node Key : Type) where
  key : Key
  node : Node
  height : Nat
  preds : Nat → Node
  succs : Nat → Node

inductive Pc (Node Key : Type) where
  | idle
  | addInit (key : Key) (node : Node) (height : Nat)
  | findLevel (f : Find Node Key)
  | findCurr (f : Find Node Key) (curr : Node)
  | findSnip (f : Find Node Key) (curr : Node) (succ : Option Node)
  | findDec (f : Find Node Key) (curr : Node)
  | findRetire (f : Find Node Key) (curr : Node)
  | findReload (f : Find Node Key)
  | addSet (a : Adding Node Key) (level : Nat)
  | addLink (a : Adding Node Key)
  | linkRead (a : Adding Node Key) (level : Nat)
  | linkSet (a : Adding Node Key) (level : Nat) (curSucc : Option Node) (mark : Bool)
  | linkCas (a : Adding Node Key) (level : Nat)
  | markRead (key : Key) (node : Node) (level : Nat)
  | markCas (key : Key) (node : Node) (level : Nat) (succ : Option Node)
  | lookupLevel (key : Key) (acceptNext : Bool) (pred : Node) (level : Nat)
  | lookupCurr (key : Key) (acceptNext : Bool) (pred : Node) (level : Nat) (curr : Node)
  | lookupSkip (key : Key) (acceptNext : Bool) (pred : Node) (level : Nat) (curr : Node)
  | addRet (ok : Bool) (outNode : Option Node)
  | removeRet (ok : Bool)
  | lookupRet (result : Option Node)
  | failed (message : String)

structure State (Tid Node Key : Type) where
  next : Node → Nat → Option Node × Bool
  height : Node → Nat
  nonSnippedLevel : Node → Nat
  pc : Tid → Pc Node Key
  added : Node → Bool
  linked : Node → Nat → Bool
  snipped : Node → Nat → Bool
  counted : Node → Nat → Bool
  handed : List Node

inductive Act (Tid Node Key : Type) where
  | add (t : Tid) (key : Key) (node : Node) (height : Nat)
  | remove (t : Tid) (key : Key)
  | removeNode (t : Tid) (key : Key) (node : Node)
  | lookup (t : Tid) (key : Key)
  | lookupNext (t : Tid) (key : Key)
  | step (t : Tid)
  deriving DecidableEq

variable {Tid Node Key : Type} [DecidableEq Tid] [DecidableEq Node]

def State.goto (s : State Tid Node Key) (t : Tid) (pc : Pc Node Key) : State Tid Node Key :=
  { s with pc := update s.pc t pc }

/-- One entry of a two-dimensional table is written. -/
def set2 {A : Type} (f : Node → Nat → A) (n : Node) (l : Nat) (v : A) : Node → Nat → A :=
  update f n (update (f n) l v)

/-- `RETRY` and the beginning of `_vskiplist_find`. -/
def State.retry (c : Config Node Key) (s : State Tid Node Key) (t : Tid) (f : Find Node Key) :
    State Tid Node Key :=
  if s.height c.head = 0 then
    s.goto t (.failed "pred->height != 0")
  else
    s.goto t (.findLevel { f with pred := c.head, level := c.topLevel })

/-- A call of `_vskiplist_find`. -/
def State.find (c : Config Node Key) (s : State Tid Node Key) (t : Tid) (key : Key)
    (specific : Option Node) (caller : Caller Node) : State Tid Node Key :=
  s.retry c t
    { key := key, specific := specific, caller := caller, pred := c.head, level := c.topLevel
      preds := fun _ => c.head, succs := fun _ => c.head }

/-- `_vskiplist_logically_remove_node` begins at the top level of the node. -/
def State.removeNode (s : State Tid Node Key) (t : Tid) (key : Key) (node : Node) :
    State Tid Node Key :=
  if s.height node = 0 then
    s.goto t (.failed "node->height > 0")
  else
    s.goto t (.markRead key node (s.height node - 1))

/-- The next level of `_vskiplist_logically_remove_node`, and then the rest of
`_vskiplist_detach_node`. -/
def State.marked (c : Config Node Key) (s : State Tid Node Key) (t : Tid) (key : Key)
    (node : Node) (level : Nat) (iMarkedIt : Bool) : State Tid Node Key :=
  if level = 0 then
    if iMarkedIt then s.find c t key (some node) .detach else s.goto t (.removeRet false)
  else
    s.goto t (.markRead key node (level - 1))

/-- The loop of `vskiplist_add` over the levels from 1. -/
def State.linkNext (s : State Tid Node Key) (t : Tid) (a : Adding Node Key) (level : Nat) :
    State Tid Node Key :=
  if level < a.height then s.goto t (.linkRead a level) else s.goto t (.addRet true none)

/-- What the caller of `_vskiplist_find` does with its result. -/
def State.findReturn (c : Config Node Key) (s : State Tid Node Key) (t : Tid)
    (f : Find Node Key) (curr : Node) : State Tid Node Key :=
  let found := curr ≠ c.tail ∧ c.funCmp curr f.key = 0
  match f.caller with
  | .add node height =>
    if found then s.goto t (.addRet false (some curr))
    else s.goto t (.addSet ⟨f.key, node, height, f.preds, f.succs⟩ 0)
  | .link node height level =>
    s.goto t (.linkRead ⟨f.key, node, height, f.preds, f.succs⟩ level)
  | .remove expected =>
    if found ∧ (expected = none ∨ expected = some curr) then s.removeNode t f.key curr
    else s.goto t (.removeRet false)
  | .detach => s.goto t (.removeRet true)

/-- The end of a level of `_vskiplist_find`. -/
def State.findDown (c : Config Node Key) (s : State Tid Node Key) (t : Tid)
    (f : Find Node Key) (curr : Node) : State Tid Node Key :=
  let f := { f with
    preds := update f.preds f.level f.pred
    succs := update f.succs f.level curr }
  if f.level = 0 then s.findReturn c t f curr
  else s.goto t (.findLevel { f with level := f.level - 1 })

/-- The next atomic step of thread `t`. -/
def nextStep (c : Config Node Key) (s : State Tid Node Key) (t : Tid) :
    Option (State Tid Node Key) :=
  match s.pc t with
  | .idle | .failed _ => none
  | .addInit key node height =>
    if height ≤ c.topLevel + 1 then
      some ({ s with
        height := update s.height node height
        nonSnippedLevel := update s.nonSnippedLevel node height }.find c t key
          none (.add node height))
    else
      some (s.goto t (.failed "height <= VSKIPLIST_MAX_HEIGHT"))
  | .findLevel f =>
    if f.level < s.height f.pred then
      match (s.next f.pred f.level).1 with
      | some curr => some (s.goto t (.findCurr f curr))
      | none => some (s.goto t (.failed "curr"))
    else
      some (s.goto t (.failed "level < pred->height"))
  | .findCurr f curr =>
    match s.next curr f.level with
    | (succ, true) => some (s.goto t (.findSnip f curr succ))
    | (succ, false) =>
      if curr = c.head then
        some (s.goto t (.failed "curr != head"))
      else if curr ≠ c.tail ∧ c.funCmp curr f.key < 0 ∧ f.specific ≠ some curr then
        match succ with
        | some succ => some (s.goto t (.findCurr { f with pred := curr } succ))
        | none => some (s.goto t (.failed "null pointer"))
      else
        some (s.findDown c t f curr)
  | .findSnip f curr succ =>
    if s.next f.pred f.level = (some curr, false) then
      some ({ s with
        next := set2 s.next f.pred f.level (succ, false)
        snipped := set2 s.snipped curr f.level true }.goto t (.findDec f curr))
    else
      some (s.retry c t f)
  | .findDec f curr =>
    let oNonSnipLvl := s.nonSnippedLevel curr
    let s := { s with
      nonSnippedLevel := update s.nonSnippedLevel curr (wsub 64 oNonSnipLvl 1)
      counted := set2 s.counted curr f.level true }
    if oNonSnipLvl = 0 then
      some (s.goto t (.failed "o_non_snip_lvl != 0"))
    else if oNonSnipLvl = 1 then
      if curr = c.head then some (s.goto t (.failed "curr != head"))
      else if curr = c.tail then some (s.goto t (.failed "curr != tail"))
      else some (s.goto t (.findRetire f curr))
    else
      some (s.goto t (.findReload f))
  | .findRetire f curr =>
    some ({ s with handed := curr :: s.handed }.goto t (.findReload f))
  | .findReload f =>
    match (s.next f.pred f.level).1 with
    | some curr => some (s.goto t (.findCurr f curr))
    | none => some (s.goto t (.failed "null pointer"))
  | .addSet a level =>
    let s := { s with next := set2 s.next a.node level (some (a.succs level), false) }
    if level + 1 < a.height then some (s.goto t (.addSet a (level + 1)))
    else some (s.goto t (.addLink a))
  | .addLink a =>
    if s.next (a.preds 0) 0 = (some (a.succs 0), false) then
      some ({ s with
        next := set2 s.next (a.preds 0) 0 (some a.node, false)
        linked := set2 s.linked a.node 0 true }.linkNext t a 1)
    else
      some (s.find c t a.key none (.add a.node a.height))
  | .linkRead a level =>
    if (s.next a.node level).1 = some (a.succs level) then
      some (s.goto t (.linkCas a level))
    else
      some (s.goto t (.linkSet a level (s.next a.node level).1 (s.next a.node level).2))
  | .linkSet a level curSucc mark =>
    if s.next a.node level = (curSucc, mark) then
      some ({ s with
        next := set2 s.next a.node level (some (a.succs level), mark) }.goto t
          (.linkCas a level))
    else
      some (s.goto t (.linkRead a level))
  | .linkCas a level =>
    if s.next (a.preds level) level = (some (a.succs level), false) then
      some ({ s with
        next := set2 s.next (a.preds level) level (some a.node, false)
        linked := set2 s.linked a.node level true }.linkNext t a (level + 1))
    else
      some (s.find c t a.key none (.link a.node a.height level))
  | .markRead key node level =>
    match s.next node level with
    | (_, true) => some (s.marked c t key node level false)
    | (succ, false) => some (s.goto t (.markCas key node level succ))
  | .markCas key node level succ =>
    if s.next node level = (succ, false) then
      some ({ s with next := set2 s.next node level (succ, true) }.marked c t key node level
        true)
    else
      some (s.goto t (.markRead key node level))
  | .lookupLevel key acceptNext pred level =>
    match (s.next pred level).1 with
    | some curr => some (s.goto t (.lookupCurr key acceptNext pred level curr))
    | none => some (s.goto t (.failed "curr"))
  | .lookupCurr key acceptNext pred level curr =>
    match s.next curr level with
    | (_, true) => some (s.goto t (.lookupSkip key acceptNext pred level curr))
    | (succ, false) =>
      if curr = c.head then
        some (s.goto t (.failed "curr != head"))
      else if curr ≠ c.tail ∧ c.funCmp curr key < 0 then
        match succ with
        | some succ => some (s.goto t (.lookupCurr key acceptNext curr level succ))
        | none => some (s.goto t (.failed "null pointer"))
      else if level = 0 then
        some (s.goto t (.lookupRet
          (if curr ≠ c.tail ∧ (c.funCmp curr key = 0 ∨ acceptNext = true) then some curr
            else none)))
      else
        some (s.goto t (.lookupLevel key acceptNext pred (level - 1)))
  | .lookupSkip key acceptNext pred level curr =>
    match (s.next curr level).1 with
    | some curr => some (s.goto t (.lookupCurr key acceptNext pred level curr))
    | none => some (s.goto t (.failed "null pointer"))
  | .addRet _ _ | .removeRet _ | .lookupRet _ => some (s.goto t .idle)

/-- The beginning of a call by an idle thread. A node is passed to
`vskiplist_add` once, with a height that `vskiplist_calc_node_sz` can give. -/
def beginCall (c : Config Node Key) (s : State Tid Node Key) (t : Tid) :
    Act Tid Node Key → Option (State Tid Node Key)
  | .add _ key node height =>
    if s.added node = false ∧ node ≠ c.head ∧ node ≠ c.tail ∧ 1 ≤ height ∧
        height ≤ c.topLevel + 1 then
      some ({ s with added := update s.added node true }.goto t
        (.addInit key node height))
    else
      none
  | .remove _ key => some (s.find c t key none (.remove none))
  | .removeNode _ key node => some (s.find c t key none (.remove (some node)))
  | .lookup _ key => some (s.goto t (.lookupLevel key false c.head c.topLevel))
  | .lookupNext _ key => some (s.goto t (.lookupLevel key true c.head c.topLevel))
  | .step _ => none

def Act.thread : Act Tid Node Key → Tid
  | .add t _ _ _ | .remove t _ | .removeNode t _ _ | .lookup t _ | .lookupNext t _
  | .step t => t

def step (c : Config Node Key) (s : State Tid Node Key) :
    Act Tid Node Key → Option (State Tid Node Key)
  | .step t => nextStep c s t
  | a =>
    match s.pc a.thread with
    | .idle => beginCall c s a.thread a
    | _ => none

/-- `vskiplist_init`. -/
def vskiplistInit (c : Config Node Key) : State Tid Node Key where
  next n l := if n = c.head ∧ l ≤ c.topLevel then (some c.tail, false) else (none, false)
  height n := if n = c.head ∨ n = c.tail then c.topLevel + 1 else 0
  nonSnippedLevel n := if n = c.head ∨ n = c.tail then c.topLevel + 1 else 0
  pc := fun _ => .idle
  added := fun _ => false
  linked n l := (n = c.head ∨ n = c.tail) ∧ l ≤ c.topLevel
  snipped := fun _ _ => false
  counted := fun _ _ => false
  handed := []

def machine (Tid : Type) [DecidableEq Tid] (c : Config Node Key) :
    Machine (State Tid Node Key) (Act Tid Node Key) where
  start s := s = vskiplistInit c
  step := step c

/-- The pointers of one level. -/
def State.level (s : State Tid Node Key) (l : Nat) (n : Node) : Option Node := (s.next n l).1

end Libvsync.Map.Skiplist
