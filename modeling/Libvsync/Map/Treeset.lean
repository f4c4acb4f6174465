import Libvsync.Core.Object
import Mathlib.Order.Lattice

/-!
The red-black tree set with fine-grained locks, driven by one caller at a time:
the locks are left out. Nodes lie in a heap of cells; a child index is a
boolean, and NULL is `none`. The source keeps the value of an external node in
`child[0]`; here it has a field of its own. The allocator is a parameter: it
returns a node that is not in use.

Every loop goes down the tree. It is given as many rounds as there are nodes in
use, and running out of rounds is a fault.
-/

namespace Libvsync.Map.Treeset

open Libvsync.Core Function

/-- `treeset_node_t`. -/
@[ext] structure Cell (Id Key Value : Type) where
  key : Key
  red : Bool
  external : Bool
  child : Bool → Option Id
  value : Option Value

abbrev Heap (Id Key Value : Type) := Id → Cell Id Key Value

/-- `head` is the address of `head_sentinel`; `malloc` is given the nodes in use. -/
structure Config (Id : Type) where
  head : Id
  malloc : List Id → Id
  fresh : ∀ live, malloc live ∉ live

/-- The heap, the nodes in use, and the calls of `_treeset_put_node`. -/
structure State (Id Key Value : Type) where
  heap : Heap Id Key Value
  live : List Id
  freed : List Id

variable {Id Key Value : Type} [DecidableEq Id]

def Heap.setChild (h : Heap Id Key Value) (i : Id) (c : Bool) (p : Option Id) :
    Heap Id Key Value :=
  update h i { h i with child := update (h i).child c p }

def Heap.setRed (h : Heap Id Key Value) (i : Id) (red : Bool) : Heap Id Key Value :=
  update h i { h i with red := red }

def deref (p : Option Id) : Except Fault Id :=
  match p with
  | some i => .ok i
  | none => .error .null

omit [DecidableEq Id] in
@[simp] theorem deref_some (i : Id) : deref (some i) = .ok i := rfl

/-- `_treeset_get_node`. -/
def State.getNode (c : Config Id) (s : State Id Key Value) : State Id Key Value × Id :=
  ({ s with live := c.malloc s.live :: s.live }, c.malloc s.live)

/-- `_treeset_put_node`. -/
def State.putNode (s : State Id Key Value) (i : Id) : State Id Key Value :=
  { s with live := s.live.erase i, freed := i :: s.freed }

/-- `treeset_init`, with whatever the memory holds. -/
def treesetInit (c : Config Id) (memory : Heap Id Key Value) : State Id Key Value where
  heap := update memory c.head
    { memory c.head with red := false, external := false, child := fun _ => none }
  live := [c.head]
  freed := []

variable [LinearOrder Key]

/-- The index of the child that lies on the path to `key`. -/
def Heap.toward (h : Heap Id Key Value) (i : Id) (key : Key) : Bool := (h i).key ≤ key

/-- The same for a node that may be the sentinel, whose only child is `child[0]`. -/
def Heap.towardFrom (c : Config Id) (h : Heap Id Key Value) (i : Id) (key : Key) : Bool :=
  (i ≠ c.head) && ((h i).key ≤ key)

/-- `_treeset_rebalance`. -/
def rebalance (c : Config Id) (h : Heap Id Key Value) (gg g f x : Id) (key : Key) :
    Except Fault (Heap Id Key Value × Option Id) := do
  let cgg := h.towardFrom c gg key
  let cg := h.toward g key
  let cf := h.toward f key
  let cx := h.toward x key
  let y ← deref ((h x).child cx)
  let h :=
    if cg = cf then
      let h := h.setChild g cg ((h f).child (!cg))
      let h := h.setChild f (!cg) (some g)
      let h := h.setChild gg cgg (some f)
      let h := h.setRed f false
      h.setRed g true
    else
      let h := h.setChild g cg ((h x).child (!cg))
      let h := h.setChild x (!cg) (some g)
      let h := h.setChild f (!cg) ((h x).child cg)
      let h := h.setChild x cg (some f)
      let h := h.setChild gg cgg (some x)
      let h := h.setRed x false
      h.setRed g true
  if (h y).external = false then
    return (h, some y)
  else
    return (h, none)

/-- The local variables of `treeset_add`. -/
structure AddLocals (Id : Type) where
  gg : Option Id
  g : Option Id
  f : Id
  x : Id
  fRed : Bool

/-- The loop of `treeset_add`. -/
def addLoop (c : Config Id) (key : Key) :
    Nat → Heap Id Key Value → AddLocals Id → Except Fault (Heap Id Key Value × AddLocals Id)
  | 0, _, _ => .error .blocked
  | rounds + 1, h, l =>
    if (h l.x).external then
      .ok (h, l)
    else do
      let c0 ← deref ((h l.x).child false)
      let c1 ← deref ((h l.x).child true)
      check ((h l.x).red = false) "!x->red"
      if (h c0).red && (h c1).red then
        -- 4-node
        let h := h.setRed c0 false
        let h := h.setRed c1 false
        let h := h.setRed l.x (l.f ≠ c.head)
        if l.fRed then
          -- case 4
          let gg ← deref l.gg
          let g ← deref l.g
          let (h, x) ← rebalance c h gg g l.f l.x key
          let x ← deref x
          let y ← deref ((h x).child (h.toward x key))
          addLoop c key rounds h { l with f := x, x := y, fRed := false }
        else
          -- case 3
          let x ← deref ((h l.x).child (h.toward l.x key))
          let y ← deref ((h x).child (h.toward x key))
          addLoop c key rounds h { l with f := x, x := y, fRed := false }
      else
        let cx := h.toward l.x key
        let y ← deref ((h l.x).child cx)
        if (h y).red then
          -- case 2
          let z ← deref ((h y).child (h.toward y key))
          addLoop c key rounds h { gg := some l.f, g := some l.x, f := y, x := z, fRed := true }
        else
          -- case 1
          addLoop c key rounds h { l with f := l.x, x := y, fRed := false }

/-- A new external node. -/
def extCell (key : Key) (value : Value) : Cell Id Key Value where
  key := key
  red := false
  external := true
  child := fun _ => none
  value := some value

/-- The end of `treeset_add`: the new nodes are put in the place of `x`. -/
def addNew (c : Config Id) (s : State Id Key Value) (l : AddLocals Id) (key : Key)
    (value : Value) : Except Fault (State Id Key Value) := do
  let (s, ext) := s.getNode c
  let s := { s with heap := update s.heap ext (extCell key value) }
  let (s, mid) := s.getNode c
  let low := (s.heap l.x).key < key
  let h : Heap Id Key Value := update s.heap mid
    { key := if low then key else (s.heap l.x).key
      red := l.f ≠ c.head
      external := false
      child := fun b => if b = decide low then some ext else some l.x
      value := (s.heap mid).value }
  let h := h.setChild l.f (h.towardFrom c l.f key) (some mid)
  if l.fRed then
    -- case 6
    let gg ← deref l.gg
    let g ← deref l.g
    let (h, _) ← rebalance c h gg g l.f mid key
    return { s with heap := h }
  else
    -- case 5
    return { s with heap := h }

/-- The result of an operation and what it writes to `out_value`. -/
abbrev Result (Value : Type) := Bool × Option Value

def treesetAdd (c : Config Id) (s : State Id Key Value) (key : Key) (value : Value) :
    Except Fault (State Id Key Value × Result Value) := do
  match (s.heap c.head).child false with
  | none =>
    let (s, ext) := s.getNode c
    let h : Heap Id Key Value := update s.heap ext (extCell key value)
    return ({ s with heap := h.setChild c.head false (some ext) }, (true, none))
  | some x =>
    let (h, l) ← addLoop c key s.live.length s.heap
      { gg := none, g := none, f := c.head, x := x, fRed := false }
    let s := { s with heap := h }
    if (h l.x).key = key then
      return (s, (false, (h l.x).value))
    else
      let s ← addNew c s l key value
      return (s, (true, none))

/-- The local variables of `treeset_remove`. -/
structure RemoveLocals (Id : Type) where
  g : Option Id
  f : Id
  x : Id

/-- Case 3 of the loop of `treeset_remove`: the brother is a 2-node. -/
def recolour (h : Heap Id Key Value) (f x b : Id) : Heap Id Key Value :=
  let h := h.setRed f false
  let h := h.setRed x true
  h.setRed b true

/-- Case 4b: the brother is a 4-node or a 3-node that leans to `x`. -/
def rotateNear (c : Config Id) (h : Heap Id Key Value) (g f x b bb : Id) (cf : Bool) (key : Key) :
    Heap Id Key Value :=
  let h := h.setChild b cf ((h bb).child (!cf))
  let h := h.setChild bb (!cf) (some b)
  let h := h.setChild f (!cf) ((h bb).child cf)
  let h := h.setChild bb cf (some f)
  let h := h.setChild g (h.towardFrom c g key) (some bb)
  let h := h.setRed f false
  let h := h.setRed x true
  h.setRed bb (g ≠ c.head)

/-- Case 4a: the brother is a 3-node that leans away from `x`. -/
def rotateFar (c : Config Id) (h : Heap Id Key Value) (g f x b bb : Id) (cf : Bool) (key : Key) :
    Heap Id Key Value :=
  let h := h.setChild f (!cf) ((h b).child cf)
  let h := h.setChild b cf (some f)
  let h := h.setChild g (h.towardFrom c g key) (some b)
  let h := h.setRed f false
  let h := h.setRed x true
  let h := h.setRed b (g ≠ c.head)
  h.setRed bb false

/-- Case 2: `x` is the top of a 3-node. -/
def rotateTop (c : Config Id) (h : Heap Id Key Value) (f x r : Id) (cx : Bool) (key : Key) :
    Heap Id Key Value :=
  let cf := h.towardFrom c f key
  let h := h.setChild x (!cx) ((h r).child cx)
  let h := h.setChild r cx (some x)
  let h := h.setChild f cf (some r)
  let h := h.setRed r false
  h.setRed x true

/-- The last branch of the loop: `x` is a 2-node. -/
def twoNode (c : Config Id) (h : Heap Id Key Value) (l : RemoveLocals Id) (key : Key) :
    Except Fault (Heap Id Key Value) := do
  check (l.g.isSome) "g"
  let g ← deref l.g
  check (l.f ≠ c.head) "f != &tree->head_sentinel"
  let cf := h.toward l.f key
  let b ← deref ((h l.f).child (!cf))
  check ((h b).external = false) "!b->external"
  check ((h b).red = false) "!b->red"
  let b0 ← deref ((h b).child false)
  let b1 ← deref ((h b).child true)
  if (h b0).red = false ∧ (h b1).red = false then
    return recolour h l.f l.x b
  else
    let near := if cf then b1 else b0
    let far := if cf then b0 else b1
    if (h near).red then
      check ((h near).red = true) "bb->red"
      return rotateNear c h g l.f l.x b near cf key
    else
      check ((h far).external = false) "!bb->external"
      check ((h far).red = true) "bb->red"
      return rotateFar c h g l.f l.x b far cf key

/-- The loop of `treeset_remove`. -/
def removeLoop (c : Config Id) (key : Key) :
    Nat → Heap Id Key Value → RemoveLocals Id →
      Except Fault (Heap Id Key Value × RemoveLocals Id)
  | 0, _, _ => .error .blocked
  | rounds + 1, h, l =>
    if (h l.x).external then
      .ok (h, l)
    else do
      let c0 ← deref ((h l.x).child false)
      let c1 ← deref ((h l.x).child true)
      check ((h l.x).red = false) "!x->red"
      let cx := h.toward l.x key
      let near := if cx then c1 else c0
      let far := if cx then c0 else c1
      if (h near).red then
        -- case 1
        let y ← deref ((h near).child (h.toward near key))
        removeLoop c key rounds h { g := some l.x, f := near, x := y }
      else if (h far).red then
        -- case 2
        let h := rotateTop c h l.f l.x far cx key
        let y ← deref ((h l.x).child (h.toward l.x key))
        removeLoop c key rounds h { g := some far, f := l.x, x := y }
      else
        let h ← twoNode c h l key
        let y ← deref ((h l.x).child (h.toward l.x key))
        removeLoop c key rounds h { g := some l.f, f := l.x, x := y }

/-- The end of `treeset_remove`: the brother takes the place of `f`. -/
def unlink (c : Config Id) (s : State Id Key Value) (l : RemoveLocals Id) (key : Key) :
    Except Fault (State Id Key Value × Result Value) := do
  check (l.g.isSome) "g"
  let g ← deref l.g
  if (s.heap l.x).key ≠ key then
    return (s, (false, none))
  let cg := s.heap.towardFrom c g key
  let cf := s.heap.toward l.f key
  let b := (s.heap l.f).child (!cf)
  let value := (s.heap l.x).value
  let s := { s with heap := s.heap.setChild g cg b }
  return ((s.putNode l.f).putNode l.x, (true, value))

def treesetRemove (c : Config Id) (s : State Id Key Value) (key : Key) :
    Except Fault (State Id Key Value × Result Value) := do
  match (s.heap c.head).child false with
  | none => return (s, (false, none))
  | some x =>
    if (s.heap x).external then
      if (s.heap x).key ≠ key then
        return (s, (false, none))
      let value := (s.heap x).value
      let s := { s with heap := s.heap.setChild c.head false none }
      return (s.putNode x, (true, value))
    else
      let c0 ← deref ((s.heap x).child false)
      let c1 ← deref ((s.heap x).child true)
      let l : RemoveLocals Id ←
        if (s.heap c0).red = false ∧ (s.heap c1).red = false then do
          -- the root is a 2-node
          let y ← deref ((s.heap x).child (s.heap.toward x key))
          pure { g := some c.head, f := x, x := y }
        else
          pure { g := none, f := c.head, x := x }
      let (h, l) ← removeLoop c key s.live.length s.heap l
      unlink c { s with heap := h } l key

/-- The loop of `treeset_contains`. -/
def containsLoop (key : Key) : Nat → Heap Id Key Value → Id → Except Fault Id
  | 0, _, _ => .error .blocked
  | rounds + 1, h, x =>
    if (h x).external then
      .ok x
    else do
      let y ← deref ((h x).child (h.toward x key))
      containsLoop key rounds h y

def treesetContains (c : Config Id) (s : State Id Key Value) (key : Key) :
    Except Fault (Result Value) := do
  match (s.heap c.head).child false with
  | none => return (false, none)
  | some x =>
    let x ← containsLoop key s.live.length s.heap x
    if (s.heap x).key ≠ key then
      return (false, none)
    else
      return (true, (s.heap x).value)

/-- `_treeset_verify_recursive`; a limit that is ignored is `none`. -/
def verifyRecursive (h : Heap Id Key Value) :
    Nat → Id → Bool → Option Key → Option Key → Except Fault Nat
  | 0, _, _, _, _ => .error .blocked
  | rounds + 1, i, fRed, limitB, limitE => do
      check (∀ b ∈ limitB, b ≤ (h i).key) "key invariant broken"
      check (∀ e ∈ limitE, (h i).key < e) "key invariant broken"
      if (h i).external then
        check ((h i).red = false) "external invariant broken"
        return 0
      else
        let l ← deref ((h i).child false)
        let r ← deref ((h i).child true)
        let bhLe ← verifyRecursive h rounds l (h i).red limitB (some (h i).key)
        let bhRi ← verifyRecursive h rounds r (h i).red (some (h i).key) limitE
        check (bhLe = bhRi) "black invariant broken"
        check (fRed = false ∨ (h i).red = false) "red invariant broken"
        return bhLe + if (h i).red then 0 else 1

/-- `_treeset_verify`. -/
def treesetVerify (c : Config Id) (s : State Id Key Value) : Except Fault Unit := do
  match (s.heap c.head).child false with
  | none => return
  | some root =>
    let _ ← verifyRecursive s.heap s.live.length root true none none

/-- `_treeset_visit_recursive`: what the visitor is called with. -/
def visitRecursive (h : Heap Id Key Value) :
    Nat → Id → Except Fault (List (Key × Option Value))
  | 0, _ => .error .blocked
  | rounds + 1, i =>
    if (h i).external then
      .ok [((h i).key, (h i).value)]
    else do
      let l ← deref ((h i).child false)
      let left ← visitRecursive h rounds l
      let r ← deref ((h i).child true)
      let right ← visitRecursive h rounds r
      return left ++ right

/-- `_treeset_putall_recursive`. -/
def putallRecursive : Nat → State Id Key Value → Id → Except Fault (State Id Key Value)
  | 0, _, _ => .error .blocked
  | rounds + 1, s, i =>
    if (s.heap i).external then
      .ok (s.putNode i)
    else do
      let l ← deref ((s.heap i).child false)
      let s ← putallRecursive rounds s l
      let r ← deref ((s.heap i).child true)
      let s ← putallRecursive rounds s r
      return s.putNode i

inductive Call (Key Value : Type) where
  | add (key : Key) (value : Value)
  | remove (key : Key)
  | contains (key : Key)

def object (c : Config Id) : Object (State Id Key Value) (Call Key Value) (Result Value)
  | s, .add key value => treesetAdd c s key value
  | s, .remove key => treesetRemove c s key
  | s, .contains key => do
      let r ← treesetContains c s key
      return (s, r)

end Libvsync.Map.Treeset
