import Libvsync.Core.Linear
import Libvsync.Core.RwLock
import Libvsync.Map.TreesetEdge

/-!
The tree set on an unbalanced search tree with one lock per node. The steps are
the acquisitions and releases of locks; the code up to the next one belongs to
the step. An acquisition waits until the lock is free; `treeset_contains` takes
the locks as a reader.

Nodes are those of the red-black tree set; their colour is not used. They are
freed as soon as they are out of the tree, and the memory of a node may be used
at once for a new one: a step that allocates is given the addresses that
`_treeset_get_node` returns, which are any that are not in use.
-/

namespace Libvsync.Map.TreesetBst

open Libvsync.Core Function
open Libvsync.Map.Treeset (Cell Heap Call Result extCell contents deref)

/-- A lock that is to be released on the way out of a call. After some of them
the value of a node is read into `out_value`. -/
structure Release (Id : Type) where
  node : Id
  read : Option Id
  deriving DecidableEq

inductive Pc (Id Key Value : Type) where
  | idle
  | lockHead (call : Call Key Value)
  | lock (call : Call Key Value) (g : Option Id) (f x : Id)
  | unlock (call : Call Key Value) (g : Option Id) (f x : Id)
  | lockMid (key : Key) (value : Value) (f x ext mid : Id)
  | lockBrother (key : Key) (g f x y : Id)
  | exit (call : Call Key Value) (todo : List (Release Id)) (gone : List Id) (ok : Bool)
      (out : Option Value)
  | ret (call : Call Key Value) (result : Result Value)
  | crashed

structure State (Tid Id Key Value : Type) where
  heap : Heap Id Key Value
  locks : Locks Id Tid
  live : List Id
  pc : Tid → Pc Id Key Value

inductive Act (Tid Id Key Value : Type) where
  | call (t : Tid) (call : Call Key Value)
  /-- `ext` and `mid` are the addresses of new nodes, for a step that needs them. -/
  | step (t : Tid) (ext mid : Id)

def Act.thread {Tid Id Key Value : Type} : Act Tid Id Key Value → Tid
  | .call t _ | .step t _ _ => t

section Calls

variable {Id Key Value : Type}

def key : Call Key Value → Key
  | .add k _ | .remove k | .contains k => k

/-- `treeset_contains` locks as a reader. -/
def reading : Call Key Value → Bool
  | .contains _ => true
  | _ => false

/-- The call of a thread. -/
def Pc.call : Pc Id Key Value → Option (Call Key Value)
  | .idle | .crashed => none
  | .lockHead call | .lock call _ _ _ | .unlock call _ _ _ | .exit call _ _ _ _ | .ret call _ =>
    some call
  | .lockMid key value _ _ _ _ => some (.add key value)
  | .lockBrother key _ _ _ _ => some (.remove key)

def Pc.reading (pc : Pc Id Key Value) : Bool := pc.call.any TreesetBst.reading

/-- The nodes that a thread has locked. -/
def Pc.holds : Pc Id Key Value → List Id
  | .idle | .crashed | .lockHead _ | .ret _ _ => []
  | .lock _ g f _ => g.toList ++ [f]
  | .unlock _ g f x => g.toList ++ [f, x]
  | .lockMid _ _ f x _ _ => [f, x]
  | .lockBrother _ g f x _ => [g, f, x]
  | .exit _ todo _ _ _ => todo.map Release.node

/-- The nodes that only one thread knows: new ones, and those it has taken out
of the tree. -/
def Pc.own : Pc Id Key Value → List Id
  | .lockMid _ _ _ _ ext mid => [ext, mid]
  | .exit _ _ gone _ _ => gone
  | _ => []

/-- The nodes that the next step of a thread reads, writes, locks, unlocks or
frees, but for those that it allocates. -/
def Pc.nodes (head : Id) : Pc Id Key Value → List Id
  | .idle | .crashed | .ret _ _ => []
  | .lockHead _ => [head]
  | .lock _ g f x => g.toList ++ [f, x]
  | .unlock _ g f x => g.toList ++ [f, x]
  | .lockMid _ _ f x ext mid => [f, x, ext, mid]
  | .lockBrother _ g f x y => [g, f, x, y]
  | .exit _ todo gone _ _ => todo.map Release.node ++ todo.filterMap Release.read ++ gone

end Calls

variable {Tid Id Key Value : Type} [DecidableEq Tid] [DecidableEq Id] [LinearOrder Key]

def State.goto (s : State Tid Id Key Value) (t : Tid) (pc : Pc Id Key Value) :
    State Tid Id Key Value :=
  { s with pc := update s.pc t pc }

/-- `l_acquire` or `l_reader_acquire`. -/
def State.acquire (s : State Tid Id Key Value) (call : Call Key Value) (t : Tid) (i : Id) :
    Option (State Tid Id Key Value) :=
  (s.locks.acquire (reading call) t i).map fun locks => { s with locks := locks }

/-- `l_release` or `l_reader_release`. -/
def State.release (s : State Tid Id Key Value) (call : Call Key Value) (t : Tid) (i : Id) :
    State Tid Id Key Value :=
  { s with locks := s.locks.release (reading call) t i }

/-- `_treeset_get_node`, the writes to the new node and `l_init`. -/
def State.newNode (s : State Tid Id Key Value) (i : Id) (cell : Cell Id Key Value) :
    State Tid Id Key Value :=
  { s with
    heap := update s.heap i cell
    locks := update s.locks i Locks.free
    live := i :: s.live }

/-- `_treeset_put_node`. -/
def State.putNode (s : State Tid Id Key Value) (i : Id) : State Tid Id Key Value :=
  { s with live := s.live.erase i }

/-- Where a thread goes on that has read a pointer which it follows. -/
def follow (p : Option Id) (next : Id → Pc Id Key Value) : Pc Id Key Value :=
  match p with
  | some i => next i
  | none => .crashed

/-- The head is locked. -/
def atHead (head : Id) (s : State Tid Id Key Value) (t : Tid) (ext : Id)
    (call : Call Key Value) : Option (State Tid Id Key Value) :=
  match (s.heap head).child false, call with
  | some x, _ => some (s.goto t (.lock call none head x))
  | none, .add key value =>
    if ext ∉ s.live then
      let s := s.newNode ext (extCell key value)
      let s := { s with heap := s.heap.setChild head false (some ext) }
      some (s.goto t (.exit call [⟨head, none⟩] [] true none))
    else none
  | none, _ => some (s.goto t (.exit call [⟨head, none⟩] [] false none))

/-- `x` is locked by `treeset_add`. -/
def addAt (s : State Tid Id Key Value) (t : Tid) (ext mid : Id) (key : Key) (value : Value)
    (f x : Id) : Option (State Tid Id Key Value) :=
  if (s.heap x).external = false then
    some (s.goto t (.unlock (.add key value) none f x))
  else if (s.heap x).key = key then
    some (s.goto t (.exit (.add key value) [⟨f, some x⟩, ⟨x, none⟩] [] false none))
  else if ext ∉ s.live ∧ mid ∉ ext :: s.live then
    let s := s.newNode ext (extCell key value)
    let s := s.newNode mid { s.heap mid with external := false }
    some (s.goto t (.lockMid key value f x ext mid))
  else none

/-- `x` is locked by `treeset_remove`. -/
def removeAt (s : State Tid Id Key Value) (t : Tid) (key : Key) (g : Option Id)
    (f x : Id) : State Tid Id Key Value :=
  match (s.heap x).external, g with
  | false, none =>
    s.goto t (follow ((s.heap x).child (s.heap.toward x key)) (.lock (.remove key) (some f) x))
  | false, some _ => s.goto t (.unlock (.remove key) g f x)
  | true, none =>
    -- 1 element
    if (s.heap x).key ≠ key then
      s.goto t (.exit (.remove key) [⟨f, none⟩, ⟨x, none⟩] [] false none)
    else
      { s with heap := s.heap.setChild f false none }.goto t
        (.exit (.remove key) [⟨f, some x⟩, ⟨x, none⟩] [x] true none)
  | true, some g =>
    if (s.heap x).key ≠ key then
      s.goto t (.exit (.remove key) [⟨g, none⟩, ⟨f, none⟩, ⟨x, none⟩] [] false none)
    else
      s.goto t (follow ((s.heap f).child (!s.heap.toward f key)) (.lockBrother key g f x))

/-- `x` is locked. -/
def atNode (s : State Tid Id Key Value) (t : Tid) (ext mid : Id)
    (call : Call Key Value) (g : Option Id) (f x : Id) : Option (State Tid Id Key Value) :=
  match call with
  | .add key value => addAt s t ext mid key value f x
  | .remove key => some (removeAt s t key g f x)
  | .contains _ => some (s.goto t (.unlock call none f x))

/-- The rest of the loop: `treeset_remove` leaves the grandfather, the others
leave the father. `treeset_contains` has its test here. -/
def moveOn (s : State Tid Id Key Value) (t : Tid) (call : Call Key Value) (g : Option Id)
    (f x : Id) : State Tid Id Key Value :=
  let y := (s.heap x).child (s.heap.toward x (key call))
  match call, g with
  | .add _ _, _ => (s.release call t f).goto t (follow y (.lock call none x))
  | .remove _, some g => (s.release call t g).goto t (follow y (.lock call (some f) x))
  | .remove _, none => s.goto t .crashed
  | .contains key, _ =>
    let s := s.release call t f
    if (s.heap x).external = false then
      s.goto t (follow y (.lock call none x))
    else if (s.heap x).key ≠ key then
      s.goto t (.exit call [⟨x, none⟩] [] false none)
    else
      s.goto t (.exit call [⟨x, none⟩] [] true (s.heap x).value)

/-- `mid` gets its key and children, and is put in the place of `x`. -/
def linkHeap (head : Id) (h : Heap Id Key Value) (key : Key) (f x ext mid : Id) :
    Heap Id Key Value :=
  let low := (h x).key < key
  let h : Heap Id Key Value := update h mid
    { h mid with
      key := if low then key else (h x).key
      child := fun b => if b = decide low then some ext else some x }
  h.setChild f (h.index head f key) (some mid)

/-- `mid` is locked. -/
def linkMid (head : Id) (s : State Tid Id Key Value) (t : Tid) (key : Key) (value : Value)
    (f x ext mid : Id) : State Tid Id Key Value :=
  { s with heap := linkHeap head s.heap key f x ext mid }.goto t
    (.exit (.add key value) [⟨f, none⟩, ⟨mid, none⟩, ⟨x, none⟩] [] true none)

/-- The brother is locked, and put in the place of `f`. -/
def unlinkFather (head : Id) (s : State Tid Id Key Value) (t : Tid) (key : Key) (g f x y : Id) :
    State Tid Id Key Value :=
  { s with heap := s.heap.setChild g (s.heap.index head g key) (some y) }.goto t
    (.exit (.remove key) [⟨g, none⟩, ⟨y, none⟩, ⟨f, some x⟩, ⟨x, none⟩] [f, x] true none)

/-- The value that is read after a release. -/
def State.readOut (s : State Tid Id Key Value) (read : Option Id) (out : Option Value) :
    Option Value :=
  match read with
  | some i => (s.heap i).value
  | none => out

/-- A lock is released on the way out; after the last one nodes are freed. -/
def exitStep (s : State Tid Id Key Value) (t : Tid) (call : Call Key Value)
    (todo : List (Release Id)) (gone : List Id) (ok : Bool) (out : Option Value) :
    State Tid Id Key Value :=
  match todo with
  | [] => s.goto t .crashed
  | [r] => (gone.foldl State.putNode (s.release call t r.node)).goto t
      (.ret call (ok, s.readOut r.read out))
  | r :: todo =>
    (s.release call t r.node).goto t (.exit call todo gone ok (s.readOut r.read out))

/-- The next step of thread `t`. -/
def nextStep (head : Id) (s : State Tid Id Key Value) (t : Tid) (ext mid : Id) :
    Option (State Tid Id Key Value) :=
  match s.pc t with
  | .idle | .crashed => none
  | .lockHead call => (s.acquire call t head).bind fun s => atHead head s t ext call
  | .lock call g f x => (s.acquire call t x).bind fun s => atNode s t ext mid call g f x
  | .unlock call g f x => some (moveOn s t call g f x)
  | .lockMid key value f x ext mid =>
    (s.acquire (.add key value) t mid).map fun s => linkMid head s t key value f x ext mid
  | .lockBrother key g f x y =>
    (s.acquire (.remove key) t y).map fun s => unlinkFather head s t key g f x y
  | .exit call todo gone ok out => some (exitStep s t call todo gone ok out)
  | .ret _ _ => some (s.goto t .idle)

def step (head : Id) (s : State Tid Id Key Value) :
    Act Tid Id Key Value → Option (State Tid Id Key Value)
  | .step t ext mid => nextStep head s t ext mid
  | .call t call =>
    match s.pc t with
    | .idle => some (s.goto t (.lockHead call))
    | _ => none

/-- `treeset_init`, with whatever the memory holds. -/
def treesetInit (head : Id) (memory : Heap Id Key Value) : State Tid Id Key Value where
  heap := update memory head
    { memory head with red := false, external := false, child := fun _ => none }
  locks := fun _ => Locks.free
  live := [head]
  pc := fun _ => .idle

def machine (Tid Key Value : Type) [DecidableEq Tid] [LinearOrder Key] (head : Id) :
    Machine (State Tid Id Key Value) (Act Tid Id Key Value) where
  start s := ∃ memory, s = treesetInit head memory
  step := step head

/-- `_treeset_verify_recursive`; a limit that is ignored is `none`. -/
def verifyRecursive (h : Heap Id Key Value) :
    Nat → Id → Option Key → Option Key → Except Fault Unit
  | 0, _, _, _ => .error .blocked
  | rounds + 1, i, limitB, limitE => do
      check (∀ b ∈ limitB, b ≤ (h i).key) "key invariant broken"
      check (∀ e ∈ limitE, (h i).key < e) "key invariant broken"
      if (h i).external = false then
        let l ← deref ((h i).child false)
        let r ← deref ((h i).child true)
        verifyRecursive h rounds l limitB (some (h i).key)
        verifyRecursive h rounds r (some (h i).key) limitE

/-- `_treeset_verify`. -/
def treesetVerify (head : Id) (s : State Tid Id Key Value) : Except Fault Unit :=
  match (s.heap head).child false with
  | none => return
  | some root => verifyRecursive s.heap s.live.length root none none

/-- The result of a call, once it is settled: what is left to be read is in the
node. -/
def Pc.settled (h : Heap Id Key Value) : Pc Id Key Value → Option (Call Key Value × Result Value)
  | .exit call todo _ ok out =>
    match todo.findSome? Release.read with
    | some i => some (call, (ok, (h i).value))
    | none => some (call, (ok, out))
  | .ret call result => some (call, result)
  | _ => none

/-- A set of keys with values. -/
def setSpec (set : Set (Key × Value)) : Call Key Value → Result Value → Set (Key × Value) → Prop
  | .add k v, (true, none), set' => (∀ w, (k, w) ∉ set) ∧ set' = insert (k, v) set
  | .add k _, (false, some w), set' => (k, w) ∈ set ∧ set' = set
  | .remove k, (true, some w), set' => (k, w) ∈ set ∧ set' = set \ {(k, w)}
  | .remove k, (false, none), set' => (∀ w, (k, w) ∉ set) ∧ set' = set
  | .contains k, (true, some w), set' => (k, w) ∈ set ∧ set' = set
  | .contains k, (false, none), set' => (∀ w, (k, w) ∉ set) ∧ set' = set
  | _, _, _ => False

def view (head : Id) :
    View (State Tid Id Key Value) Tid (Set (Key × Value)) (Call Key Value) (Result Value) where
  abs s := contents head s.heap
  busy t s := s.pc t ≠ .idle
  settled t s := (s.pc t).settled s.heap
  settled_busy := by
    intro t s x hx hidle
    rw [hidle] at hx
    cases hx

end Libvsync.Map.TreesetBst
