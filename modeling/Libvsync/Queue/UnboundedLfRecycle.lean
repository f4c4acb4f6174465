import Libvsync.Atomic.Stamped
import Libvsync.Core.Machine

/-!
The lock-free queue whose nodes are recycled. It is the queue of `UnboundedLf`, but
a retired node may be enqueued again at once, while other calls still have pointers
to it. The head, the tail and the `next` pointers carry stamps, and a node keeps the
stamp of its `next` pointer when it is enqueued again.

`inside`, `order` and `deqs` are not read by the code: whether a node was given to
`vqueue_ub_enq` and not retired since, the appended nodes with their data, and the
data of the successful dequeues.
-/

namespace Libvsync.Queue.UnboundedLfRecycle

open Libvsync.Core Function
open Libvsync.Atomic

/-- Where a call stands: the next atomic operation, with the local variables. -/
inductive Pc (Node Data : Type) where
  | idle
  | enqData (qnode : Node) (data : Data)
  | enqStamp (qnode : Node) (data : Data)
  | enqNull (qnode : Node) (data : Data) (stamp : BitVec 7)
  | enqTail (qnode : Node) (data : Data)
  | enqNext (qnode : Node) (data : Data) (last : Stamped Node)
  | enqCheck (qnode : Node) (data : Data) (last : Stamped Node) (next : Stamped (Option Node))
  | enqCas (qnode : Node) (data : Data) (last : Stamped Node) (next : Stamped (Option Node))
  | enqSwing (qnode : Node) (data : Data) (last : Stamped Node)
  | enqHelp (qnode : Node) (data : Data) (last : Stamped Node) (next : Node)
  | deqHead
  | deqTail (first : Stamped Node)
  | deqNext (first last : Stamped Node)
  | deqCheck (first last : Stamped Node) (next : Option Node)
  | deqHelp (last : Stamped Node) (next : Node)
  | deqData (first : Stamped Node) (next : Option Node)
  | deqCas (first : Stamped Node) (next : Node) (data : Data)
  | deqRetire (first : Node) (data : Data)
  | deqRet (data : Option Data)
  deriving DecidableEq

structure State (Tid Node Data : Type) where
  head : Stamped Node
  tail : Stamped Node
  next : Node → Stamped (Option Node)
  data : Node → Data
  pc : Tid → Pc Node Data
  inside : Node → Bool
  order : List (Node × Data)
  deqs : List Data

inductive Act (Tid Node Data : Type) where
  | enq (t : Tid) (qnode : Node) (data : Data)
  | deq (t : Tid)
  | step (t : Tid)

def Act.thread {Tid Node Data : Type} : Act Tid Node Data → Tid
  | .enq t _ _ | .deq t | .step t => t

variable {Tid Node Data : Type} [DecidableEq Tid] [DecidableEq Node]

def State.goto (s : State Tid Node Data) (t : Tid) (pc : Pc Node Data) : State Tid Node Data :=
  { s with pc := update s.pc t pc }

/-- The compare-and-swap on the tail, whose result nobody looks at. -/
def State.swing (s : State Tid Node Data) (last : Stamped Node) (next : Node) :
    State Tid Node Data :=
  match s.tail.cmpxchg last.pointer last.stamp next (last.stamp + 1) with
  | some tail => { s with tail := tail }
  | none => s

/-- The next atomic operation of thread `t`. -/
def nextStep (sentinel : Node) (s : State Tid Node Data) (t : Tid) :
    Option (State Tid Node Data) :=
  match s.pc t with
  | .idle => none
  | .enqData qnode data =>
    some ({ s with data := update s.data qnode data }.goto t (.enqStamp qnode data))
  | .enqStamp qnode data => some (s.goto t (.enqNull qnode data (s.next qnode).stamp))
  | .enqNull qnode data stamp =>
    some ({ s with next := update s.next qnode ((s.next qnode).set none stamp) }.goto t
      (.enqTail qnode data))
  | .enqTail qnode data => some (s.goto t (.enqNext qnode data s.tail))
  | .enqNext qnode data last => some (s.goto t (.enqCheck qnode data last (s.next last.pointer)))
  | .enqCheck qnode data last next =>
    if last.pointer = s.tail.pointer ∧ last.stamp = s.tail.stamp then
      match next.pointer with
      | none => some (s.goto t (.enqCas qnode data last next))
      | some next => some (s.goto t (.enqHelp qnode data last next))
    else some (s.goto t (.enqTail qnode data))
  | .enqCas qnode data last next =>
    match (s.next last.pointer).cmpxchg next.pointer next.stamp (some qnode) (next.stamp + 1) with
    | some word =>
      some ({ s with
        next := update s.next last.pointer word
        order := s.order ++ [(qnode, data)] }.goto t (.enqSwing qnode data last))
    | none => some (s.goto t (.enqTail qnode data))
  | .enqSwing qnode _ last => some ((s.swing last qnode).goto t .idle)
  | .enqHelp qnode data last next => some ((s.swing last next).goto t (.enqTail qnode data))
  | .deqHead => some (s.goto t (.deqTail s.head))
  | .deqTail first => some (s.goto t (.deqNext first s.tail))
  | .deqNext first last => some (s.goto t (.deqCheck first last (s.next first.pointer).pointer))
  | .deqCheck first last next =>
    if first.pointer = s.head.pointer ∧ s.head.stamp = first.stamp then
      if first.pointer = last.pointer then
        match next with
        | none => some (s.goto t (.deqRet none))
        | some next => some (s.goto t (.deqHelp last next))
      else some (s.goto t (.deqData first next))
    else some (s.goto t .deqHead)
  | .deqHelp last next => some ((s.swing last next).goto t .deqHead)
  -- the data of NULL cannot be read
  | .deqData _ none => none
  | .deqData first (some next) => some (s.goto t (.deqCas first next (s.data next)))
  | .deqCas first next data =>
    match s.head.cmpxchg first.pointer first.stamp next (first.stamp + 1) with
    | some head =>
      some ({ s with head := head, deqs := s.deqs ++ [data] }.goto t
        (if first.pointer = sentinel then .deqRet (some data)
          else .deqRetire first.pointer data))
    | none => some (s.goto t .deqHead)
  | .deqRetire first data =>
    some ({ s with inside := update s.inside first false }.goto t (.deqRet (some data)))
  | .deqRet _ => some (s.goto t .idle)

def step (sentinel : Node) (s : State Tid Node Data) :
    Act Tid Node Data → Option (State Tid Node Data)
  | .enq t qnode data =>
    match s.pc t with
    | .idle =>
      if qnode = sentinel ∨ s.inside qnode then none
      else some ({ s with inside := update s.inside qnode true }.goto t
        (.enqData qnode data))
    | _ => none
  | .deq t =>
    match s.pc t with
    | .idle => some (s.goto t .deqHead)
    | _ => none
  | .step t => nextStep sentinel s t

/-- `vqueue_ub_init`, with whatever the nodes hold. -/
def vqueueUbInit (sentinel : Node) (next : Node → Stamped (Option Node)) (data : Node → Data) :
    State Tid Node Data where
  head := ⟨sentinel, 0, 0⟩
  tail := ⟨sentinel, 0, 0⟩
  next := update next sentinel ⟨none, 0, 0⟩
  data := data
  pc := fun _ => .idle
  inside := fun _ => false
  order := []
  deqs := []

def machine (Tid Node Data : Type) [DecidableEq Tid] [DecidableEq Node] (sentinel : Node)
    (next : Node → Stamped (Option Node)) (data : Node → Data) :
    Machine (State Tid Node Data) (Act Tid Node Data) where
  start s := s = vqueueUbInit sentinel next data
  step := step sentinel

/-- A call that does a compare-and-swap finds a word that was changed fewer than 128 times since
the call read it first. -/
def Pc.FewAtCas (s : State Tid Node Data) : Pc Node Data → Prop
  | .enqCas _ _ last next => (s.next last.pointer).changes < next.changes + 128
  | .enqSwing _ _ last | .enqHelp _ _ last _ | .deqHelp last _ =>
    s.tail.changes < last.changes + 128
  | .deqCas first _ _ => s.head.changes < first.changes + 128
  | _ => True

/-- So does a dequeue that reads the head again and goes on to the data of the next node. -/
def Pc.FewChanges (s : State Tid Node Data) : Pc Node Data → Prop
  | .deqCheck first last _ =>
    s.head.pointer = first.pointer → s.head.stamp = first.stamp →
      first.pointer ≠ last.pointer → s.head.changes < first.changes + 128
  | pc => pc.FewAtCas s

def FewAtCas (s : State Tid Node Data) : Act Tid Node Data → Prop
  | .enq _ _ _ | .deq _ => True
  | .step t => (s.pc t).FewAtCas s

def FewChanges (s : State Tid Node Data) : Act Tid Node Data → Prop
  | .enq _ _ _ | .deq _ => True
  | .step t => (s.pc t).FewChanges s

instance (s : State Tid Node Data) (pc : Pc Node Data) : Decidable (pc.FewAtCas s) :=
  match pc with
  | .enqCas _ _ _ _ | .enqSwing _ _ _ | .enqHelp _ _ _ _ | .deqHelp _ _ | .deqCas _ _ _ =>
    inferInstanceAs (Decidable (_ < _))
  | .idle | .enqData _ _ | .enqStamp _ _ | .enqNull _ _ _ | .enqTail _ _ | .enqNext _ _ _
  | .enqCheck _ _ _ _ | .deqHead | .deqTail _ | .deqNext _ _ | .deqCheck _ _ _ | .deqData _ _
  | .deqRetire _ _ | .deqRet _ => .isTrue trivial

instance (s : State Tid Node Data) (pc : Pc Node Data) : Decidable (pc.FewChanges s) :=
  match pc with
  | .deqCheck _ _ _ => inferInstanceAs (Decidable (_ → _ → _ → _ < _))
  | .enqCas _ _ _ _ | .enqSwing _ _ _ | .enqHelp _ _ _ _ | .deqHelp _ _ | .deqCas _ _ _ =>
    inferInstanceAs (Decidable (_ < _))
  | .idle | .enqData _ _ | .enqStamp _ _ | .enqNull _ _ _ | .enqTail _ _ | .enqNext _ _ _
  | .enqCheck _ _ _ _ | .deqHead | .deqTail _ | .deqNext _ _ | .deqData _ _ | .deqRetire _ _
  | .deqRet _ => .isTrue trivial

instance (s : State Tid Node Data) (a : Act Tid Node Data) : Decidable (FewAtCas s a) :=
  match a with
  | .enq _ _ _ | .deq _ => .isTrue trivial
  | .step t => inferInstanceAs (Decidable ((s.pc t).FewAtCas s))

instance (s : State Tid Node Data) (a : Act Tid Node Data) : Decidable (FewChanges s a) :=
  match a with
  | .enq _ _ _ | .deq _ => .isTrue trivial
  | .step t => inferInstanceAs (Decidable ((s.pc t).FewChanges s))

end Libvsync.Queue.UnboundedLfRecycle
