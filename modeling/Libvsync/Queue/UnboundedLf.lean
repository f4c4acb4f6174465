import Libvsync.Core.Machine
import Mathlib.Data.List.Basic

/-!
The lock-free unbounded queue. An enqueue appends its node by a compare-and-swap
on the `next` pointer of the last node and then swings the tail; any thread that
finds the tail behind swings it. A dequeue moves the head to the next node, takes
the data of that node, and retires the old head.

`inside`, `order`, `deqs` and `retired` are not read by the code: whether a node
was given to `vqueue_ub_enq` and not retired since, the appended nodes with their
data, the data of the successful dequeues, and the retired nodes.
-/

namespace Libvsync.Queue.UnboundedLf

open Libvsync.Core Function

/-- Where a call stands: the next atomic operation, with the local variables. -/
inductive Pc (Node Data : Type) where
  | idle
  | enqData (qnode : Node) (data : Data)
  | enqNull (qnode : Node) (data : Data)
  | enqTail (qnode : Node) (data : Data)
  | enqNext (qnode : Node) (data : Data) (last : Node)
  | enqCheck (qnode : Node) (data : Data) (last : Node) (next : Option Node)
  | enqCas (qnode : Node) (data : Data) (last : Node)
  | enqSwing (qnode : Node) (data : Data) (last : Node)
  | enqHelp (qnode : Node) (data : Data) (last next : Node)
  | deqHead
  | deqTail (first : Node)
  | deqNext (first last : Node)
  | deqCheck (first last : Node) (next : Option Node)
  | deqHelp (last next : Node)
  | deqData (first next : Node)
  | deqCas (first next : Node) (data : Option Data)
  | deqRetire (first : Node) (data : Option Data)
  | deqRet (data : Option Data)
  | failed (message : String)
  deriving DecidableEq

structure State (Tid Node Data : Type) where
  head : Node
  tail : Node
  next : Node → Option Node
  data : Node → Option Data
  pc : Tid → Pc Node Data
  inside : Node → Bool
  order : List (Node × Data)
  deqs : List (Option Data)
  retired : List Node

inductive Act (Tid Node Data : Type) where
  | enq (t : Tid) (qnode : Node) (data : Data)
  | deq (t : Tid)
  | step (t : Tid)

def Act.thread {Tid Node Data : Type} : Act Tid Node Data → Tid
  | .enq t _ _ | .deq t | .step t => t

variable {Tid Node Data : Type} [DecidableEq Tid] [DecidableEq Node]

def State.goto (s : State Tid Node Data) (t : Tid) (pc : Pc Node Data) : State Tid Node Data :=
  { s with pc := update s.pc t pc }

/-- The compare-and-swap on the tail, whose result nobody looks at. -/
def State.swing (s : State Tid Node Data) (last next : Node) : State Tid Node Data :=
  if s.tail = last then { s with tail := next } else s

/-- The next atomic operation of thread `t`. -/
def nextStep (sentinel : Node) (s : State Tid Node Data) (t : Tid) :
    Option (State Tid Node Data) :=
  match s.pc t with
  | .idle | .failed _ => none
  | .enqData qnode data =>
    some ({ s with data := update s.data qnode (some data) }.goto t (.enqNull qnode data))
  | .enqNull qnode data =>
    some ({ s with next := update s.next qnode none }.goto t (.enqTail qnode data))
  | .enqTail qnode data => some (s.goto t (.enqNext qnode data s.tail))
  | .enqNext qnode data last => some (s.goto t (.enqCheck qnode data last (s.next last)))
  | .enqCheck qnode data last next =>
    if s.tail = last then
      match next with
      | none => some (s.goto t (.enqCas qnode data last))
      | some next => some (s.goto t (.enqHelp qnode data last next))
    else some (s.goto t (.enqTail qnode data))
  | .enqCas qnode data last =>
    if s.next last = none then
      some ({ s with
        next := update s.next last (some qnode)
        order := s.order ++ [(qnode, data)] }.goto t (.enqSwing qnode data last))
    else some (s.goto t (.enqTail qnode data))
  | .enqSwing qnode _ last => some ((s.swing last qnode).goto t .idle)
  | .enqHelp qnode data last next => some ((s.swing last next).goto t (.enqTail qnode data))
  | .deqHead => some (s.goto t (.deqTail s.head))
  | .deqTail first => some (s.goto t (.deqNext first s.tail))
  | .deqNext first last => some (s.goto t (.deqCheck first last (s.next first)))
  | .deqCheck first last next =>
    if s.head = first then
      if first = last then
        match next with
        | none => some (s.goto t (.deqRet none))
        | some next => some (s.goto t (.deqHelp last next))
      else
        match next with
        | none =>
          some (s.goto t
            (.failed "next is not expected to be NULL, since the queue is not empty"))
        | some next => some (s.goto t (.deqData first next))
    else some (s.goto t .deqHead)
  | .deqHelp last next => some ((s.swing last next).goto t .deqHead)
  | .deqData first next => some (s.goto t (.deqCas first next (s.data next)))
  | .deqCas first next data =>
    if s.head = first then
      some ({ s with
        head := next
        deqs := s.deqs ++ [data] }.goto t
          (if first = sentinel then .deqRet data else .deqRetire first data))
    else some (s.goto t .deqHead)
  | .deqRetire first data =>
    some ({ s with
      inside := update s.inside first false
      retired := s.retired ++ [first] }.goto t (.deqRet data))
  | .deqRet _ => some (s.goto t .idle)

def step (sentinel : Node) (s : State Tid Node Data) :
    Act Tid Node Data → Option (State Tid Node Data)
  | .enq t qnode data =>
    match s.pc t with
    | .idle =>
      if qnode = sentinel ∨ s.inside qnode then none
      else some ({ s with inside := update s.inside qnode true }.goto t
        (.enqData qnode data))
    | _ => none
  | .deq t =>
    match s.pc t with
    | .idle => some (s.goto t .deqHead)
    | _ => none
  | .step t => nextStep sentinel s t

/-- `vqueue_ub_init`, with whatever the other nodes hold. -/
def vqueueUbInit (sentinel : Node) (next : Node → Option Node) (data : Node → Option Data) :
    State Tid Node Data where
  head := sentinel
  tail := sentinel
  next := update next sentinel none
  data := update data sentinel none
  pc := fun _ => .idle
  inside := fun _ => false
  order := []
  deqs := []
  retired := []

def machine (Tid Node Data : Type) [DecidableEq Tid] [DecidableEq Node] (sentinel : Node)
    (next : Node → Option Node) (data : Node → Option Data) :
    Machine (State Tid Node Data) (Act Tid Node Data) where
  start s := s = vqueueUbInit sentinel next data
  step := step sentinel

/-- The queue nodes that a call has a pointer to. -/
def Pc.sees : Pc Node Data → List Node
  | .enqNext _ _ last | .enqCas _ _ last => [last]
  | .enqCheck _ _ last next => last :: next.toList
  | .enqSwing qnode _ last => [qnode, last]
  | .enqHelp _ _ last next => [last, next]
  | .deqTail first => [first]
  | .deqNext first last => [first, last]
  | .deqCheck first last next => first :: last :: next.toList
  | .deqHelp last next => [last, next]
  | .deqData first next | .deqCas first next _ => [first, next]
  | .deqRetire first _ => [first]
  | _ => []

/-- A node is not enqueued again while a call in progress has a pointer to it. -/
def NotSeen (s : State Tid Node Data) : Act Tid Node Data → Prop
  | .enq _ qnode _ => ∀ u, qnode ∉ (s.pc u).sees
  | _ => True

end Libvsync.Queue.UnboundedLf
