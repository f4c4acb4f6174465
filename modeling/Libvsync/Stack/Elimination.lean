import Libvsync.Utils.Exchanger

/-!
The elimination stack. A push or a pop tries the compare-and-swap on the top of
the core stack; when it fails the call goes to an exchanger slot, where a push
leaves its node to a pop. A push that meets a push and a pop that meets a pop try
again. The slot is picked by `rand_fun`, in the range of the policy.

`inside`, `pushed` and `returned` are not read by the code: whether a node was
pushed and not returned yet, and the nodes of all push calls and all returned
nodes. A node is pushed again only after it was returned.
-/

namespace Libvsync.Stack.Elimination

open Libvsync.Core Function
open Libvsync.Utils

/-- `VSTACK_XCHG_SLOTS_COUNT` and `VSTACK_XCHG_MAX_TRIALS`. -/
structure Config where
  slotsCount : Nat
  maxTrials : Nat
  slots : 1 ≤ slotsCount
  trials : maxTrials < 2 ^ 32

/-- Where a thread stands, with the range of its policy. -/
inductive Pc (Node : Type) where
  | idle
  | pushRead (node : Node) (range : Nat)
  | pushLink (node : Node) (range : Nat) (top : Option Node)
  | pushCas (node : Node) (range : Nat) (top : Option Node)
  | pushPick (node : Node) (range : Nat)
  | pushXchg (node : Node) (range slotIdx : Nat)
  | pushRet (node : Node)
  | popRead (range : Nat)
  | popNext (range : Nat) (top : Node)
  | popCas (range : Nat) (top : Node) (node : Option Node)
  | popPick (range : Nat)
  | popXchg (range slotIdx : Nat)
  | popRet (node : Option Node)
  | failed (message : String)
  deriving DecidableEq

structure State (Tid Node : Type) where
  top : Option Node
  next : Node → Option Node
  slots : Nat → Exchanger.State Tid Node
  pc : Tid → Pc Node
  inside : Node → Bool
  pushed : List Node
  returned : List Node

inductive Act (Tid Node : Type) where
  | push (t : Tid) (node : Node)
  | pop (t : Tid)
  | pick (t : Tid) (slotIdx : Nat)
  | step (t : Tid)

def Act.thread {Tid Node : Type} : Act Tid Node → Tid
  | .push t _ | .pop t | .pick t _ | .step t => t

variable {Tid Node : Type} [DecidableEq Tid] [DecidableEq Node]

def State.goto (s : State Tid Node) (t : Tid) (pc : Pc Node) : State Tid Node :=
  { s with pc := update s.pc t pc }

/-- `range_policy_record_fail`. -/
def rangePolicyRecordFail (range : Nat) : Nat := range - 1

/-- What follows the result of the exchange. -/
def pushXchged (node : Node) (range : Nat) : Bool → Option Node → Pc Node
  | true, none => .pushRet node
  | true, some _ => .pushRead node range
  | false, _ => .pushRead node (rangePolicyRecordFail range)

def popXchged (range : Nat) : Bool → Option Node → Pc Node
  | true, some node => .popRet (some node)
  | true, none => .popRead range
  | false, none => .popRead (rangePolicyRecordFail range)
  | false, some _ => .failed "!node"

/-- A step of `exchanger_xchg` in a slot; `after` is where the caller goes on
with the result. -/
def xchg (s : State Tid Node) (t : Tid) (slotIdx : Nat) (after : Bool → Option Node → Pc Node) :
    Option (State Tid Node) :=
  match (s.slots slotIdx).frame t with
  | none => none
  | some f =>
    match Exchanger.nextStep (s.slots slotIdx) t with
    | none => none
    | some x =>
      let s := { s with slots := update s.slots slotIdx x }
      match f.pc with
      | .ret success yourItem => some (s.goto t (after success yourItem))
      | _ => some s

/-- The next atomic operation of thread `t`. -/
def nextStep (s : State Tid Node) (t : Tid) : Option (State Tid Node) :=
  match s.pc t with
  | .idle | .failed _ | .pushPick _ _ | .popPick _ => none
  | .pushRead node range => some (s.goto t (.pushLink node range s.top))
  | .pushLink node range top =>
    some ({ s with next := update s.next node top }.goto t (.pushCas node range top))
  | .pushCas node range top =>
    if s.top = top then some ({ s with top := some node }.goto t (.pushRet node))
    else some (s.goto t (.pushPick node range))
  | .pushXchg node range slotIdx => xchg s t slotIdx (pushXchged node range)
  | .pushRet _ => some (s.goto t .idle)
  | .popRead range =>
    match s.top with
    | some top => some (s.goto t (.popNext range top))
    | none => some (s.goto t (.popRet none))
  | .popNext range top => some (s.goto t (.popCas range top (s.next top)))
  | .popCas range top node =>
    if s.top = some top then some ({ s with top := node }.goto t (.popRet (some top)))
    else some (s.goto t (.popPick range))
  | .popXchg range slotIdx => xchg s t slotIdx (popXchged range)
  | .popRet (some node) =>
    some ({ s with
      inside := update s.inside node false
      returned := node :: s.returned }.goto t .idle)
  | .popRet none => some (s.goto t .idle)

/-- `_vstack_rendezvous` picks a slot. -/
def rendezvous (c : Config) (s : State Tid Node) (t : Tid) (slotIdx range : Nat)
    (node : Option Node) (pc : Pc Node) : Option (State Tid Node) :=
  if slotIdx ≤ range then
    if slotIdx < c.slotsCount then
      match Exchanger.step (s.slots slotIdx) (.call t node c.maxTrials) with
      | none => none
      | some x => some ({ s with slots := update s.slots slotIdx x }.goto t pc)
    else some (s.goto t (.failed "slot_idx < VSTACK_XCHG_SLOTS_COUNT"))
  else none

def step (c : Config) (s : State Tid Node) : Act Tid Node → Option (State Tid Node)
  | .push t node =>
    match s.pc t with
    | .idle =>
      if s.inside node then none
      else some ({ s with
        inside := update s.inside node true
        pushed := node :: s.pushed }.goto t (.pushRead node (c.slotsCount - 1)))
    | _ => none
  | .pop t =>
    match s.pc t with
    | .idle => some (s.goto t (.popRead (c.slotsCount - 1)))
    | _ => none
  | .pick t slotIdx =>
    match s.pc t with
    | .pushPick node range =>
      rendezvous c s t slotIdx range (some node) (.pushXchg node range slotIdx)
    | .popPick range => rendezvous c s t slotIdx range none (.popXchg range slotIdx)
    | _ => none
  | .step t => nextStep s t

/-- `vstack_init`, with whatever the nodes hold. -/
def vstackInit (memory : Node → Option Node) : State Tid Node where
  top := none
  next := memory
  slots := fun _ => Exchanger.exchangerInit
  pc := fun _ => .idle
  inside := fun _ => false
  pushed := []
  returned := []

def machine (Tid Node : Type) [DecidableEq Tid] [DecidableEq Node] (c : Config)
    (memory : Node → Option Node) : Machine (State Tid Node) (Act Tid Node) where
  start s := s = vstackInit memory
  step := step c

/-- The node that a pop has seen on top of the core stack. -/
def Pc.seen : Pc Node → Option Node
  | .popNext _ top | .popCas _ top _ => some top
  | _ => none

/-- A node is not pushed again while a call that has seen it on the core stack is
in flight. -/
def NotSeen (s : State Tid Node) : Act Tid Node → Prop
  | .push _ node => ∀ u, (s.pc u).seen ≠ some node
  | _ => True

end Libvsync.Stack.Elimination
