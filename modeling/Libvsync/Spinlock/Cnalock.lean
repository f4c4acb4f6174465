import Libvsync.Core.Machine
import Mathlib.Algebra.Group.Nat.Defs

/-!
The compact NUMA-aware lock. The waiting threads form a queue that is linked by
`next`, as in an MCS lock. On release a thread looks for a successor of its own NUMA
node and moves the threads in front of it to a secondary queue, which is circular and
is recorded by the `spin` of the holder as a pointer to its last thread. The secondary
queue goes from holder to holder until it is put in front of the main queue again.

Every thread has one node, so nodes are named by their threads.
-/

namespace Libvsync.Spinlock.Cnalock

open Libvsync.Core Function

/-- A value of `spin`: NULL, the number 1, or a pointer. -/
inductive Spin (Tid : Type) where
  | null
  | one
  | node (n : Tid)
  deriving DecidableEq

/-- `CNALOCK_NODE_UNSET` -/
def nodeUnset : Nat := 2 ^ 32 - 1

/-- Where a call stands: the next atomic operation, with the local variables. The
operations `fs…` are those of `_cnalock_find_successor`, where `next` is the variable
of `cnalock_release` and `first` the variable `next` of `_cnalock_find_successor`. -/
inductive Pc (Tid : Type) where
  | idle
  | acqSpin (numa : Nat)
  | acqNext (numa : Nat)
  | acqNode (numa : Nat)
  | acqXchg (numa : Nat)
  | acqFirst
  | acqNuma (numa : Nat) (tail : Tid)
  | acqLink (tail : Tid)
  | acqAwait
  | critical
  | relNext (numa : Nat)
  | relSpin (numa : Nat) (next : Option Tid)
  | relCasNull (numa : Nat)
  | relSecOpen (numa : Nat) (secTail : Tid)
  | relCasSec (numa : Nat) (secTail : Tid) (secHead : Option Tid)
  | relSecClose (numa : Nat) (secTail : Tid) (secHead : Option Tid)
  | relAwaitNext (numa : Nat) (spin : Spin Tid)
  | relKeep (numa : Nat) (next : Tid) (spin : Spin Tid)
  | fsNext (numa : Nat) (next : Tid)
  | fsNode (numa : Nat) (next : Tid) (first : Option Tid)
  | fsTest (next : Tid) (myNode : Nat) (first secTail cur : Tid)
  | fsAdvance (next : Tid) (myNode : Nat) (first cur : Tid)
  | fsSpin (next first secTail cur : Tid)
  | fsXchg (next first secTail cur spin : Tid)
  | fsLink (next : Tid) (secHead : Option Tid) (secTail cur : Tid)
  | fsSetSpin (next secTail cur : Tid)
  | relReread (next : Tid) (succ : Option Tid)
  | relSplice (next spin : Tid)
  | relGrant (succ : Option Tid) (value : Spin Tid)
  deriving DecidableEq

structure State (Tid : Type) where
  tail : Option Tid
  spin : Tid → Spin Tid
  next : Tid → Option Tid
  node : Tid → Nat
  pc : Tid → Pc Tid

/-- `keep` is the step in which `_cnalock_keep_lock_local` returns `keepLock`. -/
inductive Act (Tid : Type) where
  | acquire (t : Tid) (numa : Nat)
  | release (t : Tid) (numa : Nat)
  | keep (t : Tid) (keepLock : Bool)
  | step (t : Tid)

variable {Tid : Type} [DecidableEq Tid]

def State.goto (s : State Tid) (t : Tid) (pc : Pc Tid) : State Tid :=
  { s with pc := update s.pc t pc }

def State.setSpin (s : State Tid) (t : Tid) (spin : Spin Tid) : State Tid :=
  { s with spin := update s.spin t spin }

def State.setNext (s : State Tid) (t : Tid) (next : Option Tid) : State Tid :=
  { s with next := update s.next t next }

def State.setNode (s : State Tid) (t : Tid) (node : Nat) : State Tid :=
  { s with node := update s.node t node }

/-- What `cnalock_release` does once it has the final value of `succ` or knows that
there is none. -/
def handOver (next : Tid) (spin : Spin Tid) : Option Tid → Pc Tid
  | some succ => .relGrant (some succ) spin
  | none =>
    match spin with
    | .node n => .relSplice next n
    | .null | .one => .relGrant (some next) .one

/-- The next atomic operation of thread `t`. -/
def nextStep (s : State Tid) (t : Tid) : Option (State Tid) :=
  match s.pc t with
  | .idle | .critical | .relKeep _ _ _ => none
  | .acqSpin numa => some ((s.setSpin t .null).goto t (.acqNext numa))
  | .acqNext numa => some ((s.setNext t none).goto t (.acqNode numa))
  | .acqNode numa => some ((s.setNode t nodeUnset).goto t (.acqXchg numa))
  | .acqXchg numa =>
    match s.tail with
    | none => some ({ s with tail := some t }.goto t .acqFirst)
    | some tail => some ({ s with tail := some t }.goto t (.acqNuma numa tail))
  | .acqFirst => some ((s.setSpin t .one).goto t .critical)
  | .acqNuma numa tail => some ((s.setNode t numa).goto t (.acqLink tail))
  | .acqLink tail => some ((s.setNext tail (some t)).goto t .acqAwait)
  | .acqAwait => if s.spin t = .null then none else some (s.goto t .critical)
  | .relNext numa => some (s.goto t (.relSpin numa (s.next t)))
  | .relSpin numa (some next) => some (s.goto t (.relKeep numa next (s.spin t)))
  | .relSpin numa none =>
    match s.spin t with
    | .one => some (s.goto t (.relCasNull numa))
    | .node secTail => some (s.goto t (.relSecOpen numa secTail))
    -- the next pointer of NULL cannot be accessed
    | .null => none
  | .relCasNull numa =>
    if s.tail = some t then some ({ s with tail := none }.goto t .idle)
    else some (s.goto t (.relAwaitNext numa .one))
  | .relSecOpen numa secTail =>
    some ((s.setNext secTail none).goto t (.relCasSec numa secTail (s.next secTail)))
  | .relCasSec numa secTail secHead =>
    if s.tail = some t then
      some ({ s with tail := some secTail }.goto t (.relGrant secHead .one))
    else some (s.goto t (.relSecClose numa secTail secHead))
  | .relSecClose numa secTail secHead =>
    some ((s.setNext secTail secHead).goto t (.relAwaitNext numa (.node secTail)))
  | .relAwaitNext numa spin =>
    match s.next t with
    | some next => some (s.goto t (.relKeep numa next spin))
    | none => none
  | .fsNext numa next => some (s.goto t (.fsNode numa next (s.next t)))
  | .fsNode numa next first =>
    let myNode := if s.node t = nodeUnset then numa else s.node t
    match first with
    | some first => some (s.goto t (.fsTest next myNode first first first))
    | none => some (s.goto t (.relReread next none))
  | .fsTest next myNode first secTail cur =>
    if s.node cur = myNode then
      if cur = first then some (s.goto t (.relReread next (some first)))
      else some (s.goto t (.fsSpin next first secTail cur))
    else some (s.goto t (.fsAdvance next myNode first cur))
  | .fsAdvance next myNode first cur =>
    match s.next cur with
    | some cur' => some (s.goto t (.fsTest next myNode first cur cur'))
    | none => some (s.goto t (.relReread next none))
  | .fsSpin next first secTail cur =>
    match s.spin t with
    | .node spin => some (s.goto t (.fsXchg next first secTail cur spin))
    | .null | .one => some (s.goto t (.fsLink next (some first) secTail cur))
  | .fsXchg next first secTail cur spin =>
    some ((s.setNext spin (some first)).goto t (.fsLink next (s.next spin) secTail cur))
  | .fsLink next secHead secTail cur =>
    some ((s.setNext secTail secHead).goto t (.fsSetSpin next secTail cur))
  | .fsSetSpin next secTail cur =>
    some ((s.setSpin t (.node secTail)).goto t (.relReread next (some cur)))
  | .relReread next succ => some (s.goto t (handOver next (s.spin t) succ))
  | .relSplice next spin =>
    some ((s.setNext spin (some next)).goto t (.relGrant (s.next spin) .one))
  | .relGrant (some succ) value => some ((s.setSpin succ value).goto t .idle)
  -- nor can the spin of NULL
  | .relGrant none _ => none

def step (s : State Tid) : Act Tid → Option (State Tid)
  | .acquire t numa => if s.pc t = .idle then some (s.goto t (.acqSpin numa)) else none
  | .release t numa => if s.pc t = .critical then some (s.goto t (.relNext numa)) else none
  | .keep t keepLock =>
    match s.pc t with
    | .relKeep numa next spin =>
      if keepLock then some (s.goto t (.fsNext numa next))
      else some (s.goto t (handOver next spin none))
    | _ => none
  | .step t => nextStep s t

/-- `cnalock_init`, with whatever the nodes hold. -/
def cnalockInit (spin : Tid → Spin Tid) (next : Tid → Option Tid) (node : Tid → Nat) :
    State Tid where
  tail := none
  spin := spin
  next := next
  node := node
  pc := fun _ => .idle

def machine (Tid : Type) [DecidableEq Tid] (spin : Tid → Spin Tid) (next : Tid → Option Tid)
    (node : Tid → Nat) : Machine (State Tid) (Act Tid) where
  start s := s = cnalockInit spin next node
  step := step

end Libvsync.Spinlock.Cnalock
