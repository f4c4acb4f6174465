import Libvsync.Core.Machine

/-!
The hierarchical CLH lock. A thread puts its qnode into the local queue of its cluster
and waits for the state of the qnode in front of it. The first thread of a local queue
is the cluster master: it splices the whole local queue onto the global queue and marks
the last qnode of it, so that the next thread of the cluster becomes a master in turn.
On release a thread gives its qnode up and takes the one in front of it, with a new
state. The local tails are never reset, so they point to qnodes that other threads use.

`uses` is not read by the code: it counts how often a qnode was taken over.
-/

namespace Libvsync.Spinlock.Hclhlock

open Libvsync.Core Function

/-- The three fields of a state word. -/
structure QState where
  tws : Bool
  smw : Bool
  cluster : Nat
  deriving DecidableEq

/-- `_hclh_lock_get_default_state` -/
def hclhLockGetDefaultState (cluster : Nat) : QState := ⟨false, true, cluster⟩

/-- The `required_state` of `_hclh_await_grant_or_cluster_master`. -/
def requiredState (cluster : Nat) : QState :=
  { hclhLockGetDefaultState cluster with smw := false }

/-- Where a call stands: the next atomic operation, with the local variables. `use` is
how often `pred` had been taken over when the thread put itself behind it. -/
inductive Pc (Node : Type) where
  | idle
  | acqState
  | acqLocal (cluster : Nat) (pred : Option Node)
  | acqPoll (cluster : Nat) (pred : Node) (use : Nat)
  | acqPollNe (cluster : Nat) (pred : Node) (use : Nat) (cur : QState)
  | acqTail (cluster : Nat) (pred : Option Node)
  | acqGlobal (cluster : Nat) (expTail localTail : Option Node)
  | twsRead (pred localTail : Option Node)
  | twsWrite (pred localTail : Option Node) (succState : QState)
  | masterPoll (pred : Option Node)
  | masterPollNe (pred : Option Node) (cur : QState)
  | critical
  | relRead
  | relWrite (cur : QState)
  | hijackRead (cluster : Nat)
  | hijackCas (cluster : Nat) (exp : QState)
  deriving DecidableEq

structure State (Tid Node : Type) where
  localQueues : Nat → Option Node
  globalQueue : Option Node
  state : Node → QState
  pred : Tid → Option Node
  qnode : Tid → Node
  pc : Tid → Pc Node
  uses : Node → Nat

inductive Act (Tid : Type) where
  | acquire (t : Tid)
  | release (t : Tid)
  | step (t : Tid)

variable {Tid Node : Type} [DecidableEq Tid] [DecidableEq Node]

def State.goto (s : State Tid Node) (t : Tid) (pc : Pc Node) : State Tid Node :=
  { s with pc := update s.pc t pc }

def State.setState (s : State Tid Node) (n : Node) (state : QState) : State Tid Node :=
  { s with state := update s.state n state }

/-- `hclhlock_acquire` returns. -/
def State.enter (s : State Tid Node) (t : Tid) (pred : Option Node) : State Tid Node :=
  { s with pred := update s.pred t pred }.goto t .critical

/-- `_hclh_await_grant_or_cluster_master`, with the state `cur` just read. -/
def State.awaitGrantOrClusterMaster (s : State Tid Node) (t : Tid) (cluster : Nat) (pred : Node)
    (use : Nat) (cur : QState) : State Tid Node :=
  if cur = requiredState cluster then s.enter t (some pred)
  else if cur.cluster ≠ cluster ∨ cur.tws = true then s.goto t (.acqTail cluster none)
  else s.goto t (.acqPollNe cluster pred use cur)

/-- The loop at the end of `hclhlock_acquire`, with the state `cur` just read. -/
def State.awaitPred (s : State Tid Node) (t : Tid) (pred : Option Node) (cur : QState) :
    State Tid Node :=
  if cur.smw then s.goto t (.masterPollNe pred cur) else s.enter t pred

/-- The next atomic operation of thread `t`. NULL cannot be accessed. -/
def nextStep (s : State Tid Node) (t : Tid) : Option (State Tid Node) :=
  match s.pc t with
  | .idle | .critical => none
  | .acqState => some (s.goto t (.acqLocal (s.state (s.qnode t)).cluster none))
  | .acqLocal cluster expTail =>
    if s.localQueues cluster = expTail then
      some ({ s with
        localQueues := update s.localQueues cluster (some (s.qnode t)) }.goto t
          (match expTail with
          | some pred => .acqPoll cluster pred (s.uses pred)
          | none => .acqTail cluster none))
    else some (s.goto t (.acqLocal cluster (s.localQueues cluster)))
  | .acqPoll cluster pred use =>
    some (s.awaitGrantOrClusterMaster t cluster pred use (s.state pred))
  | .acqPollNe cluster pred use cur =>
    if s.state pred = cur then none
    else some (s.awaitGrantOrClusterMaster t cluster pred use (s.state pred))
  | .acqTail cluster pred => some (s.goto t (.acqGlobal cluster pred (s.localQueues cluster)))
  | .acqGlobal cluster expTail localTail =>
    if s.globalQueue = expTail then
      some ({ s with globalQueue := localTail }.goto t (.twsRead expTail localTail))
    else some (s.goto t (.acqTail cluster s.globalQueue))
  | .twsRead pred (some localTail) =>
    some (s.goto t (.twsWrite pred (some localTail) { s.state localTail with tws := true }))
  | .twsWrite pred (some localTail) succState =>
    some ((s.setState localTail succState).goto t (.masterPoll pred))
  | .masterPoll (some pred) => some (s.awaitPred t (some pred) (s.state pred))
  | .masterPollNe (some pred) cur =>
    if s.state pred = cur then none else some (s.awaitPred t (some pred) (s.state pred))
  | .twsRead _ none | .twsWrite _ none _ | .masterPoll none | .masterPollNe none _ => none
  | .relRead => some (s.goto t (.relWrite (s.state (s.qnode t))))
  | .relWrite cur =>
    some ((s.setState (s.qnode t) { cur with smw := false }).goto t (.hijackRead cur.cluster))
  | .hijackRead cluster =>
    match s.pred t with
    | some pred => some (s.goto t (.hijackCas cluster (s.state pred)))
    | none => none
  | .hijackCas cluster exp =>
    match s.pred t with
    | some pred =>
      if s.state pred = exp then
        some ({ s.setState pred (hclhLockGetDefaultState cluster) with
          qnode := update s.qnode t pred
          uses := update s.uses pred (s.uses pred + 1) }.goto t .idle)
      else some (s.goto t (.hijackCas cluster (s.state pred)))
    | none => none

def step (s : State Tid Node) : Act Tid → Option (State Tid Node)
  | .acquire t => if s.pc t = .idle then some (s.goto t .acqState) else none
  | .release t => if s.pc t = .critical then some (s.goto t .relRead) else none
  | .step t => nextStep s t

/-- `hclhlock_init`, and `hclhlock_init_tnode` for every thread with its qnode and its
cluster. The threads have different qnodes, and none of them has the initial one. The
other qnodes hold anything. -/
structure Initial (head : Node) (qnode : Tid → Node) (cluster : Tid → Nat)
    (s : State Tid Node) : Prop where
  injective : Function.Injective qnode
  notHead : ∀ t, qnode t ≠ head
  localQueues : s.localQueues = fun _ => none
  globalQueue : s.globalQueue = some head
  head : s.state head = ⟨false, false, 0⟩
  state : ∀ t, s.state (qnode t) = hclhLockGetDefaultState (cluster t)
  pred : s.pred = fun _ => none
  qnode : s.qnode = qnode
  pc : s.pc = fun _ => .idle
  uses : s.uses = fun _ => 0

def machine (Tid Node : Type) [DecidableEq Tid] [DecidableEq Node] (head : Node)
    (qnode : Tid → Node) (cluster : Tid → Nat) : Machine (State Tid Node) (Act Tid) where
  start := Initial head qnode cluster
  step := step

end Libvsync.Spinlock.Hclhlock
