import Libvsync.Core.Machine
import Libvsync.Spinlock.HmcslockTree

/-!
The hierarchical MCS lock. The locks form a tree; a thread enqueues its node at a leaf, and
who is first at a lock enqueues the node that is embedded in this lock at the parent. A
release passes the lock, with all locks above it, to the next node of the same queue as long
as the threshold of the lock allows; else it releases the parent first and then asks the
next node to acquire the parent again.

The recursive calls of one acquire or release are numbered from the leaf: the call number
`k` works on the `k`-th lock above the leaf, with the node of the thread for `k = 0` and with
the node embedded in the lock below for `k > 0`, and its `depth` is `top - k`, where `top` is
`num_levels - 1`. The call number `top` is the one of `_hmcslock_one_acquire_real`, or of the
helper at the root.
-/

namespace Libvsync.Spinlock.Hmcslock

open Libvsync.Core Function

variable {Tid Lock : Type}

inductive Node (Tid Lock : Type) where
  | own (t : Tid)
  | inner (l : Lock)
  deriving DecidableEq

/-- `qnode` of the call number `k`. -/
def Tree.qnodeAt (T : Tree Lock) (t : Tid) (leaf : Lock) : Nat → Node Tid Lock
  | 0 => .own t
  | k + 1 => .inner (T.lockAt leaf k)

/-- The next atomic operation, with the number of the call it is in. The first group is
acquire, the second one `_hmcslock_release_real`, the third one `_hmcslock_release_helper`. -/
inductive Pc (Tid Lock : Type) where
  | idle
  | acqStatus (k : Nat)
  | acqNext (k : Nat)
  | acqXchg (k : Nat)
  | acqLink (k : Nat) (pred : Node Tid Lock)
  | acqAwait (k : Nat)
  | acqStart (k : Nat)
  | acqUnlocked
  | critical
  | relStatus (k : Nat)
  | relNext (k count : Nat)
  | relPass (k : Nat) (succ : Node Tid Lock) (count : Nat)
  | helpNext (k : Nat)
  | helpCas (k : Nat)
  | helpAwait (k : Nat)
  | helpPass (k : Nat) (succ : Node Tid Lock)
  deriving DecidableEq

/-- `leaf` is the lock of the current or last acquire of a thread. `line` is not read by the
code: it is the queue of a lock, from the node that is first to the one in `lock`. -/
structure State (Tid Lock : Type) where
  lock : Lock → Option (Node Tid Lock)
  next : Node Tid Lock → Option (Node Tid Lock)
  status : Node Tid Lock → Nat
  pc : Tid → Pc Tid Lock
  leaf : Tid → Lock
  line : Lock → List (Node Tid Lock)

inductive Act (Tid Lock : Type) where
  | acquire (t : Tid) (leaf : Lock)
  | release (t : Tid)
  | step (t : Tid)

/-- `HMCLOCK_UNLOCKED` and the other constants. -/
def unlocked : Nat := 0

def locked : Nat := 1

def cohortStart : Nat := 1

def acquireParent : Nat := 2 ^ 64 - 2

def wait : Nat := 2 ^ 64 - 1

/-- What a node is prepared with. -/
def waitStatus (top k : Nat) : Nat := if k = top then locked else wait

/-- What the helper writes into the next node. -/
def passStatus (top k : Nat) : Nat := if k = top then unlocked else acquireParent

variable [DecidableEq Tid] [DecidableEq Lock]

def State.goto (s : State Tid Lock) (t : Tid) (pc : Pc Tid Lock) : State Tid Lock :=
  { s with pc := update s.pc t pc }

def State.setStatus (s : State Tid Lock) (n : Node Tid Lock) (status : Nat) : State Tid Lock :=
  { s with status := update s.status n status }

def State.setNext (s : State Tid Lock) (n : Node Tid Lock) (next : Option (Node Tid Lock)) :
    State Tid Lock :=
  { s with next := update s.next n next }

/-- The node is put into the tail of the queue. -/
def State.join (s : State Tid Lock) (l : Lock) (n : Node Tid Lock) : State Tid Lock :=
  { s with
    lock := update s.lock l (some n)
    line := update s.line l (s.line l ++ [n]) }

/-- The first node of the queue leaves it. -/
def State.leave (s : State Tid Lock) (l : Lock) : State Tid Lock :=
  { s with line := update s.line l (s.line l).tail }

def State.lockOf (T : Tree Lock) (s : State Tid Lock) (t : Tid) (k : Nat) : Lock :=
  T.lockAt (s.leaf t) k

def State.qnodeOf (T : Tree Lock) (s : State Tid Lock) (t : Tid) (k : Nat) : Node Tid Lock :=
  T.qnodeAt t (s.leaf t) k

/-- Where the thread goes on when the release number `k` returns: the caller asks the next
node of its own queue to acquire the parent. -/
def returned : Nat → Pc Tid Lock
  | 0 => .idle
  | k + 1 => .helpNext k

/-- The release of the parent. -/
def releaseParent (top k : Nat) : Pc Tid Lock :=
  if k + 1 = top then .helpNext (k + 1) else .relStatus (k + 1)

/-- The next atomic operation of thread `t`. -/
def nextStep (T : Tree Lock) (top : Nat) (s : State Tid Lock) (t : Tid) :
    Option (State Tid Lock) :=
  match s.pc t with
  | .idle | .critical => none
  | .acqStatus k =>
    some ((s.setStatus (s.qnodeOf T t k) (waitStatus top k)).goto t (.acqNext k))
  | .acqNext k => some ((s.setNext (s.qnodeOf T t k) none).goto t (.acqXchg k))
  | .acqXchg k =>
    match s.lock (s.lockOf T t k) with
    | none =>
      some ((s.join (s.lockOf T t k) (s.qnodeOf T t k)).goto t
        (if k = top then .acqUnlocked else .acqStart k))
    | some pred =>
      some ((s.join (s.lockOf T t k) (s.qnodeOf T t k)).goto t (.acqLink k pred))
  | .acqLink k pred => some ((s.setNext pred (some (s.qnodeOf T t k))).goto t (.acqAwait k))
  | .acqAwait k =>
    if s.status (s.qnodeOf T t k) = waitStatus top k then none
    else if k = top ∨ s.status (s.qnodeOf T t k) < acquireParent then some (s.goto t .critical)
    else some (s.goto t (.acqStart k))
  | .acqStart k =>
    if T.parent (s.lockOf T t k) = none then none
    else some ((s.setStatus (s.qnodeOf T t k) cohortStart).goto t (.acqStatus (k + 1)))
  | .acqUnlocked => some ((s.setStatus (s.qnodeOf T t top) unlocked).goto t .critical)
  | .relStatus k =>
    if s.status (s.qnodeOf T t k) < T.threshold (s.lockOf T t k) then
      some (s.goto t (.relNext k (s.status (s.qnodeOf T t k))))
    else some (s.goto t (releaseParent top k))
  | .relNext k count =>
    match s.next (s.qnodeOf T t k) with
    | some succ => some (s.goto t (.relPass k succ count))
    | none => some (s.goto t (releaseParent top k))
  | .relPass k succ count =>
    some (((s.setStatus succ (wadd 64 count 1)).leave (s.lockOf T t k)).goto t (returned k))
  | .helpNext k =>
    match s.next (s.qnodeOf T t k) with
    | some succ => some (s.goto t (.helpPass k succ))
    | none => some (s.goto t (.helpCas k))
  | .helpCas k =>
    if s.lock (s.lockOf T t k) = some (s.qnodeOf T t k) then
      some (({ s with lock := update s.lock (s.lockOf T t k) none }.leave
        (s.lockOf T t k)).goto t (returned k))
    else some (s.goto t (.helpAwait k))
  | .helpAwait k =>
    match s.next (s.qnodeOf T t k) with
    | some succ => some (s.goto t (.helpPass k succ))
    | none => none
  | .helpPass k succ =>
    some (((s.setStatus succ (passStatus top k)).leave (s.lockOf T t k)).goto t (returned k))

def step (T : Tree Lock) (top : Nat) (s : State Tid Lock) :
    Act Tid Lock → Option (State Tid Lock)
  | .acquire t leaf =>
    if s.pc t = .idle ∧ T.isLeaf leaf = true then
      some ({ s with leaf := update s.leaf t leaf }.goto t (.acqStatus 0))
    else none
  | .release t => if s.pc t = .critical then some (s.goto t (.relStatus 0)) else none
  | .step t => nextStep T top s t

/-- The nodes are not initialized. -/
structure Initial (s : State Tid Lock) : Prop where
  lock : s.lock = fun _ => none
  pc : s.pc = fun _ => .idle
  line : s.line = fun _ => []

def machine (Tid : Type) {Lock : Type} [DecidableEq Tid] [DecidableEq Lock] (T : Tree Lock)
    (top : Nat) : Machine (State Tid Lock) (Act Tid Lock) where
  start := Initial
  step := step T top

end Libvsync.Spinlock.Hmcslock
