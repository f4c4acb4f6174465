import Libvsync.Core.Machine
import Libvsync.Core.Word
import Mathlib.Data.List.Basic

/-!
Epoch-based reclamation. Every thread runs one call at a time, one atomic
operation per step: `vebr_register`, `vebr_deregister`, `vebr_enter`,
`vebr_exit`, `vebr_retire`, `vebr_recycle` and `vebr_sync`. The lock of the
thread list is the user's; it is taken to exclude other holders. A retired
list is kept as the list of nodes that its chain of `next` pointers visits.

The fields `depth`, `entry`, `epochOf`, `retired` and `destroyed` are not read
by the code: they record how deep a thread is in critical sections, the global
epoch at its last outermost entry, the epoch a node was retired in, whether a
node is retired and not yet destroyed, and the destructor calls. A `Dest` is a
destructor together with its argument. Calls follow the documented protocol:
only registered threads enter, `vebr_retire` is called inside a critical
section, and a node is retired at most once until its destructor has run.
-/

namespace Libvsync.Smr.Ebr

open Libvsync.Core Function

/-- `V_EBR_GET_EPOCH_IDX`. -/
def epochIdx (epoch : Nat) : Nat := epoch % 3

/-- `V_EBR_GET_PREV_EPOCH_IDX`. -/
def prevEpochIdx (epoch : Nat) : Nat := wadd 64 epoch 2 % 3

/-- `VUINT64_MAX`. -/
def uint64Max : Nat := 2 ^ 64 - 1

/-- The two callers of `_vebr_sync_epochs`, with what they need afterwards:
the detached list of `vebr_recycle`, or the target and the iteration count of
`vebr_sync`. -/
inductive Caller (Node : Type) where
  | recycle (head : List Node)
  | sync (targetEpoch i : Nat)
  deriving DecidableEq

inductive Pc (Tid Node Dest : Type) where
  | idle
  | registerLock
  | registerAdd
  | registerUnlock
  | deregisterLock
  | deregisterRem
  | deregisterUnlock
  | enterRead
  | enterWrite (glbEpoch : Nat)
  | exitWrite
  | retireRead (node : Node) (dest : Dest)
  | retireListRead (node : Node) (dest : Dest) (idx : Nat)
  | retireCas (node : Node) (idx : Nat) (cmp : Option Node)
  | recycleRead
  | recycleDetach (glbEpoch : Nat)
  | syncRead
  | epochsLock (epoch : Nat) (caller : Caller Node)
  | epochsRead (epoch : Nat) (rest : List Tid) (minEpoch : Nat) (caller : Caller Node)
  | epochsUnlock (epoch minEpoch : Nat) (caller : Caller Node)
  | advance (epoch : Nat) (caller : Caller Node)
  | recycleDestroy (rest : List Node) (count : Nat)
  | recycleRet (count : Nat)
  | syncRet
  | assertFailed (message : String)
  deriving DecidableEq

structure State (Tid Node Dest : Type) where
  epochGlobal : Nat
  retiredLst : Nat → List Node
  destOf : Node → Option Dest
  threads : List Tid
  lock : Option Tid
  epochLocal : Tid → Nat
  enterCount : Tid → Nat
  pc : Tid → Pc Tid Node Dest
  depth : Tid → Nat
  entry : Tid → Nat
  epochOf : Node → Nat
  retired : Node → Bool
  destroyed : List (Node × Option Dest)

inductive Act (Tid Node Dest : Type) where
  | register (t : Tid)
  | deregister (t : Tid)
  | enter (t : Tid)
  | exit (t : Tid)
  | retire (t : Tid) (node : Node) (dest : Dest)
  | recycle (t : Tid)
  | sync (t : Tid)
  | next (t : Tid)

variable {Tid Node Dest : Type} [DecidableEq Tid] [DecidableEq Node]

def State.goto (s : State Tid Node Dest) (t : Tid) (pc : Pc Tid Node Dest) : State Tid Node Dest :=
  { s with pc := update s.pc t pc }

def State.goIf (s : State Tid Node Dest) (t : Tid) (condition : Prop) [Decidable condition]
    (message : String) (pc : Pc Tid Node Dest) : State Tid Node Dest :=
  s.goto t (if condition then pc else .assertFailed message)

/-- The loop test of `vebr_sync`. -/
def State.syncLoop (s : State Tid Node Dest) (t : Tid) (curEpoch targetEpoch i : Nat) :
    State Tid Node Dest :=
  if curEpoch < targetEpoch then
    s.goto t (.epochsLock curEpoch (.sync targetEpoch i))
  else
    s.goIf t (i ≤ 2) "i <= 2" .syncRet

/-- What the caller of `_vebr_sync_epochs` does with its result. -/
def State.epochsReturn (s : State Tid Node Dest) (t : Tid) (epoch lclEpoch : Nat)
    (caller : Caller Node) : State Tid Node Dest :=
  match caller with
  | .recycle _ =>
    s.goIf t (lclEpoch = 0 ∨ epoch ≤ lclEpoch)
      "lcl_epoch == 0 || lcl_epoch >= glb_epoch" (.advance epoch caller)
  | .sync targetEpoch _ =>
    if lclEpoch = 0 ∨ targetEpoch ≤ lclEpoch then
      s.goto t .syncRet
    else
      s.goto t (.advance epoch caller)

/-- What follows the compare-and-swap on the global epoch, given the value it
returned. -/
def State.advanced (s : State Tid Node Dest) (t : Tid) (epoch retEpoch : Nat)
    (caller : Caller Node) : State Tid Node Dest :=
  match caller with
  | .recycle head =>
    s.goIf t (epoch ≤ retEpoch) "ret_epoch >= glb_epoch" (.recycleDestroy head 0)
  | .sync targetEpoch i =>
    s.syncLoop t (if retEpoch = epoch then wadd 64 epoch 1 else retEpoch)
      targetEpoch (i + 1)

/-- The next atomic step of thread `t`. -/
def nextStep (s : State Tid Node Dest) (t : Tid) : Option (State Tid Node Dest) :=
  match s.pc t with
  | .idle | .assertFailed _ => none
  | .registerLock =>
    if s.lock = none then some ({ s with lock := some t }.goto t .registerAdd) else none
  | .registerAdd => some ({ s with threads := t :: s.threads }.goto t .registerUnlock)
  | .registerUnlock => some ({ s with lock := none }.goto t .idle)
  | .deregisterLock =>
    if s.lock = none then some ({ s with lock := some t }.goto t .deregisterRem) else none
  | .deregisterRem =>
    some ({ s with threads := s.threads.erase t }.goto t .deregisterUnlock)
  | .deregisterUnlock => some ({ s with lock := none }.goto t .idle)
  | .enterRead => some (s.goto t (.enterWrite s.epochGlobal))
  | .enterWrite glbEpoch =>
    some ({ s with
      epochLocal := update s.epochLocal t glbEpoch
      depth := update s.depth t (s.depth t + 1)
      entry := update s.entry t s.epochGlobal }.goto t .idle)
  | .exitWrite =>
    some ({ s with
      epochLocal := update s.epochLocal t 0
      enterCount := update s.enterCount t (wsub 32 (s.enterCount t) 1)
      depth := update s.depth t (s.depth t - 1) }.goto t .idle)
  | .retireRead node dest =>
    some ({ s with
      epochOf := update s.epochOf node s.epochGlobal }.goto t
        (.retireListRead node dest (epochIdx s.epochGlobal)))
  | .retireListRead node dest idx =>
    some ({ s with destOf := update s.destOf node (some dest) }.goto t
      (.retireCas node idx (s.retiredLst idx).head?))
  | .retireCas node idx cmp =>
    if (s.retiredLst idx).head? = cmp then
      some ({ s with
        retiredLst :=
          update s.retiredLst idx (node :: s.retiredLst idx) }.goto t .idle)
    else
      some (s.goto t (.retireCas node idx (s.retiredLst idx).head?))
  | .recycleRead => some (s.goto t (.recycleDetach s.epochGlobal))
  | .recycleDetach glbEpoch =>
    let idx := prevEpochIdx glbEpoch
    some ({ s with retiredLst := update s.retiredLst idx [] }.goto t
      (.epochsLock glbEpoch (.recycle (s.retiredLst idx))))
  | .syncRead =>
    some (s.syncLoop t s.epochGlobal (wadd 64 s.epochGlobal 2) 0)
  | .epochsLock epoch caller =>
    if s.lock = none then
      some ({ s with lock := some t }.goto t (.epochsRead epoch s.threads uint64Max caller))
    else
      none
  | .epochsRead epoch [] minEpoch caller => some (s.goto t (.epochsUnlock epoch minEpoch caller))
  | .epochsRead epoch (thrd :: rest) minEpoch caller =>
    let lclEpoch := s.epochLocal thrd
    if lclEpoch = 0 then
      some (s.goto t (.epochsRead epoch rest minEpoch caller))
    else if epoch ≤ lclEpoch then
      some (s.goto t (.epochsRead epoch rest (min minEpoch lclEpoch) caller))
    else
      some s
  | .epochsUnlock epoch minEpoch caller =>
    some ({ s with lock := none }.epochsReturn t epoch
      (if minEpoch = uint64Max then 0 else minEpoch) caller)
  | .advance epoch caller =>
    if s.epochGlobal = epoch then
      some ({ s with epochGlobal := wadd 64 epoch 1 }.advanced t epoch epoch caller)
    else
      some (s.advanced t epoch s.epochGlobal caller)
  | .recycleDestroy [] count => some (s.goto t (.recycleRet count))
  | .recycleDestroy (node :: rest) count =>
    some ({ s with
      retired := update s.retired node false
      destroyed := s.destroyed ++ [(node, s.destOf node)] }.goto t
        (.recycleDestroy rest (count + 1)))
  | .recycleRet _ => some (s.goto t .idle)
  | .syncRet => some (s.goto t .idle)

/-- The beginning of a call by an idle thread. -/
def beginCall (s : State Tid Node Dest) (t : Tid) : Act Tid Node Dest → Option (State Tid Node Dest)
  | .register _ =>
    if t ∈ s.threads then none
    else some ({ s with
      epochLocal := update s.epochLocal t 0
      enterCount := update s.enterCount t 0 }.goto t .registerLock)
  | .deregister _ =>
    if t ∈ s.threads ∧ s.depth t = 0 then
      some (s.goIf t (s.epochLocal t = 0) "epoch_local == 0" .deregisterLock)
    else
      none
  | .enter _ =>
    if t ∈ s.threads then
      let count := wadd 32 (s.enterCount t) 1
      let s := { s with enterCount := update s.enterCount t count }
      if count = 1 then
        some (s.goto t .enterRead)
      else
        some { s with depth := update s.depth t (s.depth t + 1) }
    else
      none
  | .exit _ =>
    if s.depth t = 0 then none
    else if s.enterCount t = 0 then
      some (s.goto t (.assertFailed "ebr_thrd->enter_count"))
    else if s.enterCount t = 1 then
      some (s.goto t .exitWrite)
    else
      some { s with
        enterCount := update s.enterCount t (wsub 32 (s.enterCount t) 1)
        depth := update s.depth t (s.depth t - 1) }
  | .retire _ node dest =>
    if s.depth t = 0 ∨ s.retired node = true then none
    else some ({ s with
      retired := update s.retired node true }.goto t (.retireRead node dest))
  | .recycle _ => some (s.goto t .recycleRead)
  | .sync _ => some (s.goto t .syncRead)
  | .next _ => none

def Act.thread : Act Tid Node Dest → Tid
  | .register t | .deregister t | .enter t | .exit t | .retire t _ _ | .recycle t
  | .sync t | .next t => t

def step (s : State Tid Node Dest) : Act Tid Node Dest → Option (State Tid Node Dest)
  | .next t => nextStep s t
  | a =>
    match s.pc a.thread with
    | .idle => beginCall s a.thread a
    | _ => none

/-- `vebr_init`. -/
def vebrInit : State Tid Node Dest where
  epochGlobal := 1
  retiredLst := fun _ => []
  destOf := fun _ => none
  threads := []
  lock := none
  epochLocal := fun _ => 0
  enterCount := fun _ => 0
  pc := fun _ => .idle
  depth := fun _ => 0
  entry := fun _ => 0
  epochOf := fun _ => 0
  retired := fun _ => false
  destroyed := []

def machine (Tid Node Dest : Type) [DecidableEq Tid] [DecidableEq Node] :
    Machine (State Tid Node Dest) (Act Tid Node Dest) where
  start s := s = vebrInit
  step := step

/-- Thread `t` has completed an outermost `vebr_enter` and not yet written 0
in the matching `vebr_exit`. -/
def Inside (t : Tid) (s : State Tid Node Dest) : Prop := 0 < s.depth t

end Libvsync.Smr.Ebr
