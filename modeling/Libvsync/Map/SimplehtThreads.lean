import Libvsync.Core.Machine
import Libvsync.Core.RwLock
import Libvsync.Map.SimplehtMap

/-!
The hash table `simpleht` with any number of threads. One step of a thread is one access to a
key slot, a value slot, the counter or the reader-writer lock. The lock is one that keeps
writers and readers apart; whether `_vsimpleht_give_cleanup_a_chance` finds that a writer has it
or waits for it is open, so both answers are steps, and the assertions about the lock are left
out. The cleanup has the write lock and is one step. A thread whose assertion fails stops.
-/

namespace Libvsync.Map.SimplehtThreads

open Libvsync.Core Libvsync.Map.Simpleht Function

/-- Where a thread stands, with the arguments and the local variables of its call. The value
of a removal is the one it took out. -/
inductive Pc (Key Value : Type) where
  | out
  | idle
  | chance (call : Call Key Value)
  | chanceRelease (call : Call Key Value)
  | chanceAcquire (call : Call Key Value)
  | getKey (key : Key) (index : Nat)
  | getValue (index : Nat)
  | addKey (key : Key) (value : Value) (cnt index : Nat)
  | addCas (key : Key) (value : Value) (cnt index : Nat)
  | addAssert (key : Key) (value : Value) (index : Nat)
  | addValue (key : Key) (value : Value) (index : Nat)
  | removeKey (key : Key) (index : Nat)
  | removeValue (key : Key) (index : Nat)
  | removeCas (key : Key) (index : Nat) (value : Value)
  | removeInc (key : Key) (value : Value)
  | cleanupRelease (key : Key) (value : Value)
  | cleanupAcquire (key : Key) (value : Value)
  | cleanup (key : Key) (value : Value)
  | cleanupDestroy (key : Key) (value : Value)
  | cleanupUnlock (key : Key)
  | cleanupReacquire (key : Key)

inductive Kind where
  | added
  | removed
  deriving DecidableEq

/-- A call that returns `VSIMPLEHT_RET_OK`. -/
structure Effect (Tid Key : Type) where
  thread : Tid
  kind : Kind
  key : Key
  deriving DecidableEq

/-- `result` is what the last call of a thread returned, until its next one begins. `effects`
are the additions and removals that took place and `returned` those that returned, newest
first; the code reads neither. -/
structure State (Tid Key Value : Type) where
  table : Table Key Value
  lock : Locks Unit Tid
  pc : Tid → Pc Key Value
  result : Tid → Option (Result Value)
  effects : List (Effect Tid Key)
  returned : List (Effect Tid Key)

inductive Act (Tid Key Value : Type) where
  | register (t : Tid)
  | deregister (t : Tid)
  | call (t : Tid) (call : Call Key Value)
  | chance (t : Tid) (writer : Bool)
  | step (t : Tid)

def Act.thread {Tid Key Value : Type} : Act Tid Key Value → Tid
  | .register t | .deregister t | .call t _ | .chance t _ | .step t => t

variable {Tid Key Value : Type} [DecidableEq Tid] [DecidableEq Value]

section Step

variable (c : Config Key) (s : State Tid Key Value) (t : Tid)

def State.goto (pc : Pc Key Value) : State Tid Key Value :=
  { s with pc := update s.pc t pc }

def State.setResult (result : Option (Result Value)) : State Tid Key Value :=
  { s with result := update s.result t result }

/-- The call returns. -/
def State.finish (result : Result Value) : State Tid Key Value :=
  (s.setResult t (some result)).goto t .idle

/-- `rwlock_read_acquire` and `rwlock_write_acquire`. -/
def State.acquire (reading : Bool) : Option (State Tid Key Value) :=
  (s.lock.acquire reading t ()).map fun lock => { s with lock := lock }

/-- `rwlock_read_release` and `rwlock_write_release`. -/
def State.release (reading : Bool) : State Tid Key Value :=
  { s with lock := s.lock.release reading t () }

/-- The first access of a call to the table. -/
def begin : Call Key Value → Pc Key Value
  | .add key value => .addKey key value 0 (c.hashKey key)
  | .get key => .getKey key (c.hashKey key)
  | .remove key => .removeKey key (c.mask (c.hashKey key))

/-- The loop of `_vsimpleht_add` continues. -/
def State.addNext (key : Key) (value : Value) (cnt index : Nat) : State Tid Key Value :=
  if cnt + 1 < c.capacity then s.goto t (.addKey key value (cnt + 1) (index + 1))
  else s.finish t (.ret .tblFull)

def nextStep : Option (State Tid Key Value) :=
  match s.pc t with
  | .out | .idle | .chance _ => none
  | .chanceRelease call => some ((s.release t true).goto t (.chanceAcquire call))
  | .chanceAcquire call => (s.acquire t true).map fun s => s.goto t (begin c call)
  | .getKey key index =>
    let index := c.mask index
    match s.table.keys index with
    | none => some (s.finish t (.value none))
    | some probedKey =>
      if c.cmpKey key probedKey = 0 then some (s.goto t (.getValue index))
      else some (s.goto t (.getKey key (index + 1)))
  | .getValue index => some (s.finish t (.value (s.table.values index)))
  | .addKey key value cnt index =>
    let index := c.mask index
    match s.table.keys index with
    | none => some (s.goto t (.addCas key value cnt index))
    | some probedKey =>
      if c.cmpKey key probedKey ≠ 0 then some (s.addNext c t key value cnt index)
      else some (s.goto t (.addAssert key value index))
  | .addCas key value cnt index =>
    match s.table.keys index with
    | none =>
      let table := { s.table with keys := update s.table.keys index (some key) }
      some ({ s with table := table }.goto t (.addAssert key value index))
    | some probedKey =>
      if c.cmpKey key probedKey ≠ 0 then some (s.addNext c t key value cnt index)
      else some (s.goto t (.addAssert key value index))
  | .addAssert key value index =>
    match s.table.keys index with
    | none => none
    | some probedKey =>
      if c.cmpKey key probedKey = 0 then some (s.goto t (.addValue key value index)) else none
  | .addValue key value index =>
    match s.table.values index with
    | none =>
      let table := { s.table with values := update s.table.values index (some value) }
      let effect := ⟨t, .added, key⟩
      some ({ s with
        table := table
        effects := effect :: s.effects
        returned := effect :: s.returned }.finish t (.ret .ok))
    | some _ => some (s.finish t (.ret .keyExists))
  | .removeKey key index =>
    match s.table.keys index with
    | none => some (s.finish t (.ret .keyDne))
    | some probedKey =>
      if c.cmpKey key probedKey = 0 then some (s.goto t (.removeValue key index))
      else
        let index := c.mask (index + 1)
        if index ≠ c.hashKey key then some (s.goto t (.removeKey key index))
        else some (s.finish t (.ret .keyDne))
  | .removeValue key index =>
    match s.table.values index with
    | none => some (s.finish t (.ret .keyDne))
    | some value => some (s.goto t (.removeCas key index value))
  | .removeCas key index value =>
    if s.table.values index = some value then
      let table := { s.table with values := update s.table.values index none }
      some ({ s with
        table := table
        effects := ⟨t, .removed, key⟩ :: s.effects }.goto t (.removeInc key value))
    else some (s.finish t (.ret .keyDne))
  | .removeInc key value =>
    let table := { s.table with deletedCount := s.table.deletedCount + 1 }
    some ({ s with table := table }.goto t (.cleanupRelease key value))
  | .cleanupRelease key value => some ((s.release t true).goto t (.cleanupAcquire key value))
  | .cleanupAcquire key value =>
    (s.acquire t false).map fun s => s.goto t (.cleanup key value)
  | .cleanup key value =>
    match Simpleht.cleanup c s.table with
    | .ok table => some ({ s with table := table }.goto t (.cleanupDestroy key value))
    | .error _ => none
  | .cleanupDestroy key _ => some (s.goto t (.cleanupUnlock key))
  | .cleanupUnlock key => some ((s.release t false).goto t (.cleanupReacquire key))
  | .cleanupReacquire key =>
    (s.acquire t true).map fun s =>
      { s with returned := ⟨t, .removed, key⟩ :: s.returned }.finish t (.ret .ok)

def step : Act Tid Key Value → Option (State Tid Key Value)
  | .register t =>
    match s.pc t with
    | .out => (s.acquire t true).map fun s => s.goto t .idle
    | _ => none
  | .deregister t =>
    match s.pc t with
    | .idle => some (((s.release t true).setResult t none).goto t .out)
    | _ => none
  | .call t call =>
    match s.pc t with
    | .idle => some ((s.setResult t none).goto t (.chance call))
    | _ => none
  | .chance t writer =>
    match s.pc t with
    | .chance call =>
      if writer then some (s.goto t (.chanceRelease call)) else some (s.goto t (begin c call))
    | _ => none
  | .step t => nextStep c s t

end Step

/-- Every key is in one slot at most, and the slots that its search meets before have keys. -/
structure Probed (c : Config Key) (t : Table Key Value) : Prop where
  distinct : ∀ i j k, i < c.capacity → j < c.capacity → t.keys i = some k →
    t.keys j = some k → i = j
  path : ∀ d d' k, d < c.capacity → t.keys (c.slot k d) = some k → d' < d →
    t.keys (c.slot k d') ≠ none

/-- Any table that is `Probed`, with no thread registered. -/
structure Initial (c : Config Key) (s : State Tid Key Value) : Prop where
  table : Probed c s.table
  lock : s.lock = fun _ => Locks.free
  pc : s.pc = fun _ => .out
  result : s.result = fun _ => none
  effects : s.effects = []
  returned : s.returned = []

def machine (c : Config Key) : Machine (State Tid Key Value) (Act Tid Key Value) where
  start := Initial c
  step := step c

/-- The cleanup does not restructure the table. -/
def Settled (c : Config Key) (s : State Tid Key Value) (a : Act Tid Key Value) : Prop :=
  ∀ t key value, a = .step t → s.pc t = .cleanup key value →
    s.table.deletedCount < c.cleaningThreshold

end Libvsync.Map.SimplehtThreads
