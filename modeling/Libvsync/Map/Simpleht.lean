import Libvsync.Core.Object
import Libvsync.Core.Ring

/-!
The hash table `simpleht` with one caller at a time: linear probing in an array
whose length is a power of two, logical removal that leaves the key in its
slot, and a cleanup that resettles the entries in place. An empty key slot is
`none`, as is a value slot that holds NULL. The reader lock is held by the one
registered thread and is left out; so are the tests that the caller passes no
null key and no null value.
-/

namespace Libvsync.Map.Simpleht

open Libvsync.Core Function

/-- `vsimpleht_ret_t`. -/
inductive Ret where
  | ok
  | tblFull
  | keyExists
  | keyDne
  deriving DecidableEq, Repr

/-- The fixed part of `vsimpleht_t`: the capacity `2 ^ order` and the callbacks. -/
structure Config (Key : Type) where
  order : Nat
  hashKey : Key → Nat
  cmpKey : Key → Key → Int
  cmp_zero : ∀ a b, cmpKey a b = 0 ↔ a = b

/-- Numbers are compared by their difference. -/
theorem diff_zero (a b : Nat) : (a : Int) - b = 0 ↔ a = b := by
  omega

structure Table (Key Value : Type) where
  keys : Nat → Option Key
  values : Nat → Option Value
  deletedCount : Nat

variable {Key Value : Type}

def Config.capacity (c : Config Key) : Nat := 2 ^ c.order

/-- `VSIMPLEHT_RELATIVE_THRESHOLD` is 4. -/
def Config.cleaningThreshold (c : Config Key) : Nat := c.capacity / 4

def Config.mask (c : Config Key) (index : Nat) : Nat := index &&& (c.capacity - 1)

def vsimplehtInit : Table Key Value where
  keys := fun _ => none
  values := fun _ => none
  deletedCount := 0

/-- The loop of `vsimpleht_get`, which has no bound of its own. -/
def getLoop (c : Config Key) (t : Table Key Value) (key : Key) :
    Nat → Nat → Option (Option Value)
  | 0, _ => none
  | fuel + 1, index =>
    let index := c.mask index
    match t.keys index with
    | none => some none
    | some probedKey =>
      if c.cmpKey key probedKey = 0 then some (t.values index)
      else getLoop c t key fuel (index + 1)

/-- A search that has come around once without an end never ends, since
nothing changes meanwhile. -/
def vsimplehtGet (c : Config Key) (t : Table Key Value) (key : Key) :
    Except Fault (Option Value) :=
  match getLoop c t key c.capacity (c.hashKey key) with
  | some value => .ok value
  | none => .error .blocked

/-- The end of `_vsimpleht_add`, at a slot that has the key: the compare-and-swap
of the value. -/
def settle (c : Config Key) (t : Table Key Value) (key : Key) (value : Value) (index : Nat) :
    Except Fault (Table Key Value × Ret) := do
  check (∀ stored ∈ t.keys index, c.cmpKey key stored = 0) "tbl->cmp_key(key, ...) == 0"
  match t.values index with
  | none => return ({ t with values := update t.values index (some value) }, .ok)
  | some _ => return (t, .keyExists)

/-- The loop of `_vsimpleht_add`. -/
def addLoop (c : Config Key) (t : Table Key Value) (key : Key) (value : Value) :
    Nat → Nat → Except Fault (Table Key Value × Ret)
  | 0, _ => .ok (t, .tblFull)
  | cnt + 1, index =>
    let index := c.mask index
    match t.keys index with
    | none =>
      settle c { t with keys := update t.keys index (some key) } key value index
    | some probedKey =>
      if c.cmpKey key probedKey ≠ 0 then addLoop c t key value cnt (index + 1)
      else settle c t key value index

def vsimplehtAdd (c : Config Key) (t : Table Key Value) (key : Key) (value : Value) :
    Except Fault (Table Key Value × Ret) :=
  addLoop c t key value c.capacity (c.hashKey key)

/-- The search for the beginning of a bucket in `_vsimpleht_cleanup`. -/
def startIndex (c : Config Key) (t : Table Key Value) : Nat :=
  ((List.range c.capacity).find? fun e => (t.keys e).isNone).getD (c.capacity - 1)

/-- One round of the second loop of `_vsimpleht_cleanup`. -/
def cleanStep (c : Config Key) (t : Table Key Value) (i : Nat) :
    Except Fault (Table Key Value) :=
  match t.keys i, t.values i with
  | some key, some value => do
      let (t', ret) ← vsimplehtAdd c t key value
      let t' := if ret = .ok then
          { t' with
            keys := update t'.keys i none
            values := update t'.values i none }
        else t'
      check (ret ≠ .tblFull)
        "since we are inserting what is already in the table, this should never happen"
      return t'
  | some _, none => return { t with keys := update t.keys i none }
  | none, _ => return t

def cleanLoop (c : Config Key) (start : Nat) :
    Nat → Nat → Table Key Value → Except Fault (Table Key Value)
  | 0, _, t => .ok t
  | rest + 1, e, t => do
      let t ← cleanStep c t (c.mask (e + start))
      cleanLoop c start rest (e + 1) t

/-- `_vsimpleht_cleanup`. -/
def cleanup (c : Config Key) (t : Table Key Value) : Except Fault (Table Key Value) :=
  if t.deletedCount < c.cleaningThreshold then
    .ok t
  else do
    let t ← cleanLoop c (startIndex c t) c.capacity 0 t
    return { t with deletedCount := 0 }

/-- The loop of `vsimpleht_remove`: the masked index is compared with the
unmasked hash. -/
def removeLoop (c : Config Key) (t : Table Key Value) (key : Key) :
    Nat → Nat → Except Fault (Table Key Value × Ret)
  | 0, _ => .error .blocked
  | fuel + 1, index =>
    let next :=
      let index := c.mask (index + 1)
      if index ≠ c.hashKey key then removeLoop c t key fuel index else .ok (t, .keyDne)
    match t.keys index with
    | none => .ok (t, .keyDne)
    | some probedKey =>
      if c.cmpKey key probedKey = 0 then
        match t.values index with
        | none => .ok (t, .keyDne)
        | some _ => do
            let t ← cleanup c { t with
              values := update t.values index none
              deletedCount := t.deletedCount + 1 }
            return (t, .ok)
      else next

def vsimplehtRemove (c : Config Key) (t : Table Key Value) (key : Key) :
    Except Fault (Table Key Value × Ret) :=
  removeLoop c t key c.capacity (c.mask (c.hashKey key))

inductive Call (Key Value : Type) where
  | add (key : Key) (value : Value)
  | get (key : Key)
  | remove (key : Key)

inductive Result (Value : Type) where
  | ret (ret : Ret)
  | value (value : Option Value)
  deriving DecidableEq

def object (c : Config Key) : Object (Table Key Value) (Call Key Value) (Result Value)
  | t, .add key value => do
      let (t, ret) ← vsimplehtAdd c t key value
      return (t, .ret ret)
  | t, .get key => do
      let value ← vsimplehtGet c t key
      return (t, .value value)
  | t, .remove key => do
      let (t, ret) ← vsimplehtRemove c t key
      return (t, .ret ret)

end Libvsync.Map.Simpleht
