import Libvsync.Core.HeapOrder

/-!
The heap-based priority queue, used by one thread. A call that would wait for a lock, that fails
an assertion or that spins for ever has no result. With one thread the recursive locks are a list
of the indices that are held; a lock is only taken while no lock behind it is held, which the
library asserts in its tests.

`data` is the address of an object, so it is never NULL.
-/

namespace Libvsync.Queue.PrioHeap

open Libvsync.Core.HeapOrder Function

/-- `vqueue_prio_node_tag_t` -/
inductive Tag where
  | empty
  | available
  | busy
  deriving DecidableEq

/-- `vqueue_prio_heap_node_s` without its lock. -/
structure Node (Data : Type) where
  tag : Tag
  score : Nat
  owner : Nat
  data : Option Data

/-- `vqueue_prio_t` -/
structure PQueue (Data : Type) where
  next : Nat
  heap : Nat → Node Data
  held : List Nat

/-- `VQUEUE_PRIO_NO_ONE` -/
def noOne : Nat := 2 ^ 32 - 1

variable {Data : Type}

/-- `vqueue_prio_init`; what the memory held remains as the scores. -/
def vqueuePrioInit (memory : Nat → Nat) : PQueue Data where
  next := 1
  heap i := ⟨.empty, memory i, noOne, none⟩
  held := []

/-- `_vqueue_prio_lock` -/
def PQueue.lock (capacity : Nat) (q : PQueue Data) (idx : Nat) : Option (PQueue Data) :=
  if idx < capacity + 1 ∧ ∀ i ∈ q.held, i ≤ idx then some { q with held := idx :: q.held }
  else none

/-- `_vqueue_prio_unlock` -/
def PQueue.unlock (capacity : Nat) (q : PQueue Data) (idx : Nat) : Option (PQueue Data) :=
  if idx < capacity + 1 ∧ idx ∈ q.held then some { q with held := q.held.erase idx } else none

/-- `_vqueue_prio_node_am_owner` -/
def PQueue.amOwner (capacity tid : Nat) (q : PQueue Data) (idx : Nat) : Option Bool :=
  if 1 ≤ idx ∧ idx < capacity + 1 then
    some (decide ((q.heap idx).tag = .busy ∧ (q.heap idx).owner = tid))
  else none

/-- `_vqueue_prio_node_occupy` -/
def PQueue.occupy (capacity tid : Nat) (q : PQueue Data) (idx : Nat) (data : Data)
    (priority : Nat) : Option (PQueue Data) :=
  if 1 ≤ idx ∧ idx < capacity + 1 then
    some { q with heap := update q.heap idx ⟨.busy, priority, tid, some data⟩ }
  else none

/-- `_vqueue_prio_node_swap` -/
def PQueue.swap (q : PQueue Data) (a b : Nat) : PQueue Data :=
  { q with heap := update (update q.heap a (q.heap b)) b (q.heap a) }

/-- The two writes that release a node which is in its place. -/
def PQueue.settle (q : PQueue Data) (idx : Nat) : PQueue Data :=
  { q with heap := update q.heap idx { q.heap idx with tag := .available, owner := noOne } }

/-- The loop of `vqueue_prio_add` and what follows it. -/
def addLoop (capacity tid : Nat) (q : PQueue Data) (child : Nat) : Option (PQueue Data) :=
  if 1 < child then do
    let parent := child / 2
    let q ← q.lock capacity parent
    let q ← q.lock capacity child
    let owner ← q.amOwner capacity tid child
    if (q.heap parent).tag = .available ∧ owner = true then
      if (q.heap child).score < (q.heap parent).score then
        let q := q.swap child parent
        let q ← q.unlock capacity child
        let q ← q.unlock capacity parent
        addLoop capacity tid q parent
      else
        let q := q.settle child
        let q ← q.unlock capacity child
        q.unlock capacity parent
    else if owner = false then
      let q ← q.unlock capacity child
      let q ← q.unlock capacity parent
      addLoop capacity tid q parent
    else none -- the parent is busy, and without another thread remains so
  else if child = 1 then do
    let q ← q.lock capacity 1
    let owner ← q.amOwner capacity tid 1
    let q := if owner = true then q.settle 1 else q
    q.unlock capacity 1
  else some q
termination_by child
decreasing_by all_goals omega

/-- `vqueue_prio_add` -/
def vqueuePrioAdd (capacity tid : Nat) (q : PQueue Data) (data : Data) (priority : Nat) :
    Option (PQueue Data × Bool) := do
  let q ← q.lock capacity 0
  if q.next ≥ capacity + 1 then
    let q ← q.unlock capacity 0
    return (q, false)
  else
    let child := q.next
    let q : PQueue Data := { q with next := q.next + 1 }
    let q ← q.lock capacity child
    if priority ≤ 2 ^ 32 - 1 then
      let q ← q.occupy capacity tid child data priority
      let q ← q.unlock capacity 0
      let q ← q.unlock capacity child
      let q ← addLoop capacity tid q child
      return (q, true)
    else none

/-- The loop of `vqueue_prio_remove_min` and the last unlock; `fuel` bounds the rounds. -/
def removeLoop (capacity : Nat) : Nat → PQueue Data → Nat → Option (PQueue Data)
  | 0, _, _ => none
  | fuel + 1, q, parent =>
    if parent < capacity / 2 then
      let left := parent * 2
      let right := parent * 2 + 1
      if left < capacity ∧ right < capacity then do
        let q ← q.lock capacity left
        let q ← q.lock capacity right
        if (q.heap left).tag = .empty then
          let q ← q.unlock capacity right
          let q ← q.unlock capacity left
          q.unlock capacity parent
        else
          let useLeft := decide ((q.heap right).tag = .empty ∨
            (q.heap left).score < (q.heap right).score)
          let q ← q.unlock capacity (if useLeft then right else left)
          let child := if useLeft then left else right
          if (q.heap child).score < (q.heap parent).score ∧ (q.heap child).tag ≠ .empty then
            let q := q.swap parent child
            if (q.heap child).score ≥ (q.heap parent).score then
              let q ← q.unlock capacity parent
              removeLoop capacity fuel q child
            else none
          else if (q.heap child).score ≥ (q.heap parent).score then
            let q ← q.unlock capacity child
            q.unlock capacity parent
          else none
      else none
    else q.unlock capacity parent

/-- `vqueue_prio_remove_min` -/
def vqueuePrioRemoveMin (capacity : Nat) (q : PQueue Data) :
    Option (PQueue Data × Option Data) := do
  let q ← q.lock capacity 0
  if q.next = 1 then
    let q ← q.unlock capacity 0
    return (q, none)
  else if q.next > 1 then
    let bottom := q.next - 1
    let q : PQueue Data := { q with next := bottom }
    let q ← q.lock capacity 1
    let q ← q.lock capacity bottom
    let q ← q.unlock capacity 0
    if (q.heap 1).tag = .empty then
      let q ← q.unlock capacity 1
      let q ← q.unlock capacity bottom
      return (q, none)
    else
      let data := (q.heap 1).data
      let q : PQueue Data := { q with
        heap := update q.heap 1 { q.heap 1 with tag := .empty, owner := noOne } }
      let q : PQueue Data :=
        if (q.heap bottom).tag = .busy ∧ (q.heap bottom).owner ≠ noOne then q.settle bottom else q
      let q := q.swap bottom 1
      let q ← q.unlock capacity bottom
      if (q.heap 1).tag = .empty then
        let q ← q.unlock capacity 1
        return (q, data)
      else
        let q ← removeLoop capacity capacity q 1
        return (q, data)
  else none

end Libvsync.Queue.PrioHeap
