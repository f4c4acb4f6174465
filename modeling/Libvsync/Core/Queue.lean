import Libvsync.Core.Linear

/-!
A queue as a sequential object, for the queues whose calls are shown to be atomic operations of
it.
-/

namespace Libvsync.Core

inductive QueueCall (D : Type*) where
  | enq (data : D)
  | deq
  | empty

/-- What a call returns. A dequeue from an empty queue has no data. -/
inductive QueueResult (D : Type*) where
  | done
  | taken (data : Option D)
  | isEmpty (empty : Bool)

def queueSpec {D : Type*} (queue : List D) : QueueCall D → QueueResult D → List D → Prop
  | .enq d, .done, queue' => queue' = queue ++ [d]
  | .deq, .taken (some d), queue' => queue = d :: queue'
  | .deq, .taken none, queue' => queue = [] ∧ queue' = queue
  | .empty, .isEmpty empty, queue' => (empty = true ↔ queue = []) ∧ queue' = queue
  | _, _, _ => False

/-- What is in a queue of entries, of which the first `taken` were taken out. -/
def waiting {N D : Type*} (order : List (N × D)) (taken : Nat) : List D :=
  (order.drop taken).map Prod.snd

section Waiting

variable {N D : Type*} {order : List (N × D)} {taken : Nat} {entry : N × D}

theorem waiting_enq (hle : taken ≤ order.length) :
    waiting (order ++ [entry]) taken = waiting order taken ++ [entry.2] := by
  rw [waiting, List.drop_append_of_le_length hle, List.map_append]
  rfl

theorem waiting_deq (hnext : order[taken]? = some entry) :
    waiting order taken = entry.2 :: waiting order (taken + 1) := by
  obtain ⟨hlt, heq⟩ := List.getElem?_eq_some_iff.mp hnext
  rw [waiting, List.drop_eq_getElem_cons hlt, heq]
  rfl

theorem queueSpec_taken {E : Type*} {deqs : List E} (e : E)
    (hnext : order[deqs.length]? = some entry) :
    queueSpec (waiting order deqs.length) .deq (.taken (some entry.2))
      (waiting order (deqs ++ [e]).length) := by
  rw [List.length_append]
  exact waiting_deq hnext

theorem waiting_nil : waiting order taken = [] ↔ order.length ≤ taken := by
  rw [waiting, List.map_eq_nil_iff, List.drop_eq_nil_iff]

end Waiting

end Libvsync.Core
