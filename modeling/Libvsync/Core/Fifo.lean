import Mathlib.Data.List.Basic

/-!
A queue of nodes with data. `order` are the nodes in the order in which they were
appended, each with its data, and `taken` are the data taken out. The nodes of the
queue are the last one taken out, which is the head, and those still to come.
-/

namespace Libvsync.Core

variable {N D : Type*}

structure Fifo (data : N → D) (order : List (N × D)) (taken : List D) (head : N)
    (nodes : List N) : Prop where
  pending : nodes = head :: (order.drop taken.length).map Prod.fst
  values : taken <+: order.map Prod.snd
  kept : ∀ entry ∈ order.drop taken.length, data entry.1 = entry.2

namespace Fifo

variable {data data' : N → D} {order : List (N × D)} {taken : List D} {head n : N}
  {nodes rest : List N}

theorem start (data : N → D) (head : N) : Fifo data [] [] head [head] :=
  ⟨rfl, List.prefix_rfl, nofun⟩

theorem head_mem (h : Fifo data order taken head nodes) : head ∈ nodes := by
  rw [h.pending]
  exact List.mem_cons_self ..

theorem length_le (h : Fifo data order taken head nodes) : taken.length ≤ order.length := by
  have hle := h.values.length_le
  rw [List.length_map] at hle
  exact hle

theorem entry_mem (h : Fifo data order taken head nodes) {entry : N × D}
    (hentry : entry ∈ order.drop taken.length) : entry.1 ∈ nodes := by
  rw [h.pending]
  exact List.mem_cons_of_mem _ (List.mem_map_of_mem hentry)

theorem congr (h : Fifo data order taken head nodes) (hsame : ∀ n ∈ nodes, data' n = data n) :
    Fifo data' order taken head nodes :=
  ⟨h.pending, h.values, fun entry hentry =>
    (hsame entry.1 (h.entry_mem hentry)).trans (h.kept entry hentry)⟩

theorem append (h : Fifo data order taken head nodes) {d : D} (hd : data n = d) :
    Fifo data (order ++ [(n, d)]) taken head (nodes ++ [n]) := by
  refine ⟨?_, ?_, ?_⟩
  · rw [List.drop_append_of_le_length h.length_le, List.map_append, h.pending]
    rfl
  · rw [List.map_append]
    exact h.values.trans (List.prefix_append _ _)
  · intro entry hentry
    rw [List.drop_append_of_le_length h.length_le] at hentry
    rcases List.mem_append.mp hentry with hold | hnew
    · exact h.kept entry hold
    · rw [List.mem_singleton.mp hnew]
      exact hd

/-- The first node behind the head is the first one still to come. -/
theorem drop_eq (h : Fifo data order taken head (head :: n :: rest)) :
    order.drop taken.length = (n, data n) :: order.drop (taken.length + 1) ∧
      rest = (order.drop (taken.length + 1)).map Prod.fst := by
  have hmap := (List.cons.inj h.pending).2
  cases hdrop : order.drop taken.length with
  | nil =>
    rw [hdrop] at hmap
    cases hmap
  | cons entry more =>
    rw [hdrop] at hmap
    obtain ⟨rfl, hrest⟩ := List.cons.inj hmap
    have hdata := h.kept entry (by rw [hdrop]; exact List.mem_cons_self ..)
    have hmore : more = order.drop (taken.length + 1) := by
      rw [← List.drop_drop, hdrop]
      rfl
    rw [← hmore, hdata]
    exact ⟨rfl, hrest⟩

theorem next (h : Fifo data order taken head (head :: n :: rest)) :
    order[taken.length]? = some (n, data n) := by
  have hget : (order.drop taken.length)[0]? = some (n, data n) := by
    rw [h.drop_eq.1]
    rfl
  rw [List.getElem?_drop, Nat.add_zero] at hget
  exact hget

/-- The data of the first node behind the head are taken out. -/
theorem advance (h : Fifo data order taken head (head :: n :: rest)) :
    Fifo data order (taken ++ [data n]) n (n :: rest) := by
  have hlen : (taken ++ [data n]).length = taken.length + 1 := by simp
  refine ⟨?_, ?_, ?_⟩
  · rw [hlen, ← h.drop_eq.2]
  · have hvalues := List.prefix_iff_eq_take.mp h.values
    rw [List.prefix_iff_eq_take, hlen, List.take_add_one, List.getElem?_map, h.next, ← hvalues]
    rfl
  · intro entry hentry
    rw [hlen] at hentry
    refine h.kept entry ?_
    rw [h.drop_eq.1]
    exact List.mem_cons_of_mem _ hentry

end Fifo

end Libvsync.Core
