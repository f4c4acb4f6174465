import Mathlib.Data.List.Nodup

/-!
Chains that end in NULL. The nodes of a stack are those that its top pointer and
then the `next` pointers lead to; a node is pushed in front of the chain that its
own pointer leads to, and the first node is taken off. The nodes of a queue are
appended behind the last one.
-/

namespace Libvsync.Core

open Function

variable {N : Type*}

/-- The nodes that pointer `p` leads to. -/
def Linked (next : N → Option N) (p : Option N) : List N → Prop
  | [] => p = none
  | n :: nodes => p = some n ∧ Linked next (next n) nodes

instance Linked.decidable [DecidableEq N] (next : N → Option N) :
    (p : Option N) → (nodes : List N) → Decidable (Linked next p nodes)
  | p, [] => inferInstanceAs (Decidable (p = none))
  | p, n :: nodes =>
    have := Linked.decidable next (next n) nodes
    inferInstanceAs (Decidable (p = some n ∧ Linked next (next n) nodes))

namespace Linked

variable {next next' : N → Option N} {p : Option N} {nodes : List N} {n : N}

theorem congr (h : Linked next p nodes) (hsame : ∀ n ∈ nodes, next' n = next n) :
    Linked next' p nodes := by
  induction nodes generalizing p with
  | nil => exact h
  | cons n nodes ih =>
    refine ⟨h.1, ?_⟩
    rw [hsame n (by simp)]
    exact ih h.2 fun m hm => hsame m (by simp [hm])

/-- A node that points to the chain is put in front of it. -/
theorem push (h : Linked next p nodes) (hn : next n = p) : Linked next (some n) (n :: nodes) :=
  ⟨rfl, hn ▸ h⟩

theorem of_none (h : Linked next none nodes) : nodes = [] := by
  cases nodes with
  | nil => rfl
  | cons n nodes => cases h.1

/-- The first node of the chain, and the rest of it. -/
theorem of_some (h : Linked next (some n) nodes) :
    ∃ rest, nodes = n :: rest ∧ Linked next (next n) rest := by
  cases nodes with
  | nil => cases h
  | cons m nodes =>
    obtain ⟨hm, hrest⟩ := h
    cases hm
    exact ⟨nodes, rfl, hrest⟩

theorem last_next (h : Linked next p nodes) {last : N} (hlast : nodes.getLast? = some last) :
    next last = none := by
  induction nodes generalizing p with
  | nil => cases hlast
  | cons m nodes ih =>
    cases nodes with
    | nil =>
      cases hlast
      exact h.2
    | cons m' nodes => exact ih h.2 (by rw [List.getLast?_cons_cons] at hlast; exact hlast)

/-- A next node is in the chain, and not the first one. -/
theorem next_mem (h : Linked next p nodes) (hn : n ∈ nodes) {m : N} (hm : next n = some m) :
    m ∈ nodes.tail := by
  induction nodes generalizing p with
  | nil => cases hn
  | cons n' nodes ih =>
    obtain ⟨rfl, hrest⟩ := h
    rcases List.mem_cons.mp hn with rfl | hn
    · rw [hm] at hrest
      obtain ⟨rest, rfl, -⟩ := hrest.of_some
      exact List.mem_cons_self ..
    · exact List.mem_of_mem_tail (ih hrest hn)

theorem getLast_of_none (h : Linked next p nodes) (hn : n ∈ nodes) (hnone : next n = none) :
    nodes.getLast? = some n := by
  induction nodes generalizing p with
  | nil => cases hn
  | cons m nodes ih =>
    obtain ⟨rfl, hrest⟩ := h
    rcases List.mem_cons.mp hn with rfl | hn
    · rw [hnone] at hrest
      rw [hrest.of_none]
      rfl
    · cases nodes with
      | nil => cases hn
      | cons m' nodes =>
        rw [List.getLast?_cons_cons]
        exact ih hrest hn

/-- The chain from a node on is as long as its list, so it is the only one. -/
theorem unique (h : Linked next p nodes) {nodes' : List N} (h' : Linked next p nodes') :
    nodes = nodes' := by
  induction nodes generalizing p nodes' with
  | nil =>
    have hp : p = none := h
    rw [hp] at h'
    exact h'.of_none.symm
  | cons m nodes ih =>
    obtain ⟨rfl, hrest⟩ := h
    obtain ⟨rest, rfl, hrest'⟩ := h'.of_some
    rw [ih hrest hrest']

theorem append [DecidableEq N] (h : Linked next p nodes) (hnodup : nodes.Nodup) {last : N}
    (hlast : nodes.getLast? = some last) (hn : n ∉ nodes) :
    Linked (update (update next n none) last (some n)) p (nodes ++ [n]) := by
  induction nodes generalizing p with
  | nil => cases hlast
  | cons m nodes ih =>
    obtain ⟨rfl, hrest⟩ := h
    obtain ⟨hm, hnodup⟩ := List.nodup_cons.mp hnodup
    obtain ⟨hne, hn⟩ := not_or.mp (mt List.mem_cons.mpr hn)
    cases nodes with
    | nil =>
      obtain rfl : m = last := by simpa using hlast
      refine ⟨rfl, by rw [update_self], ?_⟩
      rw [update_of_ne hne, update_self]
      rfl
    | cons m' nodes =>
      rw [List.getLast?_cons_cons] at hlast
      have hmlast : m ≠ last := by
        rintro rfl
        exact hm (List.mem_of_getLast? hlast)
      refine ⟨rfl, ?_⟩
      rw [update_of_ne hmlast, update_of_ne (Ne.symm hne)]
      exact ih hrest hnodup hlast hn

theorem behind {front rest : List N} (h : Linked next p (front ++ n :: rest)) :
    Linked next (next n) rest := by
  induction front generalizing p with
  | nil => exact h.2
  | cons m front ih => exact ih h.2

theorem unlink [DecidableEq N] {front rest : List N} {m : N}
    (h : Linked next p (front ++ m :: n :: rest)) (hnodup : (front ++ m :: n :: rest).Nodup) :
    Linked (update next m (next n)) p (front ++ m :: rest) := by
  induction front generalizing p with
  | nil =>
    obtain ⟨hp, -, hrest⟩ := h
    refine ⟨hp, ?_⟩
    rw [update_self]
    refine hrest.congr fun k hk => update_of_ne ?_ _ _
    rintro rfl
    exact (List.nodup_cons.mp hnodup).1 (List.mem_cons_of_mem n hk)
  | cons k front ih =>
    obtain ⟨hp, hrest⟩ := h
    obtain ⟨hk, hnodup⟩ := List.nodup_cons.mp hnodup
    have hkm : k ≠ m := by
      rintro rfl
      exact hk (List.mem_append_right _ (List.mem_cons_self ..))
    refine ⟨hp, ?_⟩
    rw [update_of_ne hkm]
    exact ih hrest hnodup

theorem cut {front rest : List N} (h : Linked next p (front ++ n :: rest)) (hn : next' n = none)
    (hsame : ∀ m ∈ front, next' m = next m) : Linked next' p (front ++ [n]) := by
  induction front generalizing p with
  | nil => exact ⟨h.1, hn⟩
  | cons m front ih =>
    refine ⟨h.1, ?_⟩
    rw [hsame m List.mem_cons_self]
    exact ih h.2 fun k hk => hsame k (List.mem_cons_of_mem m hk)

theorem first (h : Linked next p nodes) : p = nodes.head? := by
  cases nodes with
  | nil => exact h
  | cons n nodes => exact h.1

theorem nodup (h : Linked next p nodes) : nodes.Nodup := by
  induction nodes generalizing p with
  | nil => exact List.nodup_nil
  | cons n nodes ih =>
    refine List.nodup_cons.mpr ⟨fun hmem => ?_, ih h.2⟩
    obtain ⟨front, rest, rfl⟩ := List.append_of_mem hmem
    have hlength := congrArg List.length (h.2.unique h.2.behind)
    rw [List.length_append, List.length_cons] at hlength
    omega

/-- The nodes of a chain tell the pointers in them. -/
theorem next_eq (h : Linked next p nodes) (h' : Linked next' p nodes) (hn : n ∈ nodes) :
    next' n = next n := by
  induction nodes generalizing p with
  | nil => cases hn
  | cons m nodes ih =>
    have hnext : next' m = next m := h'.2.first.trans h.2.first.symm
    rcases List.mem_cons.mp hn with rfl | hn
    · exact hnext
    · refine ih h.2 ?_ hn
      rw [← hnext]
      exact h'.2

end Linked

/-- A chain that is being reversed in place. The first `k` nodes are reversed already. -/
structure Reversing (next : N → Option N) (nodes : List N) (k : Nat) (prev curr : Option N) :
    Prop where
  done : Linked next prev (nodes.take k).reverse
  rest : Linked next curr (nodes.drop k)
  nodup : nodes.Nodup

namespace Reversing

variable {next next' : N → Option N} {prev curr p : Option N} {nodes : List N} {n : N} {k : Nat}

theorem start (h : Linked next p nodes) : Reversing next nodes 0 none p :=
  ⟨rfl, h, h.nodup⟩

theorem congr (h : Reversing next nodes k prev curr) (hsame : ∀ n ∈ nodes, next' n = next n) :
    Reversing next' nodes k prev curr := by
  refine ⟨h.done.congr fun n hn => hsame n ?_, h.rest.congr fun n hn => hsame n ?_, h.nodup⟩
  · exact List.mem_of_mem_take (List.mem_reverse.mp hn)
  · exact List.mem_of_mem_drop hn

/-- The node that is reversed next. -/
theorem curr_eq (h : Reversing next nodes k prev curr) : curr = nodes[k]? := by
  rw [h.rest.first, List.head?_drop]

theorem mem (h : Reversing next nodes k prev (some n)) : n ∈ nodes :=
  List.mem_of_getElem? h.curr_eq.symm

theorem step [DecidableEq N] (h : Reversing next nodes k prev (some n)) :
    Reversing (update next n prev) nodes (k + 1) (some n) (next n) := by
  obtain ⟨rest, hrest, hlinked⟩ := h.rest.of_some
  have hget := h.curr_eq.symm
  have hdrop : nodes.drop (k + 1) = rest := by
    rw [← List.drop_drop, hrest]
    rfl
  have htake : nodes.take (k + 1) = nodes.take k ++ [n] := by
    rw [List.take_add_one, hget]
    rfl
  have hsplit : (nodes.take k ++ n :: rest).Nodup := by
    rw [← hrest, List.take_append_drop]
    exact h.nodup
  obtain ⟨-, hback, hapart⟩ := List.nodup_append'.mp hsplit
  refine ⟨?_, ?_, h.nodup⟩
  · rw [htake, List.reverse_append]
    refine Linked.push (h.done.congr fun m hm => update_of_ne ?_ _ _)
      (update_self ..)
    rintro rfl
    exact hapart (List.mem_reverse.mp hm) (List.mem_cons_self ..)
  · rw [hdrop]
    refine hlinked.congr fun m hm => update_of_ne ?_ _ _
    rintro rfl
    exact (List.nodup_cons.mp hback).1 hm

theorem finish (h : Reversing next nodes k prev none) : Linked next prev nodes.reverse := by
  have hlength : nodes.length ≤ k := List.getElem?_eq_none_iff.mp h.curr_eq.symm
  have hdone := h.done
  rw [List.take_of_length_le hlength] at hdone
  exact hdone

end Reversing

end Libvsync.Core
