import Mathlib.Order.Lattice
import Mathlib.Data.List.Basic

/-!
Stable sorting of a queue. A line is the queue in the order of the keys; equal
keys stay in the order of the queue. So the first of the line is the earliest of
the queue that has the least key.
-/

namespace Libvsync.Core

variable {A K : Type*} [LinearOrder K] {key : A → K} {queue line before after : List A} {x : A}

structure StableSort (key : A → K) (queue line : List A) : Prop where
  sorted : line.Pairwise (fun a b => key a ≤ key b)
  same : ∀ k, line.filter (fun a => key a = k) = queue.filter (fun a => key a = k)

namespace StableSort

theorem nil : StableSort key [] [] :=
  ⟨List.Pairwise.nil, fun _ => rfl⟩

theorem mem_iff (h : StableSort key queue line) (a : A) : a ∈ line ↔ a ∈ queue := by
  have hmem := congrArg (a ∈ ·) (h.same (key a))
  simpa using hmem

/-- Behind all elements with a key that is not greater. -/
theorem insert (h : StableSort key queue (before ++ after)) (hbefore : ∀ a ∈ before, key a ≤ key x)
    (hafter : ∀ a ∈ after, key x < key a) :
    StableSort key (queue ++ [x]) (before ++ x :: after) := by
  obtain ⟨hleft, hright, hcross⟩ := List.pairwise_append.mp h.sorted
  constructor
  · rw [List.pairwise_append, List.pairwise_cons]
    refine ⟨hleft, ⟨fun a ha => (hafter a ha).le, hright⟩, ?_⟩
    intro a ha b hb
    rcases List.mem_cons.mp hb with rfl | hb
    · exact hbefore a ha
    · exact hcross a ha b hb
  · intro k
    have hsame := h.same k
    rw [List.filter_append] at hsame
    rw [List.filter_append, List.filter_append, ← hsame]
    by_cases hk : key x = k
    · have hnone : after.filter (fun a => key a = k) = [] := by
        rw [List.filter_eq_nil_iff]
        intro a ha
        simpa using (hk ▸ hafter a ha).ne'
      rw [List.filter_cons_of_pos (by simpa using hk), hnone, List.append_nil]
      simp [hk]
    · rw [List.filter_cons_of_neg (by simpa using hk)]
      simp [hk]

/-- The first of the line is the earliest of the queue with the least key. -/
theorem first (h : StableSort key queue (x :: line)) :
    ∃ pre post, queue = pre ++ x :: post ∧ (∀ a ∈ pre, key x < key a) ∧
      (∀ a ∈ post, key x ≤ key a) ∧ StableSort key (pre ++ post) line := by
  obtain ⟨hleast, hsorted⟩ := List.pairwise_cons.mp h.sorted
  have hsame := h.same (key x)
  rw [List.filter_cons_of_pos (by simp)] at hsame
  obtain ⟨pre, post, rfl, hpre, -, hpost⟩ := List.filter_eq_cons_iff.mp hsame.symm
  have hall (a : A) (ha : a ∈ pre ++ x :: post) : key x ≤ key a := by
    rcases List.mem_cons.mp ((h.mem_iff a).mpr ha) with rfl | ha
    · exact le_rfl
    · exact hleast a ha
  have hne (a : A) (ha : a ∈ pre) : key a ≠ key x := by simpa using hpre a ha
  refine ⟨pre, post, rfl, ?_, ?_, hsorted, ?_⟩
  · intro a ha
    exact lt_of_le_of_ne (hall a (by simp [ha])) (hne a ha).symm
  · intro a ha
    exact hall a (by simp [ha])
  · intro k
    rw [List.filter_append]
    by_cases hk : key x = k
    · subst hk
      have hnone : pre.filter (fun a => key a = key x) = [] := by
        rw [List.filter_eq_nil_iff]
        intro a ha
        simpa using hne a ha
      rw [hnone, List.nil_append, hpost]
    · have hrest := h.same k
      rwa [List.filter_cons_of_neg (by simpa using hk), List.filter_append,
        List.filter_cons_of_neg (by simpa using hk)] at hrest

end StableSort

end Libvsync.Core
