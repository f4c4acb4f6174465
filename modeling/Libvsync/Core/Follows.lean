import Mathlib.Data.List.Nodup

/-!
Neighbours in a waiting line. What a thread of a queue lock knows is about the thread
directly in front of it, so the invariant of the lock is a statement about neighbours.
A line grows at its end and loses its first element.
-/

namespace Libvsync.Core

variable {α : Type*} {l : List α} {a b c x y : α}

/-- `b` stands directly behind `a`. -/
def Follows (l : List α) (a b : α) : Prop := ∃ before after, l = before ++ a :: b :: after

namespace Follows

theorem left_mem (h : Follows l a b) : a ∈ l := by
  obtain ⟨before, after, rfl⟩ := h
  simp

theorem right_mem (h : Follows l a b) : b ∈ l := by
  obtain ⟨before, after, rfl⟩ := h
  simp

/-- The first element and what stands behind it. -/
theorem cons_iff : Follows (x :: l) a b ↔ (a = x ∧ l.head? = some b) ∨ Follows l a b := by
  constructor
  · rintro ⟨before, after, heq⟩
    cases before with
    | nil =>
      obtain ⟨rfl, rfl⟩ := List.cons.inj heq
      exact .inl ⟨rfl, rfl⟩
    | cons z before =>
      obtain ⟨-, rfl⟩ := List.cons.inj heq
      exact .inr ⟨before, after, rfl⟩
  · rintro (⟨rfl, hhead⟩ | ⟨before, after, rfl⟩)
    · obtain ⟨after, rfl⟩ := List.head?_eq_some_iff.mp hhead
      exact ⟨[], after, rfl⟩
    · exact ⟨x :: before, after, rfl⟩

theorem not_nil : ¬ Follows ([] : List α) a b :=
  fun h => List.not_mem_nil h.left_mem

theorem tail (h : Follows l a b) : Follows (x :: l) a b := cons_iff.mpr (.inr h)

theorem right_mem_tail (h : Follows (x :: l) a b) : b ∈ l := by
  rcases cons_iff.mp h with ⟨-, hhead⟩ | h
  · exact List.mem_of_mem_head? hhead
  · exact h.right_mem

theorem concat_iff : Follows (l ++ [y]) a b ↔ Follows l a b ∨ (l.getLast? = some a ∧ b = y) := by
  induction l with
  | nil =>
    rw [List.nil_append, cons_iff]
    simp [not_nil]
  | cons x l ih =>
    rw [List.cons_append, cons_iff, cons_iff, ih]
    cases l with
    | nil => simp [not_nil, eq_comm]
    | cons z l => simp only [List.cons_append, List.head?_cons, List.getLast?_cons_cons, or_assoc]

theorem exists_front (hmem : b ∈ l) : ∃ a, Follows (x :: l) a b := by
  induction l generalizing x with
  | nil => cases hmem
  | cons y l ih =>
    rcases List.mem_cons.mp hmem with rfl | hmem
    · exact ⟨x, cons_iff.mpr (.inl ⟨rfl, rfl⟩)⟩
    · obtain ⟨a, ha⟩ := ih (x := y) hmem
      exact ⟨a, ha.tail⟩

theorem exists_behind (hmem : a ∈ l) (hlast : l.getLast? ≠ some a) : ∃ b, Follows l a b := by
  induction l with
  | nil => cases hmem
  | cons x l ih =>
    cases l with
    | nil =>
      rw [List.mem_singleton.mp hmem] at hlast
      exact absurd rfl hlast
    | cons y l =>
      rcases List.mem_cons.mp hmem with rfl | hmem
      · exact ⟨y, cons_iff.mpr (.inl ⟨rfl, rfl⟩)⟩
      · obtain ⟨b, hb⟩ := ih hmem (by rwa [List.getLast?_cons_cons] at hlast)
        exact ⟨b, hb.tail⟩

theorem behind_unique (hnodup : l.Nodup) (hb : Follows l a b) (hc : Follows l a c) : b = c := by
  induction l with
  | nil => exact absurd hb not_nil
  | cons x l ih =>
    obtain ⟨hx, hnodup⟩ := List.nodup_cons.mp hnodup
    rcases cons_iff.mp hb with ⟨rfl, hsecond⟩ | hb'
    · rcases cons_iff.mp hc with ⟨-, hsecond'⟩ | hc
      · exact Option.some.inj (hsecond.symm.trans hsecond')
      · exact absurd hc.left_mem hx
    · rcases cons_iff.mp hc with ⟨rfl, -⟩ | hc
      · exact absurd hb'.left_mem hx
      · exact ih hnodup hb' hc

theorem front_unique (hnodup : l.Nodup) (ha : Follows l a c) (hb : Follows l b c) : a = b := by
  induction l with
  | nil => exact absurd ha not_nil
  | cons x l ih =>
    obtain ⟨-, hnodup'⟩ := List.nodup_cons.mp hnodup
    have hsecond : ∀ {d}, l.head? = some c → ¬ Follows l d c := by
      intro d hhead hd
      cases l with
      | nil => cases hhead
      | cons y l =>
        cases hhead
        exact (List.nodup_cons.mp hnodup').1 hd.right_mem_tail
    rcases cons_iff.mp ha with ⟨rfl, hhead⟩ | ha
    · rcases cons_iff.mp hb with ⟨rfl, -⟩ | hb
      · rfl
      · exact absurd hb (hsecond hhead)
    · rcases cons_iff.mp hb with ⟨-, hhead⟩ | hb
      · exact absurd ha (hsecond hhead)
      · exact ih hnodup' ha hb

theorem not_last (hnodup : l.Nodup) (h : Follows l a b) : l.getLast? ≠ some a := by
  obtain ⟨before, after, rfl⟩ := h
  intro hlast
  have hmem : a ∈ b :: after := by
    rw [List.getLast?_append_cons, List.getLast?_cons_cons] at hlast
    exact List.mem_of_getLast? hlast
  exact (List.nodup_cons.mp (List.nodup_append.mp hnodup).2.1).1 hmem

end Follows

end Libvsync.Core
