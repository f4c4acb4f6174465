import Mathlib.Data.List.Perm.Basic
import Mathlib.Data.List.Nodup

/-!
Ownership of items. A system keeps items in places: shared lists, and the
hands of the threads. The items are kept apart when each one lies in at most
one place, and there once. Every step of such a system hands a list of items
from one place to another, takes in a fresh item, or gives items up.
-/

namespace Libvsync.Core

variable {P N : Type*}

structure Apart (content : P → List N) : Prop where
  nodup : ∀ p, (content p).Nodup
  unique : ∀ p q n, n ∈ content p → n ∈ content q → p = q

variable {c c' : P → List N}

theorem Apart.empty (h : ∀ p, c p = []) : Apart c where
  nodup p := by simp [h p]
  unique p q n hp := by simp [h p] at hp

theorem Apart.transfer (h : Apart c) {p q : P} (hne : p ≠ q)
    (hothers : ∀ r, r ≠ p → r ≠ q → c' r = c r)
    (hperm : (c' p ++ c' q).Perm (c p ++ c q)) : Apart c' := by
  have hdisjoint : (c p).Disjoint (c q) := by
    intro n hnp hnq
    exact hne (h.unique p q n hnp hnq)
  have hold : (c p ++ c q).Nodup :=
    List.nodup_append'.mpr ⟨h.nodup p, h.nodup q, hdisjoint⟩
  obtain ⟨hp', hq', hapart⟩ := List.nodup_append'.mp (hperm.nodup_iff.mpr hold)
  have hmem (n : N) (hn : n ∈ c' p ∨ n ∈ c' q) : n ∈ c p ∨ n ∈ c q := by
    rw [← List.mem_append] at hn ⊢
    exact hperm.mem_iff.mp hn
  -- an item of `p` or `q` was in one of them before, so in no third place
  have hthird (n : N) (r : P) (hn : n ∈ c' p ∨ n ∈ c' q) (hrp : r ≠ p) (hrq : r ≠ q) :
      n ∉ c' r := by
    rw [hothers r hrp hrq]
    intro hr
    rcases hmem n hn with hnp | hnq
    · exact hrp (h.unique r p n hr hnp)
    · exact hrq (h.unique r q n hr hnq)
  constructor
  · intro r
    by_cases hrp : r = p
    · subst hrp
      exact hp'
    · by_cases hrq : r = q
      · subst hrq
        exact hq'
      · rw [hothers r hrp hrq]
        exact h.nodup r
  · intro r u n hr hu
    by_contra hru
    by_cases hr' : r = p ∨ r = q
    · have hn : n ∈ c' p ∨ n ∈ c' q := by
        rcases hr' with rfl | rfl
        · exact Or.inl hr
        · exact Or.inr hr
      by_cases hu' : u = p ∨ u = q
      · rcases hr' with rfl | rfl <;> rcases hu' with rfl | rfl
        · exact hru rfl
        · exact hapart hr hu
        · exact hapart hu hr
        · exact hru rfl
      · push Not at hu'
        exact hthird n u hn hu'.1 hu'.2 hu
    · push Not at hr'
      have hold := hr
      rw [hothers r hr'.1 hr'.2] at hold
      by_cases hu' : u = p ∨ u = q
      · have hn : n ∈ c' p ∨ n ∈ c' q := by
          rcases hu' with rfl | rfl
          · exact Or.inl hu
          · exact Or.inr hu
        exact hthird n r hn hr'.1 hr'.2 hr
      · push Not at hu'
        rw [hothers u hu'.1 hu'.2] at hu
        exact hru (h.unique r u n hold hu)

/-- Items that change hands between two places were somewhere before. -/
theorem mem_of_transfer {p q : P} (hothers : ∀ r, r ≠ p → r ≠ q → c' r = c r)
    (hperm : (c' p ++ c' q).Perm (c p ++ c q)) {r : P} {n : N} (hn : n ∈ c' r) :
    ∃ u, n ∈ c u := by
  have hboth (hpq : n ∈ c' p ++ c' q) : ∃ u, n ∈ c u := by
    rcases List.mem_append.mp (hperm.mem_iff.mp hpq) with hold | hold
    · exact ⟨p, hold⟩
    · exact ⟨q, hold⟩
  by_cases hrp : r = p
  · subst hrp
    exact hboth (List.mem_append_left _ hn)
  · by_cases hrq : r = q
    · subst hrq
      exact hboth (List.mem_append_right _ hn)
    · rw [hothers r hrp hrq] at hn
      exact ⟨r, hn⟩

theorem Apart.drop (h : Apart c) {p : P} (hothers : ∀ r, r ≠ p → c' r = c r)
    (hsub : (c' p).Sublist (c p)) : Apart c' := by
  have hmem (r : P) (n : N) (hn : n ∈ c' r) : n ∈ c r := by
    by_cases hr : r = p
    · subst hr
      exact hsub.subset hn
    · rwa [hothers r hr] at hn
  constructor
  · intro r
    by_cases hr : r = p
    · subst hr
      exact (h.nodup r).sublist hsub
    · rw [hothers r hr]
      exact h.nodup r
  · intro r u n hr hu
    exact h.unique r u n (hmem r n hr) (hmem u n hu)

theorem Apart.take (h : Apart c) {p : P} {n : N} (hothers : ∀ r, r ≠ p → c' r = c r)
    (hp : c' p = n :: c p) (hfresh : ∀ r, n ∉ c r) : Apart c' := by
  have hmem (r : P) (m : N) (hm : m ∈ c' r) : (m = n ∧ r = p) ∨ m ∈ c r := by
    by_cases hr : r = p
    · subst hr
      rw [hp] at hm
      rcases List.mem_cons.mp hm with rfl | hm
      · exact Or.inl ⟨rfl, rfl⟩
      · exact Or.inr hm
    · rw [hothers r hr] at hm
      exact Or.inr hm
  constructor
  · intro r
    by_cases hr : r = p
    · subst hr
      rw [hp]
      exact List.nodup_cons.mpr ⟨hfresh r, h.nodup r⟩
    · rw [hothers r hr]
      exact h.nodup r
  · intro r u m hr hu
    rcases hmem r m hr with ⟨rfl, rfl⟩ | hr <;> rcases hmem u m hu with ⟨hm, hu⟩ | hu
    · exact hu.symm
    · exact absurd hu (hfresh u)
    · subst hm
      exact absurd hr (hfresh r)
    · exact h.unique r u m hr hu

end Libvsync.Core
