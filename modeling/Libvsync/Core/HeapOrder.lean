import Mathlib.Algebra.BigOperators.Intervals
import Mathlib.Data.Nat.Cast.Basic

/-!
Binary heaps in an array from index 1 on: the parent of `i` is `i / 2`, and below `n` the array is
in use. While an element is moved up or down, only the order at its place may be broken; each
move is a swap of two places.
-/

namespace Libvsync.Core.HeapOrder

section Order

variable {α : Type*} [LinearOrder α] {f : Nat → α} {n c p : Nat}

def Ordered (f : Nat → α) (n : Nat) : Prop := ∀ i, 2 ≤ i → i < n → f (i / 2) ≤ f i

/-- Only the element at `c` may be less than its parent. -/
structure UpTo (f : Nat → α) (n c : Nat) : Prop where
  others : ∀ i, 2 ≤ i → i < n → i ≠ c → f (i / 2) ≤ f i
  across : ∀ i, 2 ≤ i → i < n → i / 2 = c → 2 ≤ c → f (c / 2) ≤ f i

/-- Only the element at `p` may be greater than its children. -/
structure DownTo (f : Nat → α) (n p : Nat) : Prop where
  others : ∀ i, 2 ≤ i → i < n → i / 2 ≠ p → f (i / 2) ≤ f i
  across : ∀ i, 2 ≤ i → i < n → i / 2 = p → 2 ≤ p → f (p / 2) ≤ f i

/-- The exchange of the elements at two places. -/
def swapped {β : Type*} (f : Nat → β) (a b : Nat) (i : Nat) : β := f (Equiv.swap a b i)

@[simp] theorem swapped_left {β : Type*} (f : Nat → β) (a b : Nat) : swapped f a b a = f b :=
  congrArg f (Equiv.swap_apply_left a b)

@[simp] theorem swapped_right {β : Type*} (f : Nat → β) (a b : Nat) : swapped f a b b = f a :=
  congrArg f (Equiv.swap_apply_right a b)

theorem swapped_of_ne {β : Type*} (f : Nat → β) {a b i : Nat} (ha : i ≠ a) (hb : i ≠ b) :
    swapped f a b i = f i :=
  congrArg f (Equiv.swap_apply_of_ne_of_ne ha hb)

/-- The root is a least element. -/
theorem Ordered.root_le (h : Ordered f n) {i : Nat} (hi : 1 ≤ i) (hin : i < n) : f 1 ≤ f i := by
  induction i using Nat.strong_induction_on with
  | _ i ih =>
    rcases Nat.eq_or_lt_of_le hi with rfl | hgt
    · exact le_refl (f 1)
    · exact (ih (i / 2) (by omega) (by omega) (by omega)).trans (h i hgt hin)

theorem UpTo.swap (h : UpTo f n c) (hc : 2 ≤ c) (hcn : c < n) (hlt : f c < f (c / 2)) :
    UpTo (swapped f c (c / 2)) n (c / 2) := by
  constructor
  · intro i hi hin hne
    rcases eq_or_ne i c with rfl | hic
    · rw [swapped_left, swapped_right]
      exact hlt.le
    · rw [swapped_of_ne f hic hne]
      rcases eq_or_ne (i / 2) c with hparent | hparent
      · rw [hparent, swapped_left]
        exact h.across i hi hin hparent hc
      · rcases eq_or_ne (i / 2) (c / 2) with hsibling | hsibling
        · rw [hsibling, swapped_right]
          have hother := h.others i hi hin hic
          rw [hsibling] at hother
          exact hlt.le.trans hother
        · rw [swapped_of_ne f hparent hsibling]
          exact h.others i hi hin hic
  · intro i hi hin hparent hq
    have habove := h.others (c / 2) hq (by omega) (by omega)
    rw [swapped_of_ne f (by omega) (by omega : c / 2 / 2 ≠ c / 2)]
    rcases eq_or_ne i c with rfl | hic
    · rw [swapped_left]
      exact habove
    · rw [swapped_of_ne f hic (by omega)]
      have hother := h.others i hi hin hic
      rw [hparent] at hother
      exact habove.trans hother

theorem UpTo.done (h : UpTo f n c) (hstop : 2 ≤ c → f (c / 2) ≤ f c) : Ordered f n := by
  intro i hi hin
  rcases eq_or_ne i c with rfl | hic
  · exact hstop hi
  · exact h.others i hi hin hic

/-- The element moves down to the place of its least child. -/
theorem DownTo.swap (h : DownTo f n p) (hp : 1 ≤ p) (hc : c / 2 = p) (hlt : f c < f p)
    (hleast : ∀ i, 2 ≤ i → i < n → i / 2 = p → f c ≤ f i) (hcn : c < n) :
    DownTo (swapped f p c) n c := by
  constructor
  · intro i hi hin hne
    rcases eq_or_ne (i / 2) p with hparent | hparent
    · rw [hparent, swapped_left]
      rcases eq_or_ne i c with rfl | hic
      · rw [swapped_right]
        exact hlt.le
      · rw [swapped_of_ne f (by omega) hic]
        exact hleast i hi hin hparent
    · rw [swapped_of_ne f hparent hne]
      rcases eq_or_ne i p with rfl | hip
      · rw [swapped_left]
        exact h.across c (by omega) hcn hc hi
      · rw [swapped_of_ne f hip (by omega)]
        exact h.others i hi hin hparent
  · intro i hi hin hparent hc2
    rw [hc, swapped_left, swapped_of_ne f (by omega) (by omega)]
    have hother := h.others i hi hin (by omega)
    rw [hparent] at hother
    exact hother

theorem DownTo.done (h : DownTo f n p)
    (hstop : ∀ i, 2 ≤ i → i < n → i / 2 = p → f p ≤ f i) : Ordered f n := by
  intro i hi hin
  rcases eq_or_ne (i / 2) p with hparent | hparent
  · rw [hparent]
    exact hstop i hi hin hparent
  · exact h.others i hi hin hparent

end Order

section Contents

variable {β : Type*}

/-- What is stored below `n`. -/
def contents (f : Nat → β) (n : Nat) : Multiset β := ∑ i ∈ Finset.Ico 1 n, {f i}

theorem contents_succ (f : Nat → β) {n : Nat} (hn : 1 ≤ n) :
    contents f (n + 1) = f n ::ₘ contents f n := by
  rw [contents, Finset.sum_Ico_succ_top hn, add_comm, Multiset.singleton_add, contents]

theorem contents_congr {f g : Nat → β} {n : Nat} (h : ∀ i, 1 ≤ i → i < n → f i = g i) :
    contents f n = contents g n :=
  Finset.sum_congr rfl fun i hi => by
    rw [h i (Finset.mem_Ico.mp hi).1 (Finset.mem_Ico.mp hi).2]

theorem contents_swapped (f : Nat → β) {n a b : Nat} (ha : 1 ≤ a) (han : a < n) (hb : 1 ≤ b)
    (hbn : b < n) : contents (swapped f a b) n = contents f n := by
  refine Finset.sum_equiv (Equiv.swap a b) (fun i => ?_) fun i _ => rfl
  rw [Finset.mem_Ico, Finset.mem_Ico]
  rcases eq_or_ne i a with rfl | hia
  · rw [Equiv.swap_apply_left]
    omega
  · rcases eq_or_ne i b with rfl | hib
    · rw [Equiv.swap_apply_right]
      omega
    · rw [Equiv.swap_apply_of_ne_of_ne hia hib]

theorem card_contents (f : Nat → β) (n : Nat) : (contents f n).card = n - 1 := by
  rw [contents, Multiset.card_sum]
  simp only [Multiset.card_singleton, Finset.sum_const, Nat.card_Ico]
  exact (nsmul_one _).trans (Nat.cast_id _)

theorem mem_contents {f : Nat → β} {n : Nat} {x : β} :
    x ∈ contents f n ↔ ∃ i, 1 ≤ i ∧ i < n ∧ f i = x := by
  rw [contents, Multiset.mem_sum]
  simp only [Finset.mem_Ico, Multiset.mem_singleton]
  exact exists_congr fun i => ⟨fun ⟨⟨h1, h2⟩, h3⟩ => ⟨h1, h2, h3.symm⟩,
    fun ⟨h1, h2, h3⟩ => ⟨⟨h1, h2⟩, h3.symm⟩⟩

end Contents

end Libvsync.Core.HeapOrder
