import Mathlib.Algebra.Order.Group.Nat

/-!
Arrays that are used again and again in a circle. A number selects its cell by
remainder, and at any time the cells belong to consecutive numbers.
-/

namespace Libvsync.Core

open Function

variable {β : Type*} {n low i j : Nat}

/-- Two numbers of a window have the same cell only when they are equal. -/
theorem eq_of_mod_eq (hi : low ≤ i) (hi' : i < low + n) (hj : low ≤ j) (hj' : j < low + n)
    (h : i % n = j % n) : i = j := by
  have hij := Nat.sub_mod_eq_zero_of_mod_eq h
  have hji := Nat.sub_mod_eq_zero_of_mod_eq h.symm
  rw [Nat.mod_eq_of_lt (by omega)] at hij hji
  omega

/-- The cells hold the contents of the `n` numbers from `low` on. -/
def Window (n : Nat) (cells : Nat → β) (low : Nat) (content : Nat → β) : Prop :=
  ∀ i, low ≤ i → i < low + n → cells (i % n) = content i

namespace Window

variable {cells : Nat → β} {content content' : Nat → β} {b : β}

/-- The content of one number of the window changes. -/
theorem set (h : Window n cells low content) (hi : low ≤ i) (hi' : i < low + n)
    (hself : b = content' i) (hothers : ∀ j, j ≠ i → content' j = content j) :
    Window n (update cells (i % n) b) low content' := by
  intro j hj hj'
  by_cases hij : j = i
  · rw [hij, update_self, hself]
  · have hne : j % n ≠ i % n := fun heq => hij (eq_of_mod_eq hj hj' hi hi' heq)
    rw [update_of_ne hne, hothers j hij]
    exact h j hj hj'

/-- The first number of the window gives its cell to the next number behind it. -/
theorem push (h : Window n cells low content) (hself : b = content' (low + n))
    (hothers : ∀ j, low < j → j < low + n → content' j = content j) :
    Window n (update cells ((low + n) % n) b) (low + 1) content' := by
  intro j hj hj'
  by_cases hij : j = low + n
  · rw [hij, update_self, hself]
  · have hne : j % n ≠ (low + n) % n := by
      intro heq
      refine hij (eq_of_mod_eq hj ?_ ?_ ?_ heq) <;> omega
    rw [update_of_ne hne, hothers j (by omega) (by omega)]
    exact h j (by omega) (by omega)

end Window

/-- The place of value `i` in an array of blocks. -/
def slot (perBlock blocks i : Nat) : Nat × Nat := (i / perBlock % blocks, i % perBlock)

theorem slot_inj {perBlock blocks : Nat} (hi : low ≤ i) (hi' : i < low + perBlock * blocks)
    (hj : low ≤ j) (hj' : j < low + perBlock * blocks)
    (h : slot perBlock blocks i = slot perBlock blocks j) : i = j := by
  obtain ⟨hblock, hplace⟩ := Prod.mk.inj h
  refine eq_of_mod_eq hi hi' hj hj' ?_
  rw [Nat.mod_mul, Nat.mod_mul, hblock, hplace]

/-- The place of a value, given its block. -/
theorem slot_of_lt {perBlock blocks block place : Nat} (h : place < perBlock) :
    slot perBlock blocks (block * perBlock + place) = (block % blocks, place) := by
  have hpos : 0 < perBlock := by omega
  rw [slot, Nat.mul_comm, Nat.mul_add_div hpos, Nat.div_eq_of_lt h, Nat.mul_add_mod,
    Nat.mod_eq_of_lt h, Nat.add_zero]

end Libvsync.Core
