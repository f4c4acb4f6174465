import Mathlib.Tactic.Ring

/-!
Binary trees in an array: the children of node `i` are `2 * i + 1` and
`2 * i + 2`, and node 0 is the root.
-/

namespace Libvsync.Core

/-- Node `i` is in the subtree of node `v`. -/
def under (v i : Nat) : Bool :=
  if i = v then true else if i = 0 then false else under v ((i - 1) / 2)
termination_by i
decreasing_by omega

theorem under_eq (v i : Nat) :
    under v i = if i = v then true else if i = 0 then false else under v ((i - 1) / 2) := by
  rw [under]

@[simp] theorem under_self (v : Nat) : under v v = true := by
  rw [under_eq, if_pos rfl]

theorem under_root {v : Nat} (hv : v ≠ 0) : under v 0 = false := by
  rw [under_eq, if_neg hv.symm, if_pos rfl]

theorem under_left (v i : Nat) : under v (2 * i + 1) = (decide (v = 2 * i + 1) || under v i) := by
  by_cases hv : v = 2 * i + 1
  · rw [hv, under_self, decide_eq_true rfl, Bool.true_or]
  · rw [under_eq, if_neg (Ne.symm hv), if_neg (by omega), show (2 * i + 1 - 1) / 2 = i by omega,
      decide_eq_false hv, Bool.false_or]

theorem under_right (v i : Nat) : under v (2 * i + 2) = (decide (v = 2 * i + 2) || under v i) := by
  by_cases hv : v = 2 * i + 2
  · rw [hv, under_self, decide_eq_true rfl, Bool.true_or]
  · rw [under_eq, if_neg (Ne.symm hv), if_neg (by omega), show (2 * i + 2 - 1) / 2 = i by omega,
      decide_eq_false hv, Bool.false_or]

theorem under_le {v i : Nat} (h : under v i = true) : v ≤ i := by
  induction i using Nat.strong_induction_on with
  | _ i ih =>
    rw [under_eq] at h
    split at h
    · omega
    · split at h
      · cases h
      · have := ih ((i - 1) / 2) (by omega) h
        omega

/-- A subtree is its top and the two subtrees below it. -/
theorem under_split (v i : Nat) :
    under v i = true ↔ i = v ∨ under (2 * v + 1) i = true ∨ under (2 * v + 2) i = true := by
  induction i using Nat.strong_induction_on with
  | _ i ih =>
    rw [under_eq v, under_eq (2 * v + 1), under_eq (2 * v + 2)]
    by_cases hi : i = v
    · simp [hi]
    · by_cases hzero : i = 0
      · simp [hzero]
      · have hrec := ih ((i - 1) / 2) (by omega)
        by_cases hleft : i = 2 * v + 1
        · rw [if_neg hi, if_neg hzero, show (i - 1) / 2 = v by omega, under_self]
          simp [hleft]
        · by_cases hright : i = 2 * v + 2
          · rw [if_neg hi, if_neg hzero, show (i - 1) / 2 = v by omega, under_self]
            simp [hright]
          · have hpar : (i - 1) / 2 ≠ v := by omega
            simp [hi, hzero, hleft, hright, hrec, hpar]

/-- The two subtrees below a node have nothing in common. -/
theorem under_disjoint {v i : Nat} (hleft : under (2 * v + 1) i = true) :
    under (2 * v + 2) i = false := by
  induction i using Nat.strong_induction_on with
  | _ i ih =>
    have hle := under_le hleft
    rw [under_eq] at hleft ⊢
    by_cases hl : i = 2 * v + 1
    · rw [if_neg (by omega), if_neg (by omega), show (i - 1) / 2 = v by omega]
      rw [← Bool.not_eq_true]
      intro hr
      have := under_le hr
      omega
    · by_cases hr : i = 2 * v + 2
      · rw [if_neg hl, if_neg (by omega), show (i - 1) / 2 = v by omega] at hleft
        have := under_le hleft
        omega
      · rw [if_neg hl, if_neg (by omega)] at hleft
        rw [if_neg hr, if_neg (by omega)]
        exact ih _ (by omega) hleft

theorem under_same_level {k v i : Nat} (hv : 2 ^ k ≤ v + 1) (hi : i + 1 < 2 ^ (k + 1))
    (h : under v i = true) : i = v := by
  rw [under_eq] at h
  split at h
  · assumption
  · split at h
    · cases h
    · have hle := under_le h
      rw [pow_succ] at hi
      omega

/-- The nodes of level `k` under node `m` of level `k - e` are the numbers that
begin with `m`. -/
theorem under_level {k e v m p : Nat} (hek : e ≤ k) (hv : v + 1 = 2 ^ (k - e) + m)
    (hm : m < 2 ^ (k - e)) (hp : p < 2 ^ k) : under v (p + (2 ^ k - 1)) = true ↔ p / 2 ^ e = m := by
  have hpos := Nat.two_pow_pos k
  induction e generalizing v m with
  | zero =>
    rw [Nat.sub_zero] at hv
    rw [pow_zero, Nat.div_one]
    constructor
    · intro h
      have hsame := under_same_level (k := k) (by omega) (by rw [pow_succ]; omega) h
      omega
    · intro h
      rw [show p + (2 ^ k - 1) = v by omega, under_self]
  | succ e ih =>
    have hdouble : 2 ^ (k - e) = 2 * 2 ^ (k - (e + 1)) := by
      rw [show k - e = (k - (e + 1)) + 1 by omega, pow_succ, mul_comm]
    have hbelow : 2 ^ (k - e) ≤ 2 ^ k :=
      Nat.pow_le_pow_right (by omega) (by omega)
    have hhalf : p / 2 ^ (e + 1) = p / 2 ^ e / 2 := by
      rw [pow_succ, Nat.div_div_eq_div_mul]
    have hleft : under (2 * v + 1) (p + (2 ^ k - 1)) = true ↔ p / 2 ^ e = 2 * m :=
      ih (by omega) (by omega) (by omega)
    have hright : under (2 * v + 2) (p + (2 ^ k - 1)) = true ↔ p / 2 ^ e = 2 * m + 1 :=
      ih (by omega) (by omega) (by omega)
    rw [under_split, hleft, hright, hhalf]
    -- node `v` itself is on an earlier level
    have hearlier : p + (2 ^ k - 1) ≠ v := by omega
    omega

end Libvsync.Core
