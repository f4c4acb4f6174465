import Mathlib.Data.Nat.ModEq
import Mathlib.Tactic.Ring

/-!
Unsigned machine words of width `w`, kept as naturals below `2 ^ w`. A counter
that is only ever incremented is described by its ideal value, of which the
word keeps the residue.
-/

namespace Libvsync.Core

/-- Unsigned addition. -/
def wadd (w a b : Nat) : Nat := (a + b) % 2 ^ w

/-- Unsigned subtraction. -/
def wsub (w a b : Nat) : Nat := (a + (2 ^ w - b)) % 2 ^ w

theorem wadd_lt (w a b : Nat) : wadd w a b < 2 ^ w :=
  Nat.mod_lt _ (Nat.two_pow_pos w)

theorem wsub_lt (w a b : Nat) : wsub w a b < 2 ^ w :=
  Nat.mod_lt _ (Nat.two_pow_pos w)

/-- A sum that fits does not wrap. -/
theorem wadd_of_lt {w a b : Nat} (h : a + b < 2 ^ w) : wadd w a b = a + b :=
  Nat.mod_eq_of_lt h

theorem wadd_mod (w a b : Nat) : wadd w (a % 2 ^ w) b = (a + b) % 2 ^ w := by
  simp [wadd, Nat.mod_add_mod]

/-- The distance of two counters is read off their words as long as it fits. -/
theorem wsub_counter {w low high : Nat} (hle : low ≤ high)
    (hfit : high - low < 2 ^ w) :
    wsub w (high % 2 ^ w) (low % 2 ^ w) = high - low := by
  obtain ⟨d, rfl⟩ := Nat.exists_eq_add_of_le hle
  have hd : d < 2 ^ w := by omega
  have hlow : low % 2 ^ w ≤ 2 ^ w := (Nat.mod_lt _ (Nat.two_pow_pos w)).le
  have hsplit : (low + d) % 2 ^ w + (2 ^ w - low % 2 ^ w) ≡ d [MOD 2 ^ w] := by
    have h1 : (low + d) % 2 ^ w + (2 ^ w - low % 2 ^ w) ≡
        (low % 2 ^ w + d) + (2 ^ w - low % 2 ^ w) [MOD 2 ^ w] := by
      apply Nat.ModEq.add_right
      simp [Nat.ModEq]
    have h2 : (low % 2 ^ w + d) + (2 ^ w - low % 2 ^ w) = d + 2 ^ w := by omega
    rw [h2] at h1
    exact h1.trans (by simp [Nat.ModEq])
  rw [wsub, hsplit, Nat.mod_eq_of_lt hd]
  omega

/-- Two counters less than a full turn apart have equal words only when they
are equal. -/
theorem counter_eq_of_mod_eq {w low high : Nat} (hle : low ≤ high)
    (hfit : high - low < 2 ^ w) (h : high % 2 ^ w = low % 2 ^ w) : high = low := by
  have hzero := wsub_counter hle hfit
  rw [h, wsub_counter (le_refl low) (by simp)] at hzero
  omega

end Libvsync.Core
