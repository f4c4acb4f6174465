import Mathlib.Data.Nat.ModEq

/-!
Positions on a ring of `n` slots. From any starting slot every slot is met at
exactly one distance below `n`.
-/

namespace Libvsync.Core

/-- How far slot `i` lies behind slot `a`. -/
def ringDist (n a i : Nat) : Nat := (i + (n - a % n)) % n

variable {n : Nat}

theorem ringDist_lt (hn : 0 < n) (a i : Nat) : ringDist n a i < n := Nat.mod_lt _ hn

theorem add_ringDist (hn : 0 < n) (a i : Nat) : (a + ringDist n a i) % n = i % n := by
  have ha : a % n ≤ n := (Nat.mod_lt a hn).le
  have hsum : a % n + (i + (n - a % n)) = i + n := by omega
  calc (a + ringDist n a i) % n = (a + (i + (n - a % n))) % n := by
        rw [ringDist, Nat.add_mod_mod]
    _ = (a % n + (i + (n - a % n))) % n := by rw [Nat.mod_add_mod]
    _ = i % n := by rw [hsum, Nat.add_mod_right]

/-- Different distances below `n` lead to different slots. -/
theorem ring_inj {a d d' : Nat} (hd : d < n) (hd' : d' < n) (h : (a + d) % n = (a + d') % n) :
    d = d' := by
  have hmod : d ≡ d' [MOD n] := Nat.ModEq.add_left_cancel' a h
  exact hmod.eq_of_lt_of_lt hd hd'

/-- Two positions in the same slot are at least a lap apart. -/
theorem lap_apart {size p q : Nat} (hlt : p < q) (hslot : p % size = q % size) : p + size ≤ q := by
  obtain ⟨k, hk⟩ := (Nat.modEq_iff_dvd' hlt.le).mp hslot
  have hpos : 0 < k := by
    rcases Nat.eq_zero_or_pos k with rfl | hpos
    · omega
    · exact hpos
  have hle : size * 1 ≤ size * k := Nat.mul_le_mul_left size hpos
  omega

end Libvsync.Core
