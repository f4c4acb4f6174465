import Mathlib.Data.List.Pairwise
import Mathlib.Data.Set.Lattice
import Mathlib.Order.CompletePartialOrder
import Mathlib.Order.Interval.Set.LinearOrder

/-!
Layouts of a block of memory. A region is a run of bytes, and regions are packed between two
bounds when they lie between them and no two of them meet. Layouts are put together from left
to right.
-/

namespace Libvsync.Core

structure Region where
  start : Nat
  size : Nat

namespace Region

def stop (r : Region) : Nat := r.start + r.size

def bytes (r : Region) : Set Nat := Set.Ico r.start r.stop

theorem mem_bytes {r : Region} {b : Nat} : b ∈ r.bytes ↔ r.start ≤ b ∧ b < r.stop := Set.mem_Ico

/-- The elements of an array, from `start` on. -/
def array (start size n : Nat) : List Region :=
  (List.range n).map fun i => ⟨start + size * i, size⟩

theorem mem_array {start size n : Nat} {r : Region} :
    r ∈ array start size n ↔ ∃ i < n, r = ⟨start + size * i, size⟩ := by
  simp [array, eq_comm]

end Region

structure Packed (low high : Nat) (rs : List Region) : Prop where
  apart : rs.Pairwise fun r r' => Disjoint r.bytes r'.bytes
  within : ∀ r ∈ rs, r.bytes ⊆ Set.Ico low high

namespace Packed

variable {low mid high : Nat} {rs rs' : List Region}

theorem single (start size : Nat) : Packed start (start + size) [⟨start, size⟩] where
  apart := List.pairwise_singleton _ _
  within r hr := by
    rw [List.mem_singleton.mp hr]
    exact subset_rfl

theorem array (start size n : Nat) :
    Packed start (start + size * n) (Region.array start size n) where
  apart := by
    rw [Region.array, List.pairwise_map]
    refine List.pairwise_lt_range.imp fun {i j} hij => ?_
    have hstep : size * i + size ≤ size * j := by
      rw [← Nat.mul_succ]
      exact Nat.mul_le_mul_left size hij
    refine Set.disjoint_left.mpr fun b hi hj => ?_
    rw [Region.mem_bytes] at hi hj
    simp only [Region.stop] at hi hj
    omega
  within r hr := by
    obtain ⟨i, hi, rfl⟩ := Region.mem_array.mp hr
    have hstep : size * i + size ≤ size * n := by
      rw [← Nat.mul_succ]
      exact Nat.mul_le_mul_left size hi
    intro b hb
    rw [Region.mem_bytes] at hb
    simp only [Region.stop] at hb
    exact ⟨by omega, by omega⟩

theorem mono (h : Packed low high rs) {low' high' : Nat} (hlow : low' ≤ low)
    (hhigh : high ≤ high') : Packed low' high' rs :=
  ⟨h.apart, fun r hr => (h.within r hr).trans (Set.Ico_subset_Ico hlow hhigh)⟩

/-- What ends before a bound does not meet what starts from it. -/
theorem append (h : Packed low mid rs) (h' : Packed mid high rs') (hlow : low ≤ mid)
    (hhigh : mid ≤ high) : Packed low high (rs ++ rs') where
  apart := by
    refine List.pairwise_append.mpr ⟨h.apart, h'.apart, fun r hr r' hr' => ?_⟩
    refine Set.disjoint_left.mpr fun b hb hb' => ?_
    have hbefore := h.within r hr hb
    have hafter := h'.within r' hr' hb'
    exact absurd hbefore.2 (not_lt.mpr hafter.1)
  within r hr := by
    rcases List.mem_append.mp hr with hr | hr
    · exact (h.within r hr).trans (Set.Ico_subset_Ico_right hhigh)
    · exact (h'.within r hr).trans (Set.Ico_subset_Ico_left hlow)

end Packed

end Libvsync.Core
