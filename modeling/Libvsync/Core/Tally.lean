import Mathlib.Algebra.BigOperators.Group.Finset.Piecewise
import Mathlib.Algebra.Order.BigOperators.Group.Finset

/-!
Counting over threads. Every thread carries a weight that depends on where it
stands; when one thread moves, the total changes by the difference of two
weights.
-/

namespace Libvsync.Core

open Function

section Busy

variable {T α : Type*} [DecidableEq T] {weight : α → Nat} {place : T → α} {busy : Finset T}

/-- With any number of threads only the busy ones have a weight. -/
theorem sum_insert_busy (hbusy : ∀ u, u ∉ busy → weight (place u) = 0) (t : T) :
    ∑ u ∈ insert t busy, weight (place u) = ∑ u ∈ busy, weight (place u) := by
  by_cases ht : t ∈ busy
  · rw [Finset.insert_eq_of_mem ht]
  · rw [Finset.sum_insert ht, hbusy t ht, Nat.zero_add]

theorem sum_update_busy (hbusy : ∀ u, u ∉ busy → weight (place u) = 0) (t : T) (a : α) :
    ∑ u ∈ insert t busy, weight (update place t a u) + weight (place t) =
      ∑ u ∈ busy, weight (place u) + weight a := by
  have hweights : (fun u => weight (update place t a u)) =
      update (fun u => weight (place u)) t (weight a) := by
    funext u
    exact Function.apply_update (fun _ => weight) place t a u
  have hmem : t ∈ insert t busy := Finset.mem_insert_self t busy
  have hsplit := Finset.sum_update_of_mem hmem (fun u => weight (place u)) (weight a)
  have hwhole := Finset.sum_update_of_mem hmem (fun u => weight (place u)) (weight (place t))
  rw [update_eq_self, sum_insert_busy hbusy] at hwhole
  rw [hweights, hsplit, hwhole]
  omega

end Busy

variable {T α : Type*} [Fintype T]

/-- The total weight of the threads. -/
def tally (weight : α → Nat) (place : T → α) : Nat := ∑ t, weight (place t)

variable {weight : α → Nat} {place : T → α}

theorem tally_update [DecidableEq T] (weight : α → Nat) (place : T → α) (t : T) (a : α) :
    tally weight (update place t a) + weight (place t) =
      tally weight place + weight a := by
  have hweights : (fun u => weight (update place t a u)) =
      update (fun u => weight (place u)) t (weight a) := by
    funext u
    exact Function.apply_update (fun _ => weight) place t a u
  have hsplit := Finset.sum_update_of_mem (Finset.mem_univ t) (fun u => weight (place u)) (weight a)
  have hwhole := Finset.sum_update_of_mem (Finset.mem_univ t) (fun u => weight (place u))
    (weight (place t))
  rw [update_eq_self] at hwhole
  rw [tally, tally, hweights, hsplit, hwhole]
  omega

theorem le_tally (t : T) : weight (place t) ≤ tally weight place :=
  Finset.single_le_sum (f := fun u => weight (place u)) (fun _ _ => Nat.zero_le _)
    (Finset.mem_univ t)

theorem tally_eq_zero (h : ∀ t, weight (place t) = 0) : tally weight place = 0 :=
  Finset.sum_eq_zero fun t _ => h t

theorem tally_congr {weight' : α → Nat} (h : ∀ a, weight' a = weight a) :
    tally weight' place = tally weight place :=
  Finset.sum_congr rfl fun t _ => h (place t)

theorem tally_mono {weight' : α → Nat} (h : ∀ a, weight' a ≤ weight a) :
    tally weight' place ≤ tally weight place :=
  Finset.sum_le_sum fun t _ => h (place t)

theorem tally_add (weight weight' : α → Nat) (place : T → α) :
    tally (fun a => weight a + weight' a) place = tally weight place + tally weight' place :=
  Finset.sum_add_distrib

end Libvsync.Core
