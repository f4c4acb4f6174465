import Mathlib.Algebra.BigOperators.Intervals
import Mathlib.Algebra.Order.BigOperators.Group.Finset

/-!
Finitely many lists that together hold the elements of a multiset, such as the free lists of an
allocator. An element that has one place is in one list, and a list is exchanged without a look
at the others.
-/

namespace Libvsync.Core

open Function

variable {α : Type*} {n i j : Nat} {lists : Nat → List α}

/-- What the lists below `n` hold. -/
def parts (n : Nat) (lists : Nat → List α) : Multiset α :=
  ∑ i ∈ Finset.range n, (lists i : Multiset α)

theorem parts_succ (n : Nat) (lists : Nat → List α) :
    parts (n + 1) lists = parts n lists + (lists n : Multiset α) :=
  Finset.sum_range_succ _ n

theorem le_parts (lists : Nat → List α) (hi : i < n) : (lists i : Multiset α) ≤ parts n lists :=
  Finset.single_le_sum (f := fun i => (lists i : Multiset α)) (fun _ _ => Multiset.zero_le _)
    (Finset.mem_range.mpr hi)

theorem mem_parts_of_mem (hi : i < n) {x : α} (hx : x ∈ lists i) : x ∈ parts n lists :=
  Multiset.mem_of_le (le_parts lists hi) (Multiset.mem_coe.mpr hx)

/-- One list is exchanged for another. -/
theorem parts_update (lists : Nat → List α) (hi : i < n) (xs : List α) :
    parts n (update lists i xs) + (lists i : Multiset α) =
      parts n lists + (xs : Multiset α) := by
  have hmem := Finset.mem_range.mpr hi
  have hsplit := Finset.add_sum_erase (Finset.range n)
    (fun k => (update lists i xs k : Multiset α)) hmem
  have hwhole := Finset.add_sum_erase (Finset.range n) (fun k => (lists k : Multiset α)) hmem
  have hrest : ∑ k ∈ (Finset.range n).erase i, (update lists i xs k : Multiset α) =
      ∑ k ∈ (Finset.range n).erase i, (lists k : Multiset α) :=
    Finset.sum_congr rfl fun k hk => by rw [update_of_ne (Finset.ne_of_mem_erase hk)]
  rw [hrest, update_self] at hsplit
  rw [parts, parts, ← hsplit, ← hwhole, add_right_comm, add_comm (xs : Multiset α),
    add_right_comm, add_right_comm]

theorem parts_update_tail (hi : i < n) {x : α} {xs : List α} (hlist : lists i = x :: xs) :
    x ::ₘ parts n (update lists i xs) = parts n lists := by
  have hupdate := parts_update lists hi xs
  rw [hlist, ← Multiset.cons_coe, Multiset.add_cons, ← Multiset.cons_add] at hupdate
  exact Multiset.add_left_inj.mp hupdate

theorem parts_update_cons (hi : i < n) (x : α) :
    parts n (update lists i (x :: lists i)) = x ::ₘ parts n lists := by
  have hupdate := parts_update lists hi (x :: lists i)
  rw [← Multiset.cons_coe, Multiset.add_cons, ← Multiset.cons_add] at hupdate
  exact Multiset.add_left_inj.mp hupdate

theorem parts_update_nil (hi : i < n) (hlist : lists i = []) (xs : List α) :
    parts n (update lists i xs) = parts n lists + (xs : Multiset α) := by
  have hupdate := parts_update lists hi xs
  rw [hlist, Multiset.coe_nil, add_zero] at hupdate
  exact hupdate

theorem not_mem_of_mem_parts (h : (parts n lists).Nodup) (hi : i < n) (hj : j < n) (hij : i ≠ j)
    {x : α} (hx : x ∈ lists i) : x ∉ lists j := by
  have hempty := parts_update lists hi ([] : List α)
  rw [Multiset.coe_nil, add_zero] at hempty
  rw [← hempty] at h
  intro hxj
  have hrest : x ∈ parts n (update lists i []) := by
    refine mem_parts_of_mem hj ?_
    rw [update_of_ne hij.symm]
    exact hxj
  exact Multiset.disjoint_left.mp (Multiset.nodup_add.mp h).2.2 hrest (Multiset.mem_coe.mpr hx)

theorem card_parts (n : Nat) (lists : Nat → List α) :
    (parts n lists).card = ∑ i ∈ Finset.range n, (lists i).length :=
  map_sum Multiset.cardHom _ _

theorem card_parts_le {b : Nat} (hb : ∀ i < n, (lists i).length ≤ b) (hi : i < n)
    (hempty : lists i = []) : (parts n lists).card ≤ (n - 1) * b := by
  have hsplit := Finset.add_sum_erase (Finset.range n) (fun i => (lists i).length)
    (Finset.mem_range.mpr hi)
  have hrest : ∑ k ∈ (Finset.range n).erase i, (lists k).length ≤
      ((Finset.range n).erase i).card * b :=
    Finset.sum_le_card_nsmul _ _ _ fun k hk =>
      hb k (Finset.mem_range.mp (Finset.mem_of_mem_erase hk))
  rw [Finset.card_erase_of_mem (Finset.mem_range.mpr hi), Finset.card_range] at hrest
  rw [card_parts, ← hsplit, hempty, List.length_nil, Nat.zero_add]
  exact hrest

end Libvsync.Core
