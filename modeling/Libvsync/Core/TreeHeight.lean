import Libvsync.Core.SearchTree
import Mathlib.Data.Nat.Log

/-!
The height of external red-black trees. A path has at most two nodes for each black one, and a
tree whose paths have `n` black nodes has at least `2 ^ n` external nodes, so that its height is
logarithmic in their number.
-/

namespace Libvsync.Core

variable {Id Key Value : Type}

namespace Tree

/-- The edges of the longest path. -/
def height : Tree Id Key Value → Nat
  | .ext _ _ _ => 0
  | .node _ _ _ l r => max l.height r.height + 1

/-- The elements from left to right. -/
def entries : Tree Id Key Value → List (Key × Value)
  | .ext _ k v => [(k, v)]
  | .node _ _ _ l r => l.entries ++ r.entries

theorem height_lt_size (t : Tree Id Key Value) : t.height < t.size := by
  induction t with
  | ext i k v => exact Nat.zero_lt_one
  | node i red k l r ihl ihr =>
    rw [height, size]
    omega

theorem mem_entries {t : Tree Id Key Value} {x : Key × Value} :
    x ∈ t.entries ↔ ∃ i, Item.ext i x.1 x.2 ∈ t.inorder := by
  induction t with
  | ext i k v => simp [entries, inorder, Prod.ext_iff]
  | node i red k l r ihl ihr =>
    simp [entries, inorder, ihl, ihr, exists_or]

end Tree

theorem Item.before_of_lt [LinearOrder Key] {a b : Item Id Key Value} (h : a.key < b.key) :
    a.Before b := by
  cases a with
  | ext i k v => exact h
  | sep i k =>
    cases b with
    | ext j k' v => exact le_of_lt h
    | sep j k' => exact h

theorem Tree.entries_ne_nil (t : Tree Id Key Value) : t.entries ≠ [] := by
  induction t with
  | ext i k v => exact List.cons_ne_nil _ _
  | node i red k l r ihl ihr => exact List.append_ne_nil_of_left_ne_nil ihl _

/-- Some element lies to the left of a separator. -/
theorem Sorted.lt_sep [LinearOrder Key] {t : Tree Id Key Value} (h : Sorted t) {i : Id} {k : Key}
    (hmem : .sep i k ∈ t.inorder) : ∃ x ∈ t.entries, x.1 < k := by
  induction t with
  | ext j key v => cases List.mem_singleton.mp hmem
  | node j red key l r ihl ihr =>
    rw [Sorted, Tree.inorder, List.pairwise_append, List.pairwise_cons] at h
    obtain ⟨hl, ⟨-, hr⟩, hcross⟩ := h
    rw [Tree.inorder, List.mem_append, List.mem_cons] at hmem
    rcases hmem with hmem | heq | hmem
    · obtain ⟨x, hx, hlt⟩ := ihl hl hmem
      exact ⟨x, List.mem_append_left _ hx, hlt⟩
    · obtain ⟨x, hx⟩ := List.exists_mem_of_ne_nil _ l.entries_ne_nil
      obtain ⟨j', hj⟩ := Tree.mem_entries.mp hx
      cases heq
      exact ⟨x, List.mem_append_left _ hx, hcross _ hj _ List.mem_cons_self⟩
    · obtain ⟨x, hx, hlt⟩ := ihr hr hmem
      exact ⟨x, List.mem_append_right _ hx, hlt⟩

theorem Sorted.nodup_keys [LinearOrder Key] {t : Tree Id Key Value} (h : Sorted t) :
    (t.entries.map Prod.fst).Nodup := by
  induction t with
  | ext i k v => exact List.nodup_singleton k
  | node i red k l r ihl ihr =>
    rw [Sorted, Tree.inorder, List.pairwise_append, List.pairwise_cons] at h
    obtain ⟨hl, ⟨hr, hr'⟩, hcross⟩ := h
    rw [Tree.entries, List.map_append, List.nodup_append']
    refine ⟨ihl hl, ihr hr', fun key hkl hkr => ?_⟩
    obtain ⟨x, hx, rfl⟩ := List.mem_map.mp hkl
    obtain ⟨y, hy, heq⟩ := List.mem_map.mp hkr
    obtain ⟨j, hx⟩ := Tree.mem_entries.mp hx
    obtain ⟨j', hy⟩ := Tree.mem_entries.mp hy
    have hlt : x.1 < y.1 := hcross _ hx _ (List.mem_cons_of_mem _ hy)
    exact hlt.ne heq.symm

/-- The elements of a sorted tree are in the order of their keys. -/
theorem Sorted.entries_lt [LinearOrder Key] {t : Tree Id Key Value} (h : Sorted t) :
    t.entries.Pairwise (fun x y => x.1 < y.1) := by
  induction t with
  | ext i k v => exact List.pairwise_singleton ..
  | node i red k l r ihl ihr =>
    rw [Sorted, Tree.inorder, List.pairwise_append, List.pairwise_cons] at h
    obtain ⟨hl, ⟨-, hr⟩, hcross⟩ := h
    refine List.pairwise_append.mpr ⟨ihl hl, ihr hr, ?_⟩
    intro x hx y hy
    obtain ⟨j, hx⟩ := Tree.mem_entries.mp hx
    obtain ⟨j', hy⟩ := Tree.mem_entries.mp hy
    exact hcross _ hx _ (List.mem_cons_of_mem _ hy)

namespace Rb

variable {t : Tree Id Key Value} {pr : Bool} {n : Nat}

/-- Red nodes alternate with black ones, and below a red node a black one comes first. -/
theorem height_le (h : Rb pr t n) : t.height ≤ 2 * n + if pr then 0 else 1 := by
  induction t generalizing pr n with
  | ext i k v => exact Nat.zero_le _
  | node i red k l r ihl ihr =>
    cases red with
    | true =>
      obtain ⟨rfl, hl, hr⟩ := h
      have hleft := ihl hl
      have hright := ihr hr
      rw [if_pos rfl] at hleft hright
      rw [Tree.height, if_neg Bool.false_ne_true]
      omega
    | false =>
      obtain ⟨m, rfl, hl, hr⟩ := h
      have hleft := ihl hl
      have hright := ihr hr
      rw [if_neg Bool.false_ne_true] at hleft hright
      rw [Tree.height]
      omega

theorem pow_le (h : Rb pr t n) : 2 ^ n ≤ t.entries.length := by
  induction t generalizing pr n with
  | ext i k v =>
    obtain rfl : n = 0 := h
    exact Nat.le_refl 1
  | node i red k l r ihl ihr =>
    rw [Tree.entries, List.length_append]
    cases red with
    | true =>
      obtain ⟨-, hl, hr⟩ := h
      exact (ihl hl).trans (Nat.le_add_right _ _)
    | false =>
      obtain ⟨m, rfl, hl, hr⟩ := h
      have hleft := ihl hl
      have hright := ihr hr
      rw [Nat.pow_succ]
      omega

theorem height_le_log (h : Rb true t n) : t.height ≤ 2 * Nat.log 2 t.entries.length := by
  have hheight : t.height ≤ 2 * n := h.height_le
  have hlog : n ≤ Nat.log 2 t.entries.length := Nat.le_log_of_pow_le Nat.one_lt_two h.pow_le
  omega

end Rb

end Libvsync.Core
