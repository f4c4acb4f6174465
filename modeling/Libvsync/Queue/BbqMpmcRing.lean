import Libvsync.Queue.BbqMpmc
import Mathlib.Data.Nat.Count

/-!
The cursors of `bbq_mpmc` as numbers that do not wrap. Use `u` is one of block `u % blocks`
and has version `(u - 1) / blocks`, as in `bbq_spsc`; its entries have the numbers from
`u * entries` on. Each of the four cursors has a use that was opened last, and its cells belong
to the uses of one window. What is committed and what is consumed comes in any order, so these
cursors count the entries that are marked.
-/

namespace Libvsync.Queue.BbqMpmc

open Libvsync.Core
open Libvsync.Queue.Bbq
open Libvsync.Queue.BbqSpsc (Config place)
open Libvsync.Queue.BbqCalls (MpmcQueue bbqResetBlockCursorHeavy mpmcInitial)

theorem mod_gap {u v n : Nat} (h : u % n = v % n) (hlt : u < v) : u + n ≤ v := by
  have hdvd : n ∣ v - u := (Nat.modEq_iff_dvd' hlt.le).mp h
  have hle := Nat.le_of_dvd (Nat.sub_pos_of_lt hlt) hdvd
  omega

theorem version_lt {u v n : Nat} (hn : 0 < n) (hu : 0 < u) (h : u % n = v % n) (hlt : u < v) :
    (u - 1) / n < (v - 1) / n := by
  have hgap := mod_gap h hlt
  have hle : (u - 1 + n) / n ≤ (v - 1) / n := Nat.div_le_div_right (by omega)
  rw [Nat.add_div_right _ hn] at hle
  omega

theorem use_eq {u v n : Nat} (hn : 0 < n) (hu : 0 < u) (hv : 0 < v) (h : u % n = v % n)
    (hversion : (u - 1) / n = (v - 1) / n) : u = v := by
  rcases Nat.lt_trichotomy u v with hlt | heq | hgt
  · exact absurd hversion (version_lt hn hu h hlt).ne
  · exact heq
  · exact absurd hversion (version_lt hn hv h.symm hgt).ne'

/-- The number in a window of `n` numbers that selects the cell of `v`. -/
theorem exists_use {n top : Nat} (hn : 0 < n) (htop : n ≤ top) (v : Nat) :
    ∃ u, u ≤ top ∧ top < u + n ∧ u % n = v % n ∧ (v ≤ top → v ≤ u) := by
  obtain ⟨low, hlow⟩ := Nat.exists_eq_add_of_le htop
  have hmod : (low + 1 + (v + (n - (low + 1) % n)) % n) % n = v % n := by
    have hlt := Nat.mod_lt (low + 1) hn
    have hsplit : low + 1 + (v + (n - (low + 1) % n)) = v + n * ((low + 1) / n + 1) := by
      have hdiv := Nat.div_add_mod (low + 1) n
      rw [Nat.mul_succ]
      omega
    rw [Nat.add_mod_mod, hsplit, Nat.add_mul_mod_self_left]
  have hlt := Nat.mod_lt (v + (n - (low + 1) % n)) hn
  refine ⟨_, ?_, ?_, hmod, fun hv => ?_⟩
  · omega
  · omega
  · apply Nat.le_of_not_lt
    intro hgt
    have hgap := mod_gap hmod hgt
    omega

variable {cfg : Config}

/-- A cursor in use `u` of its block, with `x` entries. -/
def word (cfg : Config) (u x : Nat) : Nat :=
  bbqLocalCompose ((u - 1) / cfg.blocks) (cfg.initValue + 8 * x)

theorem word_idx {u x : Nat} (hx : cfg.initValue + 8 * x < 2 ^ 20) :
    bbqLocalIdx (word cfg u x) = cfg.initValue + 8 * x :=
  bbqLocalIdx_compose _ hx

theorem word_vsn {u x : Nat} (hu : (u - 1) / cfg.blocks < 2 ^ 44)
    (hx : cfg.initValue + 8 * x < 2 ^ 20) : bbqLocalVsn (word cfg u x) = (u - 1) / cfg.blocks := by
  rw [word, bbqLocalVsn_compose _ hx, Nat.mod_eq_of_lt hu]

theorem word_eq {u x : Nat} (hu : (u - 1) / cfg.blocks < 2 ^ 44)
    (hx : cfg.initValue + 8 * x < 2 ^ 20) :
    word cfg u x = (u - 1) / cfg.blocks * 2 ^ 20 + (cfg.initValue + 8 * x) := by
  rw [word, bbqLocalCompose_eq _ hx, Nat.mod_eq_of_lt hu]

/-- The word tells the use, given the block, and the number of entries. -/
theorem word_inj {u v x y : Nat} (hu : 0 < u) (hv : 0 < v) (h : u % cfg.blocks = v % cfg.blocks)
    (hu' : (u - 1) / cfg.blocks < 2 ^ 44) (hv' : (v - 1) / cfg.blocks < 2 ^ 44)
    (hx : cfg.initValue + 8 * x < 2 ^ 20) (hy : cfg.initValue + 8 * y < 2 ^ 20)
    (heq : word cfg u x = word cfg v y) : u = v ∧ x = y := by
  rw [word_eq hu' hx, word_eq hv' hy] at heq
  refine ⟨use_eq cfg.blocks_pos hu hv h ?_, ?_⟩
  · omega
  · omega

/-- Words of one block are in the order of the uses. -/
theorem word_lt {u v x y : Nat} (hu : 0 < u) (h : u % cfg.blocks = v % cfg.blocks)
    (hv : (v - 1) / cfg.blocks < 2 ^ 44) (hx : cfg.initValue + 8 * x < 2 ^ 20)
    (hy : cfg.initValue + 8 * y < 2 ^ 20) (hlt : u < v) : word cfg u x < word cfg v y := by
  have hversion := version_lt cfg.blocks_pos hu h hlt
  rw [word_eq (hversion.trans hv) hx, word_eq hv hy]
  omega

/-- The cells of one of the cursors: the use opened last is `top`, and use `u` counts `fill u`
entries. -/
def Cells (cfg : Config) (cells : Nat → Nat) (top : Nat) (fill : Nat → Nat) : Prop :=
  Window cfg.blocks cells (top + 1 - cfg.blocks) fun u => word cfg u (fill u)

namespace Cells

variable {cells : Nat → Nat} {top u v m : Nat} {fill fill' : Nat → Nat}

theorem self (h : Cells cfg cells top fill) (hu : u ≤ top) (hu' : top < u + cfg.blocks) :
    cells (u % cfg.blocks) = word cfg u (fill u) := by
  apply h
  · omega
  · omega

/-- A cell is read. -/
theorem get (h : Cells cfg cells top fill) (htop : cfg.blocks ≤ top) (v : Nat) :
    ∃ u, u ≤ top ∧ top < u + cfg.blocks ∧ u % cfg.blocks = v % cfg.blocks ∧ (v ≤ top → v ≤ u) ∧
      cells (v % cfg.blocks) = word cfg u (fill u) := by
  obtain ⟨u, hu, hu', hmod, hle⟩ := exists_use cfg.blocks_pos htop v
  refine ⟨u, hu, hu', hmod, hle, ?_⟩
  rw [← hmod]
  exact h.self hu hu'

theorem add (h : Cells cfg cells top fill) (hu : u ≤ top) (hu' : top < u + cfg.blocks)
    (hfits : cfg.initValue + 8 * (fill u + m) < 2 ^ 20) (hself : fill' u = fill u + m)
    (hothers : ∀ v, v ≠ u → fill' v = fill v) :
    Cells cfg (Function.update cells (u % cfg.blocks)
      (wadd 64 (cells (u % cfg.blocks)) (8 * m))) top fill' := by
  rw [Nat.mul_add, ← Nat.add_assoc] at hfits
  apply Window.set h
  · omega
  · omega
  · rw [h.self hu hu', word, wadd_compose _ hfits, word, hself]
    congr 1
    omega
  · intro v hv
    rw [hothers v hv]

theorem openUse (h : Cells cfg cells top fill) (v : Nat) (htop : cfg.blocks ≤ top) (hv : 0 < v)
    (hnext : v ≤ top + 1) (hnew : fill (top + 1) = 0) (hversion : (top - 1) / cfg.blocks < 2 ^ 44)
    (hversion' : (v - 1) / cfg.blocks < 2 ^ 44)
    (hfits : ∀ u, cfg.initValue + 8 * fill u < 2 ^ 20) :
    Cells cfg (bbqResetBlockCursorHeavy cells (v % cfg.blocks) ((v - 1) / cfg.blocks)
      cfg.initValue) (max top v) fill := by
  have hpos := cfg.blocks_pos
  have hinit : cfg.initValue + 8 * 0 < 2 ^ 20 := by
    have hzero := hfits (top + 1)
    rwa [hnew] at hzero
  have hword : bbqLocalCompose ((v - 1) / cfg.blocks) cfg.initValue = word cfg v 0 := rfl
  rw [bbqResetBlockCursorHeavy, hword]
  rcases Nat.lt_or_ge top v with hlt | hge
  · obtain rfl : v = top + 1 := by omega
    have hlow : top + 1 - cfg.blocks + cfg.blocks = top + 1 := by omega
    have hmod : (top + 1 - cfg.blocks) % cfg.blocks = (top + 1) % cfg.blocks := by
      rw [← Nat.add_mod_right (top + 1 - cfg.blocks), hlow]
    have hcell : cells ((top + 1) % cfg.blocks) =
        word cfg (top + 1 - cfg.blocks) (fill (top + 1 - cfg.blocks)) := by
      rw [← hmod]
      exact h.self (by omega) (by omega)
    have hless : cells ((top + 1) % cfg.blocks) < word cfg (top + 1) 0 := by
      rw [hcell]
      exact word_lt (by omega) hmod hversion' (hfits _) hinit (by omega)
    rw [max_eq_right hless.le, max_eq_right (Nat.le_succ top), Cells]
    have hpush := Window.push h
      (by rw [hlow, hnew]) fun _ _ _ => rfl
    rw [hlow] at hpush
    have hlow' : top + 1 + 1 - cfg.blocks = top + 1 - cfg.blocks + 1 := by omega
    rw [hlow']
    exact hpush
  · obtain ⟨u, hu, hu', hmod, hle, hcell⟩ := h.get htop v
    have hsame : word cfg v 0 ≤ cells (v % cfg.blocks) := by
      rw [hcell]
      rcases (hle hge).lt_or_eq with hlt | heq
      · refine (word_lt hv hmod.symm ?_ hinit (hfits u) hlt).le
        exact lt_of_le_of_lt (Nat.div_le_div_right (by omega)) hversion
      · have hinit' := hfits u
        rw [heq] at hversion'
        rw [heq, word_eq hversion' hinit, word_eq hversion' hinit']
        omega
    rw [max_eq_left hsame, Function.update_eq_self, max_eq_left hge]
    exact h

end Cells

/-- How many entries of use `u` have a number below `bound`. -/
def upTo (cfg : Config) (bound u : Nat) : Nat := min cfg.entries (bound - u * cfg.entries)

/-- How many entries of use `u` are marked. -/
def marked (cfg : Config) (p : Nat → Bool) (u : Nat) : Nat :=
  Nat.count (fun j => p (u * cfg.entries + j) = true) cfg.entries

/-- A range of entries is marked. -/
def mark (p : Nat → Bool) (first m : Nat) (k : Nat) : Bool :=
  p k || (decide (first ≤ k) && decide (k < first + m))

section Entries

variable {p : Nat → Bool} {bound u v first m k : Nat}

theorem mark_iff : mark p first m k = true ↔ p k = true ∨ first ≤ k ∧ k < first + m := by
  simp [mark]

theorem upTo_le : upTo cfg bound u ≤ cfg.entries := Nat.min_le_left ..

theorem upTo_full (hpos : 0 < cfg.entries) :
    cfg.entries ≤ upTo cfg bound u ↔ (u + 1) * cfg.entries ≤ bound := by
  rw [upTo, Nat.succ_mul]
  omega

theorem upTo_none (h : bound ≤ u * cfg.entries) : upTo cfg bound u = 0 := by
  rw [upTo]
  omega

theorem upTo_last (h : u * cfg.entries ≤ bound) (h' : bound ≤ (u + 1) * cfg.entries) :
    u * cfg.entries + upTo cfg bound u = bound := by
  rw [Nat.succ_mul] at h'
  rw [upTo]
  omega

theorem start_le (cfg : Config) (h : u ≤ v) : u * cfg.entries ≤ v * cfg.entries :=
  Nat.mul_le_mul_right _ h

/-- Only the use in which the bound grows gets more entries below it. -/
theorem upTo_grow {bound' : Nat} (h : u * cfg.entries ≤ bound) (hle : bound ≤ bound')
    (h' : bound' ≤ (u + 1) * cfg.entries) (hv : v ≠ u) : upTo cfg bound' v = upTo cfg bound v := by
  rcases Nat.lt_or_gt_of_ne hv with hlt | hgt
  · have hbelow := start_le cfg (Nat.succ_le_of_lt hlt)
    rw [Nat.succ_mul] at hbelow
    rw [upTo, upTo]
    omega
  · have habove := start_le cfg (Nat.succ_le_of_lt hgt)
    rw [upTo_none (h'.trans habove), upTo_none ((hle.trans h').trans habove)]

theorem marked_le : marked cfg p u ≤ cfg.entries := Nat.count_le _

theorem marked_none (h : ∀ k, p k = true → k < u * cfg.entries) : marked cfg p u = 0 := by
  apply Nat.count_iff_forall_not.mpr
  intro j _ hj
  have hlt := h _ hj
  omega

theorem marked_full : marked cfg p u = cfg.entries ↔
    ∀ j, j < cfg.entries → p (u * cfg.entries + j) = true :=
  Nat.count_iff_forall

theorem le_marked {x : Nat} (hx : x ≤ cfg.entries)
    (h : ∀ j, j < x → p (u * cfg.entries + j) = true) : x ≤ marked cfg p u := by
  calc
    x = Nat.count (fun j => p (u * cfg.entries + j) = true) x := (Nat.count_iff_forall.mpr h).symm
    _ ≤ marked cfg p u := Nat.count_monotone _ hx

/-- If no others can be marked, as many marks are all of the first ones. -/
theorem marked_first {y : Nat} (h : ∀ j, j < cfg.entries → p (u * cfg.entries + j) = true → j < y)
    (hy : y ≤ marked cfg p u) : ∀ j, j < y → p (u * cfg.entries + j) = true := by
  obtain ⟨rest, hrest⟩ := Nat.exists_eq_add_of_le (hy.trans marked_le)
  rw [marked] at hy
  generalize u * cfg.entries = start at h hy ⊢
  have hnone : Nat.count (fun j => p (start + (y + j)) = true) rest = 0 := by
    apply Nat.count_iff_forall_not.mpr
    intro j hj hmarked
    have hlt := h (y + j) (by omega) hmarked
    omega
  rw [hrest, Nat.count_add, hnone, Nat.add_zero] at hy
  exact Nat.count_iff_forall.mp ((Nat.count_le _).antisymm hy)

theorem count_congr {f f' : Nat → Prop} [DecidablePred f] [DecidablePred f'] {n : Nat}
    (h : ∀ j, j < n → (f j ↔ f' j)) : Nat.count f n = Nat.count f' n := by
  apply le_antisymm
  · exact Nat.count_mono_left fun j hj => (h j hj).mp
  · exact Nat.count_mono_left fun j hj => (h j hj).mpr

theorem marked_mark {o : Nat} (hfirst : first = u * cfg.entries + o) (hm : o + m ≤ cfg.entries)
    (hfresh : ∀ j, j < m → p (first + j) = false) :
    marked cfg (mark p first m) u = marked cfg p u + m := by
  obtain ⟨rest, hrest⟩ := Nat.exists_eq_add_of_le hm
  rw [marked, marked]
  generalize u * cfg.entries = start at hfirst ⊢
  have hlow : Nat.count (fun j => mark p first m (start + j) = true) o =
      Nat.count (fun j => p (start + j) = true) o := by
    apply count_congr
    intro j hj
    rw [mark_iff, or_iff_left]
    omega
  have hmid : Nat.count (fun j => mark p first m (start + (o + j)) = true) m = m := by
    apply Nat.count_iff_forall.mpr
    intro j hj
    rw [mark_iff]
    omega
  have hmid' : Nat.count (fun j => p (start + (o + j)) = true) m = 0 := by
    apply Nat.count_iff_forall_not.mpr
    intro j hj
    rw [← Nat.add_assoc, ← hfirst, hfresh j hj]
    exact Bool.false_ne_true
  have hhigh : Nat.count (fun j => mark p first m (start + (o + m + j)) = true) rest =
      Nat.count (fun j => p (start + (o + m + j)) = true) rest := by
    apply count_congr
    intro j hj
    rw [mark_iff, or_iff_left]
    omega
  rw [hrest, Nat.count_add, Nat.count_add, Nat.count_add _ (o + m),
    Nat.count_add, hlow, hmid, hmid', hhigh]
  omega

theorem marked_mark_other {o : Nat} (hfirst : first = u * cfg.entries + o)
    (hm : o + m ≤ cfg.entries) (hv : v ≠ u) :
    marked cfg (mark p first m) v = marked cfg p v := by
  apply count_congr
  intro j hj
  rw [mark_iff, or_iff_left]
  rcases Nat.lt_or_gt_of_ne hv with hlt | hgt
  · have hbelow := start_le cfg (Nat.succ_le_of_lt hlt)
    rw [Nat.succ_mul] at hbelow
    omega
  · have habove := start_le cfg (Nat.succ_le_of_lt hgt)
    rw [Nat.succ_mul] at habove
    omega

end Entries

end Libvsync.Queue.BbqMpmc
