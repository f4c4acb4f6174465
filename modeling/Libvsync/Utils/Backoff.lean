import Mathlib.Algebra.Order.Group.Nat
import Mathlib.Data.List.Induction

/-!
The randomised backoff `xbobackoff`. Each call sleeps for a random time up to a limit, which is
doubled up to a maximum. The doubling is done in 32 bits before the maximum is applied.
-/

namespace Libvsync.Utils.Backoff

/-- `backoff_t`, less the two functions. -/
structure BackoffT where
  maxDelay : Nat
  limit : Nat
  deriving DecidableEq

/-- `backoff_rand_fun_t`: a number within the bounds. -/
structure RandFun where
  draw : Nat → Nat → Nat
  low : ∀ min max, min ≤ max → min ≤ draw min max
  high : ∀ min max, min ≤ max → draw min max ≤ max

/-- `xbobackoff_init` -/
def xbobackoffInit (min max : Nat) : Option BackoffT :=
  if min < max then some ⟨max, min⟩ else none

/-- `xbobackoff_backoff`, with the time it passes to `usleep_fun`. -/
def xbobackoffBackoff (randFun : RandFun) (backoff : BackoffT) : BackoffT × Nat :=
  let limit := backoff.limit
  let delay := randFun.draw 0 limit
  let newLimit := min backoff.maxDelay (2 * limit % 2 ^ 32)
  ({ backoff with limit := newLimit }, delay)

/-- Calls one after the other, each with a draw of its own. -/
def run (backoff : BackoffT) (rands : List RandFun) : BackoffT :=
  rands.foldl (fun backoff randFun => (xbobackoffBackoff randFun backoff).1) backoff

/-- The limit grows to the maximum, whatever is drawn, and no call sleeps longer. -/
structure Limited (backoff : BackoffT) (max : Nat) : Prop where
  grows : ∀ rands randFun,
    (run backoff rands).limit ≤ (run backoff (rands ++ [randFun])).limit
  bounded : ∀ rands, (run backoff rands).limit ≤ max
  reached : ∃ n, ∀ rands, rands.length = n → (run backoff rands).limit = max
  slept : ∀ rands randFun, (xbobackoffBackoff randFun (run backoff rands)).2 ≤ max

theorem run_concat (backoff : BackoffT) (rands : List RandFun) (randFun : RandFun) :
    run backoff (rands ++ [randFun]) = (xbobackoffBackoff randFun (run backoff rands)).1 := by
  rw [run, List.foldl_append]
  rfl

theorem run_maxDelay (backoff : BackoffT) (rands : List RandFun) :
    (run backoff rands).maxDelay = backoff.maxDelay := by
  induction rands using List.reverseRecOn with
  | nil => rfl
  | append_singleton rands randFun ih =>
    rw [run_concat]
    exact ih

/-- One more call. -/
theorem limit_concat (backoff : BackoffT) (rands : List RandFun) (randFun : RandFun) :
    (run backoff (rands ++ [randFun])).limit =
      min backoff.maxDelay (2 * (run backoff rands).limit % 2 ^ 32) := by
  rw [run_concat, ← run_maxDelay backoff rands]
  rfl

theorem limit_zero (max : Nat) (rands : List RandFun) : (run ⟨max, 0⟩ rands).limit = 0 := by
  induction rands using List.reverseRecOn with
  | nil => rfl
  | append_singleton rands randFun ih =>
    rw [limit_concat, ih]
    exact Nat.min_zero max

theorem limit_eq {low max : Nat} (hle : low ≤ max) (hmax : max < 2 ^ 31)
    (rands : List RandFun) :
    (run ⟨max, low⟩ rands).limit = min max (2 ^ rands.length * low) := by
  induction rands using List.reverseRecOn with
  | nil =>
    rw [List.length_nil, Nat.pow_zero, Nat.one_mul]
    exact (Nat.min_eq_right hle).symm
  | append_singleton rands randFun ih =>
    have hlimit : min max (2 ^ rands.length * low) ≤ max := Nat.min_le_left _ _
    have hfits : 2 * min max (2 ^ rands.length * low) < 2 ^ 32 := by omega
    have hdouble : 2 ^ (rands.length + 1) * low = 2 * (2 ^ rands.length * low) := by
      rw [Nat.pow_succ, Nat.mul_comm _ 2, Nat.mul_assoc]
    rw [limit_concat, ih, Nat.mod_eq_of_lt hfits, List.length_append, List.length_singleton,
      hdouble]
    generalize 2 ^ rands.length * low = value
    dsimp only
    omega

/-- A maximum that has been reached is left again when its double overflows. -/
theorem limit_drops {backoff : BackoffT} {rands : List RandFun} (randFun : RandFun)
    (hhigh : 2 ^ 31 ≤ (run backoff rands).limit) (hword : (run backoff rands).limit < 2 ^ 32) :
    (run backoff (rands ++ [randFun])).limit < (run backoff rands).limit := by
  rw [limit_concat]
  have hle := Nat.min_le_right backoff.maxDelay (2 * (run backoff rands).limit % 2 ^ 32)
  omega

/-- The draw that sleeps for the whole limit. -/
def drawMax : RandFun := ⟨fun _ max => max, fun _ _ h => h, fun _ max _ => Nat.le_refl max⟩

theorem xbobackoff_limit {low max : Nat} {backoff : BackoffT}
    (hinit : xbobackoffInit low max = some backoff) (hmax : max < 2 ^ 32) :
    Limited backoff max ↔ 0 < low ∧ max < 2 ^ 31 := by
  obtain ⟨hlt, rfl⟩ : low < max ∧ ⟨max, low⟩ = backoff := by
    rw [xbobackoffInit] at hinit
    obtain ⟨hlt, heq⟩ := Option.ite_none_right_eq_some.mp hinit
    exact ⟨hlt, Option.some.inj heq⟩
  constructor
  · intro h
    obtain ⟨n, hn⟩ := h.reached
    have hreached := hn (List.replicate n drawMax) List.length_replicate
    refine ⟨Nat.pos_of_ne_zero fun hzero => ?_, Nat.lt_of_not_le fun hhigh => ?_⟩
    · rw [hzero, limit_zero] at hreached
      omega
    · have hdrops := limit_drops drawMax (hhigh.trans_eq hreached.symm)
        (hreached.trans_lt hmax)
      exact Nat.not_le.mpr hdrops (h.grows _ drawMax)
  · rintro ⟨hpos, hhalf⟩
    have hlimit := limit_eq (Nat.le_of_lt hlt) hhalf
    have hbounded (rands : List RandFun) : (run ⟨max, low⟩ rands).limit ≤ max := by
      rw [hlimit]
      exact Nat.min_le_left _ _
    refine ⟨fun rands randFun => ?_, hbounded, ⟨max, fun rands hlength => ?_⟩,
      fun rands randFun => ?_⟩
    · rw [limit_concat]
      have hle := hbounded rands
      dsimp only
      omega
    · have hgrown : max ≤ 2 ^ max * low := (Nat.le_of_lt Nat.lt_two_pow_self).trans
        (Nat.le_mul_of_pos_right _ hpos)
      rw [hlimit, hlength]
      exact Nat.min_eq_left hgrown
    · exact (randFun.high 0 _ (Nat.zero_le _)).trans (hbounded rands)

theorem xbobackoff_limit_four : Limited ⟨4, 1⟩ 4 ↔ 0 < 1 ∧ 4 < 2 ^ 31 :=
  xbobackoff_limit (show xbobackoffInit 1 4 = some ⟨4, 1⟩ by decide) (by decide)

/-- From zero the limit never grows, and from half of the range it falls to zero. -/
theorem xbobackoff_limit_stuck :
    (xbobackoffInit 0 1000 = some ⟨1000, 0⟩ ∧ ¬ Limited ⟨1000, 0⟩ 1000) ∧
    xbobackoffInit (2 ^ 31) (2 ^ 32 - 1) = some ⟨2 ^ 32 - 1, 2 ^ 31⟩ ∧
      (run ⟨2 ^ 32 - 1, 2 ^ 31⟩ [drawMax]).limit = 0 ∧
      ¬ Limited ⟨2 ^ 32 - 1, 2 ^ 31⟩ (2 ^ 32 - 1) := by
  refine ⟨⟨by decide, fun h => ?_⟩, by decide, by decide, fun h => ?_⟩
  · obtain ⟨n, hn⟩ := h.reached
    have hreached := hn (List.replicate n drawMax) List.length_replicate
    rw [limit_zero] at hreached
    omega
  · exact absurd (h.grows [] drawMax) (by decide)

end Libvsync.Utils.Backoff
