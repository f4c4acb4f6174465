import Mathlib.Algebra.Order.Group.Nat
import Mathlib.Data.List.Induction

/-!
The exponential backoff `xbo`. Each call is meant to wait for a value that grows by a factor up
to a maximum. The value is updated, but the waiting loop is bounded by the maximum.
-/

namespace Libvsync.Utils.Xbo

structure XboT where
  min : Nat
  max : Nat
  factor : Nat
  value : Nat
  deriving DecidableEq

/-- `xbo_init` -/
def xboInit (min max factor : Nat) : XboT := ⟨min, max, factor, min⟩

/-- `xbo_reset` -/
def xboReset (x : XboT) : XboT := { x with value := x.min }

/-- The loop of `xbo_backoff` from `i` on: how often it calls `nop`. -/
def nopLoop (max i : Nat) : Nat :=
  if i < max then nopLoop max (i + 1) + 1 else 0
termination_by max - i

/-- What a call of `xbo_backoff` did: the calls of `nop`, and whether it called `cb`. -/
structure Waited where
  nops : Nat
  cb : Bool
  deriving DecidableEq

/-- `xbo_backoff` -/
def xboBackoff (x : XboT) : XboT × Waited :=
  let nops := nopLoop x.max 0
  let value := if x.value = 0 then 1 else x.value * x.factor % 2 ^ 32
  if value > x.max then ({ x with value := x.max }, ⟨nops, true⟩)
  else ({ x with value := value }, ⟨nops, false⟩)

inductive Op where
  | backoff
  | reset
  deriving DecidableEq

def step (x : XboT) : Op → XboT
  | .backoff => (xboBackoff x).1
  | .reset => xboReset x

def run (x : XboT) (ops : List Op) : XboT := ops.foldl step x

/-- How many backoffs there were since the last reset. -/
def sinceReset (ops : List Op) : Nat :=
  ops.foldl (fun n op => match op with
    | .backoff => n + 1
    | .reset => 0) 0

/-- What the calls should wait for. -/
def backoffValue (low high factor : Nat) : Nat → Nat
  | 0 => low
  | n + 1 =>
    if backoffValue low high factor n = 0 then 1
    else min high (factor * backoffValue low high factor n)

/-- The next call, after any calls, waits for its value; the waits grow up to the maximum, and
`cb` is called only when the value has reached it. -/
structure Exponential (low high factor : Nat) : Prop where
  nops : ∀ ops, (xboBackoff (run (xboInit low high factor) ops)).2.nops =
    backoffValue low high factor (sinceReset ops)
  grows : ∀ ops, (xboBackoff (run (xboInit low high factor) ops)).2.nops ≤
    (xboBackoff (run (xboInit low high factor) (ops ++ [.backoff]))).2.nops
  bounded : ∀ ops, (xboBackoff (run (xboInit low high factor) ops)).2.nops ≤ high
  cb : ∀ ops, (xboBackoff (run (xboInit low high factor) ops)).2.cb = true →
    (xboBackoff (run (xboInit low high factor) ops)).1.value = high

theorem nopLoop_eq (max i : Nat) : nopLoop max i = max - i := by
  induction hm : max - i generalizing i with
  | zero =>
    rw [nopLoop, if_neg (by omega)]
  | succ m ih =>
    rw [nopLoop, if_pos (by omega), ih (i + 1) (by omega)]

/-- Only the value changes. -/
theorem xboBackoff_eq (x : XboT) :
    (xboBackoff x).1 = { x with value := (xboBackoff x).1.value } := by
  unfold xboBackoff
  dsimp only
  generalize (if x.value = 0 then 1 else x.value * x.factor % 2 ^ 32) = value
  split
  · rfl
  · rfl

theorem xboBackoff_nops (x : XboT) : (xboBackoff x).2.nops = x.max := by
  have hloop : nopLoop x.max 0 = x.max := by rw [nopLoop_eq, Nat.sub_zero]
  unfold xboBackoff
  dsimp only
  generalize (if x.value = 0 then 1 else x.value * x.factor % 2 ^ 32) = value
  split
  · exact hloop
  · exact hloop

theorem xboBackoff_cb {x : XboT} (h : (xboBackoff x).2.cb = true) :
    (xboBackoff x).1.value = x.max := by
  unfold xboBackoff at h ⊢
  dsimp only at h ⊢
  generalize (if x.value = 0 then 1 else x.value * x.factor % 2 ^ 32) = value at h ⊢
  split at h
  · rw [if_pos ‹_›]
  · cases h

theorem run_max (x : XboT) (ops : List Op) : (run x ops).max = x.max := by
  induction ops generalizing x with
  | nil => rfl
  | cons op ops ih =>
    rw [run, List.foldl_cons, ← run, ih]
    cases op with
    | backoff => rw [step, xboBackoff_eq]
    | reset => rfl

theorem run_nops (low high factor : Nat) (ops : List Op) :
    (xboBackoff (run (xboInit low high factor) ops)).2.nops = high := by
  rw [xboBackoff_nops, run_max]
  rfl

theorem backoffValue_high {high factor : Nat} (hpos : 0 < high) (hfactor : 0 < factor) (n : Nat) :
    backoffValue high high factor n = high := by
  induction n with
  | zero => rfl
  | succ n ih =>
    rw [backoffValue, ih, if_neg (by omega)]
    exact Nat.min_eq_left (Nat.le_mul_of_pos_left high hfactor)

/-- The value is updated as it should be while the product fits into 32 bits. -/
theorem xboBackoff_value {low high factor n : Nat} (hhigh : 0 < high)
    (hfits : factor * backoffValue low high factor n < 2 ^ 32) :
    (xboBackoff ⟨low, high, factor, backoffValue low high factor n⟩).1.value =
      backoffValue low high factor (n + 1) := by
  unfold xboBackoff
  rw [backoffValue]
  dsimp only
  split
  · rw [if_neg (by omega)]
  · rw [Nat.mul_comm, Nat.mod_eq_of_lt hfits]
    split
    · exact (Nat.min_eq_left (Nat.le_of_lt ‹_›)).symm
    · exact (Nat.min_eq_right (Nat.le_of_not_lt ‹_›)).symm

theorem backoffValue_le {low high : Nat} (hle : low ≤ high) (hhigh : 0 < high) (factor n : Nat) :
    backoffValue low high factor n ≤ high := by
  cases n with
  | zero => exact hle
  | succ n =>
    rw [backoffValue]
    split
    · exact hhigh
    · exact Nat.min_le_left high _

theorem sinceReset_concat (ops : List Op) (op : Op) :
    sinceReset (ops ++ [op]) = match op with
      | .backoff => sinceReset ops + 1
      | .reset => 0 := by
  cases op <;> simp [sinceReset]

/-- A loop bounded by the value would wait as it should, while no product overflows. -/
theorem run_value {low high factor : Nat} (hle : low ≤ high) (hhigh : 0 < high)
    (hfits : factor * high < 2 ^ 32) (ops : List Op) :
    run (xboInit low high factor) ops =
      ⟨low, high, factor, backoffValue low high factor (sinceReset ops)⟩ := by
  induction ops using List.reverseRecOn with
  | nil => rfl
  | append_singleton ops op ih =>
    have hrun : run (xboInit low high factor) (ops ++ [op]) =
        step (run (xboInit low high factor) ops) op := by
      rw [run, List.foldl_append]
      rfl
    rw [hrun, ih, sinceReset_concat]
    cases op with
    | reset => rfl
    | backoff =>
      have hproduct := Nat.mul_le_mul_left factor
        (backoffValue_le hle hhigh factor (sinceReset ops))
      have hvalue := xboBackoff_value hhigh (Nat.lt_of_le_of_lt hproduct hfits)
      rw [step, xboBackoff_eq, hvalue]

/-- The calls wait for their values exactly when all values are the maximum. -/
theorem xbo_exponential {low high factor : Nat} (hle : low ≤ high) (hhigh : high < 2 ^ 32)
    (hfactor : 2 ≤ factor) (hfactor' : factor < 2 ^ 32) :
    Exponential low high factor ↔ low = high ∧ 0 < high := by
  constructor
  · intro h
    have hfirst := h.nops []
    have hsecond := h.nops [.backoff]
    rw [run_nops] at hfirst hsecond
    have hlow : high = low := hfirst
    refine ⟨hlow.symm, Nat.pos_of_ne_zero fun hzero => ?_⟩
    subst hlow hzero
    exact absurd hsecond (by simp [sinceReset, backoffValue])
  · rintro ⟨rfl, hpos⟩
    refine ⟨fun ops => ?_, fun ops => ?_, fun ops => ?_, fun ops hcb => ?_⟩
    · rw [run_nops, backoffValue_high hpos (by omega)]
    · rw [run_nops, run_nops]
    · rw [run_nops]
    · rw [xboBackoff_cb hcb, run_max]
      rfl

theorem xbo_exponential_eight : Exponential 8 8 2 ↔ 8 = 8 ∧ 0 < 8 :=
  xbo_exponential (by decide) (by decide) (by decide) (by decide)

/-- The example of the header waits 128 times at its first call, where it should not wait. -/
theorem xbo_waits_max :
    ¬ Exponential 0 128 2 ∧ (xboBackoff (xboInit 0 128 2)).2.nops = 128 := by
  refine ⟨fun h => ?_, run_nops 0 128 2 []⟩
  have hfirst := h.nops []
  rw [run_nops] at hfirst
  cases hfirst

end Libvsync.Utils.Xbo
