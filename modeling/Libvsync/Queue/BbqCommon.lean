import Libvsync.Core.Word
import Mathlib.Data.Nat.Bitwise
import Mathlib.Data.Nat.Log

/-!
The cursors of the block-based bounded queues. A cursor of a block is a 64-bit word with
a version in its upper 44 bits and a place of the block, in bytes, below them. An entry
has the size of a pointer.
-/

namespace Libvsync.Queue.Bbq

open Libvsync.Core

def bbqEntrySizeLog : Nat := 3
def bbqMinBlockNumLog : Nat := 0
def bbqMaxBlockNumLog : Nat := 16
def bbqMinBlockSizeLog : Nat := 4
def bbqMaxBlockSizeLog : Nat := 16
def bbqGlobaVersionBit : Nat := 44
def bbqLocalSpaceBit : Nat := 20

/-- `BBQ_GLOBAL_IDX` -/
def bbqGlobalIdx (blockNumLog v : Nat) : Nat := v &&& (2 ^ blockNumLog - 1)

/-- `BBQ_GLOBAL_VSN` -/
def bbqGlobalVsn (blockNumLog v : Nat) : Nat :=
  (v >>> blockNumLog) &&& (2 ^ bbqGlobaVersionBit - 1)

/-- `BBQ_LOCAL_IDX` -/
def bbqLocalIdx (v : Nat) : Nat := v &&& (2 ^ bbqLocalSpaceBit - 1)

/-- `BBQ_LOCAL_VSN` -/
def bbqLocalVsn (v : Nat) : Nat := v >>> bbqLocalSpaceBit

/-- `BBQ_LOCAL_COMPOSE` -/
def bbqLocalCompose (h l : Nat) : Nat := (h <<< bbqLocalSpaceBit) % 2 ^ 64 ||| l

/-- `BBQ_BLOCK_FULLY_CONSUMED_WITH_VSN`, with the cursor `consumed` just read. -/
def bbqBlockFullyConsumedWithVsn (consumed sz vsn : Nat) : Prop :=
  (bbqLocalIdx consumed = sz ∧ bbqLocalVsn consumed = vsn) ∨ bbqLocalVsn consumed > vsn

instance (consumed sz vsn : Nat) : Decidable (bbqBlockFullyConsumedWithVsn consumed sz vsn) :=
  inferInstanceAs (Decidable (_ ∨ _))

/-- `BBQ_BLOCK_INIT_VALUE` of a block header with the given size. -/
def bbqBlockInitValue (size : Nat) : Nat := (size / 2 ^ bbqEntrySizeLog + 1) * 2 ^ bbqEntrySizeLog

/-- `v_log2`, of a number that is not zero. -/
def vLog2 (v : Nat) : Nat := v.log2

/-- `v_pow2_round_down`, of a number that is not zero. -/
def vPow2RoundDown (v : Nat) : Nat := 1 <<< v.log2

theorem bbqGlobalIdx_eq (blockNumLog v : Nat) :
    bbqGlobalIdx blockNumLog v = v % 2 ^ blockNumLog :=
  Nat.and_two_pow_sub_one_eq_mod v blockNumLog

theorem bbqGlobalVsn_eq (blockNumLog v : Nat) :
    bbqGlobalVsn blockNumLog v = v / 2 ^ blockNumLog % 2 ^ 44 := by
  rw [bbqGlobalVsn, Nat.and_two_pow_sub_one_eq_mod, Nat.shiftRight_eq_div_pow]
  rfl

theorem bbqLocalIdx_eq (v : Nat) : bbqLocalIdx v = v % 2 ^ 20 :=
  Nat.and_two_pow_sub_one_eq_mod v 20

theorem bbqLocalVsn_eq (v : Nat) : bbqLocalVsn v = v / 2 ^ 20 :=
  Nat.shiftRight_eq_div_pow v 20

/-- Only 44 bits of the version are kept. -/
theorem bbqLocalCompose_eq (h : Nat) {l : Nat} (hl : l < 2 ^ 20) :
    bbqLocalCompose h l = h % 2 ^ 44 * 2 ^ 20 + l := by
  have hmod : (h <<< bbqLocalSpaceBit) % 2 ^ 64 = (h % 2 ^ 44) <<< 20 := by
    rw [bbqLocalSpaceBit, Nat.shiftLeft_eq, Nat.shiftLeft_eq]
    exact Nat.mul_mod_mul_right (2 ^ 20) h (2 ^ 44)
  rw [bbqLocalCompose, hmod, ← Nat.shiftLeft_add_eq_or_of_lt hl, Nat.shiftLeft_eq]

@[simp]
theorem bbqLocalIdx_compose (h : Nat) {l : Nat} (hl : l < 2 ^ 20) :
    bbqLocalIdx (bbqLocalCompose h l) = l := by
  rw [bbqLocalIdx_eq, bbqLocalCompose_eq h hl]
  omega

@[simp]
theorem bbqLocalVsn_compose (h : Nat) {l : Nat} (hl : l < 2 ^ 20) :
    bbqLocalVsn (bbqLocalCompose h l) = h % 2 ^ 44 := by
  rw [bbqLocalVsn_eq, bbqLocalCompose_eq h hl]
  omega

theorem wadd_compose (h : Nat) {l space : Nat} (hl : l + space < 2 ^ 20) :
    wadd 64 (bbqLocalCompose h l) space = bbqLocalCompose h (l + space) := by
  rw [wadd, bbqLocalCompose_eq h hl, bbqLocalCompose_eq h (by omega)]
  omega

end Libvsync.Queue.Bbq
