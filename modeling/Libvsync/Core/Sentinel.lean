import Mathlib.Order.WithBot

/-!
Linked lists that are sorted by a key between two sentinels. The sentinels have no key: the first
is below every key, the last above.
-/

namespace Libvsync.Core

variable {N K : Type*} [DecidableEq N]

/-- A key among the ranks. -/
def keyRank (k : K) : WithBot (WithTop K) := ((k : WithTop K) : WithBot (WithTop K))

/-- The place of a node in the order. -/
def sentinelRank (first last : N) (key : N → K) (n : N) : WithBot (WithTop K) :=
  if n = first then ⊥ else if n = last then ((⊤ : WithTop K) : WithBot (WithTop K))
  else keyRank (key n)

variable {first last n : N} {key : N → K} {k : K}

theorem sentinelRank_of_ne (hfirst : n ≠ first) (hlast : n ≠ last) :
    sentinelRank first last key n = keyRank (key n) := by
  rw [sentinelRank, if_neg hfirst, if_neg hlast]

variable [LinearOrder K]

theorem keyRank_lt {j : K} : keyRank j < keyRank k ↔ j < k := by
  rw [keyRank, keyRank, WithBot.coe_lt_coe, WithTop.coe_lt_coe]

theorem keyRank_le {j : K} : keyRank j ≤ keyRank k ↔ j ≤ k := by
  rw [keyRank, keyRank, WithBot.coe_le_coe, WithTop.coe_le_coe]

theorem first_lt_key : sentinelRank first last key first < keyRank k := by
  rw [sentinelRank, if_pos rfl]
  exact WithBot.bot_lt_coe _

theorem key_lt_last (hne : first ≠ last) : keyRank k < sentinelRank first last key last := by
  rw [sentinelRank, if_neg hne.symm, if_pos rfl]
  exact WithBot.coe_lt_coe.mpr (WithTop.coe_lt_top k)

end Libvsync.Core
