import Mathlib.Data.BitVec

/-!
Pointers with a stamp in their seven low bits. Every compare-and-swap that puts in
a new pointer counts the stamp up by one, and the stamp wraps around at 128. A word
that has kept its stamp over fewer than 128 such changes was not changed at all.

`changes` is not part of the word: it counts the changes without wrapping around.
-/

namespace Libvsync.Atomic

structure Stamped (α : Type) where
  pointer : α
  stamp : BitVec 7
  changes : Nat
  deriving DecidableEq

namespace Stamped

variable {α : Type}

/-- `vatomicptr_stamped_cmpxchg`, and the new word if it succeeds. -/
def cmpxchg [DecidableEq α] (a : Stamped α) (expected : α) (expectedStamp : BitVec 7) (v : α)
    (stamp : BitVec 7) : Option (Stamped α) :=
  if a.pointer = expected ∧ a.stamp = expectedStamp then some ⟨v, stamp, a.changes + 1⟩ else none

/-- `vatomicptr_stamped_set` -/
def set (a : Stamped α) (v : α) (stamp : BitVec 7) : Stamped α := ⟨v, stamp, a.changes⟩

/-- What was read as `e` is now `a`. -/
def Grown (e a : Stamped α) : Prop :=
  e.changes ≤ a.changes ∧ a.stamp = e.stamp + BitVec.ofNat 7 (a.changes - e.changes)

/-- The same, for a word that is only ever changed by `cmpxchg`. -/
def Since (e a : Stamped α) : Prop :=
  Grown e a ∧ (e.changes = a.changes → e.pointer = a.pointer)

theorem Grown.refl (a : Stamped α) : Grown a a := by
  refine ⟨le_rfl, ?_⟩
  rw [Nat.sub_self]
  exact (BitVec.add_zero _).symm

theorem Grown.trans {e a b : Stamped α} (h : Grown e a) (h' : Grown a b) : Grown e b := by
  obtain ⟨hle, hstamp⟩ := h
  obtain ⟨hle', hstamp'⟩ := h'
  refine ⟨hle.trans hle', ?_⟩
  rw [hstamp', hstamp, BitVec.add_assoc, ← BitVec.ofNat_add]
  congr 2
  omega

theorem Grown.changes_eq {e a : Stamped α} (h : Grown e a) (hstamp : a.stamp = e.stamp)
    (hfew : a.changes < e.changes + 128) : e.changes = a.changes := by
  obtain ⟨hle, hgrown⟩ := h
  rw [hgrown] at hstamp
  have hzero : BitVec.ofNat 7 (a.changes - e.changes) = 0 := by
    have hcancel : e.stamp + BitVec.ofNat 7 (a.changes - e.changes) = e.stamp + 0 :=
      hstamp.trans (BitVec.add_zero _).symm
    exact (BitVec.add_right_inj e.stamp).mp hcancel
  have hmod := congrArg BitVec.toNat hzero
  rw [BitVec.toNat_ofNat] at hmod
  change (a.changes - e.changes) % 128 = 0 at hmod
  omega

theorem Since.refl (a : Stamped α) : Since a a := ⟨.refl a, fun _ => rfl⟩

theorem Since.trans {e a b : Stamped α} (h : Since e a) (h' : Since a b) : Since e b := by
  refine ⟨h.1.trans h'.1, fun hsame => ?_⟩
  have hle := h.1.1
  have hle' := h'.1.1
  exact (h.2 (by omega)).trans (h'.2 (by omega))

/-- A change in between is seen by the count. -/
theorem Grown.unchanged {e a b : Stamped α} (h : Grown e a) (h' : Grown a b)
    (hsame : e.changes = b.changes) : e.changes = a.changes ∧ b.changes = a.changes := by
  have hle := h.1
  have hle' := h'.1
  omega

variable [DecidableEq α] {a a' e : Stamped α} {v : α}

theorem cmpxchg_some {expected : α} {expectedStamp stamp : BitVec 7}
    (h : a.cmpxchg expected expectedStamp v stamp = some a') :
    a.pointer = expected ∧ a.stamp = expectedStamp ∧ a' = ⟨v, stamp, a.changes + 1⟩ := by
  rw [cmpxchg] at h
  split at h
  · rename_i heq
    exact ⟨heq.1, heq.2, (Option.some.inj h).symm⟩
  · cases h

theorem cmpxchg_since (h : a.cmpxchg e.pointer e.stamp v (e.stamp + 1) = some a') :
    Since a a' := by
  obtain ⟨-, hstamp, rfl⟩ := cmpxchg_some h
  refine ⟨⟨Nat.le_succ _, ?_⟩, fun hsame => ?_⟩
  · change e.stamp + 1 = _
    rw [hstamp, Nat.add_sub_cancel_left]
    rfl
  · exact absurd hsame (Nat.ne_of_lt (Nat.lt_succ_self _))

/-- The word has not changed since it was read, if it changed fewer than 128 times. -/
theorem Grown.cmpxchg (h : Grown e a) (hfew : a.changes < e.changes + 128) {expected : α}
    {stamp : BitVec 7} (hcas : a.cmpxchg expected e.stamp v stamp = some a') :
    e.changes = a.changes :=
  h.changes_eq (cmpxchg_some hcas).2.1 hfew

end Stamped

end Libvsync.Atomic
