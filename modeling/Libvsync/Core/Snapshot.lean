import Libvsync.Core.Word

/-!
Optimistic reads. A memory is written only inside of sections, of which one at a time is
open. A reader remembers how many sections were closed when it began and what it has read
since. As long as none was closed since then and none is open now, nothing was written, so
the reader has read what is in the memory.
-/

namespace Libvsync.Core

variable {Loc Val : Type*} {mem : Loc → Val} {sections began : Nat} {inside : Bool}
  {seen : List (Loc × Val)}

/-- What a reader that began after `began` sections has read. -/
structure Snapshot (mem : Loc → Val) (sections : Nat) (inside : Bool) (began : Nat)
    (seen : List (Loc × Val)) : Prop where
  began_le : began ≤ sections
  seen_eq : sections = began → inside = false → ∀ p ∈ seen, mem p.1 = p.2

namespace Snapshot

theorem start (mem : Loc → Val) (sections : Nat) (inside : Bool) :
    Snapshot mem sections inside sections [] :=
  ⟨le_rfl, fun _ _ _ hp => absurd hp List.not_mem_nil⟩

theorem read (h : Snapshot mem sections inside began seen) (l : Loc) :
    Snapshot mem sections inside began ((l, mem l) :: seen) := by
  refine ⟨h.began_le, fun hsame hout p hp => ?_⟩
  rcases List.mem_cons.mp hp with rfl | hp
  · rfl
  · exact h.seen_eq hsame hout p hp

/-- A section is opened, or the memory is written in an open one. -/
theorem enter (h : Snapshot mem sections inside began seen) (mem' : Loc → Val) :
    Snapshot mem' sections true began seen :=
  ⟨h.began_le, fun _ hout => by cases hout⟩

theorem leave (h : Snapshot mem sections inside began seen) (mem' : Loc → Val) (inside' : Bool) :
    Snapshot mem' (sections + 1) inside' began seen :=
  ⟨h.began_le.trans (Nat.le_succ _), fun hsame => absurd hsame (Nat.ne_of_gt
    (Nat.lt_succ_of_le h.began_le))⟩

end Snapshot

/-- The counter of a memory: even when no section is open, and increased when a section is
opened and when it is closed. It is kept in a word of width `w`. -/
def seqWord (w sections : Nat) (inside : Bool) : Nat := (2 * sections + inside.toNat) % 2 ^ w

/-- The word has the parity of the counter. -/
theorem seqWord_mod_two {w : Nat} (hw : 0 < w) (sections : Nat) (inside : Bool) :
    seqWord w sections inside % 2 = inside.toNat := by
  have hdvd : 2 ∣ 2 ^ w := dvd_pow_self 2 (Nat.pos_iff_ne_zero.mp hw)
  rw [seqWord, Nat.mod_mod_of_dvd _ hdvd, Nat.mul_add_mod]
  cases inside <;> rfl

/-- A reader that finds the even word again with which it began, after less than half a
turn of sections, has seen no section. -/
theorem seqWord_eq {w : Nat} (hw : 0 < w) (hle : began ≤ sections)
    (hfit : sections < began + 2 ^ (w - 1))
    (h : seqWord w sections inside = seqWord w began false) :
    sections = began ∧ inside = false := by
  have hinside : inside = false := by
    have hparity := congrArg (· % 2) h
    simp only [seqWord_mod_two hw] at hparity
    cases inside with
    | false => rfl
    | true => cases hparity
  subst hinside
  have hpow : 2 * 2 ^ (w - 1) = 2 ^ w := by
    rw [← pow_succ', Nat.sub_add_cancel hw]
  have heq : 2 * sections = 2 * began :=
    counter_eq_of_mod_eq (w := w) (by omega) (by omega) h
  exact ⟨by omega, rfl⟩

end Libvsync.Core
