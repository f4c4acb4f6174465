import Mathlib.Logic.Basic

/-!
A lock that one thread has at a time. Which thread that is can be told from where the threads
are in their code.
-/

namespace Libvsync.Core

variable {Tid : Type*} {holds holds' : Tid → Bool} {cell : Option Tid} {t u : Tid}

/-- The lock is in the hands of the thread whose code is between acquire and release. -/
def Owner (holds : Tid → Bool) (cell : Option Tid) : Prop :=
  ∀ t, holds t = true ↔ cell = some t

namespace Owner

theorem alone (h : Owner holds cell) (ht : holds t = true) (hu : u ≠ t) : holds u = false := by
  rw [Bool.eq_false_iff]
  intro hholds
  exact hu (Option.some.inj (((h u).mp hholds).symm.trans ((h t).mp ht)))

theorem nobody (h : Owner holds none) (t : Tid) : holds t = false := by
  rw [Bool.eq_false_iff, Ne, h t]
  exact (Option.some_ne_none t).symm

theorem start (hnone : ∀ t, holds t = false) : Owner holds none := by
  intro t
  rw [hnone t]
  exact iff_of_false Bool.false_ne_true (Option.some_ne_none t).symm

section Step

variable (hothers : ∀ u, u ≠ t → holds' u = holds u)

include hothers

/-- The thread that moves has the lock if and only if it had it. -/
theorem keep (h : Owner holds cell) (hsame : holds' t = holds t) : Owner holds' cell := by
  intro u
  by_cases hut : u = t
  · rw [hut, hsame]
    exact h t
  · rw [hothers u hut]
    exact h u

theorem acquire (h : Owner holds none) (hnew : holds' t = true) : Owner holds' (some t) := by
  intro u
  by_cases hut : u = t
  · rw [hut]
    exact iff_of_true hnew rfl
  · rw [hothers u hut, h.nobody u]
    exact iff_of_false Bool.false_ne_true fun heq => hut (Option.some.inj heq).symm

theorem release (h : Owner holds cell) (hold : holds t = true) (hnew : holds' t = false) :
    Owner holds' none := by
  refine start fun u => ?_
  by_cases hut : u = t
  · rw [hut]
    exact hnew
  · rw [hothers u hut]
    exact h.alone hold hut

end Step

end Owner

end Libvsync.Core
