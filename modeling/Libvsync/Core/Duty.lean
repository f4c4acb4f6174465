import Mathlib.Logic.Basic

/-!
Work that is owed. Where one thread begins something that a later step of it completes, every state
shows it done or shows a thread that has it to do; once all threads are idle it is done.
-/

namespace Libvsync.Core

variable {X T : Type*} {owed owed' done done' : X → Prop} {duty duty' : T → X → Prop} {t : T}

/-- What is owed is done, or it is the duty of a thread. -/
def Covered (owed done : X → Prop) (duty : T → X → Prop) : Prop :=
  ∀ x, owed x → done x ∨ ∃ t, duty t x

namespace Covered

/-- One thread takes a step. -/
theorem step (h : Covered owed done duty) (hothers : ∀ u x, u ≠ t → duty u x → duty' u x)
    (hnew : ∀ x, owed' x → owed x ∨ done' x ∨ duty' t x)
    (hdone : ∀ x, owed x → done x → done' x)
    (hkept : ∀ x, owed x → duty t x → done' x ∨ duty' t x) :
    Covered owed' done' duty' := by
  intro x hx
  rcases hnew x hx with hold | hdone' | hduty
  · rcases h x hold with hd | ⟨u, hu⟩
    · exact .inl (hdone x hold hd)
    · rcases Classical.em (u = t) with rfl | hne
      · exact (hkept x hold hu).imp_right fun hd => ⟨u, hd⟩
      · exact .inr ⟨u, hothers u x hne hu⟩
  · exact .inl hdone'
  · exact .inr ⟨t, hduty⟩

theorem settled (h : Covered owed done duty) (hidle : ∀ t x, ¬ duty t x) {x : X} (hx : owed x) :
    done x :=
  (h x hx).resolve_right fun ⟨t, ht⟩ => hidle t x ht

end Covered

end Libvsync.Core
