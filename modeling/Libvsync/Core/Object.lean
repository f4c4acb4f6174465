import Mathlib.Data.List.Basic

/-!
Objects driven by one caller at a time: a call either returns a result with
the next state or stops with a fault. A whole run of an object is compared
with a specification through a relation that every call keeps.
-/

namespace Libvsync.Core

/-- Why a call does not return: an assertion fails, a null pointer is followed,
or it waits or loops forever. -/
inductive Fault where
  | assert (message : String)
  | null
  | blocked
  deriving DecidableEq, Repr

/-- `ASSERT`, with the text of the source. -/
def check (condition : Prop) [Decidable condition] (message : String) :
    Except Fault Unit :=
  if condition then .ok () else .error (.assert message)

@[simp] theorem check_true {condition : Prop} [Decidable condition]
    (h : condition) (message : String) : check condition message = .ok () :=
  if_pos h

@[simp] theorem check_false {condition : Prop} [Decidable condition]
    (h : ¬ condition) (message : String) :
    check condition message = .error (.assert message) :=
  if_neg h

@[simp] theorem ok_bind {ε α β : Type} (a : α) (f : α → Except ε β) :
    (Except.ok a >>= f) = f a := rfl

/-- What an assertion that holds says. -/
theorem check_eq_ok {condition : Prop} [Decidable condition] {message : String} {u : Unit}
    (h : check condition message = .ok u) : condition := by
  by_contra hnot
  rw [check_false hnot] at h
  cases h

/-- A computation that returns has passed its first part. -/
theorem bind_eq_ok {ε α β : Type} {x : Except ε α} {f : α → Except ε β} {b : β}
    (h : (x >>= f) = .ok b) : ∃ a, x = .ok a ∧ f a = .ok b := by
  cases x with
  | error e => cases h
  | ok a => exact ⟨a, rfl, h⟩

variable {σ τ ι ρ : Type*}

abbrev Object (σ ι ρ : Type*) := σ → ι → Except Fault (σ × ρ)

/-- The state after a list of calls, and their results. -/
def Object.run (O : Object σ ι ρ) (s : σ) : List ι → Except Fault (σ × List ρ)
  | [] => .ok (s, [])
  | i :: is => do
      let (s', r) ← O s i
      let (final, rs) ← Object.run O s' is
      return (final, r :: rs)

/-- Every call of the run is made in a state that meets the condition. -/
def Object.Meets (O : Object σ ι ρ) (ok : σ → ι → Prop) (s : σ) : List ι → Prop
  | [] => True
  | i :: is => ok s i ∧
      match O s i with
      | .ok (s', _) => Object.Meets O ok s' is
      | .error _ => True

variable {O : Object σ ι ρ}

theorem Object.meets_true {s : σ} (is : List ι) : Object.Meets O (fun _ _ => True) s is := by
  induction is generalizing s with
  | nil => trivial
  | cons i is ih =>
    refine ⟨trivial, ?_⟩
    cases O s i with
    | error e => trivial
    | ok next => exact ih

/-- A sequential specification: which results a call may have and what it
does to the abstract state. -/
inductive SpecRun (spec : τ → ι → ρ → τ → Prop) :
    τ → List ι → List ρ → τ → Prop
  | nil (t : τ) : SpecRun spec t [] [] t
  | cons {t t' final : τ} {i : ι} {r : ρ} {is : List ι} {rs : List ρ} :
      spec t i r t' → SpecRun spec t' is rs final →
      SpecRun spec t (i :: is) (r :: rs) final

theorem Object.run_cons {s s' final : σ} {i : ι} {r : ρ} {is : List ι} {rs : List ρ}
    (hcall : O s i = .ok (s', r)) (hrest : Object.run O s' is = .ok (final, rs)) :
    Object.run O s (i :: is) = .ok (final, r :: rs) := by
  simp only [Object.run, hcall]
  show (do let (f, rs) ← Object.run O s' is; return (f, r :: rs)) = _
  rw [hrest]
  rfl

theorem Object.run_cons_inv {s final : σ} {i : ι} {is : List ι} {rs : List ρ}
    (h : Object.run O s (i :: is) = .ok (final, rs)) :
    ∃ s' r rs', O s i = .ok (s', r) ∧ Object.run O s' is = .ok (final, rs') ∧
      rs = r :: rs' := by
  simp only [Object.run, bind, Except.bind] at h
  cases hcall : O s i with
  | error e =>
    rw [hcall] at h
    cases h
  | ok next =>
    rw [hcall] at h
    simp only at h
    cases htail : Object.run O next.1 is with
    | error e =>
      rw [htail] at h
      cases h
    | ok rest =>
      rw [htail] at h
      cases h
      exact ⟨next.1, next.2, rest.2, rfl, htail, rfl⟩

/-- A run of two lists of calls continues the first with the second, faults
included. -/
theorem Object.run_append {s mid : σ} {is : List ι} (js : List ι) {rs : List ρ}
    (hfirst : Object.run O s is = .ok (mid, rs)) :
    Object.run O s (is ++ js) =
      (Object.run O mid js).map fun p => (p.1, rs ++ p.2) := by
  induction is generalizing s rs with
  | nil =>
    cases hfirst
    simp only [List.nil_append]
    cases Object.run O mid js <;> rfl
  | cons i is ih =>
    obtain ⟨s', r, rs', hcall, htail, rfl⟩ := Object.run_cons_inv hfirst
    simp only [List.cons_append, Object.run, hcall, bind, Except.bind, ih htail]
    cases Object.run O mid js <;> rfl

/-- The refinement rule: when every allowed call from related states returns
and is matched by the specification, so is every run of allowed calls. -/
theorem Object.refines {spec : τ → ι → ρ → τ → Prop} {R : σ → τ → Prop} {ok : σ → ι → Prop}
    (hstep : ∀ s t i, R s t → ok s i →
      ∃ s' r t', O s i = .ok (s', r) ∧ spec t i r t' ∧ R s' t') {s : σ} {t : τ} {is : List ι}
    (hR : R s t) (hok : Object.Meets O ok s is) :
    ∃ final rs t', Object.run O s is = .ok (final, rs) ∧
      SpecRun spec t is rs t' ∧ R final t' := by
  induction is generalizing s t with
  | nil => exact ⟨s, [], t, rfl, .nil t, hR⟩
  | cons i is ih =>
    obtain ⟨s', r, t', hcall, hspec, hR'⟩ := hstep s t i hR hok.1
    have hmeets : Object.Meets O ok s' is := by
      have hrest := hok.2
      rwa [hcall] at hrest
    obtain ⟨final, rs, t'', hrun, hspecs, hfinal⟩ := ih hR' hmeets
    exact ⟨final, r :: rs, t'', Object.run_cons hcall hrun,
      .cons hspec hspecs, hfinal⟩

end Libvsync.Core
