import Mathlib.Data.Set.Basic

/-!
Runs of a labelled machine. A machine has start states and a partial step
function; a label says which thread moves and, for a thread that is idle,
which call it begins. Every interleaving of atomic steps is therefore one
list of labels. A run keeps its whole past, so that statements about "some
moment of a call" need no ghost clock in the model.
-/

namespace Libvsync.Core

structure Machine (σ α : Type*) where
  start : σ → Prop
  step : σ → α → Option σ

variable {σ α : Type*} {M : Machine σ α}

/-- The past of a run, newest first: each entry is a step, given by the state
it was taken in and its label. -/
inductive Machine.Run (M : Machine σ α) : List (σ × α) → σ → Prop
  | start {s : σ} : M.start s → M.Run [] s
  | step {past : List (σ × α)} {s s' : σ} {a : α} :
      M.Run past s → M.step s a = some s' → M.Run ((s, a) :: past) s'

/-- Every step of the past was taken in a state that allows it. -/
def AllSteps (ok : σ → α → Prop) (past : List (σ × α)) : Prop :=
  ∀ p ∈ past, ok p.1 p.2

variable {ok : σ → α → Prop} {past : List (σ × α)}

theorem AllSteps.head {s : σ} {a : α} (h : AllSteps ok ((s, a) :: past)) : ok s a :=
  h (s, a) (by simp)

theorem AllSteps.tail {p : σ × α} (h : AllSteps ok (p :: past)) : AllSteps ok past :=
  fun q hq => h q (by simp [hq])

theorem AllSteps.cons {s : σ} {a : α} (hok : ok s a) (h : AllSteps ok past) :
    AllSteps ok ((s, a) :: past) := by
  intro p hp
  rcases List.mem_cons.mp hp with rfl | hp
  · exact hok
  · exact h p hp

/-- The invariant rule, for runs whose steps all meet a side condition. -/
theorem Machine.Run.invariant_if {I : σ → Prop} (hstart : ∀ s, M.start s → I s)
    (hstep : ∀ s a s', I s → ok s a → M.step s a = some s' → I s') {s : σ} (run : M.Run past s)
    (hok : AllSteps ok past) : I s := by
  induction run with
  | start h => exact hstart _ h
  | step _ hs ih => exact hstep _ _ _ (ih hok.tail) hok.head hs

theorem Machine.Run.invariant {I : σ → Prop} (hstart : ∀ s, M.start s → I s)
    (hstep : ∀ s a s', I s → M.step s a = some s' → I s') {s : σ} (run : M.Run past s) : I s :=
  run.invariant_if hstart (fun s a s' hi (_ : True) hs => hstep s a s' hi hs)
    (fun _ _ => trivial)

/-- The invariant rule for facts about the past together with the present. -/
theorem Machine.Run.history_invariant {I : List (σ × α) → σ → Prop}
    (hstart : ∀ s, M.start s → I [] s) (hstep : ∀ past s a s', M.Run past s → I past s → ok s a →
      M.step s a = some s' → I ((s, a) :: past) s') {s : σ} (run : M.Run past s)
    (hok : AllSteps ok past) : I past s := by
  induction run with
  | start h => exact hstart _ h
  | step prior hs ih => exact hstep _ _ _ _ prior (ih hok.tail) hok.head hs

theorem Machine.Run.earlier {s : σ} (run : M.Run past s) {p : σ × α} (hp : p ∈ past) :
    ∃ before, M.Run before p.1 := by
  induction run with
  | start => cases hp
  | step prior hs ih =>
    rcases List.mem_cons.mp hp with rfl | hp
    · exact ⟨_, prior⟩
    · exact ih hp

/-- Running a list of labels, oldest first. -/
def Machine.exec (M : Machine σ α) (s : σ) : List α → Option σ
  | [] => some s
  | a :: as => (M.step s a).bind fun s' => M.exec s' as

theorem Machine.exec_cons {s s' t : σ} {a : α} {as : List α}
    (hstep : M.step s a = some s') (hrest : M.exec s' as = some t) :
    M.exec s (a :: as) = some t := by
  simp only [Machine.exec, hstep, Option.bind_some, hrest]

theorem Machine.exec_append (M : Machine σ α) (s : σ) (as bs : List α) :
    M.exec s (as ++ bs) = (M.exec s as).bind fun s' => M.exec s' bs := by
  induction as generalizing s with
  | nil => rfl
  | cons a as ih =>
    simp only [List.cons_append, Machine.exec]
    cases M.step s a with
    | none => rfl
    | some s' => exact ih s'

/-- Steps that all have the same label. -/
def Machine.Steps (M : Machine σ α) (a : α) : σ → σ → Prop :=
  Relation.ReflTransGen fun s s' => M.step s a = some s'

theorem Machine.Steps.exec {a : α} {s s' : σ} (h : M.Steps a s s') :
    ∃ n, M.exec s (List.replicate n a) = some s' := by
  induction h using Relation.ReflTransGen.head_induction_on with
  | refl => exact ⟨0, rfl⟩
  | head hstep _ ih =>
    obtain ⟨n, hn⟩ := ih
    exact ⟨n + 1, Machine.exec_cons hstep hn⟩

/-- The steps of an execution, newest first, on top of an earlier past. -/
def Machine.pastOf (M : Machine σ α) (s : σ) (past : List (σ × α)) :
    List α → List (σ × α)
  | [] => past
  | a :: as =>
    match M.step s a with
    | none => past
    | some s' => M.pastOf s' ((s, a) :: past) as

/-- An execution of labels extends a run. -/
theorem Machine.Run.exec {s s' : σ} {as : List α} (run : M.Run past s) (h : M.exec s as = some s') :
    M.Run (M.pastOf s past as) s' := by
  induction as generalizing s past with
  | nil =>
    cases h
    exact run
  | cons a as ih =>
    simp only [Machine.exec, Option.bind_eq_some_iff] at h
    obtain ⟨t, ht, hrest⟩ := h
    simp only [Machine.pastOf, ht]
    exact ih (run.step ht) hrest

/-- The run of a list of labels from a start state. -/
theorem Machine.run_of_exec {s : σ} {as : List α} (hstart : M.start s)
    (h : (M.exec s as).isSome) :
    M.Run (M.pastOf s [] as) ((M.exec s as).get h) :=
  (Machine.Run.start hstart).exec (Option.some_get h).symm

/-- The machine that takes only steps which meet a side condition. -/
def Machine.guarded (M : Machine σ α) (ok : σ → α → Bool) : Machine σ α where
  start := M.start
  step s a := if ok s a then M.step s a else none

theorem Machine.Run.of_guarded {ok : σ → α → Bool} {s : σ} (run : (M.guarded ok).Run past s) :
    M.Run past s ∧ AllSteps (fun s a => ok s a = true) past := by
  induction run with
  | start h => exact ⟨.start h, fun _ hp => absurd hp List.not_mem_nil⟩
  | step _ hs ih =>
    obtain ⟨hok, hs⟩ := Option.ite_none_right_eq_some.mp hs
    exact ⟨ih.1.step hs, ih.2.cons hok⟩

theorem Machine.Run.guard {ok : σ → α → Bool} {s : σ} (run : M.Run past s)
    (hok : AllSteps (fun s a => ok s a = true) past) : (M.guarded ok).Run past s := by
  induction run with
  | start h => exact .start h
  | step _ hs ih => exact .step (ih hok.tail) (Option.ite_none_right_eq_some.mpr ⟨hok.head, hs⟩)

/-- `P` held at some moment of the stretch, ending now, through which `busy`
held. The moments are listed newest first. With `busy` saying that a thread is
inside a call, this is "at some moment of the call". -/
inductive During (busy P : σ → Prop) : List σ → Prop
  | now {s : σ} {h : List σ} : busy s → P s → During busy P (s :: h)
  | before {s : σ} {h : List σ} : busy s → During busy P h → During busy P (s :: h)

theorem During.mono {busy P Q : σ → Prop} (hPQ : ∀ s, P s → Q s) {h : List σ}
    (d : During busy P h) : During busy Q h := by
  induction d with
  | now hb hp => exact .now hb (hPQ _ hp)
  | before hb _ ih => exact .before hb ih

theorem During.busy {busy P : σ → Prop} {s : σ} {h : List σ} (d : During busy P (s :: h)) :
    busy s := by
  cases d with
  | now hb _ => exact hb
  | before hb _ => exact hb

theorem During.or {busy P Q : σ → Prop} {h : List σ} (d : During busy (fun s => P s ∨ Q s) h) :
    During busy P h ∨ During busy Q h := by
  induction d with
  | now hb hpq => exact hpq.imp (.now hb) (.now hb)
  | before hb _ ih => exact ih.imp (.before hb) (.before hb)

theorem During.exists {busy P : σ → Prop} {h : List σ} (d : During busy P h) :
    ∃ s ∈ h, busy s ∧ P s := by
  induction d with
  | now hb hp => exact ⟨_, by simp, hb, hp⟩
  | before _ _ ih =>
    obtain ⟨s, hs, hholds⟩ := ih
    exact ⟨s, List.mem_cons_of_mem _ hs, hholds⟩

/-- The moments of a run: the present and every state a past step was taken in. -/
def moments (past : List (σ × α)) (s : σ) : List σ := s :: past.map Prod.fst

/-- A step with effect `Q` was taken in the stretch, ending now, through which
`busy` held. -/
inductive Took (busy : σ → Prop) (Q : σ → α → σ → Prop) :
    List (σ × α) → σ → Prop
  | now {past : List (σ × α)} {s s' : σ} {a : α} :
      busy s' → Q s a s' → Took busy Q ((s, a) :: past) s'
  | before {past : List (σ × α)} {s s' : σ} {a : α} :
      busy s' → Took busy Q past s → Took busy Q ((s, a) :: past) s'

variable {Q : σ → α → σ → Prop}

theorem Took.busy {busy : σ → Prop} {s : σ} (t : Took busy Q past s) : busy s := by
  cases t with
  | now hb _ => exact hb
  | before hb _ => exact hb

/-- Steps that keep the stretch going keep what was done in it. -/
theorem Took.exec {busy : σ → Prop} {s s' : σ} {as : List α} (took : Took busy Q past s)
    (hexec : M.exec s as = some s')
    (hkeep : ∀ s a s', a ∈ as → busy s → M.step s a = some s' → busy s') :
    Took busy Q (M.pastOf s past as) s' := by
  induction as generalizing s past with
  | nil =>
    cases hexec
    exact took
  | cons a as ih =>
    simp only [Machine.exec, Option.bind_eq_some_iff] at hexec
    obtain ⟨mid, hmid, hrest⟩ := hexec
    simp only [Machine.pastOf, hmid]
    apply ih _ hrest
    · intro s a s' ha
      exact hkeep s a s' (List.mem_cons_of_mem _ ha)
    · exact .before (hkeep _ _ _ (by simp) took.busy hmid) took

/-- The steps of a run, newest first, each with the state that it led to. -/
def transitions : List (σ × α) → σ → List (σ × α × σ)
  | [], _ => []
  | (s, a) :: past, s' => (s, a, s') :: transitions past s

/-- What cannot be done where it has been done is done once in a run. -/
theorem Machine.Run.once {done : σ → Prop}
    (hdone : ∀ past s a s', M.Run past s → AllSteps ok past → M.step s a = some s' →
      Q s a s' ∨ done s → done s') (hnever : ∀ s a s', done s → ¬ Q s a s') {s : σ}
    (run : M.Run past s) (hok : AllSteps ok past) :
    (transitions past s).Pairwise (fun y x => Q x.1 x.2.1 x.2.2 → ¬ Q y.1 y.2.1 y.2.2) ∧
      ((∃ x ∈ transitions past s, Q x.1 x.2.1 x.2.2) → done s) := by
  induction run with
  | start => exact ⟨.nil, fun ⟨_, hx, _⟩ => absurd hx List.not_mem_nil⟩
  | @step past s s' a prior hs ih =>
    obtain ⟨hpairs, hbefore⟩ := ih hok.tail
    refine ⟨.cons (fun x hx hq => hnever _ _ _ (hbefore ⟨x, hx, hq⟩)) hpairs, ?_⟩
    rintro ⟨x, hx, hq⟩
    refine hdone _ _ _ _ prior hok.tail hs ?_
    rcases List.mem_cons.mp hx with rfl | hx
    · exact .inl hq
    · exact .inr (hbefore ⟨x, hx, hq⟩)

end Libvsync.Core
