import Libvsync.Core.Machine
import Mathlib.Data.Set.Insert

/-!
Linearizability. Threads call operations of a shared object; an abstract state
and a sequential specification say what the operations mean. Somewhere in a
call its outcome is settled: by a step of the caller that has the specified
effect on the abstract state, or by what the abstract state was at an earlier
moment of the call. When the abstract state changes only in steps that settle
a call, every result is that of an atomic operation between call and return.
-/

namespace Libvsync.Core

open Function

variable {σ α Tid τ ι ρ : Type*}

/-- How the states of a machine are seen as states of an object that threads
work on. A call is settled when its result is fixed. -/
structure View (σ Tid τ ι ρ : Type*) where
  abs : σ → τ
  busy : Tid → σ → Prop
  settled : Tid → σ → Option (ι × ρ)
  settled_busy : ∀ t s x, settled t s = some x → busy t s

variable {M : Machine σ α} {thread : α → Tid} {V : View σ Tid τ ι ρ}
  {spec : τ → ι → ρ → τ → Prop}

/-- The call of thread `t` took effect in a step of its own, or has its result
from a moment of the call. -/
def Effect (thread : α → Tid) (V : View σ Tid τ ι ρ) (spec : τ → ι → ρ → τ → Prop)
    (past : List (σ × α)) (s : σ) (t : Tid) (i : ι) (r : ρ) : Prop :=
  Took (V.busy t) (fun s a s' => thread a = t ∧ spec (V.abs s) i r (V.abs s')) past s ∨
    During (V.busy t) (fun s₀ => spec (V.abs s₀) i r (V.abs s₀)) (moments past s)

/-- The calls of a run up to state `s` are atomic operations. -/
structure Linear (M : Machine σ α) (thread : α → Tid) (V : View σ Tid τ ι ρ)
    (spec : τ → ι → ρ → τ → Prop) (past : List (σ × α)) (s : σ) : Prop where
  effect : ∀ t i r, V.settled t s = some (i, r) → Effect thread V spec past s t i r
  /-- The abstract state changes only in a step that settles the call of its
  thread, and as specified. -/
  changes : ∀ a s', M.step s a = some s' → V.abs s' = V.abs s ∨
    ∃ i r, V.settled (thread a) s = none ∧ V.settled (thread a) s' = some (i, r) ∧
      spec (V.abs s) i r (V.abs s')
  /-- A settled call stays as it is until it returns. -/
  stays : ∀ a s', M.step s a = some s' → ∀ t x, V.settled t s = some x →
    V.settled t s' = some x ∨ ¬ V.busy t s'

/-- A call returns only when its result is fixed. -/
def Answers (M : Machine σ α) (thread : α → Tid) (V : View σ Tid τ ι ρ) (s : σ) : Prop :=
  ∀ a s', M.step s a = some s' → V.busy (thread a) s →
    V.busy (thread a) s' ∨ ∃ x, V.settled (thread a) s = some x

/-- What a step may do to the call of the thread that takes it. -/
inductive Move (V : View σ Tid τ ι ρ) (spec : τ → ι → ρ → τ → Prop) (t : Tid)
    (past : List (σ × α)) (s s' : σ) : Prop
  | walk (same : V.abs s' = V.abs s) (settled : V.settled t s' = V.settled t s)
  | settle (i : ι) (r : ρ) (before : V.settled t s = none) (after : V.settled t s' = some (i, r))
      (meets : spec (V.abs s) i r (V.abs s'))
  | remember (i : ι) (r : ρ) (same : V.abs s' = V.abs s) (before : V.settled t s = none)
      (after : V.settled t s' = some (i, r))
      (was : During (V.busy t) (fun s₀ => spec (V.abs s₀) i r (V.abs s₀)) (moments past s))
  | leave (same : V.abs s' = V.abs s) (idle : ¬ V.busy t s')

/-- A step of one thread, for all calls. -/
structure Moves (V : View σ Tid τ ι ρ) (spec : τ → ι → ρ → τ → Prop) (t : Tid)
    (past : List (σ × α)) (s s' : σ) : Prop where
  own : Move V spec t past s s'
  others : ∀ u, u ≠ t → V.settled u s' = V.settled u s

variable {past : List (σ × α)}

theorem Moves.changes {t : Tid} {s s' : σ} (h : Moves V spec t past s s') :
    V.abs s' = V.abs s ∨ ∃ i r, V.settled t s = none ∧ V.settled t s' = some (i, r) ∧
      spec (V.abs s) i r (V.abs s') := by
  cases h.own with
  | walk same => exact .inl same
  | settle i r before after meets => exact .inr ⟨i, r, before, after, meets⟩
  | remember i r same => exact .inl same
  | leave same => exact .inl same

theorem Moves.stays {t : Tid} {s s' : σ} (h : Moves V spec t past s s') {u : Tid} {x : ι × ρ}
    (hx : V.settled u s = some x) : V.settled u s' = some x ∨ ¬ V.busy u s' := by
  by_cases hu : u = t
  · subst hu
    cases h.own with
    | walk same settled => exact .inl (settled.trans hx)
    | settle i r before => rw [before] at hx; cases hx
    | remember i r same before => rw [before] at hx; cases hx
    | leave same idle => exact .inr idle
  · exact .inl ((h.others u hu).trans hx)

theorem Moves.effect {a : α} {s s' : σ} (h : Moves V spec (thread a) past s s')
    (ih : ∀ t i r, V.settled t s = some (i, r) → Effect thread V spec past s t i r) {t : Tid}
    {i : ι} {r : ρ} (hsettled : V.settled t s' = some (i, r)) :
    Effect thread V spec ((s, a) :: past) s' t i r := by
  have hbusy : V.busy t s' := V.settled_busy t s' _ hsettled
  have hold (hs : V.settled t s = some (i, r)) :
      Effect thread V spec ((s, a) :: past) s' t i r := by
    rcases ih t i r hs with took | during
    · exact .inl (.before hbusy took)
    · exact .inr (.before hbusy during)
  by_cases ht : t = thread a
  · subst ht
    cases h.own with
    | walk same settled => exact hold (settled.symm.trans hsettled)
    | settle i' r' before after meets =>
      rw [hsettled] at after
      cases after
      exact .inl (.now hbusy ⟨rfl, meets⟩)
    | remember i' r' same before after was =>
      rw [hsettled] at after
      cases after
      exact .inr (.before hbusy was)
    | leave same idle => exact absurd hbusy idle
  · exact hold ((h.others t ht).symm.trans hsettled)

/-- The linearization rule: every step moves the call of its thread, and no
other one. -/
theorem Machine.Run.linear {ok : σ → α → Prop} (hstart : ∀ s, M.start s → ∀ t, V.settled t s = none)
    (hstep : ∀ past s a s', M.Run past s → AllSteps ok past → M.step s a = some s' →
      Moves V spec (thread a) past s s') {s : σ} (run : M.Run past s) (hok : AllSteps ok past) :
    Linear M thread V spec past s := by
  have heffect : ∀ t i r, V.settled t s = some (i, r) → Effect thread V spec past s t i r := by
    induction run with
    | start h =>
      intro t i r hsettled
      rw [hstart _ h t] at hsettled
      cases hsettled
    | step prior hs ih =>
      intro t i r hsettled
      exact (hstep _ _ _ _ prior hok.tail hs).effect (ih hok.tail) hsettled
  constructor
  · exact heffect
  · intro a s' hs
    exact (hstep past s a s' run hok hs).changes
  · intro a s' hs t x hx
    exact (hstep past s a s' run hok hs).stays hx

theorem Machine.Run.linear_always (hstart : ∀ s, M.start s → ∀ t, V.settled t s = none)
    (hstep : ∀ past s a s', M.Run past s → M.step s a = some s' →
      Moves V spec (thread a) past s s') {s : σ} (run : M.Run past s) :
    Linear M thread V spec past s :=
  run.linear hstart (fun past s a s' run (_ : AllSteps (fun _ _ => True) past) hs =>
    hstep past s a s' run hs) (fun _ _ => trivial)

/-- Where every step is allowed, the guard says nothing. -/
theorem Linear.of_guarded {ok : σ → α → Bool} {s : σ}
    (h : Linear (M.guarded ok) thread V spec past s) (hok : ∀ a, ok s a = true) :
    Linear M thread V spec past s := by
  have hsame {a : α} {s' : σ} (hs : M.step s a = some s') : (M.guarded ok).step s a = some s' :=
    Option.ite_none_right_eq_some.mpr ⟨hok a, hs⟩
  exact ⟨h.effect, fun a s' hs => h.changes a s' (hsame hs), fun a s' hs => h.stays a s' (hsame hs)⟩

/-- The view of states in which each thread is at a place of its program, which says what its call
will return once that is fixed. -/
def View.ofPlaces {Place : Type*} (abs : σ → τ) (pc : σ → Tid → Place) (idle : Place)
    (settled : Place → Option (ι × ρ)) (hidle : settled idle = none) : View σ Tid τ ι ρ where
  abs := abs
  busy t s := pc s t ≠ idle
  settled t s := settled (pc s t)
  settled_busy t s x hx heq := by
    rw [heq, hidle] at hx
    cases hx

section Places

variable {Place : Type*} {abs : σ → τ} {pc : σ → Tid → Place} {idle : Place}
  {settled : Place → Option (ι × ρ)} {hidle : settled idle = none} {past : List (σ × α)}
  {s s' : σ} {t : Tid} {q : Place}

/-- A step of `t` that leaves the object as it is, and settles nothing or returns. -/
theorem Moves.walkTo [DecidableEq Tid] (hpc : pc s' = update (pc s) t q)
    (habs : abs s' = abs s) (hsettled : settled q = settled (pc s t) ∨ q = idle) :
    Moves (.ofPlaces abs pc idle settled hidle) spec t past s s' := by
  have hself : pc s' t = q := (congrFun hpc t).trans (update_self ..)
  refine ⟨?_, fun u hu => congrArg settled ?_⟩
  · rcases hsettled with hsettled | rfl
    · exact .walk habs ((congrArg settled hself).trans hsettled)
    · exact .leave habs fun hbusy => hbusy hself
  · exact (congrFun hpc u).trans (update_of_ne hu ..)

theorem Moves.settleTo [DecidableEq Tid] (i : ι) (r : ρ)
    (hpc : pc s' = update (pc s) t q) (hbefore : settled (pc s t) = none)
    (hafter : settled q = some (i, r)) (hmeets : spec (abs s) i r (abs s')) :
    Moves (.ofPlaces abs pc idle settled hidle) spec t past s s' := by
  have hself : pc s' t = q := (congrFun hpc t).trans (update_self ..)
  refine ⟨.settle i r hbefore ((congrArg settled hself).trans hafter) hmeets, fun u hu => ?_⟩
  exact congrArg settled ((congrFun hpc u).trans (update_of_ne hu ..))

theorem Answers.ofPlaces (h : ∀ a s', M.step s a = some s' → pc s (thread a) ≠ idle →
      pc s' (thread a) = idle → ∃ x, settled (pc s (thread a)) = some x) :
    Answers M thread (.ofPlaces abs pc idle settled hidle) s := by
  intro a s' hstep hbusy
  by_cases hreturned : pc s' (thread a) = idle
  · exact .inr (h a s' hstep hbusy hreturned)
  · exact .inl hreturned

end Places

/-- What thread `t` has seen, in a call that goes on in state `s`, was so at a
moment of the call: every step lets it see the present, or carries over what it
saw before. -/
theorem Machine.Run.seen (busy : Tid → σ → Prop) (seen : Tid → σ → σ → Prop)
    (hstart : ∀ s, M.start s → ∀ t, ¬ busy t s)
    (hstep : ∀ past s a s', M.Run past s → M.step s a = some s' → ∀ t, busy t s' →
      seen t s' s' ∨ busy t s ∧ (During (busy t) (seen t s) (moments past s) →
        During (busy t) (seen t s') (moments past s))) {s : σ} (run : M.Run past s) {t : Tid}
    (hbusy : busy t s) : During (busy t) (seen t s) (moments past s) := by
  induction run with
  | start h => exact absurd hbusy (hstart _ h t)
  | step prior hs ih =>
    rcases hstep _ _ _ _ prior hs t hbusy with hnow | ⟨hbefore, hkeep⟩
    · exact .now hbusy hnow
    · exact .before hbusy (hkeep (ih hbefore))

/-- Hindsight. Something that is in place can go, and then keeps the content it
had when it went. If it was in place at some moment of a stretch, it was so at a
moment of it with the content that it has now. -/
theorem Machine.Run.hindsight_if {β : Type*} {ok : σ → α → Prop} {inPlace gone : σ → Prop}
    {content : σ → β}
    (hgoes : ∀ past s a s', M.Run past s → AllSteps ok past → M.step s a = some s' → inPlace s →
      inPlace s' ∨ gone s' ∧ content s' = content s)
    (hstays : ∀ past s a s', M.Run past s → AllSteps ok past → M.step s a = some s' → gone s →
      gone s' ∧ content s' = content s) {s : σ} (run : M.Run past s) (hok : AllSteps ok past)
    {busy : σ → Prop} (hwas : During busy inPlace (moments past s)) :
    (inPlace s ∨ gone s) ∧
      During busy (fun s₀ => (∃ before, M.Run before s₀ ∧ AllSteps ok before) ∧ inPlace s₀ ∧
        content s₀ = content s) (moments past s) := by
  induction run with
  | @start s h =>
    cases hwas with
    | now hb hin => exact ⟨.inl hin, .now hb ⟨⟨_, .start h, hok⟩, hin, rfl⟩⟩
    | before _ hwas => cases hwas
  | @step past s s' a prior hs ih =>
    by_cases hnow : inPlace s'
    · exact ⟨.inl hnow, .now hwas.busy ⟨⟨_, prior.step hs, hok⟩, hnow, rfl⟩⟩
    · cases hwas with
      | now _ hin => exact absurd hin hnow
      | before hb hwas =>
        obtain ⟨hplace, hmoment⟩ := ih hok.tail hwas
        by_cases hold : inPlace s
        · obtain ⟨hgone, hsame⟩ := (hgoes _ _ _ _ prior hok.tail hs hold).resolve_left hnow
          exact ⟨.inr hgone,
            .before hb (.now hwas.busy ⟨⟨_, prior, hok.tail⟩, hold, hsame.symm⟩)⟩
        · obtain ⟨hgone, hsame⟩ := hstays _ _ _ _ prior hok.tail hs (hplace.resolve_left hold)
          refine ⟨.inr hgone, .before hb (hmoment.mono ?_)⟩
          rintro s₀ ⟨hrun, hin, hcontent⟩
          exact ⟨hrun, hin, hcontent.trans hsame.symm⟩

theorem Machine.Run.hindsight {β : Type*} {inPlace gone : σ → Prop} {content : σ → β}
    (hgoes : ∀ past s a s', M.Run past s → M.step s a = some s' → inPlace s →
      inPlace s' ∨ gone s' ∧ content s' = content s)
    (hstays : ∀ past s a s', M.Run past s → M.step s a = some s' → gone s →
      gone s' ∧ content s' = content s) {s : σ} (run : M.Run past s) {busy : σ → Prop}
    (hwas : During busy inPlace (moments past s)) :
    (inPlace s ∨ gone s) ∧
      During busy (fun s₀ => (∃ before, M.Run before s₀) ∧ inPlace s₀ ∧ content s₀ = content s)
        (moments past s) := by
  have hall : AllSteps (fun _ _ => True) past := fun _ _ => trivial
  obtain ⟨hplace, hmoment⟩ := run.hindsight_if (fun past s a s' run _ => hgoes past s a s' run)
    (fun past s a s' run _ => hstays past s a s' run) hall hwas
  refine ⟨hplace, hmoment.mono ?_⟩
  rintro s₀ ⟨⟨before, run₀, -⟩, hin, hcontent⟩
  exact ⟨⟨before, run₀⟩, hin, hcontent⟩

inductive SetCall (Node Key : Type*) where
  | add (key : Key) (node : Node)
  | remove (key : Key)
  | get (key : Key)

inductive SetResult (Node : Type*) where
  | success (ok : Bool)
  | found (node : Option Node)

/-- The operations of a set that has at most one node for a key. -/
def setSpec {Node Key : Type*} (key : Node → Key) (set : Set Node) :
    SetCall Node Key → SetResult Node → Set Node → Prop
  | .add k n, .success true, set' =>
    (∀ m ∈ set, key m ≠ k) ∧ key n = k ∧ set' = insert n set
  | .add k _, .success false, set' => (∃ m ∈ set, key m = k) ∧ set' = set
  | .remove k, .success true, set' => ∃ m ∈ set, key m = k ∧ set' = set \ {m}
  | .remove k, .success false, set' => (∀ m ∈ set, key m ≠ k) ∧ set' = set
  | .get k, .found (some n), set' => n ∈ set ∧ key n = k ∧ set' = set
  | .get k, .found none, set' => (∀ m ∈ set, key m ≠ k) ∧ set' = set
  | _, _, _ => False

end Libvsync.Core
