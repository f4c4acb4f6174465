import Libvsync.Core.Machine
import Mathlib.Data.List.Nodup
import Mathlib.Data.Set.Insert

/-!
Traces, and the contract of a futex. A machine simulates an abstract one when every step of
it is either silent or a step of the abstract machine with the same event.

The abstract futex compares the word and puts the caller among those that wait in one step.
A wake call selects as many of those that wait at its address as it asks for, or all of them
when there are fewer, and a wait returns only when it has been selected.
-/

namespace Libvsync.Core

open Function

section Traces

variable {σ α τ ε : Type*} {Step : τ → ε → τ → Prop} {start : τ → Prop}

/-- The events of an abstract machine up to now, newest first. -/
inductive Traces (Step : τ → ε → τ → Prop) (start : τ → Prop) : List ε → τ → Prop
  | start {f : τ} : start f → Traces Step start [] f
  | step {tr : List ε} {f f' : τ} {e : ε} :
      Traces Step start tr f → Step f e f' → Traces Step start (e :: tr) f'

/-- The events of a run. -/
def eventsOf (event : σ → α → Option ε) (past : List (σ × α)) : List ε :=
  past.filterMap fun p => event p.1 p.2

/-- A step with the event that one sees of it, if any. -/
def Matches (Step : τ → ε → τ → Prop) (R : σ → τ → Prop) (event : Option ε) (s' : σ) (f : τ) :
    Prop :=
  (event = none ∧ R s' f) ∨ ∃ e f', event = some e ∧ Step f e f' ∧ R s' f'

theorem Machine.Run.simulates {M : Machine σ α} {ok : σ → α → Prop} {R : σ → τ → Prop}
    {event : σ → α → Option ε} (hstart : ∀ s, M.start s → ∃ f, start f ∧ R s f)
    (hstep : ∀ s a s' f, R s f → ok s a → M.step s a = some s' →
      Matches Step R (event s a) s' f)
    {past : List (σ × α)} {s : σ} (run : M.Run past s) (hok : AllSteps ok past) :
    ∃ f, Traces Step start (eventsOf event past) f ∧ R s f := by
  induction run with
  | start h =>
    obtain ⟨f, hf, hR⟩ := hstart _ h
    exact ⟨f, .start hf, hR⟩
  | @step past s s' a _ hs ih =>
    obtain ⟨f, htrace, hR⟩ := ih hok.tail
    rcases hstep s a s' f hR hok.head hs with ⟨hsilent, hR'⟩ | ⟨e, f', hevent, hf, hR'⟩
    · refine ⟨f, ?_, hR'⟩
      have hevents : eventsOf event ((s, a) :: past) = eventsOf event past :=
        List.filterMap_cons_none hsilent
      rw [hevents]
      exact htrace
    · refine ⟨f', ?_, hR'⟩
      have hevents : eventsOf event ((s, a) :: past) = e :: eventsOf event past :=
        List.filterMap_cons_some hevent
      rw [hevents]
      exact htrace.step hf

end Traces

/-- `waiting` are the waits at an address that were not selected yet, and `woken` those that
were selected and have not returned. -/
structure Futex (Addr Wait : Type*) where
  word : Addr → Nat
  waiting : Addr → List Wait
  woken : Set Wait

/-- What is seen of a futex: a word is written, a wait finds the value `v` that it was called
with, a wake call for `n` waits selects, and a wait returns. -/
inductive FutexEvent (Addr Wait : Type*) where
  | write (a : Addr) (v : Nat)
  | sleep (a : Addr) (v : Nat) (w : Wait)
  | wake (a : Addr) (n : Nat)
  | back (w : Wait)

namespace Futex

variable {Addr Wait : Type*} [DecidableEq Addr]

structure Initial (f : Futex Addr Wait) : Prop where
  waiting : ∀ a, f.waiting a = []
  woken : f.woken = ∅

inductive Step : Futex Addr Wait → FutexEvent Addr Wait → Futex Addr Wait → Prop
  | write (f : Futex Addr Wait) (a : Addr) (v : Nat) :
      Step f (.write a v) { f with word := update f.word a v }
  | sleep (f : Futex Addr Wait) {a : Addr} {v : Nat} {w : Wait} {queue : List Wait}
      (hword : f.word a = v) (hwaiting : ∀ b, w ∉ f.waiting b) (hwoken : w ∉ f.woken)
      (hqueue : queue.Perm (w :: f.waiting a)) :
      Step f (.sleep a v w) { f with waiting := update f.waiting a queue }
  | wake (f : Futex Addr Wait) {a : Addr} {n : Nat} {chosen rest : List Wait}
      (hsplit : (f.waiting a).Perm (chosen ++ rest))
      (hcount : chosen.length = min n (f.waiting a).length) :
      Step f (.wake a n)
        { f with
          waiting := update f.waiting a rest
          woken := f.woken ∪ { w | w ∈ chosen } }
  | back (f : Futex Addr Wait) {w : Wait} (hw : w ∈ f.woken) :
      Step f (.back w) { f with woken := f.woken \ {w} }

abbrev Trace (tr : List (FutexEvent Addr Wait)) (f : Futex Addr Wait) : Prop :=
  Traces Step Initial tr f

variable {f f' : Futex Addr Wait} {tr : List (FutexEvent Addr Wait)} {a b : Addr} {n v : Nat}
  {w : Wait}

/-- A wait is at one address, once, and not selected. -/
structure Apart (f : Futex Addr Wait) : Prop where
  nodup : ∀ a, (f.waiting a).Nodup
  apart : ∀ a b w, w ∈ f.waiting a → w ∈ f.waiting b → a = b
  woken : ∀ a w, w ∈ f.waiting a → w ∉ f.woken

theorem Apart.step {e : FutexEvent Addr Wait} (h : Apart f) (hstep : Step f e f') : Apart f' := by
  cases hstep with
  | write a v => exact ⟨h.nodup, h.apart, h.woken⟩
  | @sleep a v w queue hword hwaiting hwoken hqueue =>
    have hmem (b : Addr) (x : Wait) (hx : x ∈ update f.waiting a queue b) :
        (x = w ∧ b = a) ∨ x ∈ f.waiting b := by
      by_cases hb : b = a
      · rw [hb, update_self, hqueue.mem_iff] at hx
        rcases List.mem_cons.mp hx with rfl | hx
        · exact .inl ⟨rfl, hb⟩
        · exact .inr (hb ▸ hx)
      · rw [update_of_ne hb] at hx
        exact .inr hx
    refine ⟨fun b => ?_, fun b c x hb hc => ?_, fun b x hb => ?_⟩
    · change (update f.waiting a queue b).Nodup
      by_cases hb : b = a
      · rw [hb, update_self, hqueue.nodup_iff]
        exact List.nodup_cons.mpr ⟨hwaiting a, h.nodup a⟩
      · rw [update_of_ne hb]
        exact h.nodup b
    · rcases hmem b x hb with ⟨hxw, hba⟩ | hold
      · rcases hmem c x hc with ⟨-, hca⟩ | hold'
        · rw [hba, hca]
        · exact absurd (hxw ▸ hold') (hwaiting c)
      · rcases hmem c x hc with ⟨hxw, -⟩ | hold'
        · exact absurd (hxw ▸ hold) (hwaiting b)
        · exact h.apart b c x hold hold'
    · rcases hmem b x hb with ⟨rfl, -⟩ | hb
      · exact hwoken
      · exact h.woken b x hb
  | @wake a n chosen rest hsplit hcount =>
    have hnodup := hsplit.nodup_iff.mp (h.nodup a)
    have hmem (b : Addr) (x : Wait) (hx : x ∈ update f.waiting a rest b) :
        x ∈ f.waiting b ∧ x ∉ chosen := by
      by_cases hb : b = a
      · rw [hb, update_self] at hx
        refine ⟨?_, fun hchosen => (List.nodup_append'.mp hnodup).2.2 hchosen hx⟩
        rw [hb, hsplit.mem_iff]
        exact List.mem_append_right _ hx
      · rw [update_of_ne hb] at hx
        refine ⟨hx, fun hchosen => hb (h.apart b a x hx ?_)⟩
        rw [hsplit.mem_iff]
        exact List.mem_append_left _ hchosen
    refine ⟨fun b => ?_, fun b c x hb hc => ?_, fun b x hb => ?_⟩
    · change (update f.waiting a rest b).Nodup
      by_cases hb : b = a
      · rw [hb, update_self]
        exact (List.nodup_append'.mp hnodup).2.1
      · rw [update_of_ne hb]
        exact h.nodup b
    · exact h.apart b c x (hmem b x hb).1 (hmem c x hc).1
    · rintro (hwoken | hchosen)
      · exact h.woken b x (hmem b x hb).1 hwoken
      · exact (hmem b x hb).2 hchosen
  | back hw => exact ⟨h.nodup, h.apart, fun b x hb hx => h.woken b x hb hx.1⟩

/-- A wait that is at an address found its value there, and has not returned since. -/
def Asleep (tr : List (FutexEvent Addr Wait)) (a : Addr) (w : Wait) : Prop :=
  ∃ v after before, tr = after ++ .sleep a v w :: before ∧ .back w ∉ after

/-- After a wait found its value, a wake call came for its address. -/
def Selected (tr : List (FutexEvent Addr Wait)) (w : Wait) : Prop :=
  ∃ a n after before, tr = after ++ .wake a n :: before ∧ .back w ∉ after ∧ Asleep before a w

section

omit [DecidableEq Addr]

theorem Asleep.cons {e : FutexEvent Addr Wait} (h : Asleep tr a w) (he : e ≠ .back w) :
    Asleep (e :: tr) a w := by
  obtain ⟨v, after, before, rfl, hback⟩ := h
  exact ⟨v, e :: after, before, rfl, List.not_mem_cons_of_ne_of_not_mem he.symm hback⟩

theorem Selected.cons {e : FutexEvent Addr Wait} (h : Selected tr w) (he : e ≠ .back w) :
    Selected (e :: tr) w := by
  obtain ⟨a, n, after, before, rfl, hback, hasleep⟩ := h
  exact ⟨a, n, e :: after, before, rfl, List.not_mem_cons_of_ne_of_not_mem he.symm hback, hasleep⟩

end

theorem Trace.waits (h : Trace tr f) : Apart f ∧ (∀ a w, w ∈ f.waiting a → Asleep tr a w) ∧
    ∀ w ∈ f.woken, Selected tr w := by
  induction h with
  | @start f h =>
    have hnone (a : Addr) (w : Wait) : w ∉ f.waiting a := by
      rw [h.waiting a]
      exact List.not_mem_nil
    refine ⟨⟨fun a => ?_, fun a b w hw => absurd hw (hnone a w),
      fun a w hw => absurd hw (hnone a w)⟩, fun a w hw => absurd hw (hnone a w), fun w hw => ?_⟩
    · rw [h.waiting a]
      exact List.nodup_nil
    · rw [h.woken] at hw
      exact hw.elim
  | @step tr f f' e _ hstep ih =>
    obtain ⟨hapart, hwaiting, hwoken⟩ := ih
    refine ⟨hapart.step hstep, fun a w hw => ?_, fun w hw => ?_⟩
    · cases hstep with
      | write => exact (hwaiting a w hw).cons nofun
      | @sleep b v x queue _ _ _ hqueue =>
        by_cases hab : a = b
        · subst hab
          change w ∈ update f.waiting a queue a at hw
          rw [update_self, hqueue.mem_iff, List.mem_cons] at hw
          rcases hw with rfl | hw
          · exact ⟨v, [], tr, rfl, List.not_mem_nil⟩
          · exact (hwaiting a w hw).cons nofun
        · change w ∈ update f.waiting b queue a at hw
          rw [update_of_ne hab] at hw
          exact (hwaiting a w hw).cons nofun
      | @wake b n chosen rest hsplit _ =>
        refine (hwaiting a w ?_).cons nofun
        by_cases hab : a = b
        · subst hab
          change w ∈ update f.waiting a rest a at hw
          rw [update_self] at hw
          rw [hsplit.mem_iff]
          exact List.mem_append_right _ hw
        · change w ∈ update f.waiting b rest a at hw
          rw [update_of_ne hab] at hw
          exact hw
      | back hx =>
        refine (hwaiting a w hw).cons fun heq => ?_
        cases heq
        exact hapart.woken a w hw hx
    · cases hstep with
      | write | sleep => exact (hwoken w hw).cons nofun
      | @wake b n chosen rest hsplit _ =>
        rcases hw with hw | hw
        · exact (hwoken w hw).cons nofun
        · refine ⟨b, n, [], tr, rfl, List.not_mem_nil, hwaiting b w ?_⟩
          rw [hsplit.mem_iff]
          exact List.mem_append_left _ hw
      | back hx =>
        refine (hwoken w hw.1).cons fun heq => ?_
        cases heq
        exact hw.2 rfl

/-- A wait returns only after a wake call that came after it had found its value. -/
theorem Trace.selected (h : Trace (.back w :: tr) f) : Selected tr w := by
  cases h with
  | step h hstep =>
    cases hstep with
    | back hw => exact (Trace.waits h).2.2 w hw

/-- A wait does not return in the step after it found its value. -/
theorem Trace.not_at_once : ¬ Trace (.back w :: .sleep a v w :: tr) f := by
  intro h
  cases h with
  | step h hback =>
    cases h with
    | step h hsleep =>
      cases hback with
      | back hw =>
        cases hsleep with
        | sleep _ _ hwoken => exact hwoken hw

end Futex

end Libvsync.Core
