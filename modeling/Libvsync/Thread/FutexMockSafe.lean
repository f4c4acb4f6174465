import Libvsync.Thread.FutexMockInv
import Libvsync.Thread.FutexMockSimple

/-!
The two liveness mocks of the futex. What the callers of `futex_mock_liveness` see is a trace of
the abstract futex. In `futex_mock_liveness_simple` tickets and `grant` both begin at 0, so that
the first wait that finds its value can return at once, without a wake call: only until then is
every run a trace.
-/

namespace Libvsync.Thread

open Libvsync.Core

/-- The simple mock keeps the contract in every run in which no wait finds its value, and from
where the first one does, its own five steps break it. From there on it depends on luck: a run
keeps the contract when no wait returns as the oldest one that was not selected. -/
theorem futexMock_trace (Tid : Type) [DecidableEq Tid] :
    (∀ (past : List (FutexMock.State Tid × FutexMock.Act Tid)) (s : FutexMock.State Tid),
      (FutexMock.machine Tid).Run past s →
        ∃ f, Futex.Trace (eventsOf FutexMock.event past) f ∧ FutexMock.Agrees s f) ∧
    ∀ (past : List (FutexMockSimple.State Tid × FutexMockSimple.Act Tid))
      (s : FutexMockSimple.State Tid), (FutexMockSimple.machine Tid).Run past s →
        (AllSteps FutexMockSimple.NotFound past →
          (∃ f, Futex.Trace (eventsOf FutexMockSimple.event past) f ∧
            FutexMockSimple.Agrees s f) ∧
          ∀ t v, s.pc t = .waitRead v → s.word = v → ∃ s',
            (FutexMockSimple.machine Tid).exec s (List.replicate 5 (.step t)) = some s' ∧
            s'.pc t = .idle ∧
            ¬ ∃ f, Futex.Trace (eventsOf FutexMockSimple.event
              ((FutexMockSimple.machine Tid).pastOf s past (List.replicate 5 (.step t)))) f) ∧
        (AllSteps (fun s a => FutexMockSimple.Few s a ∧ FutexMockSimple.NotOldest s a) past →
          ∃ f, Futex.Trace (eventsOf FutexMockSimple.event past) f ∧
            FutexMockSimple.Agrees s f) := by
  refine ⟨fun _ _ run => FutexMock.run_trace run, fun past s run => ⟨fun hnot => ?_,
    FutexMockSimple.run_trace run⟩⟩
  obtain ⟨hunused, hok⟩ := FutexMockSimple.run_unused run hnot
  refine ⟨FutexMockSimple.run_trace run hok, fun t v hat hword => ?_⟩
  have hlone : s.ticket ≤ s.grant := by
    rw [hunused.ticket]
    exact Nat.zero_le _
  obtain ⟨s', hexec, hidle, hevents⟩ := FutexMockSimple.returns_alone hat hword hlone
  refine ⟨s', hexec, hidle, ?_⟩
  rw [hevents]
  rintro ⟨f, htrace⟩
  exact Futex.Trace.not_at_once htrace

def freshMock : FutexMock.State Nat :=
  ⟨fun _ => 0, none, fun _ => none, fun _ => ⟨0, 0, none⟩, fun _ => .idle⟩

def freshSimple : FutexMockSimple.State Nat := ⟨0, none, false, 0, 0, fun _ => .idle, []⟩

/-- Thread 0 waits, thread 1 selects it, and its wait returns. -/
def mockWoken : List (FutexMock.Act Nat) :=
  .vfutexWait 0 4 0 :: List.replicate 5 (.step 0) ++ .vfutexWake 1 4 1 ::
    List.replicate 6 (.step 1) ++ [.step 0]

/-- Threads 0 and 1 wait, thread 2 selects both, and the wait of thread 0 returns. -/
def simpleWoken : List (FutexMockSimple.Act Nat) :=
  .vfutexWait 0 0 :: List.replicate 5 (.step 0) ++ .vfutexWait 1 0 ::
    List.replicate 5 (.step 1) ++ .vfutexWake 2 2 :: List.replicate 5 (.step 2) ++ [.step 0]

def simpleFew (s : FutexMockSimple.State Nat) : FutexMockSimple.Act Nat → Bool
  | .step u => s.pc u ≠ .waitTicket ∨ s.ticket + 1 < 2 ^ 32
  | _ => true

def simpleNotOldest (s : FutexMockSimple.State Nat) : FutexMockSimple.Act Nat → Bool
  | .step u => s.pc u ≠ .await s.grant
  | _ => true

theorem simpleFew_sound {s : FutexMockSimple.State Nat} {a : FutexMockSimple.Act Nat}
    (hok : simpleFew s a = true) : FutexMockSimple.Few s a := by
  intro t ha hat
  subst ha
  exact (of_decide_eq_true hok).resolve_left (not_not.mpr hat)

theorem simpleNotOldest_sound {s : FutexMockSimple.State Nat} {a : FutexMockSimple.Act Nat}
    (hok : simpleNotOldest s a = true) : FutexMockSimple.NotOldest s a := by
  intro u t ha hat hgrant
  subst ha
  exact of_decide_eq_true hok (hgrant ▸ hat)

theorem freshSimple_initial {ok : FutexMockSimple.State Nat → FutexMockSimple.Act Nat → Bool} :
    ((FutexMockSimple.machine Nat).guarded ok).start freshSimple :=
  ⟨rfl, rfl, rfl, rfl, rfl, rfl⟩

theorem futexMock_trace_woken :
    (∃ f, Futex.Trace [.back 0, .wake 4 1, .sleep 4 0 0] f ∧ ∀ m, 0 ∉ f.waiting m) ∧
    ∃ f, Futex.Trace [.back 0, .wake () 2, .sleep () 0 1, .sleep () 0 0] f ∧ 1 ∈ f.woken := by
  constructor
  · have hstart : (FutexMock.machine Nat).start freshMock := ⟨rfl, rfl, rfl⟩
    have run := Machine.run_of_exec hstart
      (show ((FutexMock.machine Nat).exec freshMock mockWoken).isSome by decide +kernel)
    obtain ⟨f, htrace, hagrees⟩ := (futexMock_trace Nat).1 _ _ run
    refine ⟨f, htrace, fun m hm => ?_⟩
    have hstate := hagrees.blocked m 0 hm
    exact absurd hstate (by decide +kernel)
  · have run := Machine.run_of_exec freshSimple_initial
      (show (((FutexMockSimple.machine Nat).guarded fun s a =>
          simpleFew s a && simpleNotOldest s a).exec freshSimple simpleWoken).isSome by
        decide +kernel)
    obtain ⟨run, hok⟩ := run.of_guarded
    have hboth := fun p hp => Bool.and_eq_true_iff.mp (hok p hp)
    obtain ⟨f, htrace, hagrees⟩ := ((futexMock_trace Nat).2 _ _ run).2 fun p hp =>
      ⟨simpleFew_sound (hboth p hp).1, simpleNotOldest_sound (hboth p hp).2⟩
    refine ⟨f, htrace, ?_⟩
    rcases hagrees.waits (by rfl) 1 1 (by rfl) with hwoken | hwaits
    · exact hwoken
    · have hle := hagrees.blocked 1 hwaits 1 (by rfl)
      exact absurd hle (by decide +kernel)

/-- Thread 0 waits alone. -/
def simpleAlone : List (FutexMockSimple.Act Nat) :=
  .vfutexWait 0 0 :: List.replicate 6 (.step 0)

/-- The first wait returns although no wake call came. -/
theorem futexMockSimple_alone : ∃ past s, (FutexMockSimple.machine Nat).Run past s ∧
    AllSteps FutexMockSimple.Few past ∧
    ¬ ∃ f, Futex.Trace (eventsOf FutexMockSimple.event past) f := by
  have run := Machine.run_of_exec freshSimple_initial
    (show (((FutexMockSimple.machine Nat).guarded simpleFew).exec freshSimple
      simpleAlone).isSome by decide +kernel)
  obtain ⟨run, hok⟩ := run.of_guarded
  refine ⟨_, _, run, fun p hp => simpleFew_sound (hok p hp), ?_⟩
  rintro ⟨f, htrace⟩
  have htrace : Futex.Trace [.back 0, .sleep () 0 0] f := htrace
  obtain ⟨_, _, after, before, heq, -, -⟩ := htrace.selected
  cases after with
  | nil => cases heq
  | cons e after =>
    obtain ⟨-, heq⟩ := List.cons.inj heq
    cases after <;> cases heq

end Libvsync.Thread
