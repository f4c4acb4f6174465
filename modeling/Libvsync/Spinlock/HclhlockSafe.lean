import Libvsync.Spinlock.HclhlockStep

/-!
The HCLH lock over whole runs: mutual exclusion, the ownership of the qnodes while they
migrate between threads and clusters, and the grants through the local queues.
-/

namespace Libvsync.Spinlock.Hclhlock

open Libvsync.Core Function

variable {Tid Node : Type} [DecidableEq Tid] [DecidableEq Node] {cluster : Tid → Nat}
  {s s' : State Tid Node} {token p : Node} {line : List Tid} {queue : Nat → List Tid}
  {stale : Nat → Option Node} {t : Tid} {c use : Nat}

def Good (cluster : Tid → Nat) (s : State Tid Node) : Prop :=
  ∃ token line queue stale, Inv cluster s token line queue stale

theorem Inv.thread_step (h : Inv cluster s token line queue stale)
    (hstep : nextStep s t = some s') : Good cluster s' := by
  cases hat : s.pc t <;> rw [nextStep, hat] at hstep
  case idle => cases hstep
  case critical => cases hstep
  case acqState =>
    cases hstep
    exact ⟨_, _, _, _, h.acqState hat⟩
  case acqLocal c expTail =>
    dsimp only at hstep
    split at hstep
    · rename_i hlocal
      cases hstep
      refine ⟨_, _, _, _, h.acqLocal_step hat hlocal ⟨fun u hu => goto_other _ _ hu, ?_, rfl,
        rfl, rfl, rfl, rfl, rfl⟩⟩
      rw [goto_self]
      cases expTail <;> rfl
    · cases hstep
      exact ⟨_, _, _, _, h.goto hat rfl rfl (fun _ hold => hold.elim)
        (fun _ _ hold => hold.elim) (fun _ _ hold => hold.elim) (fun hold => hold) (by simp)
        (by simp)⟩
  case acqPoll c pred use =>
    cases hstep
    exact ⟨_, _, _, _, h.awaitGrantOrClusterMaster (.inl hat)⟩
  case acqPollNe c pred use cur =>
    dsimp only at hstep
    split at hstep
    · cases hstep
    · cases hstep
      exact ⟨_, _, _, _, h.awaitGrantOrClusterMaster (.inr ⟨cur, hat⟩)⟩
  case acqTail c pred =>
    cases hstep
    exact ⟨_, _, _, _, h.acqTail hat⟩
  case acqGlobal c expTail localTail =>
    dsimp only at hstep
    split at hstep
    · rename_i hglobal
      cases hstep
      exact ⟨token, h.acqGlobal_step hat hglobal
        ⟨fun u hu => goto_other _ _ hu, goto_self .., rfl, rfl, rfl, rfl, rfl, rfl⟩⟩
    · cases hstep
      exact ⟨_, _, _, _, h.goto hat rfl rfl (fun _ hold => hold.elim)
        (fun _ _ hold => hold.1) (fun _ _ hold => hold.elim) (fun hold => hold.elim)
        (by simp) (by simp)⟩
  case twsRead pred localTail =>
    cases localTail with
    | none => cases hstep
    | some x =>
      cases hstep
      refine ⟨_, _, _, _, h.goto hat rfl rfl (fun _ hold => hold) (fun _ _ hold => hold.elim)
        (fun _ _ hold => hold.elim) (fun hold => hold.elim) (fun pred x v heq => ?_)
        (by simp)⟩
      cases heq
      rfl
  case twsWrite pred localTail succState =>
    cases localTail with
    | none => cases hstep
    | some x =>
      cases hstep
      exact ⟨_, _, _, _, h.twsWrite_step hat (writes_goto ..)⟩
  case masterPoll pred =>
    cases pred with
    | none => cases hstep
    | some pred =>
      cases hstep
      exact ⟨_, _, _, _, h.awaitPred (.inl hat)⟩
  case masterPollNe pred cur =>
    cases pred with
    | none => cases hstep
    | some pred =>
      dsimp only at hstep
      split at hstep
      · cases hstep
      · cases hstep
        exact ⟨_, _, _, _, h.awaitPred (.inr ⟨cur, hat⟩)⟩
  case relRead =>
    cases hstep
    refine ⟨_, _, _, _, h.goto hat rfl rfl (fun _ hold => hold) (fun _ _ hold => hold.elim)
      (fun _ _ hold => hold.elim) (fun hold => hold.elim) (by simp) fun cur heq => ?_⟩
    cases heq
    rfl
  case relWrite cur =>
    cases hstep
    obtain ⟨rest, inv⟩ := h.relWrite_step hat (writes_goto ..)
    exact ⟨_, _, _, _, inv⟩
  case hijackRead c =>
    dsimp only at hstep
    split at hstep
    · cases hstep
      exact ⟨_, _, _, _, h.goto hat rfl rfl (fun _ hold => hold.elim)
        (fun _ _ hold => hold.elim) (fun _ _ hold => hold.elim) (fun hold => hold) (by simp)
        (by simp)⟩
    · cases hstep
  case hijackCas c exp =>
    dsimp only at hstep
    split at hstep
    · rename_i pred hpred
      split at hstep
      · cases hstep
        refine ⟨_, _, _, _, h.hijack_step hat hpred
          ⟨fun u hu => goto_other _ _ hu, goto_self .., fun q hq => ⟨?_, ?_⟩,
            update_self .., fun u hu => update_of_ne hu ..,
            update_self .., rfl, rfl, rfl⟩⟩
        · exact update_of_ne hq ..
        · exact update_of_ne hq ..
      · cases hstep
        exact ⟨_, _, _, _, h.goto hat rfl rfl (fun _ hold => hold.elim)
          (fun _ _ hold => hold.elim) (fun _ _ hold => hold.elim) (fun hold => hold)
          (by simp) (by simp)⟩
    · cases hstep

theorem Good.step {a : Act Tid} (h : Good cluster s) (hstep : step s a = some s') :
    Good cluster s' := by
  obtain ⟨token, line, queue, stale, h⟩ := h
  cases a with
  | acquire t =>
    simp only [Hclhlock.step] at hstep
    split at hstep
    · rename_i hat
      cases hstep
      exact ⟨_, _, _, _, h.goto hat rfl rfl (fun _ hold => hold.elim)
        (fun _ _ hold => hold.elim) (fun _ _ hold => hold.elim) (fun hold => hold) nofun nofun⟩
    · cases hstep
  | release t =>
    simp only [Hclhlock.step] at hstep
    split at hstep
    · rename_i hat
      cases hstep
      exact ⟨_, _, _, _, h.goto hat rfl rfl (fun _ hold => hold) (fun _ _ hold => hold.elim)
        (fun _ _ hold => hold.elim) (fun hold => hold.elim) nofun nofun⟩
    · cases hstep
  | step t => exact h.thread_step hstep

variable {head : Node} {qnode : Tid → Node} {past : List (State Tid Node × Act Tid)}

omit [DecidableEq Tid] [DecidableEq Node] in
/-- At the start all queues are empty and the initial qnode lets the first thread in. -/
theorem Initial.inv (h : Initial head qnode cluster s) :
    Inv cluster s head [] (fun _ => []) fun _ => none := by
  have hpc (t : Tid) : s.pc t = .idle := congrFun h.pc t
  have hown (t : Tid) : own s t = qnode t := by
    rw [own_eq (by rw [hpc]; rfl), h.qnode]
  refine ⟨?_, ?_, h.globalQueue, fun c => congrFun h.localQueues c, List.nodup_nil,
    fun _ => List.nodup_nil, nofun, ?_, ?_, ?_, nofun, ?_, ?_, ?_⟩
  · intro t u heq
    rw [hown, hown] at heq
    exact h.injective heq
  · intro t
    rw [hown]
    exact h.notHead t
  · intro t _ _
    rw [hpc]
    trivial
  · intro t _
    rw [h.qnode, h.state]
    exact ⟨rfl, rfl, fun _ => rfl⟩
  · rw [h.head]
  · intro m x hm
    rw [Pending, hpc] at hm
    cases hm
  · intro m pred x v hm
    rw [hpc] at hm
    cases hm
  · intro t cur ht
    rw [hpc] at ht
    cases ht

theorem run_inv (run : (machine Tid Node head qnode cluster).Run past s) : Good cluster s :=
  run.invariant (fun _ hstart => ⟨_, _, _, _, Initial.inv hstart⟩) fun _ _ _ h hstep =>
    h.step hstep

omit [DecidableEq Tid] [DecidableEq Node] in
/-- A thread that finds the required state is in the global queue. -/
theorem Inv.mem_of_granted (h : Inv cluster s token line queue stale)
    (hpolling : Polling s t c p use) (hstate : s.state p = requiredState c) : t ∈ line := by
  by_contra hline
  by_cases hqueue : t ∈ queue (cluster t)
  · have hlocals := h.locals (cluster t)
    cases hlist : queue (cluster t) with
    | nil =>
      rw [hlist] at hqueue
      cases hqueue
    | cons l rest =>
      rw [hlist] at hqueue hlocals
      rcases List.mem_cons.mp hqueue with rfl | hqueue
      · obtain ⟨rfl, hstale⟩ := hpolling.first hlocals.1
        exact h.stale_not_granted hstale.symm hstate
      · obtain ⟨q, hq, hfollows⟩ := hlocals.2.mem hqueue
        obtain ⟨rfl, rfl, -⟩ := hpolling.follows hfollows
        have hmem : p ∈ (l :: rest).map s.qnode := hq
        obtain ⟨u, hu, rfl⟩ := List.mem_map.mp hmem
        rw [h.queue_state (hlist ▸ hu)] at hstate
        cases hstate
  · exact hpolling.not_out (h.out t hline hqueue)

/-- At most one thread is between the return of acquire and the write of release that
lets the next thread in. No two threads own the same qnode. When a thread of a local
queue finds the required state, then the qnode in front of it was not taken over since
the thread put itself behind it, it has been released and is nobody's, and no thread has
the lock. -/
structure Safe (s : State Tid Node) : Prop where
  exclusive : ∀ t u, (s.pc t).inside = true → (s.pc u).inside = true → t = u
  ownership : ∀ t u, own s t = own s u → t = u
  grant : ∀ t c p use, Polling s t c p use → s.state p = requiredState c →
    s.uses p = use ∧ (∀ u, own s u ≠ p) ∧ ∀ u, (s.pc u).inside = false

theorem hclhlock_safe (run : (machine Tid Node head qnode cluster).Run past s) : Safe s := by
  obtain ⟨token, line, queue, stale, h⟩ := run_inv run
  refine ⟨fun t u ht hu => ?_, h.own_inj, fun t c p use hpolling hstate => ?_⟩
  · obtain ⟨rest, hline, -⟩ := h.inside_first ht
    obtain ⟨rest', hline', -⟩ := h.inside_first hu
    rw [hline] at hline'
    exact (List.cons.inj hline').1
  · obtain ⟨q, -, hbehind, hfirst⟩ := h.first_of_free (h.mem_of_granted hpolling hstate)
    obtain ⟨rfl, rfl, huse, -⟩ := hpolling.behind hbehind
    obtain ⟨rfl, rest, hline⟩ := hfirst (by rw [hstate]; rfl)
    refine ⟨huse.symm, h.own_ne, fun u => Bool.eq_false_iff.mpr fun hinside => ?_⟩
    obtain ⟨rest', hline', -⟩ := h.inside_first hinside
    rw [hline] at hline'
    obtain ⟨rfl, -⟩ := List.cons.inj hline'
    rcases hpolling with hat | ⟨cur, hat⟩ <;> rw [hat] at hinside <;> cases hinside

/-- The initial qnode is 0, and thread `t` starts with qnode `t + 1`. -/
def threeStart : State Nat Nat where
  localQueues _ := none
  globalQueue := some 0
  state n := if n = 0 then ⟨false, false, 0⟩ else hclhLockGetDefaultState (if n = 3 then 5 else 1)
  pred _ := none
  qnode t := t + 1
  pc _ := .idle
  uses _ := 0

/-- Threads 0 and 1 are of cluster 1, and thread 2 is of cluster 5. Thread 0 splices
thread 1 with itself, and thread 2 queues behind them. Thread 1 is granted through the
local queue. Then thread 2 takes the qnode over that the local tail of cluster 1 points
to, and thread 0 acquires again behind it. -/
def migrate : List (Act Nat) :=
  List.flatten [
    .acquire 0 :: List.replicate 2 (.step 0),
    .acquire 1 :: List.replicate 3 (.step 1),
    List.replicate 7 (.step 0),
    .acquire 2 :: List.replicate 8 (.step 2),
    .release 0 :: List.replicate 2 (.step 0),
    [.step 1],
    List.replicate 2 (.step 0),
    .release 1 :: List.replicate 4 (.step 1),
    .step 2 :: .release 2 :: List.replicate 4 (.step 2),
    .acquire 0 :: List.replicate 11 (.step 0)]

theorem hclhlock_safe_migrate :
    ∃ past s, (machine Nat Nat 0 (fun t => t + 1) fun t => if t = 2 then 5 else 1).Run past s ∧
      Safe s ∧ s.pc 0 = .critical ∧ (s.qnode 0, s.qnode 1, s.qnode 2) = (0, 1, 2) := by
  let M := machine Nat Nat 0 (fun t => t + 1) fun t => if t = 2 then 5 else 1
  have hexec : (M.exec threeStart migrate).map
      (fun s => (s.pc 0, s.qnode 0, s.qnode 1, s.qnode 2)) = some (.critical, 0, 1, 2) := by
    decide +kernel
  have hinitial : Initial 0 (fun t => t + 1) (fun t => if t = 2 then 5 else 1) threeStart := by
    refine ⟨fun t u heq => Nat.succ.inj heq, fun t => Nat.succ_ne_zero t, rfl, rfl, rfl,
      fun t => ?_, rfl, rfl, rfl, rfl⟩
    simp only [threeStart, Nat.succ_ne_zero, if_false, Nat.reduceEqDiff]
  obtain ⟨s, hs, hview⟩ := Option.map_eq_some_iff.mp hexec
  obtain ⟨hpc, hqnode⟩ := Prod.mk.inj hview
  have run := (Machine.Run.start (M := M) hinitial).exec hs
  exact ⟨_, s, run, hclhlock_safe run, hpc, hqnode⟩

end Libvsync.Spinlock.Hclhlock
