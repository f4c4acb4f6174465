import Libvsync.Spinlock.HmcslockStep

/-!
The HMCS lock over whole runs, for every tree of `hmcslock_init`.
-/

namespace Libvsync.Spinlock.Hmcslock

open Libvsync.Core

variable {Tid Lock : Type} [DecidableEq Tid] [DecidableEq Lock] {T : Tree Lock} {top : Nat}
  {s s' : State Tid Lock} {t : Tid} {k : Nat} {pc : Pc Tid Lock}

section

omit [DecidableEq Lock]

theorem Inv.move (hT : T.Uniform top) (h : Inv T top s) (hidle : s.pc t ≠ .idle)
    (hquiet : (s.pc t).queued = none)
    (howned : ∀ status, pc.owned top status = s.owned T top t)
    (hcounted : ∀ status, pc.counted top status ≤ s.counted T top t)
    (hok : PcOk T top (s.goto t pc) t pc) : Inv T top (s.goto t pc) := by
  refine h.goto hT hidle ?_ (fun i hi => ?_) ?_ hok
  · rw [owned_eq T top (goto_self ..)]
    exact howned _
  · rw [hquiet] at hi
    cases hi
  · rw [counted_eq T top (goto_self ..)]
    exact hcounted _

theorem Inv.releaseParent (hT : T.Uniform top) (h : Inv T top s) (hidle : s.pc t ≠ .idle)
    (hquiet : (s.pc t).queued = none) (howned : s.owned T top t = top + 1)
    (hcounted : s.counted T top t = top) (hlt : k < top) :
    Inv T top (s.goto t (releaseParent top k)) := by
  by_cases htop : k + 1 = top
  · rw [Hmcslock.releaseParent, if_pos htop]
    refine h.move hT hidle hquiet (fun _ => ?_) (fun _ => Nat.zero_le _) htop.le
    rw [howned, ← htop]
    rfl
  · rw [Hmcslock.releaseParent, if_neg htop]
    refine h.move hT hidle hquiet (fun _ => ?_) (fun _ => ?_) (lt_of_le_of_ne hlt htop)
    · rw [howned]
      rfl
    · rw [hcounted]
      exact le_rfl

theorem Inv.acqAwait (hT : T.Uniform top) (h : Inv T top s) (hat : s.pc t = .acqAwait k)
    (hwait : s.status (s.qnodeOf T t k) ≠ waitStatus top k)
    (hpc : pc = if k = top ∨ s.status (s.qnodeOf T t k) < acquireParent then .critical
      else .acqStart k) : Inv T top (s.goto t pc) := by
  have hok := h.pcs t
  rw [hat] at hok
  have hle : k ≤ top := hok.1
  have hidle : s.pc t ≠ .idle := fun hidle => by rw [hat] at hidle; cases hidle
  have howned := owned_eq T top hat
  have hcounted := counted_eq T top hat
  dsimp only [Pc.owned, Pc.counted, Pc.call] at howned hcounted
  rw [if_neg hwait] at howned
  have hqueued (i : Nat) (hi : (s.pc t).queued = some i) : i < s.owned T top t := by
    rw [hat] at hi
    cases hi
    rw [howned]
    split <;> omega
  by_cases hparent : s.status (s.qnodeOf T t k) = acquireParent
  · rw [if_pos hparent] at howned
    rw [if_pos (.inr hparent)] at hcounted
    by_cases htop : k = top
    · rw [hpc, if_pos (.inl htop)]
      refine h.goto hT hidle ?_ hqueued ?_ trivial
      · rw [owned_eq T top (goto_self ..), howned, htop]
        rfl
      · rw [counted_eq T top (goto_self ..), hcounted]
        exact htop.ge
    · rw [hpc, if_neg (not_or.mpr ⟨htop, hparent.not_lt⟩)]
      refine h.goto hT hidle ?_ hqueued ?_ (lt_of_le_of_ne hle htop)
      · rw [owned_eq T top (goto_self ..), howned]
        rfl
      · rw [counted_eq T top (goto_self ..), hcounted]
        exact le_rfl
  · rw [if_neg hparent] at howned
    rw [if_neg (not_or.mpr ⟨hwait, hparent⟩)] at hcounted
    have hcritical : k = top ∨ s.status (s.qnodeOf T t k) < acquireParent := by
      refine or_iff_not_imp_left.mpr fun htop => ?_
      have hlt : k < top := lt_of_le_of_ne hle htop
      have hsmall := h.counts t k (hlt.trans_eq hcounted.symm)
      have hbound := (hT.threshold _ k (h.leaf t hidle) hle).2
      have hconst : acquireParent = 2 ^ 64 - 2 := rfl
      exact hsmall.trans_lt (hbound.trans (by rw [hconst]; decide))
    rw [hpc, if_pos hcritical]
    refine h.goto hT hidle ?_ hqueued ?_ trivial
    · rw [owned_eq T top (goto_self ..), howned]
      rfl
    · rw [counted_eq T top (goto_self ..), hcounted]
      exact le_rfl

end

theorem Inv.relPass (hT : T.Uniform top) (h : Inv T top s) {succ : Node Tid Lock} {count : Nat}
    (hat : s.pc t = .relPass k succ count) :
    Inv T top (((s.setStatus succ (wadd 64 count 1)).leave (s.lockOf T t k)).goto t
      (returned k)) := by
  have hok := h.pcs t
  rw [hat] at hok
  obtain ⟨hlt, -, hcount, hnext⟩ := hok
  have hidle : s.pc t ≠ .idle := fun hidle => by rw [hat] at hidle; cases hidle
  have howned := owned_eq T top hat
  have hbound : T.threshold (s.lockOf T t k) < 2 ^ 32 :=
    (hT.threshold _ k (h.leaf t hidle) hlt.le).2
  have hadd : wadd 64 count 1 = count + 1 := wadd_of_lt (by omega)
  rw [hadd]
  have hwait : count + 1 ≠ waitStatus top k := by
    rw [waitStatus, if_neg hlt.ne, wait]
    omega
  have hparent : count + 1 ≠ acquireParent := by
    rw [acquireParent]
    omega
  refine h.pass hT ?_ (by rw [hat]; rfl) hnext hwait ?_ fun i hi => ?_
  · rw [howned]
    exact hlt.trans (Nat.lt_succ_self top)
  · rw [howned]
    exact (if_neg hwait).trans (if_neg hparent)
  · have hi : i < top := hi.trans_eq (if_neg (not_or.mpr ⟨hwait, hparent⟩))
    rw [counted_eq T top hat]
    rcases lt_trichotomy i k with hik | hik | hik
    · exact .inl hik
    · exact .inr (.inl ⟨hik, hcount⟩)
    · exact .inr (.inr ⟨hik, hi⟩)

/-- A thread asks the next one to acquire the parent, or passes the root. -/
theorem Inv.helpPass (hT : T.Uniform top) (h : Inv T top s) {succ : Node Tid Lock}
    (hat : s.pc t = .helpPass k succ) :
    Inv T top (((s.setStatus succ (passStatus top k)).leave (s.lockOf T t k)).goto t
      (returned k)) := by
  have hok := h.pcs t
  rw [hat] at hok
  obtain ⟨hle, hnext⟩ := hok
  have howned := owned_eq T top hat
  have hk : k < s.owned T top t := by
    rw [howned]
    exact Nat.lt_succ_self k
  by_cases htop : k = top
  · have hwait : unlocked ≠ waitStatus top k := by
      rw [waitStatus, if_pos htop]
      decide
    have hparent : unlocked ≠ acquireParent := by decide
    rw [passStatus, if_pos htop]
    refine h.pass hT hk (by rw [hat]; rfl) hnext hwait ?_ fun i hi => .inl ?_
    · rw [howned]
      refine (if_neg hwait).trans ((if_neg hparent).trans ?_)
      rw [← htop]
      rfl
    · rw [htop]
      exact hi.trans_eq (if_neg (not_or.mpr ⟨hwait, hparent⟩))
  · have hwait : acquireParent ≠ waitStatus top k := by
      rw [waitStatus, if_neg htop]
      decide
    rw [passStatus, if_neg htop]
    refine h.pass hT hk (by rw [hat]; rfl) hnext hwait ?_ fun i hi => .inl ?_
    · rw [howned]
      exact (if_neg hwait).trans (if_pos rfl)
    · exact hi.trans_eq (if_pos (.inr rfl))

theorem Inv.nextStep (hT : T.Uniform top) (h : Inv T top s)
    (hstep : nextStep T top s t = some s') : Inv T top s' := by
  have hok := h.pcs t
  simp only [Hmcslock.nextStep] at hstep
  have hown := owned_eq T top (s := s) (t := t) rfl
  have hcount := counted_eq T top (s := s) (t := t) rfl
  cases hat : s.pc t <;> rw [hat] at hstep hok hown hcount <;> dsimp only at hstep
  case idle | critical => cases hstep
  case acqStatus k =>
    cases hstep
    exact h.acqStatus hT hat
  case acqNext k =>
    cases hstep
    exact h.acqNext hT hat
  case acqXchg k =>
    split at hstep
    · rename_i hnone
      cases hstep
      exact h.join_first hT hat hnone
    · rename_i pred hsome
      cases hstep
      exact h.join_behind hT hat hsome
  case acqLink k pred =>
    cases hstep
    exact h.acqLink hT hat
  case acqAwait k =>
    split at hstep
    · cases hstep
    · rename_i hwait
      split at hstep
      · rename_i hcritical
        cases hstep
        exact h.acqAwait hT hat hwait (if_pos hcritical).symm
      · rename_i hcritical
        cases hstep
        exact h.acqAwait hT hat hwait (if_neg hcritical).symm
  case acqStart k =>
    split at hstep
    · cases hstep
    · cases hstep
      exact h.acqStart hT hat
  case acqUnlocked =>
    cases hstep
    exact h.acqUnlocked hT hat
  case relPass k succ count =>
    cases hstep
    exact h.relPass hT hat
  case helpPass k succ =>
    cases hstep
    exact h.helpPass hT hat
  all_goals
    have hidle : s.pc t ≠ .idle := fun hidle => by rw [hat] at hidle; cases hidle
    have hquiet : (s.pc t).queued = none := by rw [hat]; rfl
  case relStatus k =>
    split at hstep
    · rename_i hlt
      cases hstep
      exact h.move hT hidle hquiet (fun _ => hown.symm) (fun _ => hcount.ge) ⟨hok, rfl, hlt⟩
    · cases hstep
      exact h.releaseParent hT hidle hquiet hown hcount hok
  case relNext k count =>
    split at hstep
    · rename_i succ hsucc
      cases hstep
      exact h.move hT hidle hquiet (fun _ => hown.symm) (fun _ => hcount.ge)
        ⟨hok.1, hok.2.1, hok.2.2, hsucc⟩
    · cases hstep
      exact h.releaseParent hT hidle hquiet hown hcount hok.1
  case helpNext k =>
    split at hstep
    · rename_i succ hsucc
      cases hstep
      exact h.move hT hidle hquiet (fun _ => hown.symm) (fun _ => hcount.ge) ⟨hok, hsucc⟩
    · cases hstep
      exact h.move hT hidle hquiet (fun _ => hown.symm) (fun _ => hcount.ge) hok
  case helpAwait k =>
    split at hstep
    · rename_i succ hsucc
      cases hstep
      exact h.move hT hidle hquiet (fun _ => hown.symm) (fun _ => hcount.ge) ⟨hok, hsucc⟩
    · cases hstep
  case helpCas k =>
    split at hstep
    · rename_i hlock
      cases hstep
      exact h.helpCas hT hat hlock
    · cases hstep
      exact h.move hT hidle hquiet (fun _ => hown.symm) (fun _ => hcount.ge) hok

theorem Inv.step (hT : T.Uniform top) (htop : 0 < top) {a : Act Tid Lock} (h : Inv T top s)
    (hstep : step T top s a = some s') : Inv T top s' := by
  cases a with
  | acquire t leaf =>
    simp only [Hmcslock.step] at hstep
    split at hstep
    · rename_i hat
      cases hstep
      exact h.acquire hT hat.1 hat.2
    · cases hstep
  | release t =>
    simp only [Hmcslock.step] at hstep
    split at hstep
    · rename_i hat
      cases hstep
      refine h.move hT (fun hidle => ?_) (by rw [hat]; rfl) (fun _ => ?_) (fun _ => ?_) htop
      · rw [hat] at hidle
        cases hidle
      · rw [owned_eq T top hat]
        rfl
      · rw [counted_eq T top hat]
        exact le_rfl
    · cases hstep
  | step t => exact h.nextStep hT hstep

omit [DecidableEq Tid] [DecidableEq Lock] in
theorem Initial.inv (h : Initial s) : Inv T top s := by
  obtain ⟨lock, next, status, pc, leaf, line⟩ := s
  obtain ⟨rfl, rfl, rfl⟩ := h
  refine ⟨fun t hpc => absurd rfl hpc, fun l => List.nodup_nil, fun l => rfl, fun t k hk => ?_,
    fun l m hm => ?_, fun l m hm => ?_, fun t k hk => ?_, fun t => trivial⟩
  · cases hk
  · cases hm
  · cases hm
  · cases hk

theorem run_inv (hT : T.Uniform top) (htop : 0 < top) {past : List (State Tid Lock × Act Tid Lock)}
    (run : (machine Tid T top).Run past s) : Inv T top s :=
  run.invariant (I := Inv T top) (fun _ h => Initial.inv h) fun _ _ _ h hstep =>
    h.step hT htop hstep

/-- From the return of acquire until release gives a lock up. -/
def Pc.holds : Pc Tid Lock → Bool
  | .critical | .relStatus _ | .relNext _ _ | .relPass _ _ _ => true
  | _ => false

/-- At most one thread has the lock, and its nodes are the first ones at every lock from its
leaf to the root. A node is in one queue at most and once; a thread that has enqueued the node
embedded in a lock is the only one who has, and nobody else works with this node. The
assertions about the count and about the parent hold. -/
structure Safe (T : Tree Lock) (top : Nat) (s : State Tid Lock) : Prop where
  exclusive : ∀ t u, (s.pc t).holds = true → (s.pc u).holds = true → t = u
  path : ∀ t k, (s.pc t).holds = true → k ≤ top →
    (s.line (s.lockOf T t k)).head? = some (s.qnodeOf T t k)
  queues : ∀ l, s.lock l = (s.line l).getLast? ∧ (s.line l).Nodup
  oneQueue : ∀ n l l', n ∈ s.line l → n ∈ s.line l' → l = l'
  enqueued : ∀ l p, Node.inner l ∈ s.line p →
    ∃! t, ∃ k, InLine T top s t (k + 1) ∧ s.lockOf T t k = l
  alone : ∀ t u i j, Drives T top s t (i + 1) → Drives T top s u (j + 1) →
    s.lockOf T t i = s.lockOf T u j → t = u
  count : ∀ t k, s.pc t = .relStatus k →
    s.status (s.qnodeOf T t k) ≤ T.threshold (s.lockOf T t k)
  parent : ∀ t k, s.pc t = .acqStart k → T.parent (s.lockOf T t k) ≠ none

section

omit [DecidableEq Tid] [DecidableEq Lock]

theorem Pc.owned_of_holds {status : Nat} (h : pc.holds = true) : pc.owned top status = top + 1 := by
  cases pc <;> first | rfl | cases h

theorem Inv.safe (hT : T.Uniform top) (h : Inv T top s) : Safe T top s := by
  have hall (t : Tid) (ht : (s.pc t).holds = true) (k : Nat) (hk : k ≤ top) :
      k < s.owned T top t := by
    rw [State.owned, Pc.owned_of_holds ht]
    exact Nat.lt_succ_iff.mpr hk
  have hleaf (t : Tid) (ht : (s.pc t).holds = true) : T.isLeaf (s.leaf t) = true :=
    Drives.leaf h (.inl (hall t ht 0 (Nat.zero_le top)))
  refine ⟨fun t u ht hu => ?_, fun t k ht hk => h.first t k (hall t ht k hk),
    fun l => ⟨h.lock l, h.nodup l⟩, fun n l l' => h.one_line hT, fun l p hl => ?_,
    fun t u i j ht hu heq => ?_, fun t k hat => ?_, fun t k hat => ?_⟩
  · have hroot : s.lockOf T t top = s.lockOf T u top := hT.root _ _ (hleaf t ht) (hleaf u hu)
    exact (h.owner_unique hT (hall t ht top le_rfl) (hall u hu top le_rfl) hroot).1
  · obtain ⟨t, k, hk, -, hq⟩ := h.cover p _ hl
    cases k with
    | zero => cases hq
    | succ k =>
      refine ⟨t, ⟨k, hk, Node.inner.inj hq⟩, ?_⟩
      rintro u ⟨j, hj, hju⟩
      have heq : s.qnodeOf T u (j + 1) = s.qnodeOf T t (k + 1) :=
        congrArg Node.inner (hju.trans (Node.inner.inj hq).symm)
      exact (h.drives_unique hT hj.drives hk.drives heq).1
  · exact (h.drives_unique hT ht hu (congrArg Node.inner heq)).1
  · have hok := h.pcs t
    rw [hat] at hok
    refine h.counts t k ?_
    rw [counted_eq T top hat]
    exact hok
  · have hok := h.pcs t
    rw [hat] at hok
    refine hT.parent _ k (h.leaf t fun hidle => ?_) hok
    rw [hat] at hidle
    cases hidle

end

/-- The tree of `hmcslock_init`, for two levels and more. -/
theorem hmcslock_safe {specs : List LevelSpec} (htwo : 2 ≤ specs.length)
    (hone : specs.head?.map LevelSpec.numNodesPerParent = some 1)
    (hthreshold : ∀ spec ∈ specs, 1 ≤ spec.threshold.toNat) {s : State Tid Nat}
    {past : List (State Tid Nat × Act Tid Nat)}
    (run : (machine Tid (treeOf (init specs)) (specs.length - 1)).Run past s) :
    Safe (treeOf (init specs)) (specs.length - 1) s := by
  cases specs with
  | nil => cases hone
  | cons spec specs =>
    have hT := init_uniform (Option.some.inj hone) hthreshold
    have htop : 0 < specs.length := Nat.lt_of_succ_lt_succ htwo
    exact (run_inv hT htop run).safe hT

/-- A machine with two leaves and a threshold of 2. -/
def twoLeaves : List LevelSpec := [⟨1, 2⟩, ⟨2, 2⟩]

/-- The threads 0 and 1 use the first leaf and thread 2 the second one. Thread 0 passes the
lock to thread 1, while thread 2 waits at the root. -/
def cohort : List (Act Nat Nat) :=
  List.flatten [
    .acquire 0 1 :: List.replicate 8 (.step 0),
    .acquire 1 1 :: List.replicate 4 (.step 1),
    .acquire 2 2 :: List.replicate 8 (.step 2),
    .release 0 :: List.replicate 3 (.step 0),
    [.step 1]]

def freeLock : State Nat Nat where
  lock _ := none
  next _ := none
  status _ := 0
  pc _ := .idle
  leaf _ := 0
  line _ := []

theorem hmcslock_safe_cohort :
    ∃ past s, (machine Nat (treeOf (init twoLeaves)) 1).Run past s ∧
      Safe (treeOf (init twoLeaves)) 1 s ∧ s.pc 0 = .idle ∧ s.pc 1 = .critical ∧
      s.pc 2 = .acqAwait 1 := by
  let M := machine Nat (treeOf (init twoLeaves)) 1
  have hexec : (M.exec freeLock cohort).map (fun s => (s.pc 0, s.pc 1, s.pc 2)) =
      some (.idle, .critical, .acqAwait 1) := by
    decide +kernel
  obtain ⟨s, hs, hview⟩ := Option.map_eq_some_iff.mp hexec
  obtain ⟨hzero, hrest⟩ := Prod.mk.inj hview
  obtain ⟨hone, htwo⟩ := Prod.mk.inj hrest
  have run := (Machine.Run.start (M := M) (s := freeLock) ⟨rfl, rfl, rfl⟩).exec hs
  have hthreshold : ∀ spec ∈ twoLeaves, 1 ≤ spec.threshold.toNat := by decide
  exact ⟨_, s, run, hmcslock_safe (by decide) rfl hthreshold run, hzero, hone,
    htwo⟩

end Libvsync.Spinlock.Hmcslock
