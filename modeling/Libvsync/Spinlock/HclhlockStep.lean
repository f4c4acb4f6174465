import Libvsync.Spinlock.HclhlockInv

/-!
The steps of the HCLH lock keep the invariant, one lemma for each kind of step.
-/

namespace Libvsync.Spinlock.Hclhlock

open Libvsync.Core Function

variable {Tid Node : Type} [DecidableEq Tid] {cluster : Tid → Nat} {s s' : State Tid Node}
  {token p q : Node} {line rest : List Tid} {queue queue' : Nat → List Tid}
  {stale stale' : Nat → Option Node} {t y : Tid} {c : Nat}

theorem goto_self (s : State Tid Node) (t : Tid) (pc : Pc Node) : (s.goto t pc).pc t = pc :=
  update_self ..

theorem goto_other (s : State Tid Node) {t u : Tid} (pc : Pc Node) (hu : u ≠ t) :
    (s.goto t pc).pc u = s.pc u :=
  update_of_ne hu ..

theorem quiet_goto {pc pc' : Pc Node} (hat : s.pc t = pc)
    (hhijacking : pc'.hijacking = pc.hijacking) (hmarks : pc'.marks = pc.marks) :
    Quiet s (s.goto t pc') t where
  pc u hu := goto_other s pc' hu
  pred _ _ := rfl
  state := rfl
  qnode := rfl
  uses := rfl
  localQueues := rfl
  globalQueue := rfl
  hijacking := by rw [goto_self, hat, hhijacking]
  predSelf _ := rfl
  marks := by rw [goto_self, hat, hmarks]

theorem Inv.goto (h : Inv cluster s token line queue stale) {pc pc' : Pc Node}
    (hat : s.pc t = pc) (hhijacking : pc'.hijacking = pc.hijacking) (hmarks : pc'.marks = pc.marks)
    (hline : ∀ q, BehindAt s (cluster t) q t pc → BehindAt s (cluster t) q t pc')
    (hfirst : ∀ rest, queue (cluster t) = t :: rest →
      FirstAt s (cluster t) (stale (cluster t)) (t :: rest) pc →
        FirstAt s (cluster t) (stale (cluster t)) (t :: rest) pc')
    (hfollows : ∀ u ∈ queue (cluster t), FollowsAt s (cluster t) (s.qnode u) pc →
      FollowsAt s (cluster t) (s.qnode u) pc')
    (hout : OutAt s (cluster t) (stale (cluster t)) t pc →
      OutAt s (cluster t) (stale (cluster t)) t pc')
    (htws : ∀ pred x v, pc' = .twsWrite pred (some x) v → v = { s.state x with tws := true })
    (hrel : ∀ cur, pc' = .relWrite cur → cur = s.state (s.qnode t)) :
    Inv cluster (s.goto t pc') token line queue stale := by
  have hquiet := quiet_goto hat hhijacking hmarks
  refine h.quiet hquiet hat (goto_self ..) ?_ ?_ ?_ ?_ htws hrel
  · intro q _ hbehind
    exact (hline q hbehind).kept (hquiet.kept q) rfl
  · intro rest hqueue hold
    exact (hfirst rest hqueue hold).kept fun _ _ => rfl
  · intro u hu hold
    exact (hfollows u hu hold).kept rfl
  · intro hold
    exact (hout hold).kept rfl

theorem Inv.acqState (h : Inv cluster s token line queue stale) (hat : s.pc t = .acqState) :
    Inv cluster (s.goto t (.acqLocal (s.state (s.qnode t)).cluster none)) token line queue
      stale := by
  have hcluster := (h.owned t (by rw [hat]; rfl)).2.1
  exact h.goto hat rfl rfl (fun _ hf => hf.elim) (fun _ _ hf => hf.elim) (fun _ _ hf => hf.elim)
    (fun _ => hcluster) nofun nofun

/-- The thread waits for the state of `pred` in its local queue. -/
def Polling (s : State Tid Node) (t : Tid) (c : Nat) (pred : Node) (use : Nat) : Prop :=
  s.pc t = .acqPoll c pred use ∨ ∃ cur, s.pc t = .acqPollNe c pred use cur

section Polling

variable {pred : Node} {use : Nat}

section

omit [DecidableEq Tid]

theorem Polling.hijacking (h : Polling s t c pred use) : (s.pc t).hijacking = false := by
  rcases h with hat | ⟨cur, hat⟩ <;> rw [hat] <;> rfl

theorem Polling.marks (h : Polling s t c pred use) : (s.pc t).marks = none := by
  rcases h with hat | ⟨cur, hat⟩ <;> rw [hat] <;> rfl

theorem Polling.behind (h : Polling s t c pred use) {c' : Nat}
    (hbehind : BehindAt s c' q t (s.pc t)) :
    c = c' ∧ pred = q ∧ use = s.uses q ∧ (s.state q).cluster = c' ∧ (s.state q).tws = false ∧
      ∀ m, ¬ Pending s m q := by
  rcases h with hat | ⟨cur, hat⟩ <;> rw [hat] at hbehind <;> exact hbehind

theorem Polling.first (h : Polling s t c pred use) {c' : Nat} {x : Option Node}
    (hfirst : FirstAt s c' x rest (s.pc t)) : c = c' ∧ some pred = x := by
  rcases h with hat | ⟨cur, hat⟩ <;> rw [hat] at hfirst <;> exact hfirst

theorem Polling.follows (h : Polling s t c pred use) {c' : Nat}
    (hfollows : FollowsAt s c' q (s.pc t)) : c = c' ∧ pred = q ∧ use = s.uses q := by
  rcases h with hat | ⟨cur, hat⟩ <;> rw [hat] at hfollows <;> exact hfollows

theorem Polling.not_out (h : Polling s t c pred use) {c' : Nat} {x : Option Node}
    (hout : OutAt s c' x t (s.pc t)) : False := by
  rcases h with hat | ⟨cur, hat⟩ <;> rw [hat] at hout <;> exact hout

/-- A qnode in front of a local queue does not grant the lock. -/
theorem Inv.stale_not_granted (h : Inv cluster s token line queue stale)
    (hstale : stale c = some p) : s.state p ≠ requiredState c := by
  intro hstate
  rcases h.stales c p hstale with hcluster | htws | ⟨m, hm⟩
  · rw [hstate] at hcluster
    exact hcluster rfl
  · rw [hstate] at htws
    cases htws
  · -- the master that splices it has not entered, so its thread has not either
    obtain ⟨before, after, u, hline, hu, rfl⟩ := h.pending m p hm
    have hmem : u ∈ line := by
      rw [hline]
      exact List.mem_append_right _ hu
    have hsmw := (h.owned u (h.line_own hmem)).1
    rw [hstate] at hsmw
    cases hsmw

/-- Nor does the qnode of a thread of a local queue. -/
theorem Inv.queue_state (h : Inv cluster s token line queue stale) (ht : t ∈ queue c) :
    s.state (s.qnode t) = hclhLockGetDefaultState c := by
  obtain ⟨hout, rfl⟩ := h.apart c t ht
  obtain ⟨hsmw, hcluster, htws⟩ := h.owned t (h.queue_own ht)
  have htws := htws hout
  cases hstate : s.state (s.qnode t) with
  | mk tws smw cluster' =>
    rw [hstate] at hsmw hcluster htws
    rw [hclhLockGetDefaultState]
    congr

end

theorem Inv.awaitGrantOrClusterMaster (h : Inv cluster s token line queue stale)
    (hpolling : Polling s t c pred use) :
    Inv cluster (s.awaitGrantOrClusterMaster t c pred use (s.state pred)) token line queue
      stale := by
  rw [State.awaitGrantOrClusterMaster]
  split
  · rename_i hstate
    have hself : (s.enter t (some pred)).pc t = .critical := goto_self ..
    have hquiet : Quiet s (s.enter t (some pred)) t := by
      refine ⟨fun u hu => goto_other _ _ hu, fun u hu => update_of_ne hu .., rfl, rfl,
        rfl, rfl, rfl, ?_, fun hhijacking => ?_, ?_⟩
      · rw [hself, hpolling.hijacking]
        rfl
      · rw [hpolling.hijacking] at hhijacking
        cases hhijacking
      · rw [hself, hpolling.marks]
        rfl
    refine h.quiet hquiet rfl hself (fun q _ hbehind => ?_) (fun rest _ hfirst => ?_)
      (fun u hu hfollows => ?_) (fun hout => hpolling.not_out hout) nofun nofun
    · obtain ⟨-, rfl, -⟩ := hpolling.behind hbehind
      refine ⟨update_self .., ?_⟩
      change (s.state pred).smw = false
      rw [hstate]
      rfl
    · obtain ⟨rfl, hstale⟩ := hpolling.first hfirst
      exact h.stale_not_granted hstale.symm hstate
    · obtain ⟨rfl, rfl, -⟩ := hpolling.follows hfollows
      rw [h.queue_state hu] at hstate
      cases hstate
  · split
    · rename_i hmaster
      refine h.goto rfl hpolling.hijacking.symm hpolling.marks.symm (fun q hbehind => ?_)
        (fun rest _ hfirst => ?_) (fun u hu hfollows => ?_) (fun hout => hpolling.not_out hout)
        nofun nofun
      · obtain ⟨rfl, rfl, -, hcluster, htws, -⟩ := hpolling.behind hbehind
        rcases hmaster with hne | htws'
        · exact hne hcluster
        · rw [htws] at htws'
          cases htws'
      · exact (hpolling.first hfirst).1
      · obtain ⟨rfl, rfl, -⟩ := hpolling.follows hfollows
        rw [h.queue_state hu] at hmaster
        rcases hmaster with hne | htws'
        · exact hne rfl
        · cases htws'
    · exact h.goto rfl hpolling.hijacking.symm hpolling.marks.symm
        (fun q hbehind => hpolling.behind hbehind) (fun rest _ hfirst => hpolling.first hfirst)
        (fun u _ hfollows => hpolling.follows hfollows) (fun hout => hpolling.not_out hout)
        nofun nofun

end Polling

/-- The master waits for the state of `pred` in the global queue. -/
theorem Inv.awaitPred (h : Inv cluster s token line queue stale) {pred : Node}
    (hat : s.pc t = .masterPoll (some pred) ∨ ∃ cur, s.pc t = .masterPollNe (some pred) cur) :
    Inv cluster (s.awaitPred t (some pred) (s.state pred)) token line queue stale := by
  have hhijacking : (s.pc t).hijacking = false := by
    rcases hat with hat | ⟨cur, hat⟩ <;> rw [hat] <;> rfl
  have hmarks : (s.pc t).marks = none := by
    rcases hat with hat | ⟨cur, hat⟩ <;> rw [hat] <;> rfl
  have hbehind {c : Nat} {q : Node} (hold : BehindAt s c q t (s.pc t)) : pred = q := by
    rcases hat with hat | ⟨cur, hat⟩ <;> rw [hat] at hold <;> exact Option.some.inj hold
  have hfirst {c : Nat} {x : Option Node} {l : List Tid} (hold : FirstAt s c x l (s.pc t)) :
      False := by
    rcases hat with hat | ⟨cur, hat⟩ <;> rw [hat] at hold <;> exact hold
  have hfollows {c : Nat} {q : Node} (hold : FollowsAt s c q (s.pc t)) : False := by
    rcases hat with hat | ⟨cur, hat⟩ <;> rw [hat] at hold <;> exact hold
  have hout {c : Nat} {x : Option Node} (hold : OutAt s c x t (s.pc t)) : False := by
    rcases hat with hat | ⟨cur, hat⟩ <;> rw [hat] at hold <;> exact hold
  rw [State.awaitPred]
  split
  · exact h.goto rfl hhijacking.symm hmarks.symm (fun q hold => congrArg some (hbehind hold))
      (fun _ _ hold => (hfirst hold).elim) (fun _ _ hold => (hfollows hold).elim)
      (fun hold => (hout hold).elim) nofun nofun
  · rename_i hsmw
    have hself : (s.enter t (some pred)).pc t = .critical := goto_self ..
    have hquiet : Quiet s (s.enter t (some pred)) t := by
      refine ⟨fun u hu => goto_other _ _ hu, fun u hu => update_of_ne hu .., rfl, rfl,
        rfl, rfl, rfl, ?_, fun htrue => ?_, ?_⟩
      · rw [hself, hhijacking]
        rfl
      · rw [hhijacking] at htrue
        cases htrue
      · rw [hself, hmarks]
        rfl
    refine h.quiet hquiet rfl hself (fun q _ hold => ?_) (fun _ _ hold => (hfirst hold).elim)
      (fun _ _ hold => (hfollows hold).elim) (fun hold => (hout hold).elim) nofun nofun
    rw [← hbehind hold]
    exact ⟨update_self .., Bool.eq_false_iff.mpr hsmw⟩

theorem Inv.acqTail (h : Inv cluster s token line queue stale) {pred : Option Node}
    (hat : s.pc t = .acqTail c pred) :
    Inv cluster (s.goto t (.acqGlobal c pred (s.localQueues c))) token line queue stale := by
  refine h.goto hat rfl rfl (fun _ hold => hold.elim) (fun rest hqueue hold => ⟨hold, ?_⟩)
    (fun _ _ hold => hold.elim) (fun hold => hold.elim) nofun nofun
  have hlocals := h.locals (cluster t)
  rw [hqueue] at hlocals
  obtain ⟨q, hq, hlocal⟩ := hlocals.2.localQueues
  have hmem : q ∈ (t :: rest).map s.qnode := hq
  obtain ⟨u, hu, rfl⟩ := List.mem_map.mp hmem
  obtain rfl : c = cluster t := hold
  exact ⟨u, hu, hlocal⟩

/-- The thread is between the return of `hclhlock_acquire` and the write of
`hclhlock_release` that lets the next thread in. -/
def Pc.inside : Pc Node → Bool
  | .critical | .relRead | .relWrite _ => true
  | _ => false

section

omit [DecidableEq Tid]

theorem BehindAt.inside {pc : Pc Node} (h : BehindAt s c q t pc) (hinside : pc.inside = true) :
    s.pred t = some q ∧ (s.state q).smw = false := by
  cases pc <;> first | exact h | cases hinside

theorem Inv.mem_of_inside (h : Inv cluster s token line queue stale)
    (hinside : (s.pc t).inside = true) : t ∈ line := by
  by_contra hline
  by_cases hqueue : t ∈ queue (cluster t)
  · have hlocals := h.locals (cluster t)
    cases hlist : queue (cluster t) with
    | nil =>
      rw [hlist] at hqueue
      cases hqueue
    | cons l rest =>
      rw [hlist] at hqueue hlocals
      rcases List.mem_cons.mp hqueue with rfl | hqueue
      · have hfirst := hlocals.1
        cases hat : s.pc t <;> rw [hat] at hinside hfirst <;> first | exact hfirst | cases hinside
      · obtain ⟨q, -, hfollows⟩ := hlocals.2.mem hqueue
        cases hat : s.pc t <;> rw [hat] at hinside hfollows <;>
          first | exact hfollows | cases hinside
  · have hout := h.out t hline hqueue
    cases hat : s.pc t <;> rw [hat] at hinside hout <;> first | exact hout | cases hinside

/-- A thread of the global queue whose predecessor lets it in is the first one. -/
theorem Inv.first_of_free (h : Inv cluster s token line queue stale) (ht : t ∈ line) :
    ∃ q, some q ≠ stale (cluster t) ∧ BehindAt s (cluster t) q t (s.pc t) ∧
      ((s.state q).smw = false → q = token ∧ ∃ rest, line = t :: rest) := by
  obtain ⟨first, rest, rfl⟩ := List.exists_cons_of_ne_nil (List.ne_nil_of_mem ht)
  obtain ⟨⟨hstale, hbehind⟩, hrest⟩ := h.global
  rcases List.mem_cons.mp ht with rfl | ht
  · exact ⟨token, hstale, hbehind, fun _ => ⟨rfl, rest, rfl⟩⟩
  · obtain ⟨q, hq, hstale, hbehind⟩ := hrest.mem ht
    refine ⟨q, hstale, hbehind, fun hfree => ?_⟩
    have hmem : q ∈ (first :: rest).map s.qnode := hq
    obtain ⟨u, hu, rfl⟩ := List.mem_map.mp hmem
    rw [(h.owned u (h.line_own hu)).1] at hfree
    cases hfree

/-- Only the first thread of the global queue is inside, and it is behind the token. -/
theorem Inv.inside_first (h : Inv cluster s token line queue stale)
    (hinside : (s.pc t).inside = true) :
    ∃ rest, line = t :: rest ∧ s.pred t = some token ∧ some token ≠ stale (cluster t) := by
  obtain ⟨q, hstale, hbehind, hfirst⟩ := h.first_of_free (h.mem_of_inside hinside)
  obtain ⟨hpred, hfree⟩ := hbehind.inside hinside
  obtain ⟨rfl, rest, hline⟩ := hfirst hfree
  exact ⟨rest, hline, hpred, hstale⟩

/-- A thread whose qnode a master marks is not inside. -/
theorem Inv.pending_not_inside (h : Inv cluster s token line queue stale) {m : Tid} {x : Node}
    (hm : Pending s m x) : ∃ u ∈ line, s.qnode u = x ∧ (s.pc u).inside = false := by
  obtain ⟨before, after, u, hline, hu, rfl⟩ := h.pending m x hm
  have hmem : u ∈ line := by
    rw [hline]
    exact List.mem_append_right _ hu
  refine ⟨u, hmem, rfl, Bool.eq_false_iff.mpr fun hinside => ?_⟩
  obtain ⟨rest, hfirst, -⟩ := h.inside_first hinside
  have hnodup := h.nodup
  rw [hfirst] at hline
  cases before with
  | nil =>
    obtain ⟨rfl, -⟩ := List.cons.inj hline
    rw [Pending] at hm
    cases hat : s.pc u <;> rw [hat] at hm hinside <;> first | (cases hm; done) | cases hinside
  | cons b before =>
    obtain ⟨rfl, htail⟩ := List.cons.inj hline
    rw [hfirst, htail] at hnodup
    exact (List.nodup_cons.mp hnodup).1 (List.mem_append_right _ hu)

end

variable [DecidableEq Node]

/-- Thread `t` writes the state of qnode `x`. -/
structure Writes (s s' : State Tid Node) (t : Tid) (pc : Pc Node) (x : Node) (v : QState) :
    Prop where
  others : ∀ u, u ≠ t → s'.pc u = s.pc u
  self : s'.pc t = pc
  same : ∀ q, q ≠ x → s'.state q = s.state q
  written : s'.state x = v
  pred : s'.pred = s.pred
  qnode : s'.qnode = s.qnode
  uses : s'.uses = s.uses
  localQueues : s'.localQueues = s.localQueues
  globalQueue : s'.globalQueue = s.globalQueue

theorem writes_goto (s : State Tid Node) (t : Tid) (pc : Pc Node) (x : Node) (v : QState) :
    Writes s ((s.setState x v).goto t pc) t pc x v where
  others _ hu := goto_other _ _ hu
  self := goto_self ..
  same _ hq := update_of_ne hq ..
  written := update_self ..
  pred := rfl
  qnode := rfl
  uses := rfl
  localQueues := rfl
  globalQueue := rfl

section

omit [DecidableEq Tid] [DecidableEq Node]

/-- The local queues, when neither they nor the qnodes change. -/
theorem Inv.locals_kept (h : Inv cluster s token line queue stale) (ht : t ∉ queue c)
    (hpc : ∀ u, u ≠ t → s'.pc u = s.pc u) (hqnode : ∀ u ∈ queue c, s'.qnode u = s.qnode u)
    (huses : ∀ u ∈ queue c, s'.uses (s.qnode u) = s.uses (s.qnode u))
    (hlocal : s'.localQueues c = s.localQueues c) : Locals s' c (stale c) (queue c) := by
  have hlocals := h.locals c
  cases hqueue : queue c with
  | nil =>
    rw [hqueue] at hlocals
    exact hlocal.trans hlocals
  | cons l rest =>
    rw [hqueue] at hlocals ht hqnode huses
    have hne (y : Tid) (hy : y ∈ l :: rest) : y ≠ t := fun heq => ht (heq ▸ hy)
    constructor
    · rw [hpc l (hne l (List.mem_cons_self ..))]
      exact hlocals.1.kept hqnode
    · rw [hqnode l (List.mem_cons_self ..)]
      refine hlocals.2.imp (fun y hy q hq hfollows => ?_)
        (fun y hy => hqnode y (List.mem_cons_of_mem _ hy)) hlocal
      have hmem : q ∈ (l :: rest).map s.qnode := hq
      obtain ⟨u, hu, rfl⟩ := List.mem_map.mp hmem
      rw [hpc y (hne y (List.mem_cons_of_mem _ hy))]
      exact hfollows.kept (huses u hu)

theorem Inv.line_not_queue (h : Inv cluster s token line queue stale) (ht : t ∈ line) :
    t ∉ queue c :=
  fun hin => (h.apart c t hin).1 ht

theorem Inv.twsWrite_step (h : Inv cluster s token line queue stale) {pred : Option Node}
    {x : Node} {v : QState} (hat : s.pc t = .twsWrite pred (some x) v)
    (hwrites : Writes s s' t (.masterPoll pred) x v) :
    Inv cluster s' token line queue stale := by
  obtain rfl := h.twsWrite t pred x v hat
  have hpending : Pending s t x := by rw [Pending, hat]; rfl
  obtain ⟨u, hu, rfl, houtside⟩ := h.pending_not_inside hpending
  have ht : t ∈ line := by
    obtain ⟨before, after, -, hline, -, -⟩ := h.pending t _ hpending
    rw [hline]
    exact List.mem_append_right _ (List.mem_cons_self ..)
  have hkeeps (q : Node) : (s'.state q).smw = (s.state q).smw ∧
      (s'.state q).cluster = (s.state q).cluster ∧
        ((s.state q).tws = true → (s'.state q).tws = true) := by
    by_cases hq : q = s.qnode u
    · rw [hq, hwrites.written]
      exact ⟨rfl, rfl, fun _ => rfl⟩
    · rw [hwrites.same q hq]
      exact ⟨rfl, rfl, id⟩
  have hpendings {m : Tid} {x : Node} (hm : Pending s' m x) : m ≠ t ∧ Pending s m x := by
    rw [Pending] at hm
    by_cases hmt : m = t
    · rw [hmt, hwrites.self] at hm
      cases hm
    · rw [hwrites.others m hmt] at hm
      exact ⟨hmt, hm⟩
  have hhijackings (y : Tid) : (s'.pc y).hijacking = (s.pc y).hijacking := by
    by_cases hy : y = t
    · rw [hy, hwrites.self, hat]
      rfl
    · rw [hwrites.others y hy]
  have howns (y : Tid) : own s' y = own s y := by
    rw [own, own, hhijackings, hwrites.pred, hwrites.qnode]
  have hkept (q : Node) : Kept s s' q := by
    refine ⟨congrFun hwrites.uses q, (hkeeps q).2.1, fun hsmw => ?_, fun hno htws => ⟨?_, ?_⟩⟩
    · rw [(hkeeps q).1]
      exact hsmw
    · rw [hwrites.same q fun heq => hno t (heq ▸ hpending)]
      exact htws
    · exact fun m hm => hno m (hpendings hm).2
  refine ⟨?_, ?_, ?_, ?_, h.nodup, h.queueNodup, h.apart, ?_, ?_, ?_, ?_, ?_, ?_, ?_⟩
  · intro y z heq
    rw [howns, howns] at heq
    exact h.own_inj y z heq
  · intro y
    rw [howns]
    exact h.own_ne y
  · refine h.global.imp (fun y _ q _ hbehind => ⟨hbehind.1, ?_⟩)
      (fun y _ => congrFun hwrites.qnode y) hwrites.globalQueue
    by_cases hy : y = t
    · rw [hy, hat] at hbehind
      rw [hy, hwrites.self]
      exact hbehind.2
    · rw [hwrites.others y hy]
      exact hbehind.2.kept (hkept q) (congrFun hwrites.pred y)
  · exact fun c => h.locals_kept (h.line_not_queue ht) hwrites.others
      (fun u _ => congrFun hwrites.qnode u) (fun u _ => congrFun hwrites.uses _)
      (congrFun hwrites.localQueues c)
  · intro y hy hy'
    have hyt : y ≠ t := fun heq => hy (heq ▸ ht)
    rw [hwrites.others y hyt]
    exact (h.out y hy hy').kept (congrFun hwrites.pred y)
  · intro y hy
    rw [hhijackings] at hy
    obtain ⟨hsmw, hcluster, htws⟩ := h.owned y hy
    rw [hwrites.qnode, (hkeeps _).1, (hkeeps _).2.1]
    refine ⟨hsmw, hcluster, fun hout => ?_⟩
    rw [hwrites.same]
    · exact htws hout
    · intro heq
      exact hout (h.qnode_inj hy (h.line_own hu) heq ▸ hu)
  · rw [(hkeeps token).1]
    exact h.free
  · intro c x hx
    rcases h.stales c x hx with hcluster | htws | ⟨m, hm⟩
    · exact .inl (by rw [(hkeeps x).2.1]; exact hcluster)
    · exact .inr (.inl ((hkeeps x).2.2 htws))
    · by_cases hmt : m = t
      · -- the qnode that was to be marked is marked
        rw [hmt, Pending, hat] at hm
        obtain rfl : s.qnode u = x := Option.some.inj hm
        refine .inr (.inl ?_)
        rw [hwrites.written]
      · refine .inr (.inr ⟨m, ?_⟩)
        rw [Pending, hwrites.others m hmt]
        exact hm
  · intro m x hm
    rw [hwrites.qnode]
    exact h.pending m x (hpendings hm).2
  · intro m pred x v hm
    have hmt : m ≠ t := by
      rintro rfl
      rw [hwrites.self] at hm
      cases hm
    rw [hwrites.others m hmt] at hm
    have hv := h.twsWrite m pred x v hm
    by_cases hx : x = s.qnode u
    · rw [hx, hwrites.written]
      rw [hx] at hv
      exact hv
    · rw [hwrites.same x hx]
      exact hv
  · intro y cur hy
    have hyt : y ≠ t := by
      rintro rfl
      rw [hwrites.self] at hy
      cases hy
    rw [hwrites.others y hyt] at hy
    rw [hwrites.qnode, hwrites.same]
    · exact h.relWrite y cur hy
    · intro heq
      have hinside : (s.pc y).inside = true := by rw [hy]; rfl
      have hyu := h.qnode_inj (h.line_own (h.mem_of_inside hinside)) (h.line_own hu) heq
      rw [hyu, houtside] at hinside
      cases hinside

/-- The first thread of the global queue lets the next one in: its qnode is the token, and
the old token is its own. -/
theorem Inv.relWrite_step (h : Inv cluster s token line queue stale) {cur : QState}
    (hat : s.pc t = .relWrite cur)
    (hwrites : Writes s s' t (.hijackRead cur.cluster) (s.qnode t) { cur with smw := false }) :
    ∃ rest, Inv cluster s' (s.qnode t) rest queue stale := by
  obtain rfl := h.relWrite t cur hat
  have hhijacking : (s.pc t).hijacking = false := by rw [hat]; rfl
  obtain ⟨rest, rfl, hpred, hstale⟩ := h.inside_first (by rw [hat]; rfl)
  obtain ⟨ht, hnodup⟩ := List.nodup_cons.mp h.nodup
  have hcluster := (h.owned t hhijacking).2.1
  have hne (y : Tid) (hy : y ∈ rest) : y ≠ t := fun heq => ht (heq ▸ hy)
  have hstate (q : Node) : (s'.state q).cluster = (s.state q).cluster ∧
      (s'.state q).tws = (s.state q).tws := by
    by_cases hq : q = s.qnode t
    · rw [hq, hwrites.written]
      exact ⟨rfl, rfl⟩
    · rw [hwrites.same q hq]
      exact ⟨rfl, rfl⟩
  have hpendings {m : Tid} {x : Node} : Pending s' m x ↔ Pending s m x := by
    rw [Pending, Pending]
    by_cases hm : m = t
    · rw [hm, hwrites.self, hat]
      rfl
    · rw [hwrites.others m hm]
  have howns (y : Tid) (hy : y ≠ t) : own s' y = own s y := by
    rw [own, own, hwrites.others y hy, hwrites.pred, hwrites.qnode]
  have hownt : own s' t = token := by
    rw [own, hwrites.self, hwrites.pred, hpred]
    rfl
  have hkept (q : Node) : Kept s s' q := by
    refine ⟨congrFun hwrites.uses q, (hstate q).1, fun hsmw => ?_, fun hno htws => ⟨?_, ?_⟩⟩
    · by_cases hq : q = s.qnode t
      · rw [hq, hwrites.written]
      · rw [hwrites.same q hq]
        exact hsmw
    · rw [(hstate q).2]
      exact htws
    · exact fun m hm => hno m (hpendings.mp hm)
  refine ⟨rest, ?_, ?_, ?_, ?_, hnodup, h.queueNodup, ?_, ?_, ?_, ?_, ?_, ?_, ?_, ?_⟩
  · intro y z heq
    by_cases hy : y = t
    · by_cases hz : z = t
      · rw [hy, hz]
      · rw [hy, hownt, howns z hz] at heq
        exact absurd heq.symm (h.own_ne z)
    · by_cases hz : z = t
      · rw [hz, hownt, howns y hy] at heq
        exact absurd heq (h.own_ne y)
      · rw [howns y hy, howns z hz] at heq
        exact h.own_inj y z heq
  · intro y
    by_cases hy : y = t
    · rw [hy, hownt]
      exact (h.qnode_ne hhijacking).symm
    · rw [howns y hy]
      intro heq
      rw [← own_eq hhijacking] at heq
      exact hy (h.own_inj y t heq)
  · refine h.global.2.imp (fun y hy q _ hbehind => ⟨hbehind.1, ?_⟩)
      (fun y _ => congrFun hwrites.qnode y) hwrites.globalQueue
    rw [hwrites.others y (hne y hy)]
    exact hbehind.2.kept (hkept q) (congrFun hwrites.pred y)
  · exact fun c => h.locals_kept (h.line_not_queue (List.mem_cons_self ..)) hwrites.others
      (fun u _ => congrFun hwrites.qnode u) (fun u _ => congrFun hwrites.uses _)
      (congrFun hwrites.localQueues c)
  · intro c y hy
    exact ⟨fun hin => (h.apart c y hy).1 (List.mem_cons_of_mem _ hin), (h.apart c y hy).2⟩
  · intro y hy hy'
    by_cases hyt : y = t
    · rw [hyt, hwrites.self]
      refine ⟨hcluster, token, ?_, hstale⟩
      rw [hwrites.pred]
      exact hpred
    · rw [hwrites.others y hyt]
      have hold : y ∉ t :: rest := by
        rw [List.mem_cons]
        push Not
        exact ⟨hyt, hy⟩
      exact (h.out y hold hy').kept (congrFun hwrites.pred y)
  · intro y hy
    have hyt : y ≠ t := by
      rintro rfl
      rw [hwrites.self] at hy
      cases hy
    rw [hwrites.others y hyt] at hy
    obtain ⟨hsmw, hcluster, htws⟩ := h.owned y hy
    rw [hwrites.qnode, hwrites.same]
    · refine ⟨hsmw, hcluster, fun hout => htws ?_⟩
      rw [List.mem_cons]
      push Not
      exact ⟨hyt, hout⟩
    · intro heq
      exact hyt (h.qnode_inj hy hhijacking heq)
  · rw [hwrites.written]
  · intro c x hx
    rcases h.stales c x hx with hcluster | htws | ⟨m, hm⟩
    · exact .inl (by rw [(hstate x).1]; exact hcluster)
    · exact .inr (.inl (by rw [(hstate x).2]; exact htws))
    · exact .inr (.inr ⟨m, hpendings.mpr hm⟩)
  · intro m x hm
    rw [hwrites.qnode]
    have hmt : m ≠ t := by
      rintro rfl
      rw [Pending, hwrites.self] at hm
      cases hm
    obtain ⟨before, after, u, hline, hu, hx⟩ := h.pending m x (hpendings.mp hm)
    cases before with
    | nil => exact absurd (List.cons.inj hline).1.symm hmt
    | cons b before => exact ⟨before, after, u, (List.cons.inj hline).2, hu, hx⟩
  · intro m pred x v hm
    have hmt : m ≠ t := by
      rintro rfl
      rw [hwrites.self] at hm
      cases hm
    rw [hwrites.others m hmt] at hm
    obtain ⟨u, hu, rfl, houtside⟩ := h.pending_not_inside (by rw [Pending, hm]; rfl)
    have hut : u ≠ t := by
      rintro rfl
      rw [hat] at houtside
      cases houtside
    rw [hwrites.same]
    · exact h.twsWrite m pred _ v hm
    · intro heq
      exact hut (h.qnode_inj (h.line_own hu) hhijacking heq)
  · intro y cur hy
    have hyt : y ≠ t := by
      rintro rfl
      rw [hwrites.self] at hy
      cases hy
    rw [hwrites.others y hyt] at hy
    rw [hwrites.qnode, hwrites.same]
    · exact h.relWrite y cur hy
    · intro heq
      exact hyt (h.qnode_inj (by rw [hy]; rfl) hhijacking heq)

/-- Thread `t` takes qnode `x` over. -/
structure Takes (s s' : State Tid Node) (t : Tid) (x : Node) (v : QState) : Prop where
  others : ∀ u, u ≠ t → s'.pc u = s.pc u
  self : s'.pc t = .idle
  same : ∀ q, q ≠ x → s'.state q = s.state q ∧ s'.uses q = s.uses q
  taken : s'.state x = v
  qnode : ∀ u, u ≠ t → s'.qnode u = s.qnode u
  qnodeSelf : s'.qnode t = x
  pred : s'.pred = s.pred
  localQueues : s'.localQueues = s.localQueues
  globalQueue : s'.globalQueue = s.globalQueue

/-- A release ends. The qnode taken over is in front of no local queue of the cluster. -/
theorem Inv.hijack_step (h : Inv cluster s token line queue stale) {x : Node} {exp : QState}
    (hat : s.pc t = .hijackCas c exp) (hpred : s.pred t = some x)
    (htakes : Takes s s' t x (hclhLockGetDefaultState c)) :
    Inv cluster s' token line queue stale := by
  have hhijacking : (s.pc t).hijacking = true := by rw [hat]; rfl
  have htline : t ∉ line := by
    intro hin
    rw [h.line_own hin] at hhijacking
    cases hhijacking
  have htqueue (c : Nat) : t ∉ queue c := by
    intro hin
    rw [h.queue_own hin] at hhijacking
    cases hhijacking
  obtain ⟨rfl, x', hx', hstale⟩ : c = cluster t ∧ ∃ p, s.pred t = some p ∧
      some p ≠ stale (cluster t) := by
    have hout := h.out t htline (htqueue _)
    rw [hat] at hout
    exact hout
  obtain rfl : x = x' := Option.some.inj (hpred.symm.trans hx')
  have hownt : own s t = x := by
    rw [own, hhijacking, hpred]
    rfl
  -- the qnode is no other thread's, and not the token
  have hother (y : Tid) (hy : y ≠ t) (hown : (s.pc y).hijacking = false) : s.qnode y ≠ x := by
    intro heq
    refine hy (h.own_inj y t ?_)
    rw [own_eq hown, hownt, heq]
  have htoken : token ≠ x := by
    rw [← hownt]
    exact (h.own_ne t).symm
  have hnodes (q : Node) (hq : q ∈ token :: line.map s.qnode) : q ≠ x := by
    rcases List.mem_cons.mp hq with rfl | hq
    · exact htoken
    · obtain ⟨u, hu, rfl⟩ := List.mem_map.mp hq
      exact hother u (fun heq => htline (heq ▸ hu)) (h.line_own hu)
  have hqueues (c : Nat) (u : Tid) (hu : u ∈ queue c) : u ≠ t ∧ s.qnode u ≠ x := by
    have hut : u ≠ t := fun heq => htqueue c (heq ▸ hu)
    exact ⟨hut, hother u hut (h.queue_own hu)⟩
  have hpendings {m : Tid} {x : Node} : Pending s' m x ↔ Pending s m x := by
    rw [Pending, Pending]
    by_cases hm : m = t
    · rw [hm, htakes.self, hat]
      rfl
    · rw [htakes.others m hm]
  have howns (y : Tid) : own s' y = own s y := by
    by_cases hy : y = t
    · rw [hy, hownt, own, htakes.self]
      exact htakes.qnodeSelf
    · rw [own, own, htakes.others y hy, htakes.pred, htakes.qnode y hy]
  have hkept (q : Node) (hq : q ≠ x) : Kept s s' q := by
    refine ⟨(htakes.same q hq).2, ?_, ?_, ?_⟩
    · rw [(htakes.same q hq).1]
    · rw [(htakes.same q hq).1]
      exact id
    · intro hno htws
      rw [(htakes.same q hq).1]
      exact ⟨htws, fun m hm => hno m (hpendings.mp hm)⟩
  refine ⟨?_, ?_, ?_, ?_, h.nodup, h.queueNodup, h.apart, ?_, ?_, ?_, ?_, ?_, ?_, ?_⟩
  · intro y z heq
    rw [howns, howns] at heq
    exact h.own_inj y z heq
  · intro y
    rw [howns]
    exact h.own_ne y
  · refine h.global.imp (fun y hy q hq hbehind => ⟨hbehind.1, ?_⟩)
      (fun y hy => htakes.qnode y fun heq => htline (heq ▸ hy)) htakes.globalQueue
    rw [htakes.others y fun heq => htline (heq ▸ hy)]
    exact hbehind.2.kept (hkept q (hnodes q hq)) (congrFun htakes.pred y)
  · exact fun c => h.locals_kept (htqueue c) htakes.others
      (fun u hu => htakes.qnode u (hqueues c u hu).1)
      (fun u hu => (htakes.same _ (hqueues c u hu).2).2) (congrFun htakes.localQueues c)
  · intro y hy hy'
    by_cases hyt : y = t
    · rw [hyt, htakes.self]
      trivial
    · rw [htakes.others y hyt]
      exact (h.out y hy hy').kept (congrFun htakes.pred y)
  · intro y hy
    by_cases hyt : y = t
    · rw [hyt, htakes.qnodeSelf, htakes.taken]
      exact ⟨rfl, rfl, fun _ => rfl⟩
    · rw [htakes.others y hyt] at hy
      rw [htakes.qnode y hyt, (htakes.same _ (hother y hyt hy)).1]
      exact h.owned y hy
  · rw [(htakes.same token htoken).1]
    exact h.free
  · intro c' x' hx'
    by_cases hx : x' = x
    · subst hx
      refine .inl ?_
      rw [htakes.taken]
      rintro rfl
      exact hstale hx'.symm
    · rcases h.stales c' x' hx' with hcluster | htws | ⟨m, hm⟩
      · exact .inl (by rw [(htakes.same x' hx).1]; exact hcluster)
      · exact .inr (.inl (by rw [(htakes.same x' hx).1]; exact htws))
      · exact .inr (.inr ⟨m, hpendings.mpr hm⟩)
  · intro m x' hm
    obtain ⟨before, after, u, hline, hu, hx⟩ := h.pending m x' (hpendings.mp hm)
    refine ⟨before, after, u, hline, hu, ?_⟩
    rw [htakes.qnode u]
    · exact hx
    · rintro rfl
      refine htline ?_
      rw [hline]
      exact List.mem_append_right _ hu
  · intro m pred x' v hm
    have hmt : m ≠ t := by
      rintro rfl
      rw [htakes.self] at hm
      cases hm
    rw [htakes.others m hmt] at hm
    obtain ⟨u, hu, rfl, -⟩ := h.pending_not_inside (by rw [Pending, hm]; rfl)
    rw [(htakes.same _ (hnodes _ (List.mem_cons_of_mem _ (List.mem_map_of_mem hu)))).1]
    exact h.twsWrite m pred _ v hm
  · intro y cur hy
    have hyt : y ≠ t := by
      rintro rfl
      rw [htakes.self] at hy
      cases hy
    rw [htakes.others y hyt] at hy
    rw [htakes.qnode y hyt, (htakes.same _ (hother y hyt (by rw [hy]; rfl))).1]
    exact h.relWrite y cur hy

theorem FirstAt.longer {pc : Pc Node} {x : Option Node} {l more : List Tid}
    (h : FirstAt s c x l pc) : FirstAt s c x (l ++ more) pc := by
  cases pc with
  | acqGlobal c' expTail localTail =>
    obtain ⟨hc, u, hu, htail⟩ := h
    exact ⟨hc, u, List.mem_append_left _ hu, htail⟩
  | _ => exact h

/-- Where a thread stands that has put itself into a local queue. -/
def joined (s : State Tid Node) (c : Nat) : Option Node → Pc Node
  | some pred => .acqPoll c pred (s.uses pred)
  | none => .acqTail c none

theorem Inv.not_mem_of_acqLocal (h : Inv cluster s token line queue stale)
    {expTail : Option Node} (hat : s.pc t = .acqLocal c expTail) :
    t ∉ line ∧ (∀ c, t ∉ queue c) ∧ c = cluster t := by
  have hline : t ∉ line := by
    intro hin
    obtain ⟨q, -, -, hbehind⟩ := h.global.mem hin
    rw [hat] at hbehind
    exact hbehind
  have hqueue (c : Nat) : t ∉ queue c := by
    intro hin
    have hlocals := h.locals c
    cases hlist : queue c with
    | nil =>
      rw [hlist] at hin
      cases hin
    | cons l rest =>
      rw [hlist] at hin hlocals
      rcases List.mem_cons.mp hin with rfl | hin
      · have hfirst := hlocals.1
        rw [hat] at hfirst
        exact hfirst
      · obtain ⟨q, -, hfollows⟩ := hlocals.2.mem hin
        rw [hat] at hfollows
        exact hfollows
  have hout := h.out t hline (hqueue _)
  rw [hat] at hout
  exact ⟨hline, hqueue, hout⟩

/-- Thread `t` moves on and writes the tail of the local queue of cluster `c` or the tail
of the global queue. -/
structure Appends (s s' : State Tid Node) (t : Tid) (pc : Pc Node) (tail : Nat → Option Node)
    (globalTail : Option Node) : Prop where
  others : ∀ u, u ≠ t → s'.pc u = s.pc u
  self : s'.pc t = pc
  state : s'.state = s.state
  qnode : s'.qnode = s.qnode
  pred : s'.pred = s.pred
  uses : s'.uses = s.uses
  localQueues : s'.localQueues = tail
  globalQueue : s'.globalQueue = globalTail

/-- A thread puts itself into its local queue. -/
theorem Inv.acqLocal_step (h : Inv cluster s token line queue stale) {expTail : Option Node}
    (hat : s.pc t = .acqLocal c expTail) (hlocal : s.localQueues c = expTail)
    (happends : Appends s s' t (joined s c expTail)
      (update s.localQueues c (some (s.qnode t))) s.globalQueue) :
    Inv cluster s' token line (update queue c (queue c ++ [t])) stale := by
  obtain ⟨hline, hqueue, rfl⟩ := h.not_mem_of_acqLocal hat
  obtain ⟨hothers, hself, hstate, hqnode, hpred, huses, hlocals', hglobal⟩ := happends
  have htail : s'.localQueues (cluster t) = some (s.qnode t) := by
    rw [hlocals', update_self]
  have htails (c : Nat) (hc : c ≠ cluster t) : s'.localQueues c = s.localQueues c := by
    rw [hlocals', update_of_ne hc]
  have hjoined : (joined s (cluster t) expTail).hijacking = false ∧
      (joined s (cluster t) expTail).marks = none ∧
        (∀ cur, joined s (cluster t) expTail ≠ .relWrite cur) ∧
          ∀ pred x v, joined s (cluster t) expTail ≠ .twsWrite pred x v := by
    cases expTail <;> exact ⟨rfl, rfl, nofun, nofun⟩
  have hpendings {m : Tid} {x : Node} : Pending s' m x ↔ Pending s m x := by
    rw [Pending, Pending]
    by_cases hm : m = t
    · rw [hm, hself, hat, hjoined.2.1]
      rfl
    · rw [hothers m hm]
  have hhijackings (y : Tid) : (s'.pc y).hijacking = (s.pc y).hijacking := by
    by_cases hy : y = t
    · rw [hy, hself, hat, hjoined.1]
      rfl
    · rw [hothers y hy]
  have howns (y : Tid) : own s' y = own s y := by
    rw [own, own, hhijackings, hpred, hqnode]
  have hkept (q : Node) : Kept s s' q := by
    refine ⟨congrFun huses q, ?_, ?_, ?_⟩
    · rw [hstate]
    · rw [hstate]
      exact id
    · intro hno htws
      rw [hstate]
      exact ⟨htws, fun m hm => hno m (hpendings.mp hm)⟩
  refine ⟨?_, ?_, ?_, ?_, h.nodup, ?_, ?_, ?_, ?_, ?_, ?_, ?_, ?_, ?_⟩
  · intro y z heq
    rw [howns, howns] at heq
    exact h.own_inj y z heq
  · intro y
    rw [howns]
    exact h.own_ne y
  · refine h.global.imp (fun y hy q _ hbehind => ⟨hbehind.1, ?_⟩) (fun y _ => congrFun hqnode y)
      hglobal
    rw [hothers y fun heq => hline (heq ▸ hy)]
    exact hbehind.2.kept (hkept q) (congrFun hpred y)
  · intro c
    by_cases hc : c = cluster t
    · subst hc
      rw [update_self]
      have hlocals := h.locals (cluster t)
      cases hlist : queue (cluster t) with
      | nil =>
        rw [hlist] at hlocals
        have hstale : stale (cluster t) = expTail := hlocals.symm.trans hlocal
        refine ⟨?_, ?_⟩
        · rw [hself]
          cases expTail with
          | none => exact rfl
          | some pred => exact ⟨rfl, hstale.symm⟩
        · rw [hqnode]
          exact htail
      | cons l rest =>
        have hne (y : Tid) (hy : y ∈ l :: rest) : y ≠ t :=
          fun heq => hqueue (cluster t) (hlist ▸ heq ▸ hy)
        rw [hlist] at hlocals
        refine ⟨?_, ?_⟩
        · rw [hothers l (hne l (List.mem_cons_self ..))]
          exact (hlocals.1.kept fun u _ => congrFun hqnode u).longer
        · rw [hqnode]
          refine hlocals.2.append htail (fun y hy q _ hfollows => ?_) hqnode fun q _ hq => ?_
          · rw [hothers y (hne y (List.mem_cons_of_mem _ hy))]
            exact hfollows.kept (congrFun huses q)
          · rw [hlocal] at hq
            rw [hself, hq]
            exact ⟨rfl, rfl, (congrFun huses q).symm⟩
    · rw [update_of_ne hc]
      exact h.locals_kept (hqueue c) hothers (fun u _ => congrFun hqnode u)
        (fun u _ => congrFun huses _) (htails c hc)
  · intro c
    by_cases hc : c = cluster t
    · rw [hc, update_self]
      exact (List.nodup_append_comm.mp (List.nodup_cons.mpr ⟨hqueue _, h.queueNodup _⟩))
    · rw [update_of_ne hc]
      exact h.queueNodup c
  · intro c y hy
    by_cases hc : c = cluster t
    · rw [hc, update_self, List.mem_append, List.mem_singleton] at hy
      rcases hy with hy | rfl
      · rw [hc]
        exact h.apart _ y hy
      · exact ⟨hline, hc.symm⟩
    · rw [update_of_ne hc] at hy
      exact h.apart c y hy
  · intro y hy hy'
    have hyt : y ≠ t := by
      rintro rfl
      rw [update_self] at hy'
      exact hy' (List.mem_append_right _ (List.mem_singleton_self y))
    have hold : y ∉ queue (cluster y) := by
      intro hin
      refine hy' ?_
      by_cases hc : cluster y = cluster t
      · rw [hc, update_self]
        exact List.mem_append_left _ (hc ▸ hin)
      · rw [update_of_ne hc]
        exact hin
    rw [hothers y hyt]
    exact (h.out y hy hold).kept (congrFun hpred y)
  · intro y hy
    rw [hhijackings] at hy
    rw [hstate, hqnode]
    exact h.owned y hy
  · rw [hstate]
    exact h.free
  · intro c x hx
    rcases h.stales c x hx with hcluster | htws | ⟨m, hm⟩
    · exact .inl (by rw [hstate]; exact hcluster)
    · exact .inr (.inl (by rw [hstate]; exact htws))
    · exact .inr (.inr ⟨m, hpendings.mpr hm⟩)
  · intro m x hm
    rw [hqnode]
    exact h.pending m x (hpendings.mp hm)
  · intro m pred x v hm
    have hmt : m ≠ t := by
      rintro rfl
      exact hjoined.2.2.2 pred (some x) v (hself.symm.trans hm)
    rw [hothers m hmt] at hm
    rw [hstate]
    exact h.twsWrite m pred x v hm
  · intro y cur hy
    have hyt : y ≠ t := by
      rintro rfl
      exact hjoined.2.2.1 cur (hself.symm.trans hy)
    rw [hothers y hyt] at hy
    rw [hstate, hqnode]
    exact h.relWrite y cur hy

/-- A thread that is going to splice is the first of its local queue. -/
theorem Inv.first_of_acqGlobal (h : Inv cluster s token line queue stale)
    {expTail localTail : Option Node} (hat : s.pc t = .acqGlobal c expTail localTail) :
    c = cluster t ∧ ∃ rest, queue c = t :: rest ∧
      ∃ u ∈ t :: rest, localTail = some (s.qnode u) := by
  have hline : t ∉ line := by
    intro hin
    obtain ⟨q, -, -, hbehind⟩ := h.global.mem hin
    rw [hat] at hbehind
    exact hbehind
  have hin : t ∈ queue (cluster t) := by
    by_contra hqueue
    have hout := h.out t hline hqueue
    rw [hat] at hout
    exact hout
  have hlocals := h.locals (cluster t)
  cases hlist : queue (cluster t) with
  | nil =>
    rw [hlist] at hin
    cases hin
  | cons l rest =>
    rw [hlist] at hin hlocals
    rcases List.mem_cons.mp hin with rfl | hin
    · have hfirst := hlocals.1
      rw [hat] at hfirst
      obtain ⟨rfl, u, hu, htail⟩ := hfirst
      exact ⟨rfl, rest, hlist, u, hu, htail⟩
    · obtain ⟨q, -, hfollows⟩ := hlocals.2.mem hin
      rw [hat] at hfollows
      exact hfollows.elim

/-- The master splices its local queue, as far as it has read it, onto the global queue. -/
theorem Inv.acqGlobal_step (h : Inv cluster s token line queue stale)
    {expTail localTail : Option Node} (hat : s.pc t = .acqGlobal c expTail localTail)
    (hglobal : s.globalQueue = expTail)
    (happends : Appends s s' t (.twsRead expTail localTail) s.localQueues localTail) :
    ∃ line' queue' stale', Inv cluster s' token line' queue' stale' := by
  obtain ⟨rfl, rest, hlist, u, hu, rfl⟩ := h.first_of_acqGlobal hat
  obtain ⟨hothers, hself, hstate, hqnode, hpred, huses, hlocal, hglobal'⟩ := happends
  -- the queue is `t :: spliced ++ waiting`, where `u` is the last one of `t :: spliced`
  obtain ⟨spliced, waiting, hsplit, hlast⟩ : ∃ spliced waiting, rest = spliced ++ waiting ∧
      (t :: spliced).getLast? = some u := by
    rcases List.mem_cons.mp hu with rfl | hu
    · exact ⟨[], rest, rfl, rfl⟩
    · obtain ⟨before, after, rfl⟩ := List.append_of_mem hu
      refine ⟨before ++ [u], after, by simp, ?_⟩
      rw [← List.cons_append, List.getLast?_concat]
  subst hsplit
  have hmem (y : Tid) (hy : y ∈ t :: (spliced ++ waiting)) :
      y ∉ line ∧ cluster y = cluster t ∧ (s.pc y).hijacking = false := by
    rw [← hlist] at hy
    exact ⟨(h.apart _ y hy).1, (h.apart _ y hy).2, h.queue_own hy⟩
  have hsub (y : Tid) (hy : y ∈ t :: spliced) : y ∈ t :: (spliced ++ waiting) := by
    rw [← List.cons_append]
    exact List.mem_append_left _ hy
  have hu' : u ∈ t :: spliced := List.mem_of_getLast? hlast
  have hnodup : (t :: (spliced ++ waiting)).Nodup := hlist ▸ h.queueNodup (cluster t)
  have hnodup' : (t :: spliced).Nodup := by
    rw [← List.cons_append] at hnodup
    exact (List.nodup_append'.mp hnodup).1
  have htline := (hmem t (List.mem_cons_self ..)).1
  -- the tail when spliced is not in the global queue yet
  have hnew (w : Tid) (hw : w ∈ t :: (spliced ++ waiting)) (q : Node)
      (hq : q ∈ token :: line.map s.qnode) : q ≠ s.qnode w := by
    obtain ⟨hout, -, hown⟩ := hmem w hw
    rcases List.mem_cons.mp hq with rfl | hq
    · exact (h.qnode_ne hown).symm
    · obtain ⟨v, hv, rfl⟩ := List.mem_map.mp hq
      intro heq
      exact hout (h.qnode_inj (h.line_own hv) hown heq ▸ hv)
  have hpendings {m : Tid} {x : Node} (hm : Pending s' m x) :
      (m = t ∧ x = s.qnode u) ∨ (m ≠ t ∧ Pending s m x) := by
    rw [Pending] at hm
    by_cases hmt : m = t
    · rw [hmt, hself] at hm
      exact .inl ⟨hmt, (Option.some.inj hm).symm⟩
    · rw [hothers m hmt] at hm
      exact .inr ⟨hmt, hm⟩
  have hpendings' {m : Tid} {x : Node} (hm : Pending s m x) : Pending s' m x := by
    have hmt : m ≠ t := by
      rintro rfl
      rw [Pending, hat] at hm
      cases hm
    rw [Pending, hothers m hmt]
    exact hm
  have hhijackings (y : Tid) : (s'.pc y).hijacking = (s.pc y).hijacking := by
    by_cases hy : y = t
    · rw [hy, hself, hat]
      rfl
    · rw [hothers y hy]
  have howns (y : Tid) : own s' y = own s y := by
    rw [own, own, hhijackings, hpred, hqnode]
  have hkept (q : Node) (hq : q ≠ s.qnode u) : Kept s s' q := by
    refine ⟨congrFun huses q, ?_, ?_, ?_⟩
    · rw [hstate]
    · rw [hstate]
      exact id
    · intro hno htws
      rw [hstate]
      refine ⟨htws, fun m hm => ?_⟩
      rcases hpendings hm with ⟨-, rfl⟩ | ⟨-, hold⟩
      · exact hq rfl
      · exact hno m hold
  have hstale (y : Tid) (q : Node) (hq : q ≠ s.qnode u) (hold : some q ≠ stale (cluster y)) :
      some q ≠ update stale (cluster t) (some (s.qnode u)) (cluster y) := by
    by_cases hc : cluster y = cluster t
    · rw [hc, update_self]
      exact fun heq => hq (Option.some.inj heq)
    · rw [update_of_ne hc]
      exact hold
  obtain ⟨e, he, hend⟩ := h.global.globalQueue
  have hlocals := h.locals (cluster t)
  rw [hlist] at hlocals
  have hinj : ((t :: spliced).map s.qnode).Nodup :=
    hnodup'.map_on fun y hy z hz heq =>
      h.qnode_inj (hmem y (hsub y hy)).2.2 (hmem z (hsub z hz)).2.2 heq
  have hlast' : (s.qnode t :: spliced.map s.qnode).getLast? = some (s.qnode u) := by
    rw [← List.map_cons, List.getLast?_map, hlast]
    rfl
  obtain ⟨hspliced, hwaiting⟩ : Line cluster s'
      (update stale (cluster t) (some (s.qnode u))) (s.qnode t) spliced ∧
        Followers s (cluster t) (s.qnode u) waiting := by
    refine hlocals.2.spliced hlast' hinj (fun y hy q hq hne hfollows => ?_) hqnode hglobal'
    have hq' : q ∈ (t :: spliced).map s.qnode := hq
    obtain ⟨w, hw, rfl⟩ := List.mem_map.mp hq'
    obtain ⟨-, hcluster, -⟩ := hmem y (hsub y (List.mem_cons_of_mem _ hy))
    have hyt : y ≠ t := by
      rintro rfl
      exact (List.nodup_cons.mp hnodup').1 hy
    have hdefault : s.state (s.qnode w) = hclhLockGetDefaultState (cluster t) := by
      refine h.queue_state ?_
      rw [hlist]
      exact hsub w hw
    have hno (m : Tid) : ¬ Pending s' m (s.qnode w) := by
      intro hm
      rcases hpendings hm with ⟨-, heq⟩ | ⟨-, hold⟩
      · exact hne heq
      · obtain ⟨v, hv, heq, -⟩ := h.pending_not_inside hold
        exact hnew w (hsub w hw) _ (List.mem_cons_of_mem _ (List.mem_map_of_mem hv)) heq
    constructor
    · rw [hcluster, update_self]
      exact fun heq => hne (Option.some.inj heq)
    · rw [hothers y hyt, hcluster]
      cases hpc : s.pc y <;> rw [hpc] at hfollows
      case acqPoll | acqPollNe =>
        refine ⟨hfollows.1, hfollows.2.1, hfollows.2.2.trans (congrFun huses _).symm, ?_, ?_, hno⟩
        · rw [hstate, hdefault]
          rfl
        · rw [hstate, hdefault]
          rfl
      all_goals exact hfollows.elim
  refine ⟨line ++ t :: spliced, update queue (cluster t) waiting,
    update stale (cluster t) (some (s.qnode u)), ?_⟩
  refine ⟨?_, ?_, ?_, ?_, ?_, ?_, ?_, ?_, ?_, ?_, ?_, ?_, ?_, ?_⟩
  · intro y z heq
    rw [howns, howns] at heq
    exact h.own_inj y z heq
  · intro y
    rw [howns]
    exact h.own_ne y
  · refine h.global.append (fun y hy q hq hbehind => ?_) hqnode hend ⟨⟨?_, ?_⟩, ?_⟩
    · have hne := hnew u (hsub u hu') q hq
      refine ⟨hstale y q hne hbehind.1, ?_⟩
      rw [hothers y fun heq => htline (heq ▸ hy)]
      exact hbehind.2.kept (hkept q hne) (congrFun hpred y)
    · rw [update_self]
      exact fun heq => hnew u (hsub u hu') e he (Option.some.inj heq)
    · rw [hself]
      exact hglobal.symm.trans hend
    · rw [hqnode]
      exact hspliced
  · intro c
    by_cases hc : c = cluster t
    · subst hc
      rw [update_self, update_self]
      cases waiting with
      | nil => exact (congrFun hlocal _).trans hwaiting
      | cons y waiting =>
        have hin (z : Tid) (hz : z ∈ y :: waiting) : z ≠ t := by
          rintro rfl
          exact (List.nodup_cons.mp hnodup).1 (List.mem_append_right _ hz)
        constructor
        · have hfollows := hwaiting.1
          rw [hothers y (hin y (List.mem_cons_self ..))]
          cases hpc : s.pc y <;> rw [hpc] at hfollows
          case acqPoll | acqPollNe => exact ⟨hfollows.1, congrArg some hfollows.2.1⟩
          all_goals exact hfollows.elim
        · rw [hqnode]
          refine hwaiting.2.imp (fun z hz q _ hfollows => ?_) (fun z _ => congrFun hqnode z)
            (congrFun hlocal _)
          rw [hothers z (hin z (List.mem_cons_of_mem _ hz))]
          exact hfollows.kept (congrFun huses q)
    · rw [update_of_ne hc, update_of_ne hc]
      refine h.locals_kept (fun hin => hc (h.apart c t hin).2.symm) hothers
        (fun v _ => congrFun hqnode v) (fun v _ => congrFun huses _) (congrFun hlocal c)
  · exact List.nodup_append'.mpr ⟨h.nodup, hnodup', fun y hy hy' => (hmem y (hsub y hy')).1 hy⟩
  · intro c
    by_cases hc : c = cluster t
    · rw [hc, update_self]
      exact (List.nodup_append'.mp (List.nodup_cons.mp hnodup).2).2.1
    · rw [update_of_ne hc]
      exact h.queueNodup c
  · intro c y hy
    by_cases hc : c = cluster t
    · rw [hc, update_self] at hy
      have hy' : y ∈ t :: (spliced ++ waiting) :=
        List.mem_cons_of_mem _ (List.mem_append_right _ hy)
      refine ⟨fun hin => ?_, (hmem y hy').2.1.trans hc.symm⟩
      rcases List.mem_append.mp hin with hin | hin
      · exact (hmem y hy').1 hin
      · rw [← List.cons_append] at hnodup
        exact (List.nodup_append'.mp hnodup).2.2 hin hy
    · rw [update_of_ne hc] at hy
      obtain ⟨hout, hcluster⟩ := h.apart c y hy
      refine ⟨fun hin => ?_, hcluster⟩
      rcases List.mem_append.mp hin with hin | hin
      · exact hout hin
      · exact hc (hcluster.symm.trans (hmem y (hsub y hin)).2.1)
  · intro y hy hy'
    have hyline : y ∉ line := fun hin => hy (List.mem_append_left _ hin)
    have hyt : y ≠ t := by
      rintro rfl
      exact hy (List.mem_append_right _ (List.mem_cons_self ..))
    have hyqueue : y ∉ queue (cluster y) := by
      intro hin
      by_cases hc : cluster y = cluster t
      · rw [hc, hlist, ← List.cons_append] at hin
        rw [hc, update_self] at hy'
        rcases List.mem_append.mp hin with hin | hin
        · exact hy (List.mem_append_right _ hin)
        · exact hy' hin
      · rw [update_of_ne hc] at hy'
        exact hy' hin
    have hout := h.out y hyline hyqueue
    rw [hothers y hyt]
    cases hpc : s.pc y <;> rw [hpc] at hout
    case idle | acqState => trivial
    case acqLocal => exact hout
    case hijackRead | hijackCas =>
      obtain ⟨hc, p, hp, hstalep⟩ := hout
      refine ⟨hc, p, (congrFun hpred y).trans hp, hstale y p ?_ hstalep⟩
      -- a qnode that is being taken over has no other owner
      rintro rfl
      have hown : own s y = s.qnode u := by
        rw [own, hpc, hp]
        rfl
      rw [← own_eq (hmem u (hsub u hu')).2.2] at hown
      obtain rfl := h.own_inj y u hown
      have hhijacking := (hmem y (hsub y hu')).2.2
      rw [hpc] at hhijacking
      cases hhijacking
    all_goals exact hout.elim
  · intro y hy
    rw [hhijackings] at hy
    obtain ⟨hsmw, hcluster, htws⟩ := h.owned y hy
    rw [hstate, hqnode]
    exact ⟨hsmw, hcluster, fun hout => htws fun hin => hout (List.mem_append_left _ hin)⟩
  · rw [hstate]
    exact h.free
  · intro c x hx
    by_cases hc : c = cluster t
    · rw [hc, update_self] at hx
      refine .inr (.inr ⟨t, ?_⟩)
      rw [Pending, hself]
      exact hx
    · rw [update_of_ne hc] at hx
      rcases h.stales c x hx with hcluster | htws | ⟨m, hm⟩
      · exact .inl (by rw [hstate]; exact hcluster)
      · exact .inr (.inl (by rw [hstate]; exact htws))
      · exact .inr (.inr ⟨m, hpendings' hm⟩)
  · intro m x hm
    rw [hqnode]
    rcases hpendings hm with ⟨rfl, rfl⟩ | ⟨-, hold⟩
    · exact ⟨line, spliced, u, rfl, hu', rfl⟩
    · obtain ⟨before, after, v, hline, hv, hx⟩ := h.pending m x hold
      refine ⟨before, after ++ t :: spliced, v, ?_, ?_, hx⟩
      · rw [hline, List.append_assoc]
        rfl
      · rw [← List.cons_append]
        exact List.mem_append_left _ hv
  · intro m pred x v hm
    have hmt : m ≠ t := by
      rintro rfl
      rw [hself] at hm
      cases hm
    rw [hothers m hmt] at hm
    rw [hstate]
    exact h.twsWrite m pred x v hm
  · intro y cur hy
    have hyt : y ≠ t := by
      rintro rfl
      rw [hself] at hy
      cases hy
    rw [hothers y hyt] at hy
    rw [hstate, hqnode]
    exact h.relWrite y cur hy

end

end Libvsync.Spinlock.Hclhlock
