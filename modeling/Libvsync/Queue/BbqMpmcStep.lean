import Libvsync.Queue.BbqMpmcThreads

/-!
The steps of `bbq_mpmc` keep the invariant, as long as `allocated` does not run into its version
and the version fits its 44 bits.
-/

namespace Libvsync.Queue.BbqMpmc

open Libvsync.Core Function
open Libvsync.Queue.Bbq
open Libvsync.Queue.BbqSpsc (Config EnqCall DeqCall place writeEntry)
open Libvsync.Queue.BbqCalls (MpmcQueue bbqResetBlockCursorHeavy)

variable {Tid α : Type} [DecidableEq Tid] {cfg : Config} {fr : Prop} {s s' : State Tid α}
  {g g' : Uses} {t u : Tid} {pc : Pc α}

theorem zip_append_right {β γ : Type} (l : List β) (a b : List γ) (h : l.length ≤ a.length) :
    l.zip (a ++ b) = l.zip a := by
  induction l generalizing a with
  | nil => rfl
  | cons x l ih =>
    cases a with
    | nil => cases h
    | cons y a => exact congrArg (List.cons (x, y)) (ih a (Nat.le_of_succ_le_succ h))

theorem zip_replicate (m : Nat) (t : Tid) (l : List (Tid × α)) :
    ((((List.replicate m t).zip l).filter fun x => x.1 = t).map fun x => x.2.2) =
      (l.take m).map fun x => x.2 := by
  induction m generalizing l with
  | zero => rfl
  | succ m ih =>
    cases l with
    | nil => rfl
    | cons x l => simp [List.replicate_succ, ih]

theorem zip_replicate_other (hu : u ≠ t) (m : Nat) (l : List (Tid × α)) :
    (((List.replicate m t).zip l).filter fun x => x.1 = u) = [] := by
  apply List.filter_eq_nil_iff.mpr
  rintro ⟨v, x⟩ hx heq
  have hv := List.eq_of_mem_replicate (List.of_mem_zip hx).1
  exact hu ((of_decide_eq_true heq).symm.trans hv)

theorem share_enqueued (h : s.granted.length ≤ s.enqueued.length)
    (henqueued : s.enqueued <+: s'.enqueued) (hgranted : s'.granted = s.granted) (u : Tid) :
    s'.share u = s.share u := by
  obtain ⟨more, hmore⟩ := henqueued
  rw [State.share, State.share, hgranted, ← hmore, zip_append_right _ _ _ h]

theorem share_granted {m : Nat} (h : s.granted.length ≤ s.enqueued.length)
    (henqueued : s'.enqueued = s.enqueued) (hgranted : s'.granted = s.granted ++ List.replicate m t)
    (u : Tid) : s'.share u = s.share u ++
      if u = t then ((s.enqueued.drop s.granted.length).take m).map fun x => x.2 else [] := by
  have hzip : s'.granted.zip s'.enqueued = s.granted.zip s.enqueued ++
      (List.replicate m t).zip (s.enqueued.drop s.granted.length) := by
    have htake : s.granted.length = (s.enqueued.take s.granted.length).length := by
      rw [List.length_take, Nat.min_eq_left h]
    rw [hgranted, henqueued]
    calc
      (s.granted ++ List.replicate m t).zip s.enqueued =
          (s.granted ++ List.replicate m t).zip (s.enqueued.take s.granted.length ++
            s.enqueued.drop s.granted.length) := by rw [List.take_append_drop]
      _ = s.granted.zip (s.enqueued.take s.granted.length) ++
          (List.replicate m t).zip (s.enqueued.drop s.granted.length) := List.zip_append htake
      _ = _ := by
        rw [← zip_append_right _ _ (s.enqueued.drop s.granted.length) htake.le,
          List.take_append_drop]
  rw [State.share, hzip, List.filter_append, List.map_append]
  congr 1
  split
  · next hu =>
      subst hu
      exact zip_replicate ..
  · next hu => rw [zip_replicate_other hu, List.map_nil]

omit [DecidableEq Tid] in
theorem coming_append {more : List (Tid × α)} {first m : Nat} (k : Nat)
    (h : first + m ≤ s.enqueued.length) (hk : k ≤ m) :
    ((s.enqueued ++ more).drop (first + k)).take (m - k) =
      (s.enqueued.drop (first + k)).take (m - k) := by
  rw [List.drop_append_of_le_length (by omega), List.take_append_of_le_length]
  rw [List.length_drop]
  omega

theorem shiftRight_size (m : Nat) : (8 * m) >>> bbqEntrySizeLog = m :=
  BbqSpsc.shiftRight_entrySize m

theorem blockOf_eq (cfg : Config) (idx : Nat) : blockOf cfg idx = idx % cfg.blocks :=
  bbqGlobalIdx_eq ..

theorem nextBlockOf_eq (cfg : Config) (idx : Nat) : nextBlockOf cfg idx = (idx + 1) % cfg.blocks :=
  BbqSpsc.next_block cfg idx

theorem Inv.granted_le (h : Inv cfg fr s g) : s.granted.length ≤ s.enqueued.length :=
  Nat.le_of_add_le_add_left h.ring.taken_le

omit [DecidableEq Tid] in
/-- What is to be read is in the list of the entries. -/
theorem Reads.granted {ridx reserved first total m : Nat} {got : List α}
    (h : Reads cfg s g t ridx reserved first total m got) : first + m ≤ s.granted.length := by
  have hpos := h.pos
  have hlast := (List.getElem?_eq_some_iff.mp (h.owner (m - 1) (by omega))).1
  omega

/-- A step of thread `t`, after which it stands at `pc`. -/
theorem Inv.move (h : Inv cfg fr s g) (hgrows : Grows cfg t s s' g g')
    (hring : Ring cfg s'.queue (s'.taken cfg) (s'.claimed cfg) g')
    (hpc : s'.pc = update s.pc t pc) (hok : PcOk cfg fr s' g' t pc)
    (hkept : Kept cfg s' g')
    (hwrites : ∀ j, j < s'.enqueued.length → g'.done (base cfg + j) = false →
      (s.pc t).writes j ∨ s.enqueued.length ≤ j → pc.writes j)
    (hreads : ∀ j, j < s'.granted.length → g'.gone (base cfg + j) = false →
      (s.pc t).reads j ∨ s.granted.length ≤ j → pc.reads j)
    (hopener : g'.comm ≤ s'.queue.widx + cfg.blocks ∨ pc.opens = some s'.queue.widx ∨
      g'.comm = g.comm ∧ s'.queue.widx = s.queue.widx ∧ (s.pc t).opens ≠ some s.queue.widx)
    (hfollower : fr → g'.cons ≤ s'.queue.ridx + cfg.blocks + 1 ∧
      (g'.cons ≤ s'.queue.ridx + cfg.blocks ∨ pc.follows = some s'.queue.ridx ∨
        g'.cons = g.cons ∧ s'.queue.ridx = s.queue.ridx ∧
          (s.pc t).follows ≠ some s.queue.ridx))
    (hshare : s'.share t = s'.received t ++ s'.coming pc)
    (hothers : ∀ u, u ≠ t → s'.share u = s.share u ∧ s'.received u = s.received u) :
    Inv cfg fr s' g' := by
  have hself : s'.pc t = pc := by
    rw [hpc, update_self]
  have hother {u : Tid} (hu : u ≠ t) : s'.pc u = s.pc u := by
    rw [hpc, update_of_ne hu]
  constructor
  · exact hring
  · exact hkept
  · intro u
    rcases eq_or_ne u t with rfl | hu
    · rw [hself]
      exact hok
    · rw [hother hu]
      exact (h.pcs u).keep hgrows hu
  · intro j hj hdone
    rcases Nat.lt_or_ge j s.enqueued.length with hlt | hge
    · have hbefore : g.done (base cfg + j) = false := by
        apply Bool.eq_false_of_not_eq_true
        intro hd
        rw [hgrows.done _ hd] at hdone
        cases hdone
      obtain ⟨u, hu⟩ := h.writers j hlt hbefore
      rcases eq_or_ne u t with rfl | hne
      · exact ⟨u, hself ▸ hwrites j hj hdone (.inl hu)⟩
      · exact ⟨u, (hother hne).symm ▸ hu⟩
    · exact ⟨t, hself ▸ hwrites j hj hdone (.inr hge)⟩
  · intro j hj hgone
    rcases Nat.lt_or_ge j s.granted.length with hlt | hge
    · have hbefore : g.gone (base cfg + j) = false := by
        apply Bool.eq_false_of_not_eq_true
        intro hd
        rw [hgrows.gone _ hd] at hgone
        cases hgone
      obtain ⟨u, hu⟩ := h.readers j hlt hbefore
      rcases eq_or_ne u t with rfl | hne
      · exact ⟨u, hself ▸ hreads j hj hgone (.inl hu)⟩
      · exact ⟨u, (hother hne).symm ▸ hu⟩
    · exact ⟨t, hself ▸ hreads j hj hgone (.inr hge)⟩
  · rcases hopener with hle | hopens | ⟨hcomm, hwidx, hnone⟩
    · exact .inl hle
    · exact .inr ⟨t, hself ▸ hopens⟩
    · rw [hcomm, hwidx]
      refine h.opener.imp_right ?_
      rintro ⟨u, hu⟩
      have hne : u ≠ t := by
        rintro rfl
        exact hnone hu
      exact ⟨u, (hother hne).symm ▸ hu⟩
  · intro hfr
    obtain ⟨hnear, hcases⟩ := hfollower hfr
    refine ⟨hnear, ?_⟩
    rcases hcases with hle | hfollows | ⟨hcons, hridx, hnone⟩
    · exact .inl hle
    · exact .inr ⟨t, hself ▸ hfollows⟩
    · rw [hcons, hridx]
      refine (h.follower hfr).2.imp_right ?_
      rintro ⟨u, hu⟩
      have hne : u ≠ t := by
        rintro rfl
        exact hnone hu
      exact ⟨u, (hother hne).symm ▸ hu⟩
  · intro u
    rcases eq_or_ne u t with rfl | hu
    · rw [hself]
      exact hshare
    · obtain ⟨hsame, hreceived⟩ := hothers u hu
      rw [hsame, hreceived, h.shares u, hother hu]
      congr 1
      cases hat : s.pc u with
      | deqCopy call ridx reserved first total got =>
        have hok := h.pcs u
        rw [hat] at hok
        obtain ⟨-, m, hrange⟩ := hok
        obtain ⟨more, hmore⟩ := hgrows.enqueued
        rw [State.coming, State.coming, hrange.total, shiftRight_size, ← hmore]
        rw [coming_append _ (hrange.granted.trans h.granted_le) hrange.got]
      | _ => rfl

/-- The thread has no entries to copy and is not between the accesses that open a block. -/
def Pc.plain : Pc α → Bool
  | .enqCopy .. | .deqCopy .. | .resetAllocated .. | .advanceWidx .. | .resetReserved .. |
    .advanceRidx .. => false
  | _ => true

omit [DecidableEq Tid] in
theorem plain_spec (h : pc.plain = true) :
    (∀ j, ¬ pc.writes j) ∧ (∀ j, ¬ pc.reads j) ∧ pc.opens = none ∧ pc.follows = none ∧
      ∀ s : State Tid α, s.coming pc = [] := by
  cases pc <;> first | exact Bool.noConfusion h | exact
    ⟨fun _ => id, fun _ => id, rfl, rfl, fun _ => rfl⟩

/-- A thread moves on without changing anything else. -/
theorem Inv.goto (h : Inv cfg fr s g) (hbefore : (s.pc t).plain = true) (hafter : pc.plain = true)
    (hok : PcOk cfg fr (s.goto t pc) g t pc) : Inv cfg fr (s.goto t pc) g := by
  obtain ⟨hwrites, hreads, hopens, hfollows, hcoming⟩ := plain_spec hbefore
  obtain ⟨-, -, -, -, hcoming'⟩ := plain_spec hafter
  have hgrows : Grows cfg t s (s.goto t pc) g g :=
    .of_same t rfl rfl rfl rfl rfl ⟨le_rfl, le_rfl⟩ ⟨le_rfl, le_rfl⟩ ⟨le_rfl, le_rfl⟩
  apply h.move hgrows h.ring rfl hok h.kept
  · intro j hj _ hcase
    rcases hcase with hw | hge
    · exact absurd hw (hwrites j)
    · exact absurd hj (Nat.not_lt.mpr hge)
  · intro j hj _ hcase
    rcases hcase with hr | hge
    · exact absurd hr (hreads j)
    · exact absurd hj (Nat.not_lt.mpr hge)
  · exact .inr (.inr ⟨rfl, rfl, hopens ▸ (Option.some_ne_none _).symm⟩)
  · intro hfr
    exact ⟨(h.follower hfr).1, .inr (.inr ⟨rfl, rfl, hfollows ▸ (Option.some_ne_none _).symm⟩)⟩
  · have hshare := h.shares t
    rw [hcoming s] at hshare
    rw [hcoming' (s.goto t pc)]
    exact hshare
  · exact fun _ _ => ⟨rfl, rfl⟩

/-- A thread changes cursors or an index, but no entries. -/
theorem Inv.cursor (h : Inv cfg fr s g) {q : MpmcQueue α} (hentry : q.entry = s.queue.entry)
    (hring : Ring cfg q (s.taken cfg) (s.claimed cfg) g') (hdone : g'.done = g.done)
    (hgone : g'.gone = g.gone) (hidx : s.queue.widx ≤ q.widx ∧ s.queue.ridx ≤ q.ridx)
    (hprod : g.alloc ≤ g'.alloc ∧ g.comm ≤ g'.comm) (hcons : g.res ≤ g'.res ∧ g.cons ≤ g'.cons)
    (hok : PcOk cfg fr ({ s with queue := q }.goto t pc) g' t pc)
    (hnone : (∀ j, ¬ (s.pc t).writes j) ∧ ∀ j, ¬ (s.pc t).reads j)
    (hcoming : s.coming (s.pc t) = [] ∧ ∀ s : State Tid α, s.coming pc = [])
    (hopener : g'.comm ≤ q.widx + cfg.blocks ∨ pc.opens = some q.widx ∨
      g'.comm = g.comm ∧ q.widx = s.queue.widx ∧ (s.pc t).opens ≠ some s.queue.widx)
    (hfollower : fr → g'.cons ≤ q.ridx + cfg.blocks + 1 ∧
      (g'.cons ≤ q.ridx + cfg.blocks ∨ pc.follows = some q.ridx ∨
        g'.cons = g.cons ∧ q.ridx = s.queue.ridx ∧ (s.pc t).follows ≠ some s.queue.ridx)) :
    Inv cfg fr ({ s with queue := q }.goto t pc) g' := by
  have hgrows : Grows cfg t s ({ s with queue := q }.goto t pc) g g' :=
    .of_same t rfl rfl hentry hdone hgone hidx hprod hcons
  apply h.move hgrows hring rfl hok
  · intro j v hv hd hg
    rw [hdone] at hd
    rw [hgone] at hg
    change entryAt cfg q (base cfg + j) = v.2
    rw [entryAt, hentry]
    exact h.kept j v hv hd hg
  · intro j hj _ hcase
    rcases hcase with hw | hge
    · exact absurd hw (hnone.1 j)
    · exact absurd hj (Nat.not_lt.mpr hge)
  · intro j hj _ hcase
    rcases hcase with hr | hge
    · exact absurd hr (hnone.2 j)
    · exact absurd hj (Nat.not_lt.mpr hge)
  · exact hopener
  · exact hfollower
  · have hshare := h.shares t
    rw [hcoming.1] at hshare
    rw [hcoming.2]
    exact hshare
  · exact fun _ _ => ⟨rfl, rfl⟩

theorem nextEnqueue_plain (call : EnqCall α) (retry : Bool) :
    (nextEnqueue call retry).plain = true := by
  rw [nextEnqueue]
  split
  · rw [enterEnqueue]
    split <;> rfl
  · rfl

theorem nextDequeue_plain (call : DeqCall) (retry : Bool) :
    (nextDequeue (α := α) call retry).plain = true := by
  rw [nextDequeue]
  split
  · rw [enterDequeue]
    split <;> rfl
  · rfl

section

omit [DecidableEq Tid]

theorem enterEnqueue_ok {call : EnqCall α} (h : call.rest.length < 2 ^ 29) :
    PcOk cfg fr s g t (enterEnqueue call) := by
  rw [enterEnqueue]
  split
  · trivial
  · next hrest => exact ⟨hrest, h⟩

theorem nextEnqueue_ok {call : EnqCall α} (h : call.rest.length < 2 ^ 29) (retry : Bool) :
    PcOk cfg fr s g t (nextEnqueue call retry) := by
  rw [nextEnqueue]
  split
  · exact enterEnqueue_ok h
  · trivial

theorem enterDequeue_ok {call : DeqCall} (h : call.rest < 2 ^ 29) :
    PcOk cfg fr s g t (enterDequeue call) := by
  rw [enterDequeue]
  split
  · trivial
  · next hrest => exact ⟨hrest, h⟩

theorem nextDequeue_ok {call : DeqCall} (h : call.rest < 2 ^ 29) (retry : Bool) :
    PcOk cfg fr s g t (nextDequeue call retry) := by
  rw [nextDequeue]
  split
  · exact enterDequeue_ok h
  · trivial

end

section Words

variable {q : MpmcQueue α} {sa sr w : Nat} (h : Ring cfg q sa sr g) (hcfg : cfg.Valid)
include h

theorem Ring.globalVsn (hw : w + cfg.blocks ≤ g.comm) :
    bbqGlobalVsn cfg.blockNumLog w = w / cfg.blocks := by
  apply BbqSpsc.version_eq
  have hpos := cfg.blocks_pos
  exact lt_of_le_of_lt (Nat.div_le_div_right (by omega)) h.version

theorem Ring.index_lt (hcfg : cfg.Valid) (hw : w + cfg.blocks ≤ g.comm) : w + 1 < 2 ^ 64 := by
  have hpos := cfg.blocks_pos
  have hle := hcfg.blocks_le
  have hlt := (Nat.div_lt_iff_lt_mul hpos).mp h.version
  have hmul : 2 ^ 44 * cfg.blocks ≤ 2 ^ 44 * 2 ^ 16 := Nat.mul_le_mul_left _ hle
  omega

end Words

theorem entryTotalSize_eq {n : Nat} (h : n < 2 ^ 29) : entryTotalSize n = 8 * n := by
  rw [entryTotalSize, bbqEntrySizeLog, Nat.shiftLeft_eq]
  omega

section Producers

variable (h : Inv cfg fr s g) (hcfg : cfg.Valid) {call : EnqCall α} {w : Nat}
include h

theorem Inv.widx_comm (hw : w ≤ s.queue.widx) : w + cfg.blocks ≤ g.comm := by
  have hwidx := h.ring.widx
  have halloc := h.ring.alloc
  omega

include hcfg

/-- Nothing but `allocated` changes, as the block is used up. -/
theorem Inv.overrun (hat : s.pc t = .enqAdd call w)
    (hfits : bbqLocalIdx (s.queue.allocated (w % cfg.blocks)) + 8 * call.rest.length < 2 ^ 20)
    (hfull : ¬ bbqLocalIdx (s.queue.allocated (w % cfg.blocks)) < cfg.blkSize) :
    ∃ g', Inv cfg fr ({ s with
      queue.allocated := update s.queue.allocated (w % cfg.blocks)
        (wadd 64 (s.queue.allocated (w % cfg.blocks)) (8 * call.rest.length)) }.goto t
          (.enqConsumed call w)) g' := by
  have hok := h.pcs t
  rw [hat] at hok
  obtain ⟨hbatch, hw⟩ := hok
  have hwidx := h.ring.widx
  have hend := h.ring.allocated_full hcfg hw hfull
  obtain ⟨u, hu, hu', hmod, -, hcell⟩ := h.ring.allocated.get (by omega) w
  have hidx : bbqLocalIdx (s.queue.allocated (w % cfg.blocks)) = cfg.initValue + 8 * g.added u := by
    rw [hcell, word_idx (h.ring.added u)]
  rw [hidx] at hfits hfull
  have hover : cfg.entries ≤ g.added u := by
    have hsize := hcfg.size
    omega
  have hring := h.ring.overrun hu hu' hover (n := call.rest.length) (by omega)
  rw [hmod] at hring
  refine ⟨_, h.cursor rfl hring rfl rfl ⟨le_rfl, le_rfl⟩ ⟨le_rfl, le_rfl⟩ ⟨le_rfl, le_rfl⟩
    ⟨hbatch, hw, hend⟩ ?_ ?_ (.inr (.inr ⟨rfl, rfl, ?_⟩)) fun hfr => ⟨(h.follower hfr).1,
      .inr (.inr ⟨rfl, rfl, ?_⟩)⟩⟩
  · rw [hat]
    exact ⟨fun _ => id, fun _ => id⟩
  · rw [hat]
    exact ⟨rfl, fun _ => rfl⟩
  · rw [hat]
    exact (Option.some_ne_none _).symm
  · rw [hat]
    exact (Option.some_ne_none _).symm

theorem Inv.resetCommitted (hat : s.pc t = .resetCommitted call w)
    (hversion : w / cfg.blocks + 1 < 2 ^ 44) :
    ∃ g', Inv cfg fr ({ s with
      queue.committed := bbqResetBlockCursorHeavy s.queue.committed ((w + 1) % cfg.blocks)
        (w / cfg.blocks + 1) cfg.initValue }.goto t (.resetAllocated call w)) g' := by
  have hok := h.pcs t
  rw [hat] at hok
  obtain ⟨hbatch, hw, hend, hgone⟩ := hok
  have hring := h.ring.openCommitted hcfg hw hend hgone hversion
  refine ⟨_, h.cursor rfl hring rfl rfl ⟨le_rfl, le_rfl⟩ ⟨le_rfl, le_max_left ..⟩
    ⟨le_rfl, le_rfl⟩ ⟨hbatch, hw, le_max_right ..⟩ ?_ ?_ ?_ fun hfr => ⟨(h.follower hfr).1,
      .inr (.inr ⟨rfl, rfl, ?_⟩)⟩⟩
  · rw [hat]
    exact ⟨fun _ => id, fun _ => id⟩
  · rw [hat]
    exact ⟨rfl, fun _ => rfl⟩
  · -- the thread is to advance `widx`, unless that was done before
    dsimp only
    rcases hw.lt_or_eq with hlt | rfl
    · have hwidx := h.ring.widx
      have halloc := h.ring.alloc
      rw [max_eq_left (by omega), hat]
      exact .inr (.inr ⟨rfl, rfl, (Option.some_ne_none _).symm⟩)
    · exact .inr (.inl rfl)
  · rw [hat]
    exact (Option.some_ne_none _).symm

theorem Inv.resetAllocated (hat : s.pc t = .resetAllocated call w) :
    ∃ g', Inv cfg fr ({ s with
      queue.allocated := bbqResetBlockCursorHeavy s.queue.allocated ((w + 1) % cfg.blocks)
        (w / cfg.blocks + 1) cfg.initValue }.goto t (.advanceWidx call w)) g' := by
  have hok := h.pcs t
  rw [hat] at hok
  obtain ⟨hbatch, hw, hcomm⟩ := hok
  have hring := h.ring.openAllocated hcfg hw hcomm
  have hwcomm := h.ring.comm
  refine ⟨_, h.cursor rfl hring rfl rfl ⟨le_rfl, le_rfl⟩ ⟨le_max_left .., le_rfl⟩
    ⟨le_rfl, le_rfl⟩ ⟨hbatch, le_max_right ..⟩ ?_ ?_ ?_ fun hfr => ⟨(h.follower hfr).1,
      .inr (.inr ⟨rfl, rfl, ?_⟩)⟩⟩
  · rw [hat]
    exact ⟨fun _ => id, fun _ => id⟩
  · rw [hat]
    exact ⟨rfl, fun _ => rfl⟩
  · dsimp only
    rcases hw.lt_or_eq with hlt | rfl
    · rw [hat]
      exact .inr (.inr ⟨rfl, rfl, fun heq => hlt.ne (Option.some.inj heq)⟩)
    · exact .inr (.inl rfl)
  · rw [hat]
    exact (Option.some_ne_none _).symm

omit hcfg in
theorem Inv.advanceWidx (hat : s.pc t = .advanceWidx call w) :
    Inv cfg fr ({ s with queue.widx := max s.queue.widx (w + 1) }.goto t
      (nextEnqueue call true)) g := by
  have hok := h.pcs t
  rw [hat] at hok
  obtain ⟨hbatch, halloc⟩ := hok
  have hring := h.ring.advanceWidx halloc
  have hcomm := h.ring.comm
  have hle := h.ring.alloc
  obtain ⟨-, -, -, -, hcoming⟩ := plain_spec (nextEnqueue_plain call true)
  refine h.cursor rfl hring rfl rfl ⟨le_max_left .., le_rfl⟩ ⟨le_rfl, le_rfl⟩ ⟨le_rfl, le_rfl⟩
    (nextEnqueue_ok hbatch.2 true) ?_ ?_ ?_ fun hfr => ⟨(h.follower hfr).1,
      .inr (.inr ⟨rfl, rfl, ?_⟩)⟩
  · rw [hat]
    exact ⟨fun _ => id, fun _ => id⟩
  · rw [hat]
    exact ⟨rfl, hcoming⟩
  · dsimp only
    rcases Nat.lt_or_ge w s.queue.widx with hlt | hge
    · rw [max_eq_left (by omega), hat]
      exact .inr (.inr ⟨rfl, rfl, fun heq => hlt.ne (Option.some.inj heq)⟩)
    · left
      omega
  · rw [hat]
    exact (Option.some_ne_none _).symm

end Producers

end Libvsync.Queue.BbqMpmc
