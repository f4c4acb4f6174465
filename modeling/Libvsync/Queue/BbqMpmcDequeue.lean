import Libvsync.Queue.BbqCallsMpmc
import Libvsync.Queue.BbqMpmcEnqueue

/-!
The consumers of `bbq_mpmc`: a range is reserved by a compare-and-swap, read entry by entry, and
added to `consumed`. The compare-and-swap only succeeds while nothing was reserved since the
cursor was read, and what had been committed then is a front part of the use.
-/

namespace Libvsync.Queue.BbqMpmc

open Libvsync.Core Function
open Libvsync.Queue.Bbq
open Libvsync.Queue.BbqSpsc (Config EnqCall DeqCall place)
open Libvsync.Queue.BbqCalls (MpmcQueue bbqResetBlockCursorHeavy)

variable {Tid α : Type} [DecidableEq Tid] {cfg : Config} {fr : Prop} {s s' : State Tid α}
  {g : Uses} {t : Tid} {call : DeqCall} {r reserved total first vsn : Nat} {got : List α}

/-- The version that the next use of the queue is to have. -/
theorem Ring.nextVsn {q : MpmcQueue α} {sa sr u x : Nat} (h : Ring cfg q sa sr g)
    (hcfg : cfg.Valid) (hseen : Seen cfg sr g r reserved u x) :
    wadd 64 (wsub 64 (bbqLocalVsn reserved) (if r % cfg.blocks ≠ 0 then 1 else 0)) 1 =
      u / cfg.blocks := by
  have hpos := cfg.blocks_pos
  have hafter := hseen.after
  have hopened := hseen.opened
  have hres := h.res
  have hbehind := h.behind
  have hversion := h.version_lt (u := u) (by omega)
  obtain ⟨low, rfl⟩ := Nat.exists_eq_add_of_le (show cfg.blocks ≤ u by omega)
  have hblock := hseen.block
  have hdiv : (cfg.blocks + low) / cfg.blocks = low / cfg.blocks + 1 := by
    rw [Nat.add_comm, Nat.add_div_right _ hpos]
  rw [Nat.add_mod_left] at hblock
  rw [hseen.word, word_vsn hversion (Ring.fits_of_le hcfg hseen.fill), ← hblock]
  rw [Nat.add_comm cfg.blocks low] at hversion ⊢
  rw [BbqCalls.nextConsumerVsn_eq hpos hversion, Nat.add_div_right _ hpos]
  have hle : low / cfg.blocks ≤ (low + cfg.blocks - 1) / cfg.blocks :=
    Nat.div_le_div_right (by omega)
  exact Nat.mod_eq_of_lt (by omega)

theorem Inv.deqReserved (h : Inv cfg fr s g) (hcfg : cfg.Valid)
    (hat : s.pc t = .deqReserved call r) :
    Inv cfg fr (if bbqLocalIdx (s.queue.reserved (r % cfg.blocks)) < cfg.blkSize then
      s.goto t (.deqCommitted call r (s.queue.reserved (r % cfg.blocks)))
    else s.goto t (.deqNext call r (s.queue.reserved (r % cfg.blocks)))) g := by
  have hok := h.pcs t
  rw [hat] at hok
  obtain ⟨hwish, hr⟩ := hok
  have hsize := hcfg.size
  obtain ⟨u, x, hseen⟩ := h.ring.reserved_read hr
  have hidx : bbqLocalIdx (s.queue.reserved (r % cfg.blocks)) = cfg.initValue + 8 * x := by
    rw [hseen.word, word_idx (Ring.fits_of_le hcfg hseen.fill)]
  split
  · next hroom =>
      rw [hidx] at hroom
      exact h.goto (by rw [hat]; rfl) rfl ⟨hwish, u, x, hseen, by omega⟩
  · next hfull =>
      rw [hidx] at hfull
      have hfill := hseen.fill
      obtain rfl : x = cfg.entries := by omega
      exact h.goto (by rw [hat]; rfl) rfl ⟨hwish, hr, u, hseen⟩

/-- A consumer has read `committed` too. Its assertion holds. -/
theorem Inv.deqCommitted (h : Inv cfg fr s g) (hcfg : cfg.Valid)
    (hat : s.pc t = .deqCommitted call r reserved) :
    Inv cfg fr (haveCommitted cfg s t call r reserved (s.queue.committed (r % cfg.blocks))) g := by
  have hok := h.pcs t
  rw [hat] at hok
  obtain ⟨hwish, u, x, hseen, hx⟩ := hok
  have hplain : (s.pc t).plain = true := by
    rw [hat]
    rfl
  have hsize := hcfg.size
  have hsmall := hcfg.small
  obtain ⟨y, hy, hcommitted, hassert, hcount⟩ := h.ring.committed_read hcfg hseen hx
  have hidx : bbqLocalIdx reserved = cfg.initValue + 8 * x := by
    rw [hseen.word, word_idx (Ring.fits_of_le hcfg hseen.fill)]
  dsimp only [haveCommitted]
  rw [hcommitted, hidx]
  split
  · next hless =>
      rw [if_pos (hassert (by omega))]
      exact h.goto hplain (nextDequeue_plain call false) (nextDequeue_ok hwish.2 false)
  · next hmore =>
      have htotal : min ((call.rest <<< bbqEntrySizeLog) % 2 ^ 32)
          (cfg.initValue + 8 * y - (cfg.initValue + 8 * x)) % 2 ^ 16 =
            8 * min call.rest (y - x) := by
        have hroom : 8 * (y - x) < 2 ^ 16 := by omega
        rw [← BbqSpsc.space_eq hwish.2 hroom]
        congr 2
        omega
      have hpos : 0 < min call.rest (y - x) := by
        have hrest := Nat.pos_of_ne_zero hwish.1
        omega
      rw [htotal]
      split
      · exact h.goto hplain rfl ⟨hwish, u, x, y, _, hseen, hpos, rfl, by omega, hy, rfl, hcount⟩
      · next hfull =>
          obtain rfl : y = cfg.entries := by omega
          refine h.goto hplain rfl ⟨hwish, u, x, _, hseen, hpos, rfl, by omega, ?_⟩
          intro hstill j hj
          exact Ring.committed_full hcount hstill j (by omega)

/-- A consumer has compared what is committed with what is allocated. -/
theorem Inv.deqAllocated {committedSpace : Nat} (h : Inv cfg fr s g)
    (hat : s.pc t = .deqAllocated call r reserved committedSpace total) :
    Inv cfg fr (if bbqLocalIdx (s.queue.allocated (r % cfg.blocks)) ≠ committedSpace then
      s.goto t (nextDequeue call false) else s.goto t (.deqReserve call r reserved total)) g := by
  have hok := h.pcs t
  rw [hat] at hok
  obtain ⟨hwish, u, x, y, m, hseen, hpos, rfl, hxm, hy, rfl, hcount⟩ := hok
  have hplain : (s.pc t).plain = true := by
    rw [hat]
    rfl
  split
  · exact h.goto hplain (nextDequeue_plain call false) (nextDequeue_ok hwish.2 false)
  · next hsame =>
      have hdone := h.ring.allocated_read hseen (by omega) hy hcount (not_not.mp hsame)
      refine h.goto hplain rfl ⟨hwish, u, x, m, hseen, hpos, rfl, by omega, ?_⟩
      intro hstill j hj
      exact hdone hstill j (by omega)

theorem Inv.reserve (h : Inv cfg fr s g) (hcfg : cfg.Valid)
    (hat : s.pc t = .deqReserve call r reserved total)
    (hsame : s.queue.reserved (r % cfg.blocks) = reserved) :
    Inv cfg fr ({ s with
      queue.reserved := update s.queue.reserved (r % cfg.blocks) (wadd 64 reserved total)
      granted := s.granted ++ List.replicate (total >>> bbqEntrySizeLog) t }.goto t
        (.deqCopy call r reserved s.granted.length total [])) g := by
  have hok := h.pcs t
  rw [hat] at hok
  obtain ⟨hwish, u, x, m, hseen, hpos, rfl, hxm, hready⟩ := hok
  obtain ⟨hstill, hres, -⟩ := h.ring.reserved_same hcfg hseen (by omega) hsame
  have hclaimed : base cfg + s.granted.length = u * cfg.entries + x := hstill
  have hring := h.ring.reserve hcfg hres hstill hxm (by omega) (hready hstill)
  rw [hseen.block, hsame] at hring
  rw [shiftRight_size]
  have hlength : (s.granted ++ List.replicate m t).length = s.granted.length + m := by
    rw [List.length_append, List.length_replicate]
  have hdiv : (base cfg + s.granted.length) / cfg.entries = u := by
    rw [hclaimed, Nat.add_comm, Nat.add_mul_div_right _ _ hcfg.entries,
      Nat.div_eq_of_lt (by omega), Nat.zero_add]
  have hrem : (base cfg + s.granted.length) % cfg.entries = x := by
    rw [hclaimed, Nat.add_comm, Nat.add_mul_mod_self_right, Nat.mod_eq_of_lt (by omega)]
  have hprefix : s.granted <+: s.granted ++ List.replicate m t := List.prefix_append ..
  have hshares (s₁ : State Tid α) (henqueued : s₁.enqueued = s.enqueued)
      (hgranted : s₁.granted = s.granted ++ List.replicate m t) (v : Tid) :
      s₁.share v = s.share v ++
        if v = t then ((s.enqueued.drop s.granted.length).take m).map fun x => x.2 else [] :=
    share_granted h.granted_le henqueued hgranted v
  apply h.move (t := t)
  · exact ⟨le_rfl, le_rfl, List.prefix_rfl, hprefix, le_rfl, le_rfl, le_rfl, le_rfl, fun _ => id,
      fun _ => id, fun _ _ _ _ => id, fun _ _ _ _ => id, fun _ _ _ _ _ => rfl⟩
  · have hsr : s.claimed cfg + m = base cfg + (s.granted ++ List.replicate m t).length := by
      rw [hlength, ← Nat.add_assoc]
      rfl
    rw [hsr] at hring
    exact hring
  · rfl
  · refine ⟨hwish, m, ?_⟩
    constructor
    · rw [hdiv, hseen.block]
    · exact hpos
    · rfl
    · rw [hrem, hseen.word, word_idx (Ring.fits_of_le hcfg hseen.fill)]
    · rw [hrem]
      exact hxm
    · exact Nat.zero_le m
    · intro j hj
      change (s.granted ++ List.replicate m t)[s.granted.length + j]? = some t
      rw [List.getElem?_append_right (Nat.le_add_right ..), Nat.add_sub_cancel_left,
        List.getElem?_replicate_of_lt hj]
    · intro j hj
      apply Bool.eq_false_of_not_eq_true
      intro hgone
      have hbelow := h.ring.gone _ hgone
      change base cfg + s.granted.length + j < base cfg + s.granted.length at hbelow
      omega
  · exact h.kept
  · intro j hj _ hcase
    rcases hcase with hw | hge
    · rw [hat] at hw
      exact False.elim hw
    · exact absurd hj (Nat.not_lt.mpr hge)
  · intro j hj _ hcase
    replace hj : j < (s.granted ++ List.replicate m t).length := hj
    rw [hlength] at hj
    rcases hcase with hr | hge
    · rw [hat] at hr
      exact False.elim hr
    · refine ⟨hge, ?_⟩
      rw [shiftRight_size]
      exact hj
  · rw [hat]
    exact .inr (.inr ⟨rfl, rfl, (Option.some_ne_none _).symm⟩)
  · intro hfr
    rw [hat]
    exact ⟨(h.follower hfr).1, .inr (.inr ⟨rfl, rfl, (Option.some_ne_none _).symm⟩)⟩
  · have hshare : s.share t = s.received t ++ s.coming (s.pc t) := h.shares t
    rw [hat] at hshare
    change s.share t = s.received t ++ [] at hshare
    refine (hshares _ ?_ ?_ t).trans ?_
    · rfl
    · rfl
    · rw [hshare, if_pos rfl, List.append_nil, State.coming, shiftRight_size]
      rfl
  · intro v hv
    refine ⟨(hshares _ ?_ ?_ v).trans ?_, rfl⟩
    · rfl
    · rfl
    · rw [if_neg hv, List.append_nil]

/-- The consumer reads the next entry of its range. -/
theorem Inv.read (h : Inv cfg fr s g) (hcfg : cfg.Valid)
    (hat : s.pc t = .deqCopy call r reserved first total got)
    (hless : got.length < total >>> bbqEntrySizeLog) {value : α}
    (hvalue : value = s.queue.entry (r % cfg.blocks) (bbqLocalIdx reserved + got.length * 8)) :
    Inv cfg fr ({ s with
      received := update s.received t (s.received t ++ [value]) }.goto t
        (.deqCopy call r reserved first total (got ++ [value]))) g := by
  have hok := h.pcs t
  rw [hat] at hok
  obtain ⟨hwish, m, hrange⟩ := hok
  have hle := (hrange.granted.trans h.granted_le)
  have hgranted := hrange.granted
  rw [hrange.total, shiftRight_size] at hless
  have hfit := hrange.fits
  obtain ⟨hdiv, hrem⟩ := pos_range (x := base cfg + first) (j := got.length) hcfg.entries
    (by omega)
  have hlt : first + got.length < s.enqueued.length := by omega
  have hget := List.getElem?_eq_getElem hlt
  -- the entry is committed and not consumed, so it is in its place
  have hentry : s.enqueued[first + got.length].2 = value := by
    have hdone := h.ring.ready (base cfg + (first + got.length))
      (by change _ < base cfg + s.granted.length; omega)
    have hgone := hrange.fresh got.length hless
    rw [Nat.add_assoc] at hgone
    have hkept := h.kept _ _ hget hdone hgone
    rw [← hkept, hvalue, entryAt, ← Nat.add_assoc, place_eq hcfg, hdiv, hrem, hrange.block,
      hrange.place]
    congr 1
    omega
  have hsingle : (got ++ [value]).length = got.length + 1 := List.length_append
  have hcoming : (s.enqueued.drop (first + got.length)).take (m - got.length) =
      s.enqueued[first + got.length] ::
        (s.enqueued.drop (first + (got ++ [value]).length)).take (m - (got ++ [value]).length) := by
    rw [List.drop_eq_getElem_cons hlt, hsingle]
    obtain ⟨k, hk⟩ := Nat.exists_eq_add_of_lt hless
    have hone : m - got.length = k + 1 := by omega
    have hrest : m - (got.length + 1) = k := by omega
    rw [hone, hrest, List.take_succ_cons, Nat.add_assoc]
  apply h.move (t := t)
  · exact .of_same t rfl rfl rfl rfl rfl ⟨le_rfl, le_rfl⟩ ⟨le_rfl, le_rfl⟩ ⟨le_rfl, le_rfl⟩
  · exact h.ring
  · rfl
  · refine ⟨hwish, m, { hrange with got := ?_ }⟩
    rw [hsingle]
    exact hless
  · exact h.kept
  · intro j hj _ hcase
    rcases hcase with hw | hge
    · rw [hat] at hw
      exact False.elim hw
    · exact absurd hj (Nat.not_lt.mpr hge)
  · intro j hj _ hcase
    rcases hcase with hr | hge
    · rw [hat] at hr
      exact hr
    · exact absurd hj (Nat.not_lt.mpr hge)
  · rw [hat]
    exact .inr (.inr ⟨rfl, rfl, (Option.some_ne_none _).symm⟩)
  · intro hfr
    rw [hat]
    exact ⟨(h.follower hfr).1, .inr (.inr ⟨rfl, rfl, (Option.some_ne_none _).symm⟩)⟩
  · have hshare := h.shares t
    rw [hat, State.coming, hrange.total, shiftRight_size, hcoming, List.map_cons, hentry] at hshare
    change s.share t = update s.received t (s.received t ++ [value]) t ++ _
    rw [hshare, update_self, State.coming, hrange.total, shiftRight_size,
      List.append_assoc]
    rfl
  · intro v hv
    exact ⟨rfl, update_of_ne hv ..⟩

theorem Inv.consume (h : Inv cfg fr s g) (hcfg : cfg.Valid)
    (hat : s.pc t = .deqCopy call r reserved first total got)
    (hend : ¬ got.length < total >>> bbqEntrySizeLog) {rest : Nat} (hrest : rest ≤ call.rest) :
    ∃ g', Inv cfg fr ({ s with
      queue.consumed := update s.queue.consumed (r % cfg.blocks)
        (wadd 64 (s.queue.consumed (r % cfg.blocks)) total) }.goto t
        (nextDequeue { call with rest := rest } true)) g' := by
  have hok := h.pcs t
  rw [hat] at hok
  obtain ⟨hwish, m, hrange⟩ := hok
  have hgranted := hrange.granted
  have hgot := hrange.got
  have htotal := hrange.total
  rw [htotal, shiftRight_size] at hend
  have hring := h.ring.consume hcfg hrange.pos hrange.fits
    (by change _ ≤ base cfg + s.granted.length; omega) hrange.fresh
  rw [hrange.block, ← htotal] at hring
  have hcoming (s₁ : State Tid α) :
      s₁.coming (nextDequeue { call with rest := rest } true) = [] :=
    (plain_spec (nextDequeue_plain _ true)).2.2.2.2 s₁
  refine ⟨{ g with gone := mark g.gone (base cfg + first) m }, ?_⟩
  apply h.move (t := t)
  · refine ⟨le_rfl, le_rfl, List.prefix_rfl, List.prefix_rfl, le_rfl, le_rfl, le_rfl, le_rfl,
      fun _ => id, fun _ hp => mark_iff.mpr (.inl hp), fun _ _ _ _ => id,
      fun j u hu hut hgone => ?_, fun _ _ _ _ _ => rfl⟩
    apply Bool.eq_false_of_not_eq_true
    intro hmarked
    rcases mark_iff.mp hmarked with hold | hin
    · rw [hgone] at hold
      cases hold
    · have hmine := hrange.owner (j - first) (by omega)
      rw [Nat.add_sub_cancel' (by omega), hu] at hmine
      exact hut (Option.some.inj hmine)
  · exact hring
  · rfl
  · exact nextDequeue_ok (lt_of_le_of_lt hrest hwish.2) true
  · intro j x hx hdone hgone
    apply h.kept j x hx hdone
    apply Bool.eq_false_of_not_eq_true
    intro hold
    have hmarked : mark g.gone (base cfg + first) m (base cfg + j) = true :=
      mark_iff.mpr (.inl hold)
    exact absurd (hgone.symm.trans hmarked) Bool.false_ne_true
  · intro j hj _ hcase
    rcases hcase with hw | hge
    · rw [hat] at hw
      exact False.elim hw
    · exact absurd hj (Nat.not_lt.mpr hge)
  · intro j hj hgone hcase
    rcases hcase with hr | hge
    · rw [hat] at hr
      obtain ⟨hlow, hhigh⟩ := hr
      rw [htotal, shiftRight_size] at hhigh
      have hmarked : mark g.gone (base cfg + first) m (base cfg + j) = true :=
        mark_iff.mpr (.inr (by omega))
      exact absurd (hgone.symm.trans hmarked) Bool.false_ne_true
    · exact absurd hj (Nat.not_lt.mpr hge)
  · rw [hat]
    exact .inr (.inr ⟨rfl, rfl, (Option.some_ne_none _).symm⟩)
  · intro hfr
    rw [hat]
    exact ⟨(h.follower hfr).1, .inr (.inr ⟨rfl, rfl, (Option.some_ne_none _).symm⟩)⟩
  · have hshare := h.shares t
    have hnone : m - got.length = 0 := by omega
    rw [hat, State.coming, htotal, shiftRight_size, hnone, List.take_zero] at hshare
    rw [hcoming]
    exact hshare
  · exact fun _ _ => ⟨rfl, rfl⟩

/-- A consumer at the end of its use looks at the next one. -/
theorem Inv.deqNext (h : Inv cfg fr s g) (hcfg : cfg.Valid)
    (hat : s.pc t = .deqNext call r reserved)
    (hprompt : fr → bbqLocalVsn reserved = (r + cfg.blocks - 1) / cfg.blocks)
    (hvsn : vsn = wadd 64 (wsub 64 (bbqLocalVsn reserved)
    (if r % cfg.blocks ≠ 0 then 1 else 0)) 1) :
    Inv cfg fr (if bbqLocalVsn (s.queue.committed ((r + 1) % cfg.blocks)) ≠ vsn then
      s.goto t (nextDequeue call false) else s.goto t (.resetConsumed call r vsn)) g := by
  have hok := h.pcs t
  rw [hat] at hok
  obtain ⟨hwish, hr, u, hseen⟩ := hok
  have hpos := cfg.blocks_pos
  have hafter := hseen.after
  have hopened := hseen.opened
  have hplain : (s.pc t).plain = true := by
    rw [hat]
    rfl
  rw [h.ring.nextVsn hcfg hseen] at hvsn
  subst hvsn
  have hnext : (r + 1) % cfg.blocks = (u + 1) % cfg.blocks := by
    rw [Nat.add_mod, ← hseen.block, ← Nat.add_mod]
  split
  · exact h.goto hplain (nextDequeue_plain call false) (nextDequeue_ok hwish.2 false)
  · next hversion =>
      rw [hnext] at hversion
      have hcomm := h.ring.next_opened hcfg hseen (not_not.mp hversion)
      refine h.goto hplain rfl ⟨hwish, u, ⟨rfl, hseen.block, hafter, hopened, ?_, hr, ?_⟩, hcomm⟩
      · have hlow := hseen.low
        rw [Nat.succ_mul]
        exact hlow
      · intro hfr
        have hres := h.ring.res
        have hbehind := h.ring.behind
        have hsame := hprompt hfr
        rw [hseen.word, word_vsn (h.ring.version_lt (by omega))
          (Ring.fits_of_le hcfg le_rfl)] at hsame
        apply use_eq hpos (by omega) (by omega) _ hsame
        rw [hseen.block, Nat.add_mod_right]

theorem Inv.resetConsumed (h : Inv cfg fr s g) (hcfg : cfg.Valid)
    (hat : s.pc t = .resetConsumed call r vsn) :
    ∃ g', Inv cfg fr ({ s with
      queue.consumed := bbqResetBlockCursorHeavy s.queue.consumed ((r + 1) % cfg.blocks) vsn
        cfg.initValue }.goto t (.resetReserved call r vsn)) g' := by
  have hok := h.pcs t
  rw [hat] at hok
  obtain ⟨hwish, u, hbehind, hcomm⟩ := hok
  have hafter := hbehind.after
  have hnext : (u + 1) % cfg.blocks = (r + 1) % cfg.blocks := by
    rw [Nat.add_mod, hbehind.block, ← Nat.add_mod]
  have hring := h.ring.openConsumed hcfg (by omega) hbehind.opened hbehind.taken hcomm
  rw [hnext, ← hbehind.vsn] at hring
  refine ⟨_, h.cursor rfl hring rfl rfl ⟨le_rfl, le_rfl⟩ ⟨le_rfl, le_rfl⟩
    ⟨le_rfl, le_max_left ..⟩ ⟨hwish, u, { hbehind with }, le_max_right ..⟩ ?_ ?_
    (.inr (.inr ⟨rfl, rfl, ?_⟩)) fun hfr => ?_⟩
  · rw [hat]
    exact ⟨fun _ => id, fun _ => id⟩
  · rw [hat]
    exact ⟨rfl, fun _ => rfl⟩
  · rw [hat]
    exact (Option.some_ne_none _).symm
  · -- the thread is to advance `ridx`, unless that was done before
    have hnear := (h.follower hfr).1
    have hu := hbehind.prompt hfr
    have hidx := hbehind.idx
    have hridx := h.ring.ridx
    have hres := h.ring.res
    dsimp only
    refine ⟨by omega, ?_⟩
    rcases hidx.lt_or_eq with hlt | rfl
    · rw [max_eq_left (by omega), hat]
      exact .inr (.inr ⟨rfl, rfl, (Option.some_ne_none _).symm⟩)
    · exact .inr (.inl rfl)

theorem Inv.resetReserved (h : Inv cfg fr s g) (hcfg : cfg.Valid)
    (hat : s.pc t = .resetReserved call r vsn) :
    ∃ g', Inv cfg fr ({ s with
      queue.reserved := bbqResetBlockCursorHeavy s.queue.reserved ((r + 1) % cfg.blocks) vsn
        cfg.initValue }.goto t (.advanceRidx call r)) g' := by
  have hok := h.pcs t
  rw [hat] at hok
  obtain ⟨hwish, u, hbehind, hcons⟩ := hok
  have hafter := hbehind.after
  have hnext : (u + 1) % cfg.blocks = (r + 1) % cfg.blocks := by
    rw [Nat.add_mod, hbehind.block, ← Nat.add_mod]
  have hring := h.ring.openReserved hcfg (by omega) hbehind.opened hcons
  rw [hnext, ← hbehind.vsn] at hring
  refine ⟨_, h.cursor rfl hring rfl rfl ⟨le_rfl, le_rfl⟩ ⟨le_rfl, le_rfl⟩
    ⟨le_max_left .., le_rfl⟩ ⟨hwish, by dsimp only; omega⟩ ?_ ?_
    (.inr (.inr ⟨rfl, rfl, ?_⟩)) fun hfr => ⟨(h.follower hfr).1, ?_⟩⟩
  · rw [hat]
    exact ⟨fun _ => id, fun _ => id⟩
  · rw [hat]
    exact ⟨rfl, fun _ => rfl⟩
  · rw [hat]
    exact (Option.some_ne_none _).symm
  · rcases hbehind.idx.lt_or_eq with hlt | rfl
    · rw [hat]
      exact .inr (.inr ⟨rfl, rfl, fun heq => hlt.ne (Option.some.inj heq)⟩)
    · exact .inr (.inl rfl)

omit [DecidableEq Tid] in
theorem Ring.ridx_lt {q : MpmcQueue α} {sa sr : Nat} (h : Ring cfg q sa sr g) (hcfg : cfg.Valid)
    (hr : r + cfg.blocks + 1 ≤ g.res) : r + 1 < 2 ^ 64 := by
  have hres := h.res
  have hbehind := h.behind
  exact h.index_lt hcfg (by omega)

theorem Inv.advanceRidx (h : Inv cfg fr s g) (hat : s.pc t = .advanceRidx call r) :
    Inv cfg fr ({ s with queue.ridx := max s.queue.ridx (r + 1) }.goto t
      (nextDequeue call true)) g := by
  have hok := h.pcs t
  rw [hat] at hok
  obtain ⟨hwish, hres⟩ := hok
  have hring := h.ring.advanceRidx hres
  have hcoming (s₁ : State Tid α) : s₁.coming (nextDequeue call true) = [] :=
    (plain_spec (nextDequeue_plain call true)).2.2.2.2 s₁
  refine h.cursor rfl hring rfl rfl ⟨le_rfl, le_max_left ..⟩ ⟨le_rfl, le_rfl⟩ ⟨le_rfl, le_rfl⟩
    (nextDequeue_ok hwish.2 true) ?_ ?_ (.inr (.inr ⟨rfl, rfl, ?_⟩)) fun hfr => ?_
  · rw [hat]
    exact ⟨fun _ => id, fun _ => id⟩
  · rw [hat]
    exact ⟨rfl, hcoming⟩
  · rw [hat]
    exact (Option.some_ne_none _).symm
  · have hnear := (h.follower hfr).1
    dsimp only
    refine ⟨by omega, ?_⟩
    rcases Nat.lt_or_ge r s.queue.ridx with hlt | hge
    · rw [max_eq_left (by omega), hat]
      exact .inr (.inr ⟨rfl, rfl, fun heq => hlt.ne (Option.some.inj heq)⟩)
    · left
      omega

theorem Inv.dequeueStep (h : Inv cfg fr s g) (hcfg : cfg.Valid)
    (hprompt : fr → prompt cfg s (.step t) = true)
    (hstep : dequeueStep cfg s t (s.pc t) = some s') : ∃ g', Inv cfg fr s' g' := by
  have hok := h.pcs t
  cases hat : s.pc t with
  | deqRidx call =>
    rw [hat] at hstep hok
    cases hstep
    exact ⟨g, h.goto (by rw [hat]; rfl) rfl ⟨hok, le_rfl⟩⟩
  | deqReserved call r =>
    rw [hat] at hstep
    dsimp only [BbqMpmc.dequeueStep] at hstep
    rw [blockOf_eq, ← apply_ite some] at hstep
    cases hstep
    exact ⟨g, h.deqReserved hcfg hat⟩
  | deqCommitted call r reserved =>
    rw [hat] at hstep
    cases hstep
    rw [blockOf_eq]
    exact ⟨g, h.deqCommitted hcfg hat⟩
  | deqAllocated call r reserved committedSpace total =>
    rw [hat] at hstep
    dsimp only [BbqMpmc.dequeueStep] at hstep
    rw [blockOf_eq, ← apply_ite some] at hstep
    cases hstep
    exact ⟨g, h.deqAllocated hat⟩
  | deqReserve call r reserved total =>
    rw [hat] at hstep hok
    dsimp only [BbqMpmc.dequeueStep] at hstep
    rw [blockOf_eq] at hstep
    split at hstep
    next hsame =>
      cases hstep
      exact ⟨g, h.reserve hcfg hat hsame⟩
    next =>
      cases hstep
      exact ⟨g, h.goto (by rw [hat]; rfl) (nextDequeue_plain call true)
        (nextDequeue_ok hok.1.2 true)⟩
  | deqCopy call r reserved first total got =>
    rw [hat] at hstep
    dsimp only [BbqMpmc.dequeueStep] at hstep
    rw [blockOf_eq] at hstep
    split at hstep
    next hless =>
      cases hstep
      exact ⟨g, h.read hcfg hat hless rfl⟩
    next hend =>
      cases hstep
      exact h.consume hcfg hat hend (Nat.sub_le ..)
  | deqNext call r reserved =>
    rw [hat] at hstep
    dsimp only [BbqMpmc.dequeueStep] at hstep
    rw [blockOf_eq, nextBlockOf_eq, ← apply_ite some] at hstep
    cases hstep
    refine ⟨g, h.deqNext hcfg hat (fun hfr => ?_) rfl⟩
    have hversion := hprompt hfr
    rw [prompt, hat] at hversion
    exact of_decide_eq_true hversion
  | resetConsumed call r vsn =>
    rw [hat] at hstep
    cases hstep
    rw [nextBlockOf_eq]
    exact h.resetConsumed hcfg hat
  | resetReserved call r vsn =>
    rw [hat] at hstep
    cases hstep
    rw [nextBlockOf_eq]
    exact h.resetReserved hcfg hat
  | advanceRidx call r =>
    rw [hat] at hstep hok
    cases hstep
    rw [wadd_of_lt (h.ring.ridx_lt hcfg hok.2)]
    exact ⟨g, h.advanceRidx hat⟩
  | _ =>
    rw [hat] at hstep
    cases hstep

end Libvsync.Queue.BbqMpmc
