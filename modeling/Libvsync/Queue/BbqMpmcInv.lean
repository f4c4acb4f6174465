import Libvsync.Queue.BbqMpmcRing

/-!
What holds between the cursors of `bbq_mpmc`, and what each access to them does. Uses are opened
in order: a use is opened for `committed` first, then for `allocated`, and when its producers
are through with the use before; the consumers follow with `consumed` and `reserved`. A use is
only opened when the entries of the use before it in the same block were consumed.
-/

namespace Libvsync.Queue.BbqMpmc

open Libvsync.Core Function
open Libvsync.Queue.Bbq
open Libvsync.Queue.BbqSpsc (Config place)
open Libvsync.Queue.BbqCalls (MpmcQueue bbqResetBlockCursorHeavy)

variable {α : Type} {cfg : Config}

/-- The uses that were opened last, what `allocated` counts, which runs on beyond the end of a
block, and which entries are committed and consumed. -/
structure Uses where
  alloc : Nat
  comm : Nat
  res : Nat
  cons : Nat
  added : Nat → Nat
  done : Nat → Bool
  gone : Nat → Bool

/-- The cursors, when the entries below `sa` were taken by producers and the entries below `sr`
by consumers. -/
structure Ring (cfg : Config) (q : MpmcQueue α) (sa sr : Nat) (g : Uses) : Prop where
  version : (g.comm - 1) / cfg.blocks < 2 ^ 44
  widx : q.widx + cfg.blocks ≤ g.alloc
  alloc : g.alloc ≤ g.comm
  comm : g.comm ≤ q.widx + cfg.blocks + 1
  ridx : q.ridx + cfg.blocks ≤ g.res
  res : g.res ≤ g.cons
  cons : g.cons ≤ g.res + 1
  behind : g.cons ≤ g.comm
  full : g.comm * cfg.entries ≤ sa
  room : sa ≤ (g.alloc + 1) * cfg.entries
  taken : g.cons * cfg.entries ≤ sr
  rest : sr ≤ (g.res + 1) * cfg.entries
  done : ∀ p, g.done p = true → p < sa
  gone : ∀ p, g.gone p = true → p < sr
  ready : ∀ p, p < sr → g.done p = true
  /-- What was in a block that is used again was consumed. -/
  reuse : ∀ p, p < (g.comm + 1 - cfg.blocks) * cfg.entries → g.gone p = true
  added : ∀ u, cfg.initValue + 8 * g.added u < 2 ^ 20
  overMin : ∀ u, min (g.added u) cfg.entries = upTo cfg sa u
  allocated : Cells cfg q.allocated g.alloc g.added
  committed : Cells cfg q.committed g.comm (marked cfg g.done)
  reserved : Cells cfg q.reserved g.res (upTo cfg sr)
  consumed : Cells cfg q.consumed g.cons (marked cfg g.gone)

namespace Ring

variable {q : MpmcQueue α} {sa sr : Nat} {g : Uses} {u w r x y m : Nat}

section Reads

variable (h : Ring cfg q sa sr g) (hcfg : cfg.Valid)
include h

theorem version_lt (hu : u ≤ g.comm) : (u - 1) / cfg.blocks < 2 ^ 44 :=
  lt_of_le_of_lt (Nat.div_le_div_right (by omega)) h.version

theorem blocks_le : cfg.blocks ≤ q.widx + cfg.blocks ∧ cfg.blocks ≤ g.res := by
  have hr := h.ridx
  omega

theorem taken_le : sr ≤ sa := by
  apply Nat.le_of_not_lt
  intro hlt
  exact absurd (h.done sa (h.ready sa hlt)) (lt_irrefl sa)

/-- An entry that is not consumed belongs to the use that its block is opened for. -/
theorem pending {p : Nat} (hp : g.gone p = false) :
    (g.comm + 1 - cfg.blocks) * cfg.entries ≤ p := by
  apply Nat.le_of_not_lt
  intro hlt
  rw [h.reuse p hlt] at hp
  cases hp

/-- An entry that is not committed is not consumed either. -/
theorem not_gone {p : Nat} (hp : g.done p = false) : g.gone p = false := by
  apply Bool.eq_false_of_not_eq_true
  intro hgone
  rw [h.ready p (h.gone p hgone)] at hp
  cases hp

include hcfg

omit h in
theorem fits_of_le (hx : x ≤ cfg.entries) : cfg.initValue + 8 * x < 2 ^ 20 := by
  have hsize := hcfg.size
  have hsmall := hcfg.small
  omega

omit h in
theorem blkSize_le : cfg.blkSize ≤ cfg.initValue + 8 * x ↔ cfg.entries ≤ x := by
  have hsize := hcfg.size
  omega

/-- The use of an entry, and the window of the uses that blocks are opened for. -/
theorem use_of_pending {p : Nat} (hp : g.gone p = false) (hlt : p < sa) :
    p / cfg.entries ≤ g.alloc ∧ g.comm < p / cfg.entries + cfg.blocks := by
  have hpos := hcfg.entries
  have hlow := h.pending hp
  have hroom := h.room
  constructor
  · exact Nat.lt_succ_iff.mp ((Nat.div_lt_iff_lt_mul hpos).mpr (hlt.trans_le hroom))
  · have hdiv := (Nat.le_div_iff_mul_le hpos).mpr hlow
    omega

omit hcfg in
/-- Different entries that are there have different places. -/
theorem place_ne {p p' : Nat} (hp : g.gone p = false) (hlt : p < sa) (hp' : g.gone p' = false)
    (hlt' : p' < sa) (hne : p ≠ p') : place cfg p ≠ place cfg p' := by
  have hlow := h.pending hp
  have hlow' := h.pending hp'
  have hroom := h.room
  have halloc := h.alloc
  have hwidx := h.widx
  have hwindow : (g.alloc + 1) * cfg.entries ≤
      (g.comm + 1 - cfg.blocks) * cfg.entries + cfg.entries * cfg.blocks := by
    have hle : g.alloc + 1 ≤ g.comm + 1 - cfg.blocks + cfg.blocks := by omega
    calc
      _ ≤ (g.comm + 1 - cfg.blocks + cfg.blocks) * cfg.entries := Nat.mul_le_mul_right _ hle
      _ = _ := by ring
  intro heq
  exact hne (BbqSpsc.place_inj hlow (by omega) hlow' (by omega) heq)

/-- A producer that finds its block used up has come to the end of a use. -/
theorem allocated_full (hw : w ≤ q.widx)
    (hfull : ¬ bbqLocalIdx (q.allocated (w % cfg.blocks)) < cfg.blkSize) :
    (w + cfg.blocks + 1) * cfg.entries ≤ sa := by
  have hwidx := h.widx
  obtain ⟨u, -, -, -, hle, hcell⟩ := h.allocated.get (by omega) (w + cfg.blocks)
  rw [Nat.add_mod_right] at hcell
  rw [hcell, word_idx (h.added u), not_lt, blkSize_le hcfg] at hfull
  have hmin := h.overMin u
  have hend : (u + 1) * cfg.entries ≤ sa := (upTo_full hcfg.entries).mp (by omega)
  exact (start_le cfg (by omega)).trans hend

theorem allocated_room (hw : w ≤ q.widx)
    (hroom : bbqLocalIdx (q.allocated (w % cfg.blocks)) < cfg.blkSize) :
    g.alloc % cfg.blocks = w % cfg.blocks ∧ g.added g.alloc < cfg.entries ∧
      q.allocated (w % cfg.blocks) = word cfg g.alloc (g.added g.alloc) ∧
      sa = g.alloc * cfg.entries + g.added g.alloc := by
  have hwidx := h.widx
  obtain ⟨u, hu, hu', hmod, hle, hcell⟩ := h.allocated.get (by omega) (w + cfg.blocks)
  rw [Nat.add_mod_right] at hcell hmod
  rw [hcell, word_idx (h.added u)] at hroom
  have hlt : g.added u < cfg.entries := by
    have hsize := hcfg.size
    omega
  have hmin := h.overMin u
  obtain rfl : u = g.alloc := by
    apply hu.antisymm
    apply Nat.le_of_not_lt
    intro hless
    have hend : cfg.entries ≤ upTo cfg sa u := by
      apply (upTo_full hcfg.entries).mpr
      exact (start_le cfg (by have := h.alloc; omega)).trans h.full
    omega
  refine ⟨hmod, hlt, hcell, ?_⟩
  have hstart := (start_le cfg h.alloc).trans h.full
  have hlast := upTo_last hstart h.room
  omega

/-- The test of a producer that is about to open the next use. -/
theorem fullyConsumed (hw : w ≤ q.widx)
    (hfull : bbqBlockFullyConsumedWithVsn (q.consumed ((w + 1) % cfg.blocks)) cfg.blkSize
      (w / cfg.blocks)) : ∀ p, p < (w + 2) * cfg.entries → g.gone p = true := by
  have hpos := cfg.blocks_pos
  have hwidx := h.widx
  have halloc := h.alloc
  have hres := h.blocks_le.2
  have hcons := h.res
  have hbehind := h.behind
  have hearlier : ∀ p, p < (w + 1) * cfg.entries → g.gone p = true := by
    intro p hp
    apply h.reuse
    exact hp.trans_le (start_le cfg (by omega))
  obtain ⟨u, hu, hu', hmod, -, hcell⟩ := h.consumed.get (hres.trans hcons) (w + 1)
  have hfits := fits_of_le hcfg (marked_le : marked cfg g.gone u ≤ _)
  rw [hcell, bbqBlockFullyConsumedWithVsn, word_idx hfits,
    word_vsn (h.version_lt (hu.trans hbehind)) hfits] at hfull
  have hw' : (w + 1 - 1) / cfg.blocks = w / cfg.blocks := rfl
  rcases hfull with ⟨hidx, hversion⟩ | hversion
  · obtain rfl : u = w + 1 := by
      apply use_eq hpos (by omega) (by omega) hmod
      omega
    have hall : marked cfg g.gone (w + 1) = cfg.entries := by
      have hsize := hcfg.size
      omega
    intro p hp
    rcases Nat.lt_or_ge p ((w + 1) * cfg.entries) with hlt | hge
    · exact hearlier p hlt
    · have hsplit : (w + 2) * cfg.entries = (w + 1) * cfg.entries + cfg.entries := Nat.succ_mul ..
      have hmark := marked_full.mp hall (p - (w + 1) * cfg.entries) (by omega)
      rwa [Nat.add_sub_cancel' hge] at hmark
  · have hlater : w + 1 < u := by
      apply Nat.lt_of_not_ge
      intro hge
      have hdiv : (u - 1) / cfg.blocks ≤ w / cfg.blocks := Nat.div_le_div_right (by omega)
      omega
    have hgap := mod_gap hmod.symm hlater
    intro p hp
    apply h.reuse
    exact hp.trans_le (start_le cfg (by omega))

end Reads

end Ring

/-- What a consumer knows of the cursor `reserved` that it has read: it was in use `u` and had
`x` entries. -/
structure Seen (cfg : Config) (sr : Nat) (g : Uses) (r resv u x : Nat) : Prop where
  word : resv = word cfg u x
  block : u % cfg.blocks = r % cfg.blocks
  after : r + cfg.blocks ≤ u
  opened : u ≤ g.res
  low : u * cfg.entries + x ≤ sr
  fill : x ≤ cfg.entries

namespace Ring

variable {q : MpmcQueue α} {sa sr : Nat} {g : Uses} {u w r resv x y m : Nat}

section Consumers

variable (h : Ring cfg q sa sr g)
include h

theorem reserved_read (hr : r ≤ q.ridx) :
    ∃ u x, Seen cfg sr g r (q.reserved (r % cfg.blocks)) u x := by
  have hridx := h.ridx
  obtain ⟨u, hu, -, hmod, hle, hcell⟩ := h.reserved.get (by omega) (r + cfg.blocks)
  rw [Nat.add_mod_right] at hcell hmod
  refine ⟨u, upTo cfg sr u, hcell, hmod, hle (by omega), hu, ?_, upTo_le⟩
  have hstart := (start_le cfg (hu.trans h.res)).trans h.taken
  rw [upTo]
  omega

/-- While the cursor is as it was, the use that was seen is the last one of its block. -/
theorem seen_last (hx : x < cfg.entries)
    (hsame : sr = u * cfg.entries + x) : g.comm < u + cfg.blocks := by
  apply Nat.lt_of_not_ge
  intro hge
  have hlow : (u + 1) * cfg.entries ≤ (g.comm + 1 - cfg.blocks) * cfg.entries :=
    start_le cfg (by omega)
  rw [Nat.succ_mul] at hlow
  have hgone := h.gone sr (h.reuse sr (by omega))
  exact lt_irrefl sr hgone

theorem committed_read (hcfg : cfg.Valid) (hseen : Seen cfg sr g r resv u x)
    (hx : x < cfg.entries) :
    ∃ y, y ≤ cfg.entries ∧
      bbqLocalIdx (q.committed (r % cfg.blocks)) = cfg.initValue + 8 * y ∧
      (y ≤ x → resv ≤ q.committed (r % cfg.blocks)) ∧
      (sr = u * cfg.entries + x → y ≤ marked cfg g.done u) := by
  have hpos := cfg.blocks_pos
  have hafter := hseen.after
  have hopened := hseen.opened
  have hres := h.res
  have hbehind := h.behind
  obtain ⟨v, hv, hv', hmod, hle, hcell⟩ := h.committed.get (by omega) u
  rw [hseen.block] at hcell hmod
  have huv : u ≤ v := hle (by omega)
  have hy : marked cfg g.done v ≤ cfg.entries := marked_le
  have hfits := fits_of_le hcfg hy
  have hversion := h.version_lt hv
  refine ⟨marked cfg g.done v, hy, ?_, ?_, ?_⟩
  · rw [hcell, word_idx hfits]
  · intro hyx
    rw [hcell, hseen.word]
    rcases huv.lt_or_eq with hlt | rfl
    · exact (word_lt (by omega) (hseen.block.trans hmod.symm) hversion (fits_of_le hcfg hseen.fill)
        hfits hlt).le
    · have hxy : x ≤ marked cfg g.done u := by
        apply le_marked hseen.fill
        intro j hj
        apply h.ready
        have hlow := hseen.low
        omega
      rw [hyx.antisymm hxy]
  · intro hsame
    rcases huv.lt_or_eq with hlt | rfl
    · have hlast := h.seen_last hx hsame
      have hgap := mod_gap (hseen.block.trans hmod.symm) hlt
      omega
    · exact le_rfl

/-- What is committed is a front part of the block when nothing else is allocated. -/
theorem allocated_read (hseen : Seen cfg sr g r resv u x) (hxy : x < y)
    (hy : y ≤ cfg.entries) (hcount : sr = u * cfg.entries + x → y ≤ marked cfg g.done u)
    (hsame : bbqLocalIdx (q.allocated (r % cfg.blocks)) = cfg.initValue + 8 * y) :
    sr = u * cfg.entries + x → ∀ j, j < y → g.done (u * cfg.entries + j) = true := by
  intro hstill
  have hlast := h.seen_last (hxy.trans_le hy) hstill
  have hpos := cfg.blocks_pos
  have hafter := hseen.after
  have hopened := hseen.opened
  have hwidx := h.widx
  have hcomm := h.comm
  have hres := h.res
  have hbehind := h.behind
  have halloc := h.alloc
  have hmarked := hcount hstill
  -- the use of the cell is the one that was seen
  have hu : u ≤ g.alloc := by
    apply Nat.le_of_not_lt
    intro hlt
    have hnone : marked cfg g.done u = 0 := by
      apply marked_none
      intro p hp
      exact (h.done p hp).trans_le (h.room.trans (start_le cfg hlt))
    omega
  have hcell := h.allocated.self hu (by omega)
  rw [hseen.block] at hcell
  rw [hcell, word_idx (h.added u)] at hsame
  have hmin := h.overMin u
  apply marked_first _ hmarked
  intro j hj hdone
  have hlt := h.done _ hdone
  rw [upTo] at hmin
  omega

omit h in
theorem committed_full (hcount : sr = u * cfg.entries + x → cfg.entries ≤ marked cfg g.done u) :
    sr = u * cfg.entries + x → ∀ j, j < cfg.entries → g.done (u * cfg.entries + j) = true := by
  intro hstill
  exact marked_full.mp (marked_le.antisymm (hcount hstill))

/-- The compare-and-swap on `reserved` succeeds when nothing was reserved since. -/
theorem reserved_same (hcfg : cfg.Valid) (hseen : Seen cfg sr g r resv u x) (hx : x < cfg.entries)
    (hsame : q.reserved (r % cfg.blocks) = resv) :
    sr = u * cfg.entries + x ∧ u = g.res ∧ u = g.cons := by
  have hpos := cfg.blocks_pos
  have hafter := hseen.after
  have hopened := hseen.opened
  have hres := h.res
  have hbehind := h.behind
  obtain ⟨v, hv, -, hmod, hle, hcell⟩ := h.reserved.get (by omega) u
  rw [hseen.block] at hcell hmod
  have huv : u ≤ v := hle hopened
  rw [hsame, hseen.word] at hcell
  obtain ⟨rfl, hfill⟩ := word_inj (by omega) (by omega) (hseen.block.trans hmod.symm)
    (h.version_lt (by omega)) (h.version_lt (by omega)) (fits_of_le hcfg hseen.fill)
    (fits_of_le hcfg upTo_le) hcell
  have hlow := hseen.low
  have hstill : sr = u * cfg.entries + x := by
    rw [upTo] at hfill
    omega
  have hlast : g.cons ≤ u := by
    apply Nat.le_of_not_lt
    intro hlt
    have htaken := (start_le cfg hlt).trans h.taken
    rw [Nat.succ_mul] at htaken
    omega
  exact ⟨hstill, by omega, by omega⟩

/-- The next use was opened by the producers, if the version of the next block is right. -/
theorem next_opened (hcfg : cfg.Valid) (hseen : Seen cfg sr g r resv u x)
    (hversion : bbqLocalVsn (q.committed ((u + 1) % cfg.blocks)) = u / cfg.blocks) :
    u + 1 ≤ g.comm := by
  have hpos := cfg.blocks_pos
  have hafter := hseen.after
  have hopened := hseen.opened
  have hres := h.res
  have hbehind := h.behind
  obtain ⟨v, hv, hv', hmod, -, hcell⟩ := h.committed.get (by omega) (u + 1)
  have hfits := fits_of_le hcfg (marked_le : marked cfg g.done v ≤ _)
  rw [hcell, word_vsn (h.version_lt hv) hfits] at hversion
  rcases Nat.eq_zero_or_pos v with rfl | hvpos
  · -- there is a later use of every block
    omega
  · obtain rfl := use_eq hpos hvpos (Nat.succ_pos u) hmod hversion
    exact hv

end Consumers

section Steps

variable (h : Ring cfg q sa sr g) (hcfg : cfg.Valid)
include h hcfg

section

omit hcfg

/-- A producer takes a range: `n` entries are added to `allocated`, of which `m` fit. -/
theorem take {n : Nat} (hm : m ≤ n) (hfit : g.added g.alloc + m ≤ cfg.entries)
    (hrest : m < n → g.added g.alloc + m = cfg.entries)
    (hlast : sa = g.alloc * cfg.entries + g.added g.alloc)
    (hfits : cfg.initValue + 8 * (g.added g.alloc + n) < 2 ^ 20) :
    Ring cfg { q with
      allocated := update q.allocated (g.alloc % cfg.blocks)
        (wadd 64 (q.allocated (g.alloc % cfg.blocks)) (8 * n)) } (sa + m) sr
      { g with added := update g.added g.alloc (g.added g.alloc + n) } := by
  have hpos := cfg.blocks_pos
  have hend : sa + m ≤ (g.alloc + 1) * cfg.entries := by
    rw [Nat.succ_mul]
    omega
  refine { h with
    full := h.full.trans (Nat.le_add_right ..)
    room := hend
    done := fun p hp => (h.done p hp).trans_le (Nat.le_add_right ..)
    added := ?_
    overMin := ?_
    allocated := ?_ }
  · intro u
    dsimp only
    rcases eq_or_ne u g.alloc with rfl | hu
    · rw [update_self]
      exact hfits
    · rw [update_of_ne hu]
      exact h.added u
  · intro u
    dsimp only
    rcases eq_or_ne u g.alloc with rfl | hu
    · rw [update_self, upTo]
      omega
    · rw [update_of_ne hu, h.overMin u]
      symm
      apply upTo_grow _ (Nat.le_add_right ..) hend hu
      omega
  · apply h.allocated.add le_rfl (by omega) hfits
    · exact update_self ..
    · intro u hu
      exact update_of_ne hu ..

theorem overrun {n : Nat} (hu : u ≤ g.alloc) (hu' : g.alloc < u + cfg.blocks)
    (hfull : cfg.entries ≤ g.added u) (hfits : cfg.initValue + 8 * (g.added u + n) < 2 ^ 20) :
    Ring cfg { q with
      allocated := update q.allocated (u % cfg.blocks)
        (wadd 64 (q.allocated (u % cfg.blocks)) (8 * n)) } sa sr
      { g with added := update g.added u (g.added u + n) } := by
  refine { h with
    added := ?_
    overMin := ?_
    allocated := ?_ }
  · intro v
    dsimp only
    rcases eq_or_ne v u with rfl | hv
    · rw [update_self]
      exact hfits
    · rw [update_of_ne hv]
      exact h.added v
  · intro v
    dsimp only
    rcases eq_or_ne v u with rfl | hv
    · rw [update_self, ← h.overMin v]
      omega
    · rw [update_of_ne hv]
      exact h.overMin v
  · apply h.allocated.add hu hu' hfits
    · exact update_self ..
    · intro v hv
      exact update_of_ne hv ..

end

theorem commit {first : Nat} (hm : 0 < m) (hfit : first % cfg.entries + m ≤ cfg.entries)
    (hlt : first + m ≤ sa) (hfresh : ∀ j, j < m → g.done (first + j) = false) :
    Ring cfg { q with
      committed := update q.committed (first / cfg.entries % cfg.blocks)
        (wadd 64 (q.committed (first / cfg.entries % cfg.blocks)) (8 * m)) } sa sr
      { g with done := mark g.done first m } := by
  have hsplit : first = first / cfg.entries * cfg.entries + first % cfg.entries :=
    (Nat.div_add_mod' first cfg.entries).symm
  have hfirst : g.done first = false := hfresh 0 hm
  obtain ⟨hu, hu'⟩ := h.use_of_pending hcfg (h.not_gone hfirst) (by omega : first < sa)
  have halloc := h.alloc
  have hself := marked_mark hsplit hfit hfresh
  refine { h with
    done := ?_
    ready := ?_
    committed := ?_ }
  · intro p hp
    rcases mark_iff.mp hp with hp | hp
    · exact h.done p hp
    · omega
  · intro p hp
    exact mark_iff.mpr (.inl (h.ready p hp))
  · apply h.committed.add (by omega) (by omega) _ hself
    · intro v hv
      exact marked_mark_other hsplit hfit hv
    · rw [← hself]
      exact fits_of_le hcfg marked_le

theorem openCommitted (hw : w ≤ q.widx) (hfull : (w + cfg.blocks + 1) * cfg.entries ≤ sa)
    (hgone : ∀ p, p < (w + 2) * cfg.entries → g.gone p = true)
    (hversion : w / cfg.blocks + 1 < 2 ^ 44) :
    Ring cfg { q with
      committed := bbqResetBlockCursorHeavy q.committed ((w + 1) % cfg.blocks)
        (w / cfg.blocks + 1) cfg.initValue } sa sr
      { g with comm := max g.comm (w + cfg.blocks + 1) } := by
  have hpos := cfg.blocks_pos
  have hwidx := h.widx
  have halloc := h.alloc
  have hcomm := h.comm
  have hdiv : (w + cfg.blocks + 1 - 1) / cfg.blocks = w / cfg.blocks + 1 :=
    Nat.add_div_right _ hpos
  have hmod : (w + cfg.blocks + 1) % cfg.blocks = (w + 1) % cfg.blocks := by
    rw [Nat.add_right_comm, Nat.add_mod_right]
  have hnew : marked cfg g.done (g.comm + 1) = 0 := by
    apply marked_none
    intro p hp
    exact (h.done p hp).trans_le (h.room.trans (start_le cfg (by omega)))
  refine { h with
    version := ?_
    alloc := h.alloc.trans (le_max_left ..)
    comm := ?_
    behind := h.behind.trans (le_max_left ..)
    full := ?_
    reuse := ?_
    committed := ?_ }
  · dsimp only
    rcases max_choice g.comm (w + cfg.blocks + 1) with heq | heq
    · rw [heq]
      exact h.version
    · rw [heq, hdiv]
      exact hversion
  · dsimp only
    omega
  · dsimp only
    rcases max_choice g.comm (w + cfg.blocks + 1) with heq | heq
    · rw [heq]
      exact h.full
    · rw [heq]
      exact hfull
  · dsimp only
    rcases max_choice g.comm (w + cfg.blocks + 1) with heq | heq
    · rw [heq]
      exact h.reuse
    · rw [heq]
      intro p hp
      apply hgone
      exact hp.trans_le (start_le cfg (by omega))
  · have hopen := h.committed.openUse (w + cfg.blocks + 1) (by omega) (by omega)
      (by omega) hnew h.version (by rw [hdiv]; exact hversion) fun v => fits_of_le hcfg marked_le
    rw [hdiv, hmod] at hopen
    exact hopen

theorem openAllocated (hw : w ≤ q.widx) (hcomm : w + cfg.blocks + 1 ≤ g.comm) :
    Ring cfg { q with
      allocated := bbqResetBlockCursorHeavy q.allocated ((w + 1) % cfg.blocks)
        (w / cfg.blocks + 1) cfg.initValue } sa sr
      { g with alloc := max g.alloc (w + cfg.blocks + 1) } := by
  have hpos := cfg.blocks_pos
  have hwidx := h.widx
  have halloc := h.alloc
  have hdiv : (w + cfg.blocks + 1 - 1) / cfg.blocks = w / cfg.blocks + 1 :=
    Nat.add_div_right _ hpos
  have hmod : (w + cfg.blocks + 1) % cfg.blocks = (w + 1) % cfg.blocks := by
    rw [Nat.add_right_comm, Nat.add_mod_right]
  have hnew : g.added (g.alloc + 1) = 0 := by
    have hmin := h.overMin (g.alloc + 1)
    rw [upTo_none h.room] at hmin
    have hentries := hcfg.entries
    omega
  refine { h with
    widx := h.widx.trans (le_max_left ..)
    alloc := max_le h.alloc hcomm
    room := ?_
    allocated := ?_ }
  · exact h.room.trans (start_le cfg (by dsimp only; omega))
  · have hopen := h.allocated.openUse (w + cfg.blocks + 1) (by omega) (by omega) (by omega)
      hnew (h.version_lt h.alloc) (h.version_lt hcomm) h.added
    rw [hdiv, hmod] at hopen
    exact hopen

omit hcfg in
/-- The queue goes on to the next block for the producers. -/
theorem advanceWidx (halloc : w + cfg.blocks + 1 ≤ g.alloc) :
    Ring cfg { q with widx := max q.widx (w + 1) } sa sr g := by
  have hwidx := h.widx
  have hcomm := h.comm
  refine { h with
    widx := ?_
    comm := ?_ }
  · dsimp only
    omega
  · dsimp only
    omega

theorem reserve (hu : u = g.res) (hsame : sr = u * cfg.entries + x)
    (hfit : x + m ≤ cfg.entries) (hx : x < cfg.entries)
    (hready : ∀ j, j < x + m → g.done (u * cfg.entries + j) = true) :
    Ring cfg { q with
      reserved := update q.reserved (u % cfg.blocks)
        (wadd 64 (q.reserved (u % cfg.blocks)) (8 * m)) } sa (sr + m) g := by
  have hpos := cfg.blocks_pos
  have hend : sr + m ≤ (u + 1) * cfg.entries := by
    rw [Nat.succ_mul]
    omega
  have hself : upTo cfg (sr + m) u = upTo cfg sr u + m := by
    rw [upTo, upTo]
    omega
  refine { h with
    taken := h.taken.trans (Nat.le_add_right ..)
    rest := ?_
    gone := fun p hp => (h.gone p hp).trans_le (Nat.le_add_right ..)
    ready := ?_
    reserved := ?_ }
  · rw [← hu]
    exact hend
  · intro p hp
    rcases Nat.lt_or_ge p sr with hlt | hge
    · exact h.ready p hlt
    · have hdone := hready (p - u * cfg.entries) (by omega)
      rwa [Nat.add_sub_cancel' (by omega)] at hdone
  · apply h.reserved.add (by omega) (by omega) _ hself
    · intro v hv
      exact upTo_grow (by omega) (Nat.le_add_right ..) hend hv
    · rw [← hself]
      exact fits_of_le hcfg upTo_le

theorem consume {first : Nat} (hm : 0 < m) (hfit : first % cfg.entries + m ≤ cfg.entries)
    (hlt : first + m ≤ sr) (hfresh : ∀ j, j < m → g.gone (first + j) = false) :
    Ring cfg { q with
      consumed := update q.consumed (first / cfg.entries % cfg.blocks)
        (wadd 64 (q.consumed (first / cfg.entries % cfg.blocks)) (8 * m)) } sa sr
      { g with gone := mark g.gone first m } := by
  have hsplit : first = first / cfg.entries * cfg.entries + first % cfg.entries :=
    (Nat.div_add_mod' first cfg.entries).symm
  have hle := h.taken_le
  have hfirst : g.gone first = false := hfresh 0 hm
  obtain ⟨-, hu'⟩ := h.use_of_pending hcfg hfirst (by omega : first < sa)
  have hu : first / cfg.entries ≤ g.res := by
    apply Nat.lt_succ_iff.mp
    apply (Nat.div_lt_iff_lt_mul hcfg.entries).mpr
    exact lt_of_lt_of_le (by omega : first < sr) h.rest
  have hres := h.res
  have hbehind := h.behind
  have hself := marked_mark hsplit hfit hfresh
  refine { h with
    gone := ?_
    reuse := ?_
    consumed := ?_ }
  · intro p hp
    rcases mark_iff.mp hp with hp | hp
    · exact h.gone p hp
    · omega
  · intro p hp
    exact mark_iff.mpr (.inl (h.reuse p hp))
  · apply h.consumed.add (by omega) (by omega) _ hself
    · intro v hv
      exact marked_mark_other hsplit hfit hv
    · rw [← hself]
      exact fits_of_le hcfg marked_le

theorem openConsumed (hpos : cfg.blocks ≤ u) (hu : u ≤ g.res)
    (htaken : (u + 1) * cfg.entries ≤ sr) (hcomm : u + 1 ≤ g.comm) :
    Ring cfg { q with
      consumed := bbqResetBlockCursorHeavy q.consumed ((u + 1) % cfg.blocks)
        (u / cfg.blocks) cfg.initValue } sa sr
      { g with cons := max g.cons (u + 1) } := by
  have hblocks := cfg.blocks_pos
  have hres := h.res
  have hcons := h.cons
  have hnew : marked cfg g.gone (g.cons + 1) = 0 := by
    apply marked_none
    intro p hp
    exact (h.gone p hp).trans_le (h.rest.trans (start_le cfg (by omega)))
  refine { h with
    res := h.res.trans (le_max_left ..)
    cons := ?_
    behind := max_le h.behind hcomm
    taken := ?_
    consumed := ?_ }
  · dsimp only
    omega
  · dsimp only
    rcases max_choice g.cons (u + 1) with heq | heq
    · rw [heq]
      exact h.taken
    · rw [heq]
      exact htaken
  · exact h.consumed.openUse (u + 1) (by omega) (by omega) (by omega) hnew
      (h.version_lt h.behind) (h.version_lt hcomm) fun v => fits_of_le hcfg marked_le

theorem openReserved (hpos : cfg.blocks ≤ u) (hu : u ≤ g.res) (hcons : u + 1 ≤ g.cons) :
    Ring cfg { q with
      reserved := bbqResetBlockCursorHeavy q.reserved ((u + 1) % cfg.blocks)
        (u / cfg.blocks) cfg.initValue } sa sr
      { g with res := max g.res (u + 1) } := by
  have hblocks := cfg.blocks_pos
  have hres := h.res
  have hbehind := h.behind
  have hnew : upTo cfg sr (g.res + 1) = 0 := upTo_none h.rest
  refine { h with
    ridx := h.ridx.trans (le_max_left ..)
    res := max_le h.res hcons
    cons := ?_
    rest := ?_
    reserved := ?_ }
  · have hle := h.cons
    dsimp only
    omega
  · exact h.rest.trans (start_le cfg (by dsimp only; omega))
  · exact h.reserved.openUse (u + 1) (by omega) (by omega) (by omega) hnew
      (h.version_lt (h.res.trans h.behind)) (h.version_lt (by omega))
      fun v => fits_of_le hcfg upTo_le

omit hcfg in
/-- The queue goes on to the next block for the consumers. -/
theorem advanceRidx (hres : r + cfg.blocks + 1 ≤ g.res) :
    Ring cfg { q with ridx := max q.ridx (r + 1) } sa sr g := by
  have hridx := h.ridx
  refine { h with ridx := ?_ }
  dsimp only
  omega

end Steps

end Ring

end Libvsync.Queue.BbqMpmc
