import Libvsync.Queue.BbqCallsSafe

/-!
The calls of `bbq_mpmc` by one thread are those of `bbq_spsc`. What the queue has besides, the
cursors `allocated` and `reserved`, keeps up with `committed` and `consumed`: only the last batch
of a block may allocate more than was committed, and that stays below the version as long as the
sum fits the space of a cursor.
-/

namespace Libvsync.Queue.BbqCalls

open Libvsync.Core Function
open Libvsync.Queue.Bbq
open Libvsync.Queue.BbqSpsc (Config Inv cursor next_block bbqSpscInit)

variable {α : Type} {cfg : Config}

/-- The cursors that both queues have. -/
def MpmcQueue.view (q : MpmcQueue α) : SpscQueue α where
  widx := q.widx
  ridx := q.ridx
  committed := q.committed
  consumed := q.consumed
  entry := q.entry

/-- What holds between two attempts of one thread. -/
structure Alone (cfg : Config) (q : MpmcQueue α) : Prop where
  reserved : q.reserved = q.consumed
  allocated : ∀ i, ∃ extra, q.allocated i = q.committed i + extra ∧
    bbqLocalIdx (q.committed i) + extra < 2 ^ 20 ∧
      (bbqLocalIdx (q.committed i) ≠ cfg.blkSize → extra = 0)

/-- Before an attempt of `bbq_mpmc`: where the block has room, the bytes of the batch are not
zero as a 32-bit number and the sum that is allocated stays within the space of a cursor; a
block that is opened gets a version of 44 bits. -/
def MpmcFitsEnqueue (cfg : Config) (q : MpmcQueue α) (rest : List α) : Prop :=
  let blockIdx := bbqGlobalIdx cfg.blockNumLog q.widx
  let nblk := bbqGlobalIdx cfg.blockNumLog (blockIdx + 1)
  let globalVsn := bbqGlobalVsn cfg.blockNumLog q.widx
  let entryTotalSize := (rest.length <<< bbqEntrySizeLog) % 2 ^ 32
  if bbqLocalIdx (q.allocated blockIdx) < cfg.blkSize then
    entryTotalSize ≠ 0 ∧
      bbqLocalIdx (q.allocated blockIdx) + entryTotalSize < 2 ^ bbqLocalSpaceBit
  else
    bbqBlockFullyConsumedWithVsn (q.consumed nblk) cfg.blkSize globalVsn →
      globalVsn + 1 < 2 ^ 44

/-- Where there is an entry, the bytes of the count are not zero as a 32-bit number. -/
def MpmcFitsDequeue (cfg : Config) (q : MpmcQueue α) (rest : Nat) : Prop :=
  let blockIdx := bbqGlobalIdx cfg.blockNumLog q.ridx
  bbqLocalIdx (q.reserved blockIdx) < bbqLocalIdx (q.committed blockIdx) →
    (rest <<< bbqEntrySizeLog) % 2 ^ 32 ≠ 0

instance (q : MpmcQueue α) (rest : List α) : Decidable (MpmcFitsEnqueue cfg q rest) :=
  inferInstanceAs (Decidable (ite _ (_ ∧ _) (_ → _)))

instance (q : MpmcQueue α) (rest : Nat) : Decidable (MpmcFitsDequeue cfg q rest) :=
  inferInstanceAs (Decidable (_ → _))

def MpmcFits (cfg : Config) (s : State (MpmcQueue α) α) : Act α → Prop
  | .attempt =>
    match s.call with
    | .idle => True
    | .enqueue _ rest => rest.length ≠ 0 → MpmcFitsEnqueue cfg s.queue rest
    | .dequeue _ rest _ => rest ≠ 0 → MpmcFitsDequeue cfg s.queue rest
  | _ => True

instance (s : State (MpmcQueue α) α) (act : Act α) : Decidable (MpmcFits cfg s act) :=
  match act with
  | .enqueue _ | .dequeue _ => inferInstanceAs (Decidable True)
  | .attempt =>
    match hcall : s.call with
    | .idle => .isTrue (by simp only [MpmcFits, hcall])
    | .enqueue _ rest => decidable_of_iff (rest.length ≠ 0 → MpmcFitsEnqueue cfg s.queue rest)
        (by simp only [MpmcFits, hcall])
    | .dequeue _ rest _ => decidable_of_iff (rest ≠ 0 → MpmcFitsDequeue cfg s.queue rest)
        (by simp only [MpmcFits, hcall])

variable {q : MpmcQueue α} {e d rest : List α} {a b : Nat}

namespace Alone

/-- A block has room in both cursors or in none, and where it has they are equal. -/
theorem room_iff (h : Alone cfg q) (i : Nat) :
    bbqLocalIdx (q.allocated i) < cfg.blkSize ↔
      bbqLocalIdx (q.committed i) < cfg.blkSize ∧ q.allocated i = q.committed i := by
  obtain ⟨extra, heq, hlt, hzero⟩ := h.allocated i
  have hidx : bbqLocalIdx (q.allocated i) = bbqLocalIdx (q.committed i) + extra := by
    rw [heq]
    rw [bbqLocalIdx_eq] at hlt ⊢
    rw [bbqLocalIdx_eq]
    omega
  rw [hidx]
  constructor
  · intro hroom
    have hnone := hzero (by omega)
    exact ⟨by omega, by omega⟩
  · rintro ⟨hroom, -⟩
    have hnone := hzero (by omega)
    omega

theorem room (h : Alone cfg q) {i : Nat} (hroom : bbqLocalIdx (q.committed i) < cfg.blkSize) :
    q.allocated i = q.committed i := by
  obtain ⟨extra, heq, -, hzero⟩ := h.allocated i
  have hnone := hzero (by omega)
  omega

theorem version (h : Alone cfg q) (i : Nat) :
    bbqLocalVsn (q.allocated i) = bbqLocalVsn (q.committed i) := by
  obtain ⟨extra, heq, hlt, -⟩ := h.allocated i
  rw [heq, bbqLocalVsn_eq, bbqLocalVsn_eq]
  rw [bbqLocalIdx_eq] at hlt
  omega

theorem update (h : Alone cfg q) {i c c' : Nat} {widx : Nat} {entry : Nat → Nat → α}
    (hblock : ∃ extra, c' = c + extra ∧ bbqLocalIdx c + extra < 2 ^ 20 ∧
      (bbqLocalIdx c ≠ cfg.blkSize → extra = 0)) :
    Alone cfg { q with
      widx := widx
      entry := entry
      allocated := update q.allocated i c'
      committed := update q.committed i c } where
  reserved := h.reserved
  allocated j := by
    by_cases hj : j = i
    · subst hj
      simp only [update_self]
      exact hblock
    · simp only [update_of_ne hj]
      exact h.allocated j

end Alone

theorem max_compose {c v l : Nat} (hv : v < 2 ^ 44) (hl : l < 2 ^ 20) (hc : bbqLocalVsn c < v) :
    max c (bbqLocalCompose v l) = bbqLocalCompose v l := by
  rw [bbqLocalVsn_eq] at hc
  rw [bbqLocalCompose_eq _ hl, Nat.mod_eq_of_lt hv]
  omega

/-- The version that the consumer of `bbq_mpmc` reads off its block. -/
theorem nextConsumerVsn_eq {r blocks : Nat} (hpos : 0 < blocks)
    (hfits : (r + blocks - 1) / blocks < 2 ^ 44) :
    wsub 64 ((r + blocks - 1) / blocks) (if r % blocks ≠ 0 then 1 else 0) = r / blocks := by
  have hlt := Nat.mod_lt r hpos
  have hsplit := Nat.div_add_mod r blocks
  generalize r / blocks = k at hsplit ⊢
  generalize r % blocks = m at hsplit hlt ⊢
  subst hsplit
  rw [wsub]
  rcases Nat.eq_zero_or_pos m with rfl | hsome
  · have hdiv : (blocks * k + 0 + blocks - 1) / blocks = k := by
      rw [Nat.add_zero, Nat.add_sub_assoc hpos, Nat.mul_add_div hpos,
        Nat.div_eq_of_lt (by omega), Nat.add_zero]
    rw [hdiv] at hfits ⊢
    rw [if_neg (not_not.mpr rfl)]
    omega
  · have hdiv : (blocks * k + m + blocks - 1) / blocks = k + 1 := by
      rw [show blocks * k + m + blocks - 1 = blocks * (k + 1) + (m - 1) by
        rw [Nat.mul_succ]
        omega, Nat.mul_add_div hpos, Nat.div_eq_of_lt (by omega), Nat.add_zero]
    rw [hdiv] at hfits ⊢
    rw [if_pos (by omega)]
    omega

section Attempts

variable (h : Held cfg q.view e d a b) (hcfg : cfg.Valid) (halone : Alone cfg q)
include h hcfg halone

/-- Both queues fill the block, and what is allocated beyond it does not reach the version. -/
theorem view_fill (hne : rest.length ≠ 0) (ha : a < cfg.entries)
    (hbytes : (rest.length <<< bbqEntrySizeLog) % 2 ^ 32 ≠ 0)
    (hsum : cfg.initValue + 8 * a + (rest.length <<< bbqEntrySizeLog) % 2 ^ 32 < 2 ^ 20) :
    ∃ q' rest', bbqMpmcEnqueueOnce cfg q rest = some (true, q', rest') ∧
      bbqSpscEnqueueOnce cfg q.view rest = some (true, q'.view, rest') ∧ Alone cfg q' := by
  have hsize := hcfg.size
  have hsmall := hcfg.small
  have hidx : bbqLocalIdx (q.committed (bbqGlobalIdx cfg.blockNumLog q.widx)) =
      cfg.initValue + 8 * a := h.localIdx_committed hcfg
  have hself : q.committed (bbqGlobalIdx cfg.blockNumLog q.widx) =
      bbqLocalCompose ((q.widx + cfg.blocks - 1) / cfg.blocks) (cfg.initValue + 8 * a) :=
    h.committed_self
  have hversion : (q.widx + cfg.blocks - 1) / cfg.blocks < 2 ^ 44 := h.version
  have hsame := halone.room (i := bbqGlobalIdx cfg.blockNumLog q.widx) (by omega)
  generalize hv : (q.widx + cfg.blocks - 1) / cfg.blocks = version at hself hversion
  generalize htotal : (rest.length <<< bbqEntrySizeLog) % 2 ^ 32 = total at hbytes hsum
  have hspace : min total (cfg.blkSize - (cfg.initValue + 8 * a)) % 2 ^ 16 =
      min total (cfg.blkSize - (cfg.initValue + 8 * a)) := Nat.mod_eq_of_lt (by omega)
  generalize hn : min total (cfg.blkSize - (cfg.initValue + 8 * a)) = space at hspace
  refine ⟨{ q with
      allocated := update q.allocated (bbqGlobalIdx cfg.blockNumLog q.widx)
        (bbqLocalCompose version (cfg.initValue + 8 * a + total))
      entry := copyIn q.entry (bbqGlobalIdx cfg.blockNumLog q.widx) (cfg.initValue + 8 * a)
        (rest.take (space >>> bbqEntrySizeLog))
      committed := update q.committed (bbqGlobalIdx cfg.blockNumLog q.widx)
        (bbqLocalCompose version (cfg.initValue + 8 * a + space)) },
    rest.drop (space >>> bbqEntrySizeLog), ?_, ?_, ?_⟩
  · simp only [bbqMpmcEnqueueOnce, hsame, hidx, htotal, hn, hspace]
    rw [if_neg hne, if_pos (by omega), if_neg (by omega), hself, wadd_compose _ hsum,
      wadd_compose _ (by omega)]
  · simp only [bbqSpscEnqueueOnce, MpmcQueue.view, hidx, htotal, hn, hspace]
    rw [if_neg hne, if_pos (by omega), if_neg (by omega), hself, bbqLocalVsn_compose _ (by omega),
      Nat.mod_eq_of_lt hversion]
  · refine halone.update ⟨total - space, ?_, ?_, ?_⟩
    · rw [bbqLocalCompose_eq _ hsum, bbqLocalCompose_eq _ (by omega)]
      omega
    · rw [bbqLocalIdx_compose _ (by omega)]
      omega
    · rw [bbqLocalIdx_compose _ (by omega)]
      omega

section

omit halone

/-- The block behind the one of the producer has the version before. -/
theorem committed_next : bbqLocalVsn (q.committed ((q.widx + 1) % cfg.blocks)) =
    q.widx / cfg.blocks := by
  have hsize := hcfg.size
  have hsmall := hcfg.small
  have hpos := cfg.blocks_pos
  have hle : a ≤ cfg.entries := h.prodLe
  have hversion : (q.widx + 1 - 1) / cfg.blocks < 2 ^ 44 :=
    Inv.version_lt h (u := q.widx + 1) (by
      change q.widx + 1 ≤ q.widx + cfg.blocks
      omega)
  have hcell : q.committed ((q.widx + 1) % cfg.blocks) = cursor cfg q.widx a (q.widx + 1) :=
    h.committed _ le_rfl (by
      change q.widx + 1 < q.widx + 1 + cfg.blocks
      omega)
  rw [hcell, cursor, bbqLocalVsn_compose _ (by split <;> omega), Nat.mod_eq_of_lt hversion,
    Nat.add_sub_cancel]

theorem consumed_next : bbqLocalVsn (q.consumed ((q.ridx + 1) % cfg.blocks)) =
    q.ridx / cfg.blocks := by
  have hsize := hcfg.size
  have hsmall := hcfg.small
  have hpos := cfg.blocks_pos
  have hle : b ≤ cfg.entries := h.consLe
  have hbehind : q.ridx ≤ q.widx := h.behind
  have hversion : (q.ridx + 1 - 1) / cfg.blocks < 2 ^ 44 :=
    Inv.version_lt h (u := q.ridx + 1) (by
      change q.ridx + 1 ≤ q.widx + cfg.blocks
      omega)
  have hcell : q.consumed ((q.ridx + 1) % cfg.blocks) = cursor cfg q.ridx b (q.ridx + 1) :=
    h.consumed _ le_rfl (by
      change q.ridx + 1 < q.ridx + 1 + cfg.blocks
      omega)
  rw [hcell, cursor, bbqLocalVsn_compose _ (by split <;> omega), Nat.mod_eq_of_lt hversion,
    Nat.add_sub_cancel]

end

theorem view_open (hne : rest.length ≠ 0) (ha : a = cfg.entries)
    (hfree : bbqBlockFullyConsumedWithVsn
      (q.consumed (bbqGlobalIdx cfg.blockNumLog (bbqGlobalIdx cfg.blockNumLog q.widx + 1)))
        cfg.blkSize (bbqGlobalVsn cfg.blockNumLog q.widx))
    (hfits : bbqGlobalVsn cfg.blockNumLog q.widx + 1 < 2 ^ 44) :
    ∃ q' rest', bbqMpmcEnqueueOnce cfg q rest = some (true, q', rest') ∧
      bbqSpscEnqueueOnce cfg q.view rest = some (true, q'.view, rest') ∧ Alone cfg q' := by
  have hsize := hcfg.size
  have hsmall := hcfg.small
  have hidx : bbqLocalIdx (q.committed (bbqGlobalIdx cfg.blockNumLog q.widx)) =
      cfg.initValue + 8 * a := h.localIdx_committed hcfg
  have hvsn : bbqGlobalVsn cfg.blockNumLog q.widx = q.widx / cfg.blocks := Inv.globalVsn_widx h
  have hpos := cfg.blocks_pos
  have hblocks := hcfg.blocks_le
  have hwadd : wadd 64 q.widx 1 = q.widx + 1 := by
    refine wadd_of_lt ?_
    rw [hvsn] at hfits
    have hlt : q.widx < 2 ^ 44 * cfg.blocks := (Nat.div_lt_iff_lt_mul hpos).mp (by omega)
    omega
  have hnoroom : ¬ bbqLocalIdx (q.allocated (bbqGlobalIdx cfg.blockNumLog q.widx)) <
      cfg.blkSize := by
    rw [halone.room_iff]
    omega
  have hcommitted := committed_next h hcfg
  have hallocated := halone.version ((q.widx + 1) % cfg.blocks)
  rw [hcommitted] at hallocated
  have hmax : max q.widx (q.widx + 1) = q.widx + 1 := Nat.max_eq_right (Nat.le_succ _)
  refine ⟨{ q with
      committed := update q.committed ((q.widx + 1) % cfg.blocks)
        (bbqLocalCompose (q.widx / cfg.blocks + 1) cfg.initValue)
      allocated := update q.allocated ((q.widx + 1) % cfg.blocks)
        (bbqLocalCompose (q.widx / cfg.blocks + 1) cfg.initValue)
      widx := q.widx + 1 }, rest, ?_, ?_, ?_⟩
  · simp only [bbqMpmcEnqueueOnce]
    rw [if_neg hne, if_neg hnoroom, if_neg (not_not.mpr hfree), hwadd, next_block, hvsn, hmax]
    simp only [bbqResetBlockCursorHeavy]
    rw [hvsn] at hfits
    rw [max_compose hfits (by omega) (by omega), max_compose hfits (by omega) (by omega)]
  · have hidx' : bbqLocalIdx (q.view.committed (bbqGlobalIdx cfg.blockNumLog q.view.widx)) =
        cfg.initValue + 8 * a := hidx
    have hvsn' : bbqGlobalVsn cfg.blockNumLog q.view.widx = q.widx / cfg.blocks := hvsn
    have hwadd' : wadd 64 q.view.widx 1 = q.widx + 1 := hwadd
    have hfree' : bbqBlockFullyConsumedWithVsn
        (q.view.consumed (bbqGlobalIdx cfg.blockNumLog
          (bbqGlobalIdx cfg.blockNumLog q.view.widx + 1)))
        cfg.blkSize (bbqGlobalVsn cfg.blockNumLog q.view.widx) := hfree
    simp only [bbqSpscEnqueueOnce, hidx']
    rw [if_neg hne, if_neg (by omega), if_neg (not_not.mpr hfree'), hwadd', next_block, hvsn']
    rfl
  · refine halone.update ⟨0, (Nat.add_zero _).symm, ?_, fun _ => rfl⟩
    rw [bbqLocalIdx_compose _ (by omega)]
    omega

/-- An attempt of an enqueue does to the common cursors what one of `bbq_spsc` does. -/
theorem view_enqueueOnce (hfits : rest.length ≠ 0 → MpmcFitsEnqueue cfg q rest) :
    (rest.length ≠ 0 → SpscFitsEnqueue cfg q.view rest) ∧
      ∃ retry q' rest', bbqMpmcEnqueueOnce cfg q rest = some (retry, q', rest') ∧
        bbqSpscEnqueueOnce cfg q.view rest = some (retry, q'.view, rest') ∧ Alone cfg q' := by
  have hsize := hcfg.size
  have hsmall := hcfg.small
  have hle : a ≤ cfg.entries := h.prodLe
  have hidx : bbqLocalIdx (q.committed (bbqGlobalIdx cfg.blockNumLog q.widx)) =
      cfg.initValue + 8 * a := h.localIdx_committed hcfg
  have hroom := halone.room_iff (bbqGlobalIdx cfg.blockNumLog q.widx)
  by_cases hzero : rest.length = 0
  · refine ⟨fun hne => absurd hzero hne, false, q, rest, ?_, ?_, halone⟩
    · rw [bbqMpmcEnqueueOnce, if_pos hzero]
    · rw [bbqSpscEnqueueOnce, if_pos hzero]
  have hfits := hfits hzero
  unfold MpmcFitsEnqueue at hfits
  rw [hidx] at hroom
  rcases Nat.lt_or_eq_of_le hle with ha | ha
  · have hsame := halone.room (i := bbqGlobalIdx cfg.blockNumLog q.widx) (by omega)
    simp only [hsame, hidx] at hfits
    rw [if_pos (by omega)] at hfits
    obtain ⟨q', rest', hmpmc, hspsc, halone'⟩ :=
      view_fill h hcfg halone hzero ha hfits.1 hfits.2
    refine ⟨fun _ => ?_, true, q', rest', hmpmc, hspsc, halone'⟩
    simp only [SpscFitsEnqueue, MpmcQueue.view, hidx]
    rw [if_pos (by omega)]
    exact hfits.1
  · simp only at hfits
    rw [if_neg (by omega)] at hfits
    refine ⟨fun _ => ?_, ?_⟩
    · simp only [SpscFitsEnqueue, MpmcQueue.view, hidx]
      rw [if_neg (by omega)]
      exact hfits
    · by_cases hfree : bbqBlockFullyConsumedWithVsn
          (q.consumed (bbqGlobalIdx cfg.blockNumLog (bbqGlobalIdx cfg.blockNumLog q.widx + 1)))
          cfg.blkSize (bbqGlobalVsn cfg.blockNumLog q.widx)
      · exact ⟨true, view_open h hcfg halone hzero ha hfree (hfits hfree)⟩
      · refine ⟨false, q, rest, ?_, (h.enqueue_full hcfg ha hfree).1, halone⟩
        simp only [bbqMpmcEnqueueOnce]
        rw [if_neg hzero, if_neg (by omega), if_pos hfree]

theorem view_take {count avail : Nat}
    (hbytes : (count <<< bbqEntrySizeLog) % 2 ^ 32 ≠ 0) (hne : count ≠ 0) (hsome : 0 < avail)
    (havail : b + avail ≤ cfg.entries)
    (hcommitted : bbqLocalIdx (q.committed (bbqGlobalIdx cfg.blockNumLog q.ridx)) =
      cfg.initValue + 8 * (b + avail)) :
    ∃ q' rest' got, bbqMpmcDequeueOnce cfg q count = some (true, q', rest', got) ∧
      bbqSpscDequeueOnce cfg q.view count = some (true, q'.view, rest', got) ∧ Alone cfg q' := by
  have hsize := hcfg.size
  have hsmall := hcfg.small
  have hidx : bbqLocalIdx (q.consumed (bbqGlobalIdx cfg.blockNumLog q.ridx)) =
      cfg.initValue + 8 * b := h.localIdx_consumed hcfg
  have hreserved := halone.reserved
  have hmatch : ¬ (cfg.initValue + 8 * (b + avail) ≠ cfg.blkSize ∧
      bbqLocalIdx (q.allocated (bbqGlobalIdx cfg.blockNumLog q.ridx)) ≠
        cfg.initValue + 8 * (b + avail)) := by
    rintro ⟨hpartly, hdiffer⟩
    obtain ⟨extra, heq, -, hzero⟩ := halone.allocated (bbqGlobalIdx cfg.blockNumLog q.ridx)
    have hnone := hzero (by omega)
    rw [heq, hnone, Nat.add_zero] at hdiffer
    exact hdiffer hcommitted
  generalize htotal : (count <<< bbqEntrySizeLog) % 2 ^ 32 = total at hbytes
  have hspace : min total (cfg.initValue + 8 * (b + avail) - (cfg.initValue + 8 * b)) % 2 ^ 16 =
      min total (cfg.initValue + 8 * (b + avail) - (cfg.initValue + 8 * b)) :=
    Nat.mod_eq_of_lt (by omega)
  generalize hn : min total (cfg.initValue + 8 * (b + avail) - (cfg.initValue + 8 * b)) =
    space at hspace
  refine ⟨{ q with
      reserved := update q.reserved (bbqGlobalIdx cfg.blockNumLog q.ridx)
        (wadd 64 (q.consumed (bbqGlobalIdx cfg.blockNumLog q.ridx)) space)
      consumed := update q.consumed (bbqGlobalIdx cfg.blockNumLog q.ridx)
        (wadd 64 (q.consumed (bbqGlobalIdx cfg.blockNumLog q.ridx)) space) },
    count - space >>> bbqEntrySizeLog,
    copyOut q.entry (bbqGlobalIdx cfg.blockNumLog q.ridx) (cfg.initValue + 8 * b)
      (space >>> bbqEntrySizeLog), ?_, ?_, ?_⟩
  · simp only [bbqMpmcDequeueOnce, hreserved, hidx, hcommitted, htotal, hn, hspace]
    rw [if_neg hne, if_pos (by omega), if_neg (by omega), if_neg hmatch, if_neg (by omega)]
  · simp only [bbqSpscDequeueOnce, MpmcQueue.view, hidx, hcommitted, htotal, hn, hspace]
    rw [if_neg hne, if_pos (by omega), if_neg (by omega), if_neg (by omega)]
  · refine ⟨?_, halone.allocated⟩
    rw [hreserved]

omit halone in
/-- The version that the consumer of `bbq_mpmc` expects is the one that `bbq_spsc` computes. -/
theorem nextVsn_eq :
    wadd 64 (wsub 64 (bbqLocalVsn (q.consumed (bbqGlobalIdx cfg.blockNumLog q.ridx)))
      (if bbqGlobalIdx cfg.blockNumLog q.ridx ≠ 0 then 1 else 0)) 1 =
        q.ridx / cfg.blocks + 1 := by
  have hsize := hcfg.size
  have hsmall := hcfg.small
  have hpos := cfg.blocks_pos
  have hle : b ≤ cfg.entries := h.consLe
  have hbehind : q.ridx ≤ q.widx := h.behind
  have hself : q.consumed (bbqGlobalIdx cfg.blockNumLog q.ridx) =
      bbqLocalCompose ((q.ridx + cfg.blocks - 1) / cfg.blocks) (cfg.initValue + 8 * b) :=
    h.consumed_self
  have hversion : (q.ridx + cfg.blocks - 1) / cfg.blocks < 2 ^ 44 :=
    Inv.version_lt h (u := q.ridx + cfg.blocks) (by
      change q.ridx + cfg.blocks ≤ q.widx + cfg.blocks
      omega)
  have hblock : bbqGlobalIdx cfg.blockNumLog q.ridx = q.ridx % cfg.blocks := bbqGlobalIdx_eq _ _
  have hdiv : q.ridx / cfg.blocks < 2 ^ 44 :=
    lt_of_le_of_lt (Nat.div_le_div_right (by omega)) hversion
  rw [hself, bbqLocalVsn_compose _ (by omega), Nat.mod_eq_of_lt hversion, hblock,
    nextConsumerVsn_eq hpos hversion]
  exact Nat.mod_eq_of_lt (by omega)

theorem view_follow {count : Nat} (hne : count ≠ 0) (hb : b = cfg.entries)
    (hopened : q.ridx < q.widx) :
    ∃ q' rest' got, bbqMpmcDequeueOnce cfg q count = some (true, q', rest', got) ∧
      bbqSpscDequeueOnce cfg q.view count = some (true, q'.view, rest', got) ∧ Alone cfg q' := by
  have hsize := hcfg.size
  have hsmall := hcfg.small
  have hpos := cfg.blocks_pos
  have hidx : bbqLocalIdx (q.consumed (bbqGlobalIdx cfg.blockNumLog q.ridx)) =
      cfg.initValue + 8 * b := h.localIdx_consumed hcfg
  have hidx' : bbqLocalIdx (q.view.consumed (bbqGlobalIdx cfg.blockNumLog q.view.ridx)) =
      cfg.initValue + 8 * b := hidx
  have hvsn : bbqGlobalVsn cfg.blockNumLog q.view.ridx = q.ridx / cfg.blocks :=
    Inv.globalVsn_ridx h
  have hexpect := nextVsn_eq h hcfg
  have hnext : bbqLocalVsn (q.committed ((q.ridx + 1) % cfg.blocks)) =
      q.ridx / cfg.blocks + 1 := (Inv.nextVsn_iff h hcfg).mpr hopened
  have hnext' : bbqLocalVsn (q.view.committed ((q.view.ridx + 1) % cfg.blocks)) =
      q.ridx / cfg.blocks + 1 := hnext
  have hwidx : q.widx + cfg.blocks - 1 < 2 ^ 44 * cfg.blocks :=
    (Nat.div_lt_iff_lt_mul hpos).mp h.version
  have hblocks := hcfg.blocks_le
  have hwadd : wadd 64 q.ridx 1 = q.ridx + 1 := wadd_of_lt (by omega)
  have hwadd' : wadd 64 q.view.ridx 1 = q.ridx + 1 := hwadd
  have hmax : max q.ridx (q.ridx + 1) = q.ridx + 1 := Nat.max_eq_right (Nat.le_succ _)
  have hfits : q.ridx / cfg.blocks + 1 < 2 ^ 44 := by
    have hdiv : (q.ridx + cfg.blocks) / cfg.blocks ≤ (q.widx + cfg.blocks - 1) / cfg.blocks :=
      Nat.div_le_div_right (by omega)
    rw [Nat.add_div_right _ hpos] at hdiv
    exact lt_of_le_of_lt hdiv h.version
  have hconsumed := consumed_next h hcfg
  have hreserved := halone.reserved
  refine ⟨{ q with
      consumed := update q.consumed ((q.ridx + 1) % cfg.blocks)
        (bbqLocalCompose (q.ridx / cfg.blocks + 1) cfg.initValue)
      reserved := update q.consumed ((q.ridx + 1) % cfg.blocks)
        (bbqLocalCompose (q.ridx / cfg.blocks + 1) cfg.initValue)
      ridx := q.ridx + 1 }, count, [], ?_, ?_, ⟨rfl, halone.allocated⟩⟩
  · simp only [bbqMpmcDequeueOnce, hreserved, hidx]
    rw [if_neg hne, if_neg (by omega), hexpect, next_block, if_neg (not_not.mpr hnext), hwadd, hmax]
    simp only [bbqResetBlockCursorHeavy]
    rw [max_compose hfits (by omega) (by omega)]
  · simp only [bbqSpscDequeueOnce, hidx']
    rw [if_neg hne, if_neg (by omega), next_block, hvsn, if_neg (not_not.mpr hnext'), hwadd']
    rfl

/-- An attempt of a dequeue does to the common cursors what one of `bbq_spsc` does. -/
theorem view_dequeueOnce {count : Nat} (hfits : count ≠ 0 → MpmcFitsDequeue cfg q count) :
    (count ≠ 0 → SpscFitsDequeue cfg q.view count) ∧
      ∃ retry q' rest' got, bbqMpmcDequeueOnce cfg q count = some (retry, q', rest', got) ∧
        bbqSpscDequeueOnce cfg q.view count = some (retry, q'.view, rest', got) ∧
          Alone cfg q' := by
  have hsize := hcfg.size
  have hle : b ≤ cfg.entries := h.consLe
  have hidx : bbqLocalIdx (q.consumed (bbqGlobalIdx cfg.blockNumLog q.ridx)) =
      cfg.initValue + 8 * b := h.localIdx_consumed hcfg
  have hreserved := halone.reserved
  refine ⟨fun hne => ?_, ?_⟩
  · have hfits := hfits hne
    rw [MpmcFitsDequeue, hreserved] at hfits
    exact hfits
  by_cases hzero : count = 0
  · refine ⟨false, q, count, [], ?_, ?_, halone⟩
    · rw [bbqMpmcDequeueOnce, if_pos hzero]
    · rw [bbqSpscDequeueOnce, if_pos hzero]
  have hfits := hfits hzero
  rw [MpmcFitsDequeue, hreserved] at hfits
  rcases Nat.lt_or_eq_of_le hle with hb | hb
  · obtain ⟨avail, hroom, hcommitted, -, hnone⟩ := h.available hcfg hb
    change bbqLocalIdx (q.committed (bbqGlobalIdx cfg.blockNumLog q.ridx)) = _ at hcommitted
    simp only [hidx, hcommitted] at hfits
    rcases Nat.eq_zero_or_pos avail with hno | hsome
    · have heq : q.consumed (bbqGlobalIdx cfg.blockNumLog q.ridx) =
          q.committed (bbqGlobalIdx cfg.blockNumLog q.ridx) := (hnone hno).2
      refine ⟨false, q, count, [], ?_, ?_, halone⟩
      · simp only [bbqMpmcDequeueOnce, hreserved, heq, hcommitted]
        rw [if_neg hzero, if_pos (by omega), if_pos le_rfl, if_pos le_rfl]
      · simp only [bbqSpscDequeueOnce, MpmcQueue.view, heq, hcommitted]
        rw [if_neg hzero, if_pos (by omega), if_pos le_rfl, if_pos trivial]
    · exact ⟨true, view_take h hcfg halone (hfits (by omega)) hzero hsome hroom hcommitted⟩
  · by_cases hopened : q.ridx < q.widx
    · exact ⟨true, view_follow h hcfg halone hzero hb hopened⟩
    · refine ⟨false, q, count, [], ?_, h.dequeue_empty hcfg hb hopened, halone⟩
      have hexpect := nextVsn_eq h hcfg
      have hnext : ¬ bbqLocalVsn (q.committed ((q.ridx + 1) % cfg.blocks)) =
          q.ridx / cfg.blocks + 1 := fun heq => hopened ((Inv.nextVsn_iff h hcfg).mp heq)
      simp only [bbqMpmcDequeueOnce, hreserved, hidx]
      rw [if_neg hzero, if_neg (by omega), hexpect, next_block, if_pos hnext]

end Attempts

def State.view (s : State (MpmcQueue α) α) : State (SpscQueue α) α where
  queue := s.queue.view
  call := s.call
  log := s.log

variable {s s' : State (MpmcQueue α) α}

/-- A step of `bbq_mpmc` is one of `bbq_spsc`, and its condition is the stronger one. -/
theorem step_view (h : Good cfg s.view) (hcfg : cfg.Valid) (halone : Alone cfg s.queue)
    {act : Act α} (hfits : MpmcFits cfg s act) :
    SpscFits cfg s.view act ∧
      (step (mpmc cfg) s act).map State.view = step (spsc cfg) s.view act ∧
      ∀ s', step (mpmc cfg) s act = some s' → Alone cfg s'.queue := by
  obtain ⟨a, b, hheld⟩ := h.held
  cases act with
  | enqueue buf | dequeue count =>
    refine ⟨trivial, ?_, fun s' hstep => ?_⟩
    · cases hcall : s.call <;> simp only [step, State.view, hcall, Option.map_none]
      split <;> rfl
    · cases hcall : s.call <;> simp only [step, hcall, reduceCtorEq] at hstep
      obtain ⟨-, hstep⟩ := Option.ite_none_right_eq_some.mp hstep
      cases hstep
      exact halone
  | attempt =>
    cases hcall : s.call with
    | idle =>
      refine ⟨?_, ?_, fun s' hstep => ?_⟩
      · simp only [SpscFits, State.view, hcall]
      · simp only [step, State.view, hcall, Option.map_none]
      · simp only [step, hcall, reduceCtorEq] at hstep
    | enqueue buf rest =>
      simp only [MpmcFits, hcall] at hfits
      obtain ⟨hfits', retry, q', rest', hmpmc, hspsc, halone'⟩ :=
        view_enqueueOnce hheld hcfg halone hfits
      refine ⟨?_, ?_, fun s' hstep => ?_⟩
      · simp only [SpscFits, State.view, hcall]
        exact hfits'
      · simp only [step, State.view, hcall, mpmc, spsc, hmpmc, hspsc, Option.map_some]
        cases retry <;> rfl
      · simp only [step, hcall, mpmc, hmpmc, Option.map_some] at hstep
        cases hstep
        cases retry <;> exact halone'
    | dequeue count rest got =>
      simp only [MpmcFits, hcall] at hfits
      obtain ⟨hfits', retry, q', rest', more, hmpmc, hspsc, halone'⟩ :=
        view_dequeueOnce hheld hcfg halone hfits
      refine ⟨?_, ?_, fun s' hstep => ?_⟩
      · simp only [SpscFits, State.view, hcall]
        exact hfits'
      · simp only [step, State.view, hcall, mpmc, spsc, hmpmc, hspsc, Option.map_some]
        cases retry <;> rfl
      · simp only [step, hcall, mpmc, hmpmc, Option.map_some] at hstep
        cases hstep
        cases retry <;> exact halone'

theorem initial_alone (hcfg : cfg.Valid) (entry : Nat → Nat → α) :
    Alone cfg (mpmcInitial cfg entry) where
  reserved := rfl
  allocated i := by
    have hsize := hcfg.size
    have hsmall := hcfg.small
    refine ⟨0, (Nat.add_zero _).symm, ?_, fun _ => rfl⟩
    rw [bbqLocalIdx_eq]
    omega

/-- The common cursors of a run of `bbq_mpmc` make a run of `bbq_spsc`. -/
theorem mpmc_good {past : List (State (MpmcQueue α) α × Act α)} (hcfg : cfg.Valid)
    (run : (machine (mpmc cfg)).Run past s) (hfits : AllSteps (MpmcFits cfg) past) :
    Good cfg s.view ∧ Alone cfg s.queue := by
  refine run.invariant_if (I := fun s => Good cfg s.view ∧ Alone cfg s.queue) ?_
    (fun s act s' h hok hstep => ?_) hfits
  · rintro s ⟨⟨entry, hqueue⟩, hcall, hlog⟩
    have hstart : (machine (spsc (α := α) cfg)).start s.view :=
      ⟨⟨entry, by rw [State.view, hqueue]; rfl⟩, hcall, hlog⟩
    refine ⟨spsc_good hcfg (.start hstart) nofun, ?_⟩
    rw [hqueue]
    exact initial_alone hcfg entry
  · obtain ⟨hgood, halone⟩ := h
    obtain ⟨hfits', hview, halone'⟩ := step_view hgood hcfg halone hok
    have hstep' : step (mpmc cfg) s act = some s' := hstep
    rw [hstep', Option.map_some] at hview
    exact ⟨hgood.step hcfg hfits' hview.symm, halone' s' hstep'⟩

/-- A call of `bbq_mpmc` returns when the same call of `bbq_spsc` does. -/
theorem mpmc_returns (hcfg : cfg.Valid) (hgood : Good cfg s.view) (halone : Alone cfg s.queue) :
    Returns (mpmc cfg) (MpmcFits cfg) s := by
  have hreturns := hgood.returns hcfg
  generalize hview : s.view = t at hreturns
  induction hreturns generalizing s with
  | idle hidle =>
    subst hview
    exact .idle hidle
  | attempt hsome hnext ih =>
    subst hview
    refine .attempt (fun hfits => ?_) fun s' hfits hstep => ?_
    · obtain ⟨hfits', hview, -⟩ := step_view hgood hcfg halone hfits
      have hstep := hsome hfits'
      rw [← hview, Option.isSome_map] at hstep
      exact hstep
    · obtain ⟨hfits', hview, halone'⟩ := step_view hgood hcfg halone hfits
      rw [hstep, Option.map_some] at hview
      exact ih _ hfits' hview.symm (hgood.step hcfg hfits' hview.symm) (halone' s' hstep) rfl

theorem mpmc_safe {past : List (State (MpmcQueue α) α × Act α)} (hcfg : cfg.Valid)
    (run : (machine (mpmc cfg)).Run past s) (hfits : AllSteps (MpmcFits cfg) past) :
    Safe cfg (mpmc cfg) (MpmcFits cfg) s.queue.entry s := by
  obtain ⟨hgood, halone⟩ := mpmc_good hcfg run hfits
  have hsafe := hgood.safe hcfg
  exact ⟨hsafe.served, hsafe.fifo, hsafe.kept, mpmc_returns hcfg hgood halone⟩

theorem bbqMpmcInit_valid {cacheline blockNumLog size : Nat}
    (h : bbqMpmcInit cacheline blockNumLog size = some cfg) : cfg.Valid := by
  simp only [bbqMpmcInit] at h
  obtain ⟨hnum, h⟩ := Option.ite_none_left_eq_some.mp h
  obtain ⟨-, h⟩ := Option.ite_none_left_eq_some.mp h
  obtain ⟨hinit, h⟩ := Option.ite_none_left_eq_some.mp h
  obtain ⟨hlog, h⟩ := Option.ite_none_left_eq_some.mp h
  cases h
  exact BbqSpsc.valid_of_rounded hnum hinit hlog

/-- For every sequence of calls by one thread, on either queue, as long as the attempts meet the
condition. -/
theorem bbq_calls_safe {cacheline blockNumLog size : Nat} :
    (∀ (past : List (State (SpscQueue α) α × Act α)) s,
      bbqSpscInit cacheline blockNumLog size = some cfg → (machine (spsc cfg)).Run past s →
        AllSteps (SpscFits cfg) past →
          Safe cfg (spsc cfg) (SpscFits cfg) s.queue.entry s) ∧
    ∀ (past : List (State (MpmcQueue α) α × Act α)) s,
      bbqMpmcInit cacheline blockNumLog size = some cfg → (machine (mpmc cfg)).Run past s →
        AllSteps (MpmcFits cfg) past →
          Safe cfg (mpmc cfg) (MpmcFits cfg) s.queue.entry s := by
  constructor
  · intro past s hinit run hfits
    have hcfg := BbqSpsc.bbqSpscInit_valid hinit
    exact (spsc_good hcfg run hfits).safe hcfg
  · intro past s hinit run hfits
    exact mpmc_safe (bbqMpmcInit_valid hinit) run hfits

/-- One block and a half are stored and taken in one batch each. -/
def batch (perBlock : Nat) : List (Act Nat) :=
  [.enqueue (List.range (perBlock + 1)), .attempt, .attempt, .attempt, .attempt,
    .dequeue (perBlock + 1), .attempt, .attempt, .attempt, .attempt]

theorem bbq_calls_safe_batch :
    (∃ past s, bbqSpscInit 128 3 8576 = some ⟨3, 1024, 264⟩ ∧
      Safe ⟨3, 1024, 264⟩ (spsc ⟨3, 1024, 264⟩) (SpscFits ⟨3, 1024, 264⟩) s.queue.entry s ∧
        (machine (spsc ⟨3, 1024, 264⟩)).Run past s ∧ AllSteps (SpscFits ⟨3, 1024, 264⟩) past ∧
          s.log = [.dequeue 96 (List.range 96) 96, .enqueue (List.range 96) 96]) ∧
    ∃ past s, bbqMpmcInit 128 3 8576 = some ⟨3, 1024, 520⟩ ∧
      Safe ⟨3, 1024, 520⟩ (mpmc ⟨3, 1024, 520⟩) (MpmcFits ⟨3, 1024, 520⟩) s.queue.entry s ∧
        (machine (mpmc ⟨3, 1024, 520⟩)).Run past s ∧ AllSteps (MpmcFits ⟨3, 1024, 520⟩) past ∧
          s.log = [.dequeue 64 (List.range 64) 64, .enqueue (List.range 64) 64] := by
  constructor
  · let M := machine (spsc (α := Nat) ⟨3, 1024, 264⟩)
    let s₀ : State (SpscQueue Nat) Nat := ⟨spscInitial ⟨3, 1024, 264⟩ fun _ _ => 0, .idle, []⟩
    have hinit : bbqSpscInit 128 3 8576 = some ⟨3, 1024, 264⟩ := by decide +kernel
    have hexec : (M.exec s₀ (batch 95)).map State.log =
        some [.dequeue 96 (List.range 96) 96, .enqueue (List.range 96) 96] := by
      decide +kernel
    obtain ⟨s, hs, hlog⟩ := Option.map_eq_some_iff.mp hexec
    have run := (Machine.Run.start (M := M) (s := s₀) ⟨⟨_, rfl⟩, rfl, rfl⟩).exec hs
    have hfits : ∀ p ∈ M.pastOf s₀ [] (batch 95), SpscFits ⟨3, 1024, 264⟩ p.1 p.2 := by
      decide +kernel
    exact ⟨_, s, hinit, bbq_calls_safe.1 _ s hinit run hfits, run, hfits, hlog⟩
  · let M := machine (mpmc (α := Nat) ⟨3, 1024, 520⟩)
    let s₀ : State (MpmcQueue Nat) Nat := ⟨mpmcInitial ⟨3, 1024, 520⟩ fun _ _ => 0, .idle, []⟩
    have hinit : bbqMpmcInit 128 3 8576 = some ⟨3, 1024, 520⟩ := by decide +kernel
    have hexec : (M.exec s₀ (batch 63)).map State.log =
        some [.dequeue 64 (List.range 64) 64, .enqueue (List.range 64) 64] := by
      decide +kernel
    obtain ⟨s, hs, hlog⟩ := Option.map_eq_some_iff.mp hexec
    have run := (Machine.Run.start (M := M) (s := s₀) ⟨⟨_, rfl⟩, rfl, rfl⟩).exec hs
    have hfits : ∀ p ∈ M.pastOf s₀ [] (batch 63), MpmcFits ⟨3, 1024, 520⟩ p.1 p.2 := by
      decide +kernel
    exact ⟨_, s, hinit, bbq_calls_safe.2 _ s hinit run hfits, run, hfits, hlog⟩

/-- The queue is filled, its oldest value is taken, and one more value is to be stored. -/
def refill (capacity : Nat) : List (Act Nat) :=
  .enqueue (List.range capacity) :: List.replicate 16 .attempt ++
    [.dequeue 1, .attempt, .attempt, .enqueue [0], .attempt]

/-- A queue for 760 or 504 values takes no value when it has one less, as the block of the oldest
value is not wholly consumed. -/
theorem bbq_calls_refused :
    (∃ past s, bbqSpscInit 128 3 8576 = some ⟨3, 1024, 264⟩ ∧
      (machine (spsc ⟨3, 1024, 264⟩)).Run past s ∧
        s.log = [.enqueue [0] 0, .dequeue 1 [0] 1, .enqueue (List.range 760) 760]) ∧
    ∃ past s, bbqMpmcInit 128 3 8576 = some ⟨3, 1024, 520⟩ ∧
      (machine (mpmc ⟨3, 1024, 520⟩)).Run past s ∧
        s.log = [.enqueue [0] 0, .dequeue 1 [0] 1, .enqueue (List.range 504) 504] := by
  constructor
  · let M := machine (spsc (α := Nat) ⟨3, 1024, 264⟩)
    let s₀ : State (SpscQueue Nat) Nat := ⟨spscInitial ⟨3, 1024, 264⟩ fun _ _ => 0, .idle, []⟩
    have hexec : (M.exec s₀ (refill 760)).map State.log =
        some [.enqueue [0] 0, .dequeue 1 [0] 1, .enqueue (List.range 760) 760] := by
      decide +kernel
    obtain ⟨s, hs, hlog⟩ := Option.map_eq_some_iff.mp hexec
    have run := (Machine.Run.start (M := M) (s := s₀) ⟨⟨_, rfl⟩, rfl, rfl⟩).exec hs
    exact ⟨_, s, by decide +kernel, run, hlog⟩
  · let M := machine (mpmc (α := Nat) ⟨3, 1024, 520⟩)
    let s₀ : State (MpmcQueue Nat) Nat := ⟨mpmcInitial ⟨3, 1024, 520⟩ fun _ _ => 0, .idle, []⟩
    have hexec : (M.exec s₀ (refill 504)).map State.log =
        some [.enqueue [0] 0, .dequeue 1 [0] 1, .enqueue (List.range 504) 504] := by
      decide +kernel
    obtain ⟨s, hs, hlog⟩ := Option.map_eq_some_iff.mp hexec
    have run := (Machine.Run.start (M := M) (s := s₀) ⟨⟨_, rfl⟩, rfl, rfl⟩).exec hs
    exact ⟨_, s, by decide +kernel, run, hlog⟩

end Libvsync.Queue.BbqCalls
