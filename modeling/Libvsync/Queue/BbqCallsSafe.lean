import Libvsync.Queue.BbqCalls

/-!
What the calls of `bbq_spsc` and `bbq_mpmc` do when no batch size overflows and the versions fit
their bits. Between two attempts of `bbq_spsc` the cursors are those of its invariant. An attempt
of `bbq_mpmc` does to the cursors that both queues have what one of `bbq_spsc` does.
-/

namespace Libvsync.Queue.BbqCalls

open Libvsync.Core Function
open Libvsync.Queue.Bbq
open Libvsync.Queue.BbqSpsc (Config Inv Kept place cursor_set cursor_push next_block
  shiftRight_entrySize place_of_lt initial_window)

variable {α : Type} {cfg : Config}

/-- The queue between two steps of either side. -/
def SpscQueue.toState (q : SpscQueue α) (enqueued dequeued : List α) : BbqSpsc.State α where
  widx := q.widx
  ridx := q.ridx
  committed := q.committed
  consumed := q.consumed
  entry := q.entry
  prod := .idle 0
  cons := .idle 0
  enqueued := enqueued
  dequeued := dequeued

/-- The invariant, with `a` entries of the block of the producer committed and `b` entries of
the block of the consumer consumed. -/
def Held (cfg : Config) (q : SpscQueue α) (enqueued dequeued : List α) (a b : Nat) : Prop :=
  Inv cfg (q.toState enqueued dequeued) a b []

variable {q : SpscQueue α} {e d rest : List α} {a b : Nat}

theorem Kept.copyIn {entry : Nat → Nat → α} {block offset low : Nat} {values : List α}
    (h : Kept cfg entry low values)
    (hplace : ∀ i < rest.length, place cfg (values.length + i) = (block, offset + 8 * i))
    (hroom : values.length + rest.length ≤ low + cfg.entries * cfg.blocks) :
    Kept cfg (copyIn entry block offset rest) low (values ++ rest) := by
  induction rest generalizing entry offset values with
  | nil =>
    rw [List.append_nil]
    exact h
  | cons value rest ih =>
    rw [List.length_cons] at hroom
    have hfirst := h.append (v := value) (hplace 0 (by simp)) (by omega)
    have hrest := @ih _ (offset + 8) _ hfirst
      (fun i hi => by
        rw [List.length_append, List.length_singleton, Nat.add_assoc, Nat.add_comm 1,
          hplace (i + 1) (by simpa using hi)]
        congr 1
        omega)
      (by
        rw [List.length_append, List.length_singleton]
        omega)
    rw [List.append_assoc] at hrest
    exact hrest

theorem Kept.copyOut {entry : Nat → Nat → α} {block offset low n : Nat} {values : List α}
    (h : Kept cfg entry low values)
    (hplace : ∀ i < n, place cfg (low + i) = (block, offset + 8 * i))
    (hlength : low + n ≤ values.length) :
    copyOut entry block offset n = (values.drop low).take n := by
  refine List.ext_getElem? fun i => ?_
  rw [BbqCalls.copyOut, List.getElem?_map, List.getElem?_take]
  rcases Nat.lt_or_ge i n with hlt | hge
  · have hvalue : values[low + i]? = some values[low + i] := List.getElem?_eq_getElem (by omega)
    have hkept := h (low + i) _ (Nat.le_add_right low i) hvalue
    rw [hplace i hlt] at hkept
    rw [List.getElem?_range hlt, if_pos hlt, List.getElem?_drop, hvalue, Option.map_some,
      bbqEntrySizeLog, Nat.mul_comm]
    exact congrArg some hkept
  · rw [List.getElem?_eq_none (by simpa using hge), if_neg (by omega)]
    rfl

/-- The bytes of a batch, of which only 32 bits are kept, in the room that is left. -/
theorem space_eq (count : Nat) {room : Nat} (hroom : 8 * room < 2 ^ 16) :
    min ((count <<< bbqEntrySizeLog) % 2 ^ 32) (8 * room) % 2 ^ 16 =
      8 * min (count % 2 ^ 29) room := by
  rw [bbqEntrySizeLog, Nat.shiftLeft_eq]
  omega

theorem bytes_eq (count : Nat) : (count <<< bbqEntrySizeLog) % 2 ^ 32 = 8 * (count % 2 ^ 29) := by
  rw [bbqEntrySizeLog, Nat.shiftLeft_eq]
  omega

namespace Held

variable (h : Held cfg q e d a b) (hcfg : cfg.Valid)
include h

theorem lengths : e.length = q.widx * cfg.entries + a ∧ d.length = q.ridx * cfg.entries + b :=
  ⟨h.enqueued, h.dequeued⟩

/-- The block of the producer is full and the next one is not free. -/
theorem full (ha : a = cfg.entries) (hpos : 0 < cfg.entries)
    (hnot : ¬ (q.widx < q.ridx + cfg.blocks ∧ (q.widx + 1 = q.ridx + cfg.blocks →
      b = cfg.entries))) : NoFreeBlock cfg e d := by
  obtain ⟨he, hd⟩ := h.lengths
  have hfar : q.widx = q.ridx + cfg.blocks → b = cfg.entries := h.far
  have hnear : q.widx ≤ q.ridx + cfg.blocks := h.near
  have hle : b ≤ cfg.entries := h.consLe
  rw [ha, ← Nat.succ_mul] at he
  rw [NoFreeBlock, he]
  congr 1
  rw [hd, Nat.mul_comm, Nat.mul_add_div hpos]
  rcases Nat.lt_or_eq_of_le hle with hlt | heq
  · rw [Nat.div_eq_of_lt hlt]
    omega
  · rw [heq, Nat.div_self hpos]
    omega

include hcfg

theorem localIdx_committed :
    bbqLocalIdx (q.committed (bbqGlobalIdx cfg.blockNumLog q.widx)) = cfg.initValue + 8 * a :=
  Inv.localIdx_committed h hcfg

theorem localIdx_consumed :
    bbqLocalIdx (q.consumed (bbqGlobalIdx cfg.blockNumLog q.ridx)) = cfg.initValue + 8 * b :=
  Inv.localIdx_consumed h hcfg

/-- An attempt fills the block, as far as there are values. -/
theorem enqueue_fill (ha : a < cfg.entries) (hrest : rest.length % 2 ^ 29 ≠ 0) :
    ∃ q', bbqSpscEnqueueOnce cfg q rest =
        some (true, q', rest.drop (min (rest.length % 2 ^ 29) (cfg.entries - a))) ∧
      Held cfg q' (e ++ rest.take (min (rest.length % 2 ^ 29) (cfg.entries - a))) d
        (a + min (rest.length % 2 ^ 29) (cfg.entries - a)) b ∧
      q'.widx = q.widx ∧ q'.ridx = q.ridx := by
  have hsize := hcfg.size
  have hsmall := hcfg.small
  have hversion : (q.widx + cfg.blocks - 1) / cfg.blocks < 2 ^ 44 := h.version
  have hidx := h.localIdx_committed hcfg
  have hself : q.committed (bbqGlobalIdx cfg.blockNumLog q.widx) =
      bbqLocalCompose ((q.widx + cfg.blocks - 1) / cfg.blocks) (cfg.initValue + 8 * a) :=
    h.committed_self
  have hroom : cfg.blkSize - (cfg.initValue + 8 * a) = 8 * (cfg.entries - a) := by omega
  have hmod := Nat.mod_le rest.length (2 ^ 29)
  set n := min (rest.length % 2 ^ 29) (cfg.entries - a) with hn
  have hspace : min ((rest.length <<< bbqEntrySizeLog) % 2 ^ 32)
      (cfg.blkSize - (cfg.initValue + 8 * a)) % 2 ^ 16 = 8 * n := by
    rw [hroom, space_eq rest.length (by omega)]
  have htake : (rest.take n).length = n := by
    rw [List.length_take]
    omega
  have hoffset (i : Nat) (hi : i < (rest.take n).length) :
      place cfg (e.length + i) =
        (bbqGlobalIdx cfg.blockNumLog q.widx, cfg.initValue + 8 * a + 8 * i) := by
    rw [h.lengths.1, Nat.add_assoc, place_of_lt (by omega), Nat.mul_add, Nat.add_assoc]
  refine ⟨{ q with
      entry := copyIn q.entry (bbqGlobalIdx cfg.blockNumLog q.widx) (cfg.initValue + 8 * a)
        (rest.take n)
      committed := update q.committed (bbqGlobalIdx cfg.blockNumLog q.widx)
        (bbqLocalCompose ((q.widx + cfg.blocks - 1) / cfg.blocks)
          (cfg.initValue + 8 * (a + n))) }, ?_, ?_, rfl, rfl⟩
  · simp only [bbqSpscEnqueueOnce, hidx, hspace]
    rw [if_neg (by omega), if_pos (by omega), if_neg (by omega), shiftRight_entrySize, hself,
      bbqLocalVsn_compose _ (by omega), Nat.mod_eq_of_lt hversion, Nat.mul_add, Nat.add_assoc]
  · have hkept := h.kept
    have hlast := Inv.room h (n := n - 1) (by omega)
    refine { h with
      prodLe := by omega
      committed := cursor_set h.committed
      enqueued := ?_
      fifo := h.fifo.trans (List.prefix_append _ _)
      kept := ?_ }
    · change (e ++ rest.take n).length = q.widx * cfg.entries + (a + n)
      rw [List.length_append, htake, h.lengths.1, Nat.add_assoc]
    · change Kept cfg _ d.length (e ++ rest.take n ++ [])
      change Kept cfg q.entry d.length (e ++ []) at hkept
      change e.length + (n - 1) < d.length + cfg.entries * cfg.blocks at hlast
      rw [List.append_nil] at hkept ⊢
      exact Kept.copyIn hkept hoffset (by omega)

theorem enqueue_open (hne : rest.length ≠ 0) (ha : a = cfg.entries)
    (hfree : bbqBlockFullyConsumedWithVsn
      (q.consumed (bbqGlobalIdx cfg.blockNumLog (bbqGlobalIdx cfg.blockNumLog q.widx + 1)))
        cfg.blkSize (bbqGlobalVsn cfg.blockNumLog q.widx))
    (hfits : bbqGlobalVsn cfg.blockNumLog q.widx + 1 < 2 ^ 44) :
    ∃ q', bbqSpscEnqueueOnce cfg q rest = some (true, q', rest) ∧ Held cfg q' e d 0 b ∧
      q'.widx = q.widx + 1 ∧ q'.widx ≤ q.ridx + cfg.blocks ∧ q'.ridx = q.ridx := by
  have hsize := hcfg.size
  have hpos := cfg.blocks_pos
  have hidx := h.localIdx_committed hcfg
  have hbehind : q.ridx ≤ q.widx := h.behind
  have hvsn : bbqGlobalVsn cfg.blockNumLog q.widx = q.widx / cfg.blocks := Inv.globalVsn_widx h
  have hfits' := hfits
  have hfree' := hfree
  rw [hvsn] at hfits'
  rw [hvsn, next_block] at hfree'
  have hnext : q.widx < q.ridx + cfg.blocks ∧ (q.widx + 1 = q.ridx + cfg.blocks →
      b = cfg.entries) := (Inv.fullyConsumed_iff h hcfg).mp hfree'
  have hwadd : wadd 64 q.widx 1 = q.widx + 1 := by
    refine wadd_of_lt ?_
    have hlt : q.widx < 2 ^ 44 * cfg.blocks := (Nat.div_lt_iff_lt_mul hpos).mp (by omega)
    have hblocks := hcfg.blocks_le
    omega
  refine ⟨{ q with
      committed := update q.committed ((q.widx + 1) % cfg.blocks)
        (bbqLocalCompose (q.widx / cfg.blocks + 1) cfg.initValue)
      widx := q.widx + 1 }, ?_, ?_, rfl, hnext.1, rfl⟩
  · simp only [bbqSpscEnqueueOnce, hidx]
    rw [if_neg hne, if_neg (by omega), if_neg (not_not.mpr hfree), hwadd, next_block, hvsn]
  · refine { h with
      version := ?_
      behind := hbehind.trans (Nat.le_succ _)
      near := hnext.1
      far := hnext.2
      prodLe := Nat.zero_le _
      committed := ?_
      enqueued := ?_ }
    · change (q.widx + 1 + cfg.blocks - 1) / cfg.blocks < 2 ^ 44
      have hsub : q.widx + 1 + cfg.blocks - 1 = q.widx + cfg.blocks := by omega
      rw [hsub, Nat.add_div_right _ hpos]
      exact hfits'
    · have hcommitted := h.committed
      rw [ha] at hcommitted
      exact cursor_push hcfg hcommitted
    · change e.length = (q.widx + 1) * cfg.entries + 0
      rw [h.lengths.1, ha, Nat.add_zero, Nat.succ_mul]

theorem enqueue_full (ha : a = cfg.entries)
    (hfree : ¬ bbqBlockFullyConsumedWithVsn
      (q.consumed (bbqGlobalIdx cfg.blockNumLog (bbqGlobalIdx cfg.blockNumLog q.widx + 1)))
        cfg.blkSize (bbqGlobalVsn cfg.blockNumLog q.widx)) :
    bbqSpscEnqueueOnce cfg q rest = some (false, q, rest) ∧ NoFreeBlock cfg e d := by
  have hsize := hcfg.size
  have hidx := h.localIdx_committed hcfg
  have hvsn : bbqGlobalVsn cfg.blockNumLog q.widx = q.widx / cfg.blocks := Inv.globalVsn_widx h
  constructor
  · simp only [bbqSpscEnqueueOnce, hidx]
    rw [if_neg (show ¬ cfg.initValue + 8 * a < cfg.blkSize by omega), if_pos hfree, ite_self]
  · refine h.full ha hcfg.entries fun hnext => hfree ?_
    rw [hvsn, next_block]
    exact (Inv.fullyConsumed_iff h hcfg).mpr hnext

theorem dequeue_take {count avail : Nat} (hcount : count % 2 ^ 29 ≠ 0) (hsome : 0 < avail)
    (havail : b + avail ≤ cfg.entries)
    (hcommitted : bbqLocalIdx (q.committed (bbqGlobalIdx cfg.blockNumLog q.ridx)) =
      cfg.initValue + 8 * (b + avail))
    (hlength : d.length + avail ≤ e.length) :
    ∃ q' got, bbqSpscDequeueOnce cfg q count = some (true, q', count - got.length, got) ∧
      0 < got.length ∧ got.length ≤ count ∧ Held cfg q' e (d ++ got) a (b + got.length) ∧
        q'.widx = q.widx ∧ q'.ridx = q.ridx := by
  have hsize := hcfg.size
  have hsmall := hcfg.small
  have hidx := h.localIdx_consumed hcfg
  have hself : q.consumed (bbqGlobalIdx cfg.blockNumLog q.ridx) =
      bbqLocalCompose ((q.ridx + cfg.blocks - 1) / cfg.blocks) (cfg.initValue + 8 * b) :=
    h.consumed_self
  have hkept : Kept cfg q.entry d.length e := by
    have hkept := h.kept
    change Kept cfg q.entry d.length (e ++ []) at hkept
    rwa [List.append_nil] at hkept
  have hfifo : d <+: e := h.fifo
  have hmod := Nat.mod_le count (2 ^ 29)
  set n := min (count % 2 ^ 29) avail with hn
  have hroom : cfg.initValue + 8 * (b + avail) - (cfg.initValue + 8 * b) = 8 * avail := by omega
  have hspace : min ((count <<< bbqEntrySizeLog) % 2 ^ 32)
      (cfg.initValue + 8 * (b + avail) - (cfg.initValue + 8 * b)) % 2 ^ 16 = 8 * n := by
    rw [hroom, space_eq count (by omega)]
  have hgot : copyOut q.entry (bbqGlobalIdx cfg.blockNumLog q.ridx) (cfg.initValue + 8 * b) n =
      (e.drop d.length).take n := by
    refine Kept.copyOut hkept (fun i hi => ?_) (by omega)
    rw [h.lengths.2, Nat.add_assoc, place_of_lt (by omega), Nat.mul_add, Nat.add_assoc]
  have htake : ((e.drop d.length).take n).length = n := by
    rw [List.length_take, List.length_drop]
    omega
  refine ⟨{ q with
      consumed := update q.consumed (bbqGlobalIdx cfg.blockNumLog q.ridx)
        (bbqLocalCompose ((q.ridx + cfg.blocks - 1) / cfg.blocks)
          (cfg.initValue + 8 * (b + n))) }, (e.drop d.length).take n, ?_, ?_, ?_, ?_, rfl, rfl⟩
  · simp only [bbqSpscDequeueOnce, hidx, hcommitted, hspace]
    rw [if_neg (by omega), if_pos (by omega), if_neg (by omega), if_neg (by omega),
      shiftRight_entrySize, hgot, htake, hself, wadd_compose _ (by omega), Nat.mul_add,
      Nat.add_assoc]
  · omega
  · omega
  · have hprefix : d ++ (e.drop d.length).take n <+: e := by
      obtain ⟨tail, rfl⟩ := hfifo
      rw [List.drop_left, List.prefix_append_right_inj]
      exact List.take_prefix _ _
    have hfar : q.widx = q.ridx + cfg.blocks → b = cfg.entries := h.far
    refine { h with
      far := fun heq => ?_
      consLe := by omega
      consumed := ?_
      dequeued := ?_
      fifo := hprefix
      kept := ?_ }
    · have hfull := hfar heq
      omega
    · rw [htake]
      exact cursor_set h.consumed
    · change (d ++ (e.drop d.length).take n).length = _
      rw [List.length_append, h.lengths.2, Nat.add_assoc]
      rfl
    · change Kept cfg q.entry (d ++ (e.drop d.length).take n).length (e ++ [])
      rw [List.append_nil, List.length_append]
      exact hkept.later (Nat.le_add_right _ _)

/-- What a dequeue finds in the block of the consumer, when it is not through with it. -/
theorem available (hb : b < cfg.entries) :
    ∃ avail, b + avail ≤ cfg.entries ∧
      bbqLocalIdx (q.committed (bbqGlobalIdx cfg.blockNumLog q.ridx)) =
        cfg.initValue + 8 * (b + avail) ∧
      d.length + avail ≤ e.length ∧
      (avail = 0 → e.length = d.length ∧
        q.consumed (bbqGlobalIdx cfg.blockNumLog q.ridx) =
          q.committed (bbqGlobalIdx cfg.blockNumLog q.ridx)) := by
  have hsize := hcfg.size
  obtain ⟨he, hd⟩ := h.lengths
  have hle : a ≤ cfg.entries := h.prodLe
  have hbehind : q.ridx ≤ q.widx := h.behind
  have hfifo : d.length ≤ e.length := List.IsPrefix.length_le h.fifo
  have hidx : bbqLocalIdx (q.committed (bbqGlobalIdx cfg.blockNumLog q.ridx)) =
      if q.ridx = q.widx then cfg.initValue + 8 * a else cfg.blkSize :=
    Inv.localIdx_committed_ridx h hcfg hb
  rcases Nat.lt_or_eq_of_le hbehind with hlt | heq
  · rw [if_neg hlt.ne] at hidx
    have hmul := Nat.mul_le_mul_right cfg.entries (Nat.succ_le_of_lt hlt)
    rw [Nat.succ_mul] at hmul
    refine ⟨cfg.entries - b, by omega, by omega, by omega, fun hzero => by omega⟩
  · rw [if_pos heq] at hidx
    rw [← heq] at he
    refine ⟨a - b, by omega, by omega, by omega, fun hzero => ⟨by omega, ?_⟩⟩
    have hself : q.consumed (bbqGlobalIdx cfg.blockNumLog q.ridx) =
        bbqLocalCompose ((q.ridx + cfg.blocks - 1) / cfg.blocks) (cfg.initValue + 8 * b) :=
      h.consumed_self
    have hself' : q.committed (bbqGlobalIdx cfg.blockNumLog q.widx) =
        bbqLocalCompose ((q.widx + cfg.blocks - 1) / cfg.blocks) (cfg.initValue + 8 * a) :=
      h.committed_self
    have hab : a = b := by omega
    rw [← heq, hab] at hself'
    rw [hself, hself']

theorem dequeue_follow {count : Nat} (hne : count ≠ 0) (hb : b = cfg.entries)
    (hopened : q.ridx < q.widx) :
    ∃ q', bbqSpscDequeueOnce cfg q count = some (true, q', count, []) ∧ Held cfg q' e d a 0 ∧
      q'.widx = q.widx ∧ q'.ridx = q.ridx + 1 := by
  have hsize := hcfg.size
  have hpos := cfg.blocks_pos
  have hidx := h.localIdx_consumed hcfg
  have hnear : q.widx ≤ q.ridx + cfg.blocks := h.near
  have hvsn : bbqGlobalVsn cfg.blockNumLog q.ridx = q.ridx / cfg.blocks := Inv.globalVsn_ridx h
  have hnext : bbqLocalVsn (q.committed ((q.ridx + 1) % cfg.blocks)) =
      q.ridx / cfg.blocks + 1 := (Inv.nextVsn_iff h hcfg).mpr hopened
  have hwidx : q.widx + cfg.blocks - 1 < 2 ^ 44 * cfg.blocks :=
    (Nat.div_lt_iff_lt_mul hpos).mp h.version
  have hblocks := hcfg.blocks_le
  have hwadd : wadd 64 q.ridx 1 = q.ridx + 1 := wadd_of_lt (by omega)
  refine ⟨{ q with
      consumed := update q.consumed ((q.ridx + 1) % cfg.blocks)
        (bbqLocalCompose (q.ridx / cfg.blocks + 1) cfg.initValue)
      ridx := q.ridx + 1 }, ?_, ?_, rfl, rfl⟩
  · simp only [bbqSpscDequeueOnce, hidx]
    rw [if_neg hne, if_neg (by omega), next_block, hvsn, if_neg (not_not.mpr hnext), hwadd]
  · refine { h with
      behind := hopened
      near := by
        change q.widx ≤ q.ridx + 1 + cfg.blocks
        omega
      far := fun heq => ?_
      consLe := Nat.zero_le _
      consumed := ?_
      dequeued := ?_ }
    · change q.widx = q.ridx + 1 + cfg.blocks at heq
      omega
    · have hconsumed := h.consumed
      rw [hb] at hconsumed
      exact cursor_push hcfg hconsumed
    · change d.length = (q.ridx + 1) * cfg.entries + 0
      rw [h.lengths.2, hb, Nat.add_zero, Nat.succ_mul]

theorem dequeue_empty {count : Nat} (hb : b = cfg.entries) (hopened : ¬ q.ridx < q.widx) :
    bbqSpscDequeueOnce cfg q count = some (false, q, count, []) := by
  have hsize := hcfg.size
  have hidx := h.localIdx_consumed hcfg
  have hvsn : bbqGlobalVsn cfg.blockNumLog q.ridx = q.ridx / cfg.blocks := Inv.globalVsn_ridx h
  have hnext : ¬ bbqLocalVsn (q.committed ((q.ridx + 1) % cfg.blocks)) =
      q.ridx / cfg.blocks + 1 := fun heq => hopened ((Inv.nextVsn_iff h hcfg).mp heq)
  simp only [bbqSpscDequeueOnce, hidx]
  rw [if_neg (show ¬ cfg.initValue + 8 * b < cfg.blkSize by omega), next_block, hvsn, if_pos hnext,
    ite_self]

end Held

/-- Before an attempt of `bbq_spsc`: where the block has room, the bytes of the batch are not
zero as a 32-bit number, and a block that is opened gets a version of 44 bits. -/
def SpscFitsEnqueue (cfg : Config) (q : SpscQueue α) (rest : List α) : Prop :=
  let blockIdx := bbqGlobalIdx cfg.blockNumLog q.widx
  let nblk := bbqGlobalIdx cfg.blockNumLog (blockIdx + 1)
  let globalVsn := bbqGlobalVsn cfg.blockNumLog q.widx
  if bbqLocalIdx (q.committed blockIdx) < cfg.blkSize then
    (rest.length <<< bbqEntrySizeLog) % 2 ^ 32 ≠ 0
  else
    bbqBlockFullyConsumedWithVsn (q.consumed nblk) cfg.blkSize globalVsn →
      globalVsn + 1 < 2 ^ 44

/-- Where there is an entry, the bytes of the count are not zero as a 32-bit number. -/
def SpscFitsDequeue (cfg : Config) (q : SpscQueue α) (rest : Nat) : Prop :=
  let blockIdx := bbqGlobalIdx cfg.blockNumLog q.ridx
  bbqLocalIdx (q.consumed blockIdx) < bbqLocalIdx (q.committed blockIdx) →
    (rest <<< bbqEntrySizeLog) % 2 ^ 32 ≠ 0

instance (q : SpscQueue α) (rest : List α) : Decidable (SpscFitsEnqueue cfg q rest) :=
  inferInstanceAs (Decidable (ite _ (_ ≠ _) (_ → _)))

instance (q : SpscQueue α) (rest : Nat) : Decidable (SpscFitsDequeue cfg q rest) :=
  inferInstanceAs (Decidable (_ → _))

def SpscFits (cfg : Config) (s : State (SpscQueue α) α) : Act α → Prop
  | .attempt =>
    match s.call with
    | .idle => True
    | .enqueue _ rest => rest.length ≠ 0 → SpscFitsEnqueue cfg s.queue rest
    | .dequeue _ rest _ => rest ≠ 0 → SpscFitsDequeue cfg s.queue rest
  | _ => True

instance (s : State (SpscQueue α) α) (act : Act α) : Decidable (SpscFits cfg s act) :=
  match act with
  | .enqueue _ | .dequeue _ => inferInstanceAs (Decidable True)
  | .attempt =>
    match hcall : s.call with
    | .idle => .isTrue (by simp only [SpscFits, hcall])
    | .enqueue _ rest => decidable_of_iff (rest.length ≠ 0 → SpscFitsEnqueue cfg s.queue rest)
        (by simp only [SpscFits, hcall])
    | .dequeue _ rest _ => decidable_of_iff (rest ≠ 0 → SpscFitsDequeue cfg s.queue rest)
        (by simp only [SpscFits, hcall])

/-- What an attempt of an enqueue comes to: `n` values are stored. It returns false only when
nothing is left or the queue is full, and it cannot go on forever. -/
theorem Held.enqueueOnce (h : Held cfg q e d a b) (hcfg : cfg.Valid)
    (hfits : rest.length ≠ 0 → SpscFitsEnqueue cfg q rest) :
    ∃ retry q' n a', bbqSpscEnqueueOnce cfg q rest = some (retry, q', rest.drop n) ∧
      n ≤ rest.length ∧ Held cfg q' (e ++ rest.take n) d a' b ∧
      (retry = false → n = 0 ∧ (rest.length ≠ 0 → NoFreeBlock cfg e d)) ∧
      (retry = true → (rest.drop n).length + (q'.ridx + cfg.blocks - q'.widx) <
        rest.length + (q.ridx + cfg.blocks - q.widx)) := by
  have hsize := hcfg.size
  have hidx := h.localIdx_committed hcfg
  have hle : a ≤ cfg.entries := h.prodLe
  by_cases hzero : rest.length = 0
  · refine ⟨false, q, 0, a, ?_, Nat.zero_le _, ?_, fun _ => ⟨rfl, fun hne => absurd hzero hne⟩,
      nofun⟩
    · rw [bbqSpscEnqueueOnce, if_pos hzero, List.drop_zero]
    · rw [List.take_zero, List.append_nil]
      exact h
  · have hfits := hfits hzero
    unfold SpscFitsEnqueue at hfits
    simp only [hidx] at hfits
    rcases Nat.lt_or_eq_of_le hle with ha | ha
    · rw [if_pos (by omega), bytes_eq] at hfits
      obtain ⟨q', honce, hheld, hw, hr⟩ := @Held.enqueue_fill α cfg q e d rest a b h hcfg ha
        (by omega)
      have hmod := Nat.mod_le rest.length (2 ^ 29)
      refine ⟨true, q', _, _, honce, by omega, hheld, nofun, fun _ => ?_⟩
      rw [hw, hr, List.length_drop]
      omega
    · rw [if_neg (by omega)] at hfits
      by_cases hfree : bbqBlockFullyConsumedWithVsn
          (q.consumed (bbqGlobalIdx cfg.blockNumLog (bbqGlobalIdx cfg.blockNumLog q.widx + 1)))
          cfg.blkSize (bbqGlobalVsn cfg.blockNumLog q.widx)
      · obtain ⟨q', honce, hheld, hw, hnear, hr⟩ :=
          h.enqueue_open hcfg hzero ha hfree (hfits hfree)
        refine ⟨true, q', 0, 0, honce, Nat.zero_le _, ?_, nofun, fun _ => ?_⟩
        · rw [List.take_zero, List.append_nil]
          exact hheld
        · rw [List.drop_zero]
          omega
      · obtain ⟨honce, hfull⟩ := @Held.enqueue_full α cfg q e d rest a b h hcfg ha hfree
        refine ⟨false, q, 0, a, honce, Nat.zero_le _, ?_, fun _ => ⟨rfl, fun _ => hfull⟩, nofun⟩
        rw [List.take_zero, List.append_nil]
        exact h

/-- What an attempt of a dequeue comes to. It returns false only when the count is reached or
the queue is empty. -/
theorem Held.dequeueOnce {count : Nat} (h : Held cfg q e d a b) (hcfg : cfg.Valid)
    (hfits : count ≠ 0 → SpscFitsDequeue cfg q count) :
    ∃ retry q' got b', bbqSpscDequeueOnce cfg q count =
        some (retry, q', count - got.length, got) ∧ got.length ≤ count ∧
      Held cfg q' e (d ++ got) a b' ∧
      (retry = false → got = [] ∧ (count ≠ 0 → e.length = d.length)) ∧
      (retry = true → count - got.length + (q'.widx - q'.ridx) <
        count + (q.widx - q.ridx)) := by
  have hsize := hcfg.size
  have hidx := h.localIdx_consumed hcfg
  have hle : b ≤ cfg.entries := h.consLe
  have hnil (q' : SpscQueue α) (b' : Nat) (hheld : Held cfg q' e d a b') :
      Held cfg q' e (d ++ []) a b' := by
    rw [List.append_nil]
    exact hheld
  by_cases hzero : count = 0
  · refine ⟨false, q, [], b, ?_, Nat.zero_le _, hnil q b h,
      fun _ => ⟨rfl, fun hne => absurd hzero hne⟩, nofun⟩
    rw [bbqSpscDequeueOnce, if_pos hzero, List.length_nil, Nat.sub_zero]
  · rcases Nat.lt_or_eq_of_le hle with hb | hb
    · obtain ⟨avail, hroom, hcommitted, hlength, hnone⟩ := h.available hcfg hb
      rcases Nat.eq_zero_or_pos avail with hno | hsome
      · refine ⟨false, q, [], b, ?_, Nat.zero_le _, hnil q b h,
          fun _ => ⟨rfl, fun _ => (hnone hno).1⟩, nofun⟩
        simp only [bbqSpscDequeueOnce, hidx, hcommitted]
        rw [if_neg hzero, if_pos (by omega), if_pos (by omega), if_pos (by omega),
          List.length_nil, Nat.sub_zero]
      · have hfits := hfits hzero
        unfold SpscFitsDequeue at hfits
        simp only [hidx, hcommitted, bytes_eq] at hfits
        obtain ⟨q', got, honce, hpos, hcount, hheld, hw, hr⟩ :=
          @Held.dequeue_take α cfg q e d a b h hcfg count _ (by omega)
          hsome hroom hcommitted hlength
        refine ⟨true, q', got, _, honce, hcount, hheld, nofun, fun _ => ?_⟩
        rw [hw, hr]
        omega
    · by_cases hopened : q.ridx < q.widx
      · obtain ⟨q', honce, hheld, hw, hr⟩ := h.dequeue_follow hcfg hzero hb hopened
        refine ⟨true, q', [], 0, honce, Nat.zero_le _, hnil q' 0 hheld, nofun, fun _ => ?_⟩
        rw [hw, hr, List.length_nil]
        omega
      · refine ⟨false, q, [], b, h.dequeue_empty hcfg hb hopened, Nat.zero_le _, hnil q b h,
          fun _ => ⟨rfl, fun _ => ?_⟩, nofun⟩
        obtain ⟨he, hd⟩ := h.lengths
        have hbehind : q.ridx ≤ q.widx := h.behind
        have hfifo : d.length ≤ e.length := List.IsPrefix.length_le h.fifo
        have heq : q.widx = q.ridx := by omega
        have ha : a ≤ cfg.entries := h.prodLe
        rw [heq] at he
        omega

section Runs

variable {Q : Type}

/-- The call that runs comes to its end, as long as its attempts meet the condition. -/
inductive Returns (v : Variant Q α) (fits : State Q α → Act α → Prop) : State Q α → Prop
  | idle {s : State Q α} : s.call = .idle → Returns v fits s
  | attempt {s : State Q α} : (fits s .attempt → (step v s .attempt).isSome) →
      (∀ s', fits s .attempt → step v s .attempt = some s' → Returns v fits s') →
      Returns v fits s

/-- Every call that has returned did what it should: an enqueue stored the first values of its
buffer, as many as it returned, and all of them unless the queue was full; a dequeue took the
oldest values, as many as it was asked for unless there were less. What is stored and not yet
taken is in its place. The call that runs will return. -/
structure Safe (cfg : Config) (v : Variant Q α) (fits : State Q α → Act α → Prop)
    (entry : Nat → Nat → α) (s : State Q α) : Prop where
  served : AllServed cfg s.log
  fifo : s.dequeued <+: s.enqueued
  kept : Kept cfg entry s.dequeued.length s.enqueued
  returns : Returns v fits s

/-- The rest of the batch of the call that runs. -/
def Call.Ok : Call α → Prop
  | .idle => True
  | .enqueue buf rest => rest <:+ buf
  | .dequeue count rest got => rest + got.length = count

theorem Call.stored_start (buf : List α) : (Call.enqueue buf buf).stored = [] := by
  rw [Call.stored, Nat.sub_self, List.take_zero]

/-- Some more values of the batch are stored. -/
theorem Call.stored_drop {buf rest : List α} (h : rest <:+ buf) {n : Nat} (hn : n ≤ rest.length) :
    buf.take (buf.length - (rest.drop n).length) =
      buf.take (buf.length - rest.length) ++ rest.take n := by
  obtain ⟨front, rfl⟩ := h
  have hfront : (front ++ rest).length - rest.length = front.length := by
    rw [List.length_append, Nat.add_sub_cancel]
  have hmore : (front ++ rest).length - (rest.drop n).length = front.length + n := by
    rw [List.length_append, List.length_drop]
    omega
  rw [hfront, hmore, List.take_left, List.take_append, List.take_of_length_le (by omega),
    Nat.add_sub_cancel_left]

/-- Between two attempts. -/
structure Good (cfg : Config) (s : State (SpscQueue α) α) : Prop where
  held : ∃ a b, Held cfg s.queue s.enqueued s.dequeued a b
  served : AllServed cfg s.log
  call : s.call.Ok

variable {s s' : State (SpscQueue α) α}

/-- An attempt of an enqueue. -/
theorem Good.enqueue (h : Good cfg s) (hcfg : cfg.Valid) {buf rest : List α}
    (hcall : s.call = .enqueue buf rest) (hfits : SpscFits cfg s .attempt) :
    ∃ s', step (spsc cfg) s .attempt = some s' ∧ Good cfg s' ∧
      (s'.call = .idle ∨ ∃ rest', s'.call = .enqueue buf rest' ∧
        rest'.length + (s'.queue.ridx + cfg.blocks - s'.queue.widx) <
          rest.length + (s.queue.ridx + cfg.blocks - s.queue.widx)) := by
  obtain ⟨⟨a, b, hheld⟩, hserved, hok⟩ := h
  rw [hcall] at hok
  simp only [SpscFits, hcall] at hfits
  simp only [State.enqueued, State.dequeued, hcall, Call.stored, Call.taken] at hheld
  obtain ⟨retry, q', n, a', honce, hn, hheld', hfalse, htrue⟩ := hheld.enqueueOnce hcfg hfits
  have hstored := Call.stored_drop hok hn
  have hstep : step (spsc cfg) s .attempt = some (enqueueNext s buf (retry, q', rest.drop n)) := by
    simp only [step, hcall, spsc, honce, Option.map_some]
  rw [List.append_assoc, ← hstored] at hheld'
  refine ⟨_, hstep, ?_⟩
  cases retry with
  | true =>
    refine ⟨⟨⟨a', b, hheld'⟩, hserved, (List.drop_suffix n rest).trans hok⟩,
      .inr ⟨_, rfl, htrue rfl⟩⟩
  | false =>
    obtain ⟨rfl, hfull⟩ := hfalse rfl
    refine ⟨⟨⟨a', b, ?_⟩, ⟨⟨Nat.sub_le _ _, fun hlt => ?_⟩, hserved⟩, trivial⟩, .inl rfl⟩
    · simp only [State.enqueued, State.dequeued, enqueueNext, stored, taken, Call.stored,
        Call.taken, List.append_nil] at hheld' ⊢
      exact hheld'
    · rw [List.drop_zero] at hlt ⊢
      rw [List.append_nil] at hfull
      exact hfull (by omega)

theorem Good.dequeue (h : Good cfg s) (hcfg : cfg.Valid) {count rest : Nat} {got : List α}
    (hcall : s.call = .dequeue count rest got) (hfits : SpscFits cfg s .attempt) :
    ∃ s', step (spsc cfg) s .attempt = some s' ∧ Good cfg s' ∧
      (s'.call = .idle ∨ ∃ rest' got', s'.call = .dequeue count rest' got' ∧
        rest' + (s'.queue.widx - s'.queue.ridx) < rest + (s.queue.widx - s.queue.ridx)) := by
  obtain ⟨⟨a, b, hheld⟩, hserved, hok⟩ := h
  rw [hcall] at hok
  simp only [SpscFits, hcall] at hfits
  simp only [State.enqueued, State.dequeued, hcall, Call.stored, Call.taken] at hheld
  obtain ⟨retry, q', more, b', honce, hmore, hheld', hfalse, htrue⟩ :=
    hheld.dequeueOnce hcfg hfits
  have hstep : step (spsc cfg) s .attempt =
      some (dequeueNext s count got (retry, q', rest - more.length, more)) := by
    simp only [step, hcall, spsc, honce, Option.map_some]
  rw [List.append_assoc, List.append_nil] at hheld'
  refine ⟨_, hstep, ?_⟩
  change rest + got.length = count at hok
  cases retry with
  | true =>
    refine ⟨⟨⟨a, b', ?_⟩, hserved, ?_⟩, .inr ⟨_, _, rfl, htrue rfl⟩⟩
    · simp only [State.enqueued, State.dequeued, dequeueNext, Call.stored, Call.taken,
        List.append_nil]
      exact hheld'
    · change rest - more.length + (got ++ more).length = count
      rw [List.length_append]
      omega
  | false =>
    obtain ⟨rfl, hempty⟩ := hfalse rfl
    rw [List.append_nil] at hheld'
    refine ⟨⟨⟨a, b', ?_⟩, ⟨?_, hserved⟩, trivial⟩, .inl rfl⟩
    · simp only [State.enqueued, State.dequeued, dequeueNext, stored, taken, Call.stored,
        Call.taken, List.append_nil]
      exact hheld'
    · rw [List.append_nil, List.length_nil, Nat.sub_zero]
      refine ⟨?_, by omega⟩
      have hfifo : taken s.log ++ got <+: stored s.log := hheld'.fifo
      obtain ⟨tail, htail⟩ := hfifo
      simp only [List.length_append, List.append_nil, ← htail] at hempty ⊢
      rw [List.append_assoc, List.drop_left]
      rcases Nat.eq_zero_or_pos rest with hzero | hpos
      · rw [show count = got.length by omega, List.take_left]
      · have hnone : tail = [] := List.length_eq_zero_iff.mp (by
          have hlength := hempty (by omega)
          omega)
        rw [hnone, List.append_nil, List.take_of_length_le (by omega)]

theorem Good.step (h : Good cfg s) (hcfg : cfg.Valid) {act : Act α} (hfits : SpscFits cfg s act)
    (hstep : step (spsc cfg) s act = some s') : Good cfg s' := by
  obtain ⟨⟨a, b, hheld⟩, hserved, hok⟩ := h
  cases act with
  | enqueue buf =>
    cases hcall : s.call with
    | idle =>
      simp only [BbqCalls.step, hcall] at hstep
      obtain ⟨-, hstep⟩ := Option.ite_none_right_eq_some.mp hstep
      cases hstep
      refine ⟨⟨a, b, ?_⟩, hserved, List.suffix_rfl⟩
      simp only [State.enqueued, State.dequeued, hcall, Call.stored_start] at hheld ⊢
      exact hheld
    | enqueue => simp only [BbqCalls.step, hcall, reduceCtorEq] at hstep
    | dequeue => simp only [BbqCalls.step, hcall, reduceCtorEq] at hstep
  | dequeue count =>
    cases hcall : s.call with
    | idle =>
      simp only [BbqCalls.step, hcall] at hstep
      obtain ⟨-, hstep⟩ := Option.ite_none_right_eq_some.mp hstep
      cases hstep
      refine ⟨⟨a, b, ?_⟩, hserved, Nat.add_zero _⟩
      simp only [State.enqueued, State.dequeued, hcall] at hheld ⊢
      exact hheld
    | enqueue => simp only [BbqCalls.step, hcall, reduceCtorEq] at hstep
    | dequeue => simp only [BbqCalls.step, hcall, reduceCtorEq] at hstep
  | attempt =>
    have h : Good cfg s := ⟨⟨a, b, hheld⟩, hserved, hok⟩
    cases hcall : s.call with
    | idle => simp only [BbqCalls.step, hcall, reduceCtorEq] at hstep
    | enqueue buf rest =>
      obtain ⟨t, ht, hgood, -⟩ := h.enqueue hcfg hcall hfits
      rw [hstep] at ht
      cases ht
      exact hgood
    | dequeue count rest got =>
      obtain ⟨t, ht, hgood, -⟩ := h.dequeue hcfg hcall hfits
      rw [hstep] at ht
      cases ht
      exact hgood

/-- Each attempt takes from the batch or from the blocks that can still be opened. -/
theorem Good.returns_enqueue (hcfg : cfg.Valid) (m : Nat) {buf rest : List α} (h : Good cfg s)
    (hcall : s.call = .enqueue buf rest)
    (hm : rest.length + (s.queue.ridx + cfg.blocks - s.queue.widx) < m) :
    Returns (spsc cfg) (SpscFits cfg) s := by
  induction m generalizing s rest with
  | zero => omega
  | succ m ih =>
    refine .attempt (fun hfits => ?_) fun s' hfits hstep => ?_
    · obtain ⟨t, ht, -⟩ := h.enqueue hcfg hcall hfits
      rw [ht]
      rfl
    · obtain ⟨t, ht, hgood, hnext⟩ := h.enqueue hcfg hcall hfits
      rw [hstep] at ht
      cases ht
      obtain hidle | ⟨rest', hcall', hless⟩ := hnext
      · exact .idle hidle
      · exact ih hgood hcall' (by omega)

/-- Each attempt takes from the count or from the blocks that are ahead. -/
theorem Good.returns_dequeue (hcfg : cfg.Valid) (m : Nat) {count rest : Nat} {got : List α}
    (h : Good cfg s) (hcall : s.call = .dequeue count rest got)
    (hm : rest + (s.queue.widx - s.queue.ridx) < m) :
    Returns (spsc cfg) (SpscFits cfg) s := by
  induction m generalizing s rest got with
  | zero => omega
  | succ m ih =>
    refine .attempt (fun hfits => ?_) fun s' hfits hstep => ?_
    · obtain ⟨t, ht, -⟩ := h.dequeue hcfg hcall hfits
      rw [ht]
      rfl
    · obtain ⟨t, ht, hgood, hnext⟩ := h.dequeue hcfg hcall hfits
      rw [hstep] at ht
      cases ht
      obtain hidle | ⟨rest', got', hcall', hless⟩ := hnext
      · exact .idle hidle
      · exact ih hgood hcall' (by omega)

theorem Good.returns (hcfg : cfg.Valid) (h : Good cfg s) :
    Returns (spsc cfg) (SpscFits cfg) s := by
  cases hcall : s.call with
  | idle => exact .idle hcall
  | enqueue => exact h.returns_enqueue hcfg _ hcall (Nat.lt_succ_self _)
  | dequeue => exact h.returns_dequeue hcfg _ hcall (Nat.lt_succ_self _)

theorem Good.safe (hcfg : cfg.Valid) (h : Good cfg s) :
    Safe cfg (spsc cfg) (SpscFits cfg) s.queue.entry s := by
  obtain ⟨a, b, hheld⟩ := h.held
  refine ⟨h.served, hheld.fifo, ?_, h.returns hcfg⟩
  have hkept := hheld.kept
  change Kept cfg s.queue.entry s.dequeued.length (s.enqueued ++ []) at hkept
  rwa [List.append_nil] at hkept

theorem initial_held (hcfg : cfg.Valid) (entry : Nat → Nat → α) :
    ∃ a b, Held cfg (spscInitial cfg entry) [] [] a b := by
  obtain ⟨a, b, done, hinv⟩ := BbqSpsc.initial_good hcfg entry
  have hdone : done = [] := hinv.prod
  rw [hdone] at hinv
  exact ⟨a, b, hinv⟩

theorem spsc_good {past : List (State (SpscQueue α) α × Act α)} (hcfg : cfg.Valid)
    (run : (machine (spsc cfg)).Run past s) (hfits : AllSteps (SpscFits cfg) past) :
    Good cfg s := by
  refine run.invariant_if (I := Good cfg) ?_
    (fun s act s' h hok hstep => h.step hcfg hok hstep) hfits
  rintro s ⟨⟨entry, hqueue⟩, hcall, hlog⟩
  refine ⟨?_, ?_, ?_⟩
  · simp only [State.enqueued, State.dequeued, hqueue, hcall, hlog, stored, taken, Call.stored,
      Call.taken, List.append_nil]
    exact initial_held hcfg entry
  · rw [hlog]
    trivial
  · rw [hcall]
    trivial

end Runs

end Libvsync.Queue.BbqCalls
