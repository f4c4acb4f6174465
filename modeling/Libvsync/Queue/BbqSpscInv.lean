import Libvsync.Core.Window
import Libvsync.Queue.BbqSpsc

/-!
The invariant of `bbq_spsc` as long as the version fits its 44 bits. The uses of the
blocks are numbered: use `u` is one of block `u % blocks`, and its version is
`(u - 1) / blocks`. The producer is in use `widx + blocks` and the consumer in use
`ridx + blocks`, and the cursors of each side belong to a window of as many uses as there
are blocks. The first block starts in the middle of its first window, which is why it is
one version behind the others.
-/

namespace Libvsync.Queue.BbqSpsc

open Libvsync.Core
open Libvsync.Queue.Bbq

variable {α : Type}

def Config.blocks (cfg : Config) : Nat := 2 ^ cfg.blockNumLog

/-- How many entries a block has. -/
def Config.entries (cfg : Config) : Nat :=
  (cfg.blkSize - cfg.initValue) / 2 ^ bbqEntrySizeLog

structure Config.Valid (cfg : Config) : Prop where
  blockNumLog : cfg.blockNumLog ≤ 16
  entries : 0 < cfg.entries
  size : cfg.blkSize = cfg.initValue + 8 * cfg.entries
  small : cfg.blkSize < 2 ^ 16

/-- What the checks of an initialisation establish; both sizes are multiples of the size of an
entry. -/
theorem valid_of_rounded {blockNumLog header rounded : Nat}
    (hnum : ¬ (blockNumLog < bbqMinBlockNumLog ∨ bbqMaxBlockNumLog < blockNumLog))
    (hinit : ¬ vPow2RoundDown rounded ≤ bbqBlockInitValue header)
    (hlog : ¬ (vLog2 (vPow2RoundDown rounded) < bbqMinBlockSizeLog ∨
      bbqMaxBlockSizeLog ≤ vLog2 (vPow2RoundDown rounded))) :
    Config.Valid ⟨blockNumLog, vPow2RoundDown rounded, bbqBlockInitValue header⟩ := by
  have hround : vPow2RoundDown rounded = 2 ^ rounded.log2 := by
    rw [vPow2RoundDown, Nat.shiftLeft_eq, Nat.one_mul]
  rw [hround, vLog2, Nat.log2_two_pow] at hlog
  rw [hround] at hinit ⊢
  obtain ⟨low, hhigh⟩ := not_or.mp hlog
  rw [bbqMinBlockSizeLog] at low
  rw [bbqMaxBlockSizeLog] at hhigh
  rw [bbqMinBlockNumLog, bbqMaxBlockNumLog] at hnum
  obtain ⟨m, hm⟩ := Nat.exists_eq_add_of_le (show 3 ≤ rounded.log2 by omega)
  have hpow : 2 ^ rounded.log2 = 8 * 2 ^ m := by
    rw [hm, Nat.pow_add]
  have hmul : bbqBlockInitValue header = 8 * (header / 8 + 1) := by
    rw [bbqBlockInitValue, bbqEntrySizeLog]
    omega
  have hsmall : 2 ^ rounded.log2 < 2 ^ 16 := Nat.pow_lt_pow_right (by omega) (by omega)
  refine ⟨Nat.not_lt.mp (not_or.mp hnum).2, ?_, ?_, hsmall⟩
  · simp only [Config.entries, bbqEntrySizeLog, hpow, hmul] at hinit ⊢
    omega
  · simp only [Config.entries, bbqEntrySizeLog, hpow, hmul] at hinit ⊢
    omega

theorem bbqSpscInit_valid {cacheline blockNumLog size : Nat} {cfg : Config}
    (h : bbqSpscInit cacheline blockNumLog size = some cfg) : cfg.Valid := by
  simp only [bbqSpscInit] at h
  obtain ⟨hnum, h⟩ := Option.ite_none_left_eq_some.mp h
  obtain ⟨-, h⟩ := Option.ite_none_left_eq_some.mp h
  obtain ⟨hinit, h⟩ := Option.ite_none_left_eq_some.mp h
  obtain ⟨hlog, h⟩ := Option.ite_none_left_eq_some.mp h
  cases h
  exact valid_of_rounded hnum hinit hlog

theorem Config.blocks_pos (cfg : Config) : 0 < cfg.blocks := Nat.two_pow_pos _

theorem Config.Valid.blocks_le {cfg : Config} (h : cfg.Valid) : cfg.blocks ≤ 2 ^ 16 :=
  Nat.pow_le_pow_right (by omega) h.blockNumLog

/-- Where value number `j` is kept: the block and the place in it, in bytes. -/
def place (cfg : Config) (j : Nat) : Nat × Nat :=
  ((slot cfg.entries cfg.blocks j).1, cfg.initValue + 8 * (slot cfg.entries cfg.blocks j).2)

theorem place_of_lt {cfg : Config} {block i : Nat} (h : i < cfg.entries) :
    place cfg (block * cfg.entries + i) =
      (bbqGlobalIdx cfg.blockNumLog block, cfg.initValue + 8 * i) := by
  rw [place, slot_of_lt h, bbqGlobalIdx_eq]
  rfl

theorem place_inj {cfg : Config} {low i j : Nat} (hi : low ≤ i)
    (hi' : i < low + cfg.entries * cfg.blocks) (hj : low ≤ j)
    (hj' : j < low + cfg.entries * cfg.blocks) (h : place cfg i = place cfg j) : i = j := by
  obtain ⟨hblock, hplace⟩ := Prod.mk.inj h
  refine slot_inj hi hi' hj hj' (Prod.ext hblock ?_)
  omega

/-- The block behind the one of index `v`. -/
theorem next_block (cfg : Config) (v : Nat) :
    bbqGlobalIdx cfg.blockNumLog (bbqGlobalIdx cfg.blockNumLog v + 1) = (v + 1) % cfg.blocks := by
  rw [bbqGlobalIdx_eq, bbqGlobalIdx_eq, Nat.mod_add_mod]
  rfl

theorem this_block (cfg : Config) (v : Nat) :
    bbqGlobalIdx cfg.blockNumLog v = (v + cfg.blocks) % cfg.blocks := by
  rw [bbqGlobalIdx_eq, Nat.add_mod_right]
  rfl

/-- The cursor that belongs to use `u` when one side is in use `w + blocks` and has
committed or consumed `a` entries of it. -/
def cursor (cfg : Config) (w a u : Nat) : Nat :=
  bbqLocalCompose ((u - 1) / cfg.blocks)
    (if u = w + cfg.blocks then cfg.initValue + 8 * a else cfg.blkSize)

theorem cursor_self (cfg : Config) (w a : Nat) :
    cursor cfg w a (w + cfg.blocks) =
      bbqLocalCompose ((w + cfg.blocks - 1) / cfg.blocks) (cfg.initValue + 8 * a) := by
  rw [cursor, if_pos rfl]

/-- One side moves on in its block. -/
theorem cursor_set {cfg : Config} {cells : Nat → Nat} {w a a' : Nat}
    (h : Window cfg.blocks cells (w + 1) (cursor cfg w a)) :
    Window cfg.blocks (Function.update cells (bbqGlobalIdx cfg.blockNumLog w)
      (bbqLocalCompose ((w + cfg.blocks - 1) / cfg.blocks) (cfg.initValue + 8 * a')))
        (w + 1) (cursor cfg w a') := by
  have hpos := cfg.blocks_pos
  rw [this_block]
  refine h.set (by omega) (by omega) (cursor_self ..).symm fun j hj => ?_
  rw [cursor, cursor, if_neg hj, if_neg hj]

theorem cursor_push {cfg : Config} {cells : Nat → Nat} {w : Nat} (hcfg : cfg.Valid)
    (h : Window cfg.blocks cells (w + 1) (cursor cfg w cfg.entries)) :
    Window cfg.blocks (Function.update cells ((w + 1) % cfg.blocks)
      (bbqLocalCompose (w / cfg.blocks + 1) cfg.initValue)) (w + 1 + 1) (cursor cfg (w + 1) 0) := by
  rw [← Nat.add_mod_right]
  refine h.push ?_ fun j hj hj' => ?_
  · have hsub : w + 1 + cfg.blocks - 1 = w + cfg.blocks := by omega
    rw [cursor_self, hsub, Nat.add_div_right _ cfg.blocks_pos]
    rfl
  · rw [cursor, cursor, if_neg (by omega), ← hcfg.size, ite_self]

/-- The values from number `low` on are in their places. -/
def Kept (cfg : Config) (entry : Nat → Nat → α) (low : Nat) (values : List α) : Prop :=
  ∀ j v, low ≤ j → values[j]? = some v → entry (place cfg j).1 (place cfg j).2 = v

/-- The producer has committed `a` entries of its block and has copied `done`. -/
def ProdAt (cfg : Config) (s : State α) (a b : Nat) (done : List α) : ProdPc α → Prop
  | .idle _ => done = []
  | .readCommitted call => done = [] ∧ call.rest.length < 2 ^ 29
  | .copy call committed space offset todo =>
    call.rest.length < 2 ^ 29 ∧
      committed = s.committed (bbqGlobalIdx cfg.blockNumLog s.widx) ∧
        ∃ n, space = 8 * n ∧ a + n ≤ cfg.entries ∧ n ≤ call.rest.length ∧
          call.rest.take n = done ++ todo ∧ offset = cfg.initValue + 8 * (a + done.length)
  | .readConsumed call => done = [] ∧ call.rest.length < 2 ^ 29 ∧ a = cfg.entries
  | .advance call => done = [] ∧ call.rest.length < 2 ^ 29 ∧ a = cfg.entries ∧
      s.widx < s.ridx + cfg.blocks ∧ (s.widx + 1 = s.ridx + cfg.blocks → b = cfg.entries)

/-- The consumer has consumed `b` entries of its block. -/
def ConsAt (cfg : Config) (s : State α) (b : Nat) : ConsPc α → Prop
  | .idle _ => True
  | .readConsumed call => call.rest < 2 ^ 29
  | .readCommitted call consumed => call.rest < 2 ^ 29 ∧
      consumed = s.consumed (bbqGlobalIdx cfg.blockNumLog s.ridx) ∧ b < cfg.entries
  | .copy call consumed space got => call.rest < 2 ^ 29 ∧
      consumed = s.consumed (bbqGlobalIdx cfg.blockNumLog s.ridx) ∧
        ∃ n, space = 8 * n ∧ b + n ≤ cfg.entries ∧ got.length ≤ n ∧
          s.dequeued.length + n ≤ s.enqueued.length ∧ s.dequeued ++ got <+: s.enqueued
  | .readNext call => call.rest < 2 ^ 29 ∧ b = cfg.entries
  | .advance call => call.rest < 2 ^ 29 ∧ b = cfg.entries ∧ s.ridx < s.widx
  | .assertFailed => False

structure Inv (cfg : Config) (s : State α) (a b : Nat) (done : List α) : Prop where
  version : (s.widx + cfg.blocks - 1) / cfg.blocks < 2 ^ 44
  behind : s.ridx ≤ s.widx
  near : s.widx ≤ s.ridx + cfg.blocks
  far : s.widx = s.ridx + cfg.blocks → b = cfg.entries
  prodLe : a ≤ cfg.entries
  consLe : b ≤ cfg.entries
  committed : Window cfg.blocks s.committed (s.widx + 1) (cursor cfg s.widx a)
  consumed : Window cfg.blocks s.consumed (s.ridx + 1) (cursor cfg s.ridx b)
  enqueued : s.enqueued.length = s.widx * cfg.entries + a
  dequeued : s.dequeued.length = s.ridx * cfg.entries + b
  fifo : s.dequeued <+: s.enqueued
  kept : Kept cfg s.entry s.dequeued.length (s.enqueued ++ done)
  prod : ProdAt cfg s a b done s.prod
  cons : ConsAt cfg s b s.cons

variable {cfg : Config} {s s' : State α} {a b : Nat} {done : List α}

theorem version_eq {v : Nat} (h : v / cfg.blocks < 2 ^ 44) :
    bbqGlobalVsn cfg.blockNumLog v = v / cfg.blocks := by
  rw [bbqGlobalVsn_eq]
  exact Nat.mod_eq_of_lt h

namespace Inv

section Cursors

variable (h : Inv cfg s a b done) (hcfg : cfg.Valid)
include h

/-- The versions in use fit. -/
theorem version_lt {u : Nat} (hu : u ≤ s.widx + cfg.blocks) : (u - 1) / cfg.blocks < 2 ^ 44 :=
  lt_of_le_of_lt (Nat.div_le_div_right (by omega)) h.version

theorem globalVsn_widx : bbqGlobalVsn cfg.blockNumLog s.widx = s.widx / cfg.blocks := by
  refine version_eq (h.version_lt (u := s.widx + 1) ?_)
  have hpos := cfg.blocks_pos
  omega

theorem globalVsn_ridx : bbqGlobalVsn cfg.blockNumLog s.ridx = s.ridx / cfg.blocks := by
  refine version_eq (h.version_lt (u := s.ridx + 1) ?_)
  have hpos := cfg.blocks_pos
  have hbehind := h.behind
  omega

theorem committed_self : s.committed (bbqGlobalIdx cfg.blockNumLog s.widx) =
    bbqLocalCompose ((s.widx + cfg.blocks - 1) / cfg.blocks) (cfg.initValue + 8 * a) := by
  have hpos := cfg.blocks_pos
  rw [this_block, h.committed _ (by omega) (by omega), cursor_self]

theorem consumed_self : s.consumed (bbqGlobalIdx cfg.blockNumLog s.ridx) =
    bbqLocalCompose ((s.ridx + cfg.blocks - 1) / cfg.blocks) (cfg.initValue + 8 * b) := by
  have hpos := cfg.blocks_pos
  rw [this_block, h.consumed _ (by omega) (by omega), cursor_self]

include hcfg

theorem localIdx_committed :
    bbqLocalIdx (s.committed (bbqGlobalIdx cfg.blockNumLog s.widx)) = cfg.initValue + 8 * a := by
  have hsize := hcfg.size
  have hsmall := hcfg.small
  have hle := h.prodLe
  rw [h.committed_self, bbqLocalIdx_compose _ (by omega)]

theorem localIdx_consumed :
    bbqLocalIdx (s.consumed (bbqGlobalIdx cfg.blockNumLog s.ridx)) = cfg.initValue + 8 * b := by
  have hsize := hcfg.size
  have hsmall := hcfg.small
  have hle := h.consLe
  rw [h.consumed_self, bbqLocalIdx_compose _ (by omega)]

/-- The block that the producer opens next is consumed when its last use is. -/
theorem fullyConsumed_iff :
    bbqBlockFullyConsumedWithVsn (s.consumed ((s.widx + 1) % cfg.blocks)) cfg.blkSize
      (s.widx / cfg.blocks) ↔
        s.widx < s.ridx + cfg.blocks ∧ (s.widx + 1 = s.ridx + cfg.blocks → b = cfg.entries) := by
  have hpos := cfg.blocks_pos
  have hsize := hcfg.size
  have hsmall := hcfg.small
  have hle := h.consLe
  have hbehind := h.behind
  have hspace (u : Nat) :
      (if u = s.ridx + cfg.blocks then cfg.initValue + 8 * b else cfg.blkSize) < 2 ^ 20 := by
    split <;> omega
  rcases Nat.lt_or_ge s.widx (s.ridx + cfg.blocks) with hlt | hge
  · have hversion := h.version_lt (u := s.widx + 1) (by omega)
    rw [h.consumed _ (by omega) (by omega), cursor, bbqBlockFullyConsumedWithVsn,
      bbqLocalIdx_compose _ (hspace _), bbqLocalVsn_compose _ (hspace _),
      Nat.mod_eq_of_lt hversion, Nat.add_sub_cancel]
    constructor
    · rintro (⟨hidx, -⟩ | hgt)
      · refine ⟨hlt, fun heq => ?_⟩
        rw [if_pos heq] at hidx
        omega
      · omega
    · rintro ⟨-, hfull⟩
      refine .inl ⟨?_, rfl⟩
      split
      · rename_i heq
        rw [hfull heq, hsize]
      · rfl
  · -- the consumer is still in the last use, which has the version before
    have heq : s.widx = s.ridx + cfg.blocks := by
      have hnear := h.near
      omega
    have hcell : (s.widx + 1) % cfg.blocks = (s.ridx + 1) % cfg.blocks := by
      rw [heq, Nat.add_right_comm, Nat.add_mod_right]
    have hversion := h.version_lt (u := s.ridx + 1) (by omega)
    have hdiv : s.widx / cfg.blocks = s.ridx / cfg.blocks + 1 := by
      rw [heq, Nat.add_div_right _ hpos]
    rw [hcell, h.consumed _ (by omega) (by omega), cursor, bbqBlockFullyConsumedWithVsn,
      bbqLocalIdx_compose _ (hspace _), bbqLocalVsn_compose _ (hspace _),
      Nat.mod_eq_of_lt hversion, Nat.add_sub_cancel, hdiv]
    omega

/-- The next block of the consumer has the next version when the producer has opened it. -/
theorem nextVsn_iff :
    bbqLocalVsn (s.committed ((s.ridx + 1) % cfg.blocks)) = s.ridx / cfg.blocks + 1 ↔
      s.ridx < s.widx := by
  have hpos := cfg.blocks_pos
  have hsize := hcfg.size
  have hsmall := hcfg.small
  have hle := h.prodLe
  have hbehind := h.behind
  have hnear := h.near
  have hspace (u : Nat) :
      (if u = s.widx + cfg.blocks then cfg.initValue + 8 * a else cfg.blkSize) < 2 ^ 20 := by
    split <;> omega
  rcases Nat.lt_or_ge s.ridx s.widx with hlt | hge
  · have hcell : (s.ridx + 1) % cfg.blocks = (s.ridx + 1 + cfg.blocks) % cfg.blocks := by
      rw [Nat.add_mod_right]
    have hversion := h.version_lt (u := s.ridx + 1 + cfg.blocks) (by omega)
    have hdiv : (s.ridx + 1 + cfg.blocks - 1) / cfg.blocks = s.ridx / cfg.blocks + 1 := by
      rw [← Nat.add_div_right _ hpos]
      congr 1
      omega
    rw [hcell, h.committed _ (by omega) (by omega), cursor, bbqLocalVsn_compose _ (hspace _),
      Nat.mod_eq_of_lt hversion, hdiv]
    exact iff_of_true rfl hlt
  · have heq : s.ridx = s.widx := by omega
    have hversion := h.version_lt (u := s.ridx + 1) (by omega)
    rw [h.committed _ (by omega) (by omega), cursor, bbqLocalVsn_compose _ (hspace _),
      Nat.mod_eq_of_lt hversion, Nat.add_sub_cancel]
    omega

/-- What the consumer finds committed in its block: all of it, or as far as the producer
is. -/
theorem localIdx_committed_ridx (hb : b < cfg.entries) :
    bbqLocalIdx (s.committed (bbqGlobalIdx cfg.blockNumLog s.ridx)) =
      if s.ridx = s.widx then cfg.initValue + 8 * a else cfg.blkSize := by
  have hpos := cfg.blocks_pos
  have hsize := hcfg.size
  have hsmall := hcfg.small
  have hle := h.prodLe
  have hbehind := h.behind
  have hnear : s.widx < s.ridx + cfg.blocks := by
    refine lt_of_le_of_ne h.near fun heq => ?_
    have hfar := h.far heq
    omega
  have hspace :
      (if s.ridx + cfg.blocks = s.widx + cfg.blocks then cfg.initValue + 8 * a
        else cfg.blkSize) < 2 ^ 20 := by
    split <;> omega
  rw [this_block, h.committed _ (by omega) (by omega), cursor, bbqLocalIdx_compose _ hspace]
  simp only [Nat.add_right_cancel_iff]

omit hcfg in
/-- The queue holds at most as many values as it has entries, and the place behind them
is free until the block of the producer is full. -/
theorem room {n : Nat} (hn : a + n < cfg.entries) :
    s.enqueued.length + n < s.dequeued.length + cfg.entries * cfg.blocks := by
  rw [h.enqueued, h.dequeued]
  rcases Nat.lt_or_ge s.widx (s.ridx + cfg.blocks) with hlt | hge
  · obtain ⟨d, hd⟩ := Nat.exists_eq_add_of_lt hlt
    have hmul : (s.ridx + cfg.blocks) * cfg.entries =
        s.widx * cfg.entries + d * cfg.entries + cfg.entries := by
      rw [hd]
      ring
    have hsplit : (s.ridx + cfg.blocks) * cfg.entries =
        s.ridx * cfg.entries + cfg.entries * cfg.blocks := by ring
    omega
  · have heq : s.widx = s.ridx + cfg.blocks := by
      have hnear := h.near
      omega
    have hfar := h.far heq
    have hsplit : s.widx * cfg.entries = s.ridx * cfg.entries + cfg.entries * cfg.blocks := by
      rw [heq]
      ring
    omega

end Cursors

end Inv

end Libvsync.Queue.BbqSpsc
