import Libvsync.Core.Region
import Libvsync.Queue.BbqCallsMpmc

/-!
How much a block-based bounded queue holds when its memory is the one that `bbq_spsc_memsize` or
`bbq_mpmc_memsize` asks for. The size of a block is rounded up from its header and the entries,
but the initialisation reserves one entry more than the header, so a block that is filled to a
power of two is short of an entry.
-/

namespace Libvsync.Queue.BbqCalls

open Libvsync.Core
open Libvsync.Queue.Bbq
open Libvsync.Queue.BbqSpsc (Config bbqSpscInit)

/-- `mem_each_blk` of `bbq_spsc_memsize` and `bbq_mpmc_memsize`, for the given size of a block's
header. -/
def memEachBlk (blockHeader blockNumLog capacity : Nat) : Nat :=
  let cntEachBlk := if capacity >>> blockNumLog = 0 then 1 else capacity >>> blockNumLog
  (blockHeader + (cntEachBlk <<< bbqEntrySizeLog) % 2 ^ 64) % 2 ^ 64

/-- The memory of a queue with the given sizes of a block's header and of its own. Rounding down
takes 32 bits. -/
def bbqMemsize (blockHeader queueHeader blockNumLog capacity : Nat) : Nat :=
  let memEachBlkLog :=
    vPow2RoundDown (wsub 64 (memEachBlk blockHeader blockNumLog capacity * 2 % 2 ^ 64) 1 % 2 ^ 32)
  (queueHeader + (memEachBlkLog <<< blockNumLog) % 2 ^ 64) % 2 ^ 64

def bbqSpscMemsize (cacheline blockNumLog capacity : Nat) : Nat :=
  bbqMemsize (2 * cacheline) (3 * cacheline) blockNumLog capacity

def bbqMpmcMemsize (cacheline blockNumLog capacity : Nat) : Nat :=
  bbqMemsize (4 * cacheline) (3 * cacheline) blockNumLog capacity

/-- The header of the queue and its blocks. -/
def bbqRegions (cacheline : Nat) (cfg : Config) : List Region :=
  [⟨0, 3 * cacheline⟩] ++
    (List.range cfg.blocks).map fun i => ⟨3 * cacheline + i <<< vLog2 cfg.blkSize, cfg.blkSize⟩

/-- A power of two is large enough for the share of a block and its reserved first entry, and is
what the size of a block is rounded up to. -/
def RoomFor (blockHeader blockNumLog capacity : Nat) : Prop :=
  ∃ m < 16,
    bbqBlockInitValue blockHeader + 8 * ((capacity + 2 ^ blockNumLog - 1) / 2 ^ blockNumLog) ≤
        2 ^ m ∧
      2 ^ m < 2 * (blockHeader + 8 * max 1 (capacity / 2 ^ blockNumLog))

variable {Q α : Type}

/-- From a fresh queue, an enqueue that stores less than its batch comes after at least so many
values were stored, when nothing was taken. -/
def Accepts (v : Variant Q α) (fits : State Q α → Act α → Prop) (capacity : Nat) : Prop :=
  ∀ past s, (machine v).Run past s → AllSteps fits past → taken s.log = [] →
    ∀ buf ret log, s.log = .enqueue buf ret :: log → ret < buf.length →
      capacity ≤ (stored s.log).length

theorem vPow2RoundDown_eq (v : Nat) : vPow2RoundDown v = 2 ^ v.log2 := by
  rw [vPow2RoundDown, Nat.shiftLeft_eq, Nat.one_mul]

theorem vPow2RoundDown_pow (m : Nat) : vPow2RoundDown (2 ^ m) = 2 ^ m := by
  rw [vPow2RoundDown_eq, Nat.log2_two_pow]

/-- What the size of a block is rounded from. -/
def blockBytes (blockHeader blockNumLog capacity : Nat) : Nat :=
  wsub 64 (memEachBlk blockHeader blockNumLog capacity * 2 % 2 ^ 64) 1 % 2 ^ 32

theorem log2_blockBytes (blockHeader blockNumLog capacity : Nat) :
    (blockBytes blockHeader blockNumLog capacity).log2 < 32 := by
  rcases Nat.eq_zero_or_pos (blockBytes blockHeader blockNumLog capacity) with hzero | hpos
  · rw [hzero, Nat.log2_zero]
    omega
  · rw [Nat.log2_lt (by omega)]
    exact Nat.mod_lt _ (Nat.two_pow_pos 32)

theorem bbqMemsize_eq {blockHeader queueHeader blockNumLog capacity : Nat}
    (hnum : blockNumLog ≤ 16) (hheader : queueHeader < 2 ^ 18) :
    bbqMemsize blockHeader queueHeader blockNumLog capacity = queueHeader +
      2 ^ (blockBytes blockHeader blockNumLog capacity).log2 * 2 ^ blockNumLog ∧
    2 ^ (blockBytes blockHeader blockNumLog capacity).log2 * 2 ^ blockNumLog ≤ 2 ^ 48 := by
  have hlog := log2_blockBytes blockHeader blockNumLog capacity
  have hsmall : 2 ^ (blockBytes blockHeader blockNumLog capacity).log2 * 2 ^ blockNumLog ≤
      2 ^ 48 := by
    rw [← Nat.pow_add]
    exact Nat.pow_le_pow_right (by omega) (by omega)
  refine ⟨?_, hsmall⟩
  rw [bbqMemsize, ← blockBytes, vPow2RoundDown_eq, Nat.shiftLeft_eq, Nat.mod_eq_of_lt
    (show _ < 2 ^ 64 by omega), Nat.mod_eq_of_lt (by omega)]

/-- The initialisation gets the size of a block back. -/
theorem rounded_eq {blockHeader queueHeader blockNumLog capacity : Nat}
    (hnum : blockNumLog ≤ 16) (hheader : queueHeader < 2 ^ 18) :
    (wsub 64 (bbqMemsize blockHeader queueHeader blockNumLog capacity) queueHeader >>>
      blockNumLog) % 2 ^ 32 = 2 ^ (blockBytes blockHeader blockNumLog capacity).log2 := by
  obtain ⟨hsize, hsmall⟩ := @bbqMemsize_eq blockHeader queueHeader blockNumLog capacity
    hnum hheader
  have hsub : wsub 64 (bbqMemsize blockHeader queueHeader blockNumLog capacity) queueHeader =
      2 ^ (blockBytes blockHeader blockNumLog capacity).log2 * 2 ^ blockNumLog := by
    rw [hsize, wsub]
    omega
  rw [hsub, Nat.shiftRight_eq_div_pow, Nat.mul_div_cancel _ (Nat.two_pow_pos _)]
  exact Nat.mod_eq_of_lt
    (Nat.pow_lt_pow_right (by omega) (log2_blockBytes blockHeader blockNumLog capacity))

theorem lt_bbqBlockInitValue (blockHeader : Nat) : blockHeader < bbqBlockInitValue blockHeader := by
  rw [bbqBlockInitValue, bbqEntrySizeLog]
  omega

/-- What an initialisation in the memory that was asked for makes of it. -/
structure Sized (cfg : Config) (blockHeader queueHeader blockNumLog capacity : Nat) : Prop where
  valid : cfg.Valid
  blockNumLog_eq : cfg.blockNumLog = blockNumLog
  blkSize : cfg.blkSize = 2 ^ (blockBytes blockHeader blockNumLog capacity).log2
  initValue : cfg.initValue = bbqBlockInitValue blockHeader
  header : queueHeader < 2 ^ 18

theorem bbqMpmcInit_sized {cacheline blockNumLog capacity : Nat} {cfg : Config}
    (h : bbqMpmcInit cacheline blockNumLog (bbqMpmcMemsize cacheline blockNumLog capacity) =
      some cfg) : Sized cfg (4 * cacheline) (3 * cacheline) blockNumLog capacity := by
  have hcfg := bbqMpmcInit_valid h
  have hsize := hcfg.size
  have hsmall := hcfg.small
  have hheader := lt_bbqBlockInitValue (4 * cacheline)
  simp only [bbqMpmcInit] at h
  obtain ⟨-, h⟩ := Option.ite_none_left_eq_some.mp h
  obtain ⟨-, h⟩ := Option.ite_none_left_eq_some.mp h
  obtain ⟨-, h⟩ := Option.ite_none_left_eq_some.mp h
  obtain ⟨-, h⟩ := Option.ite_none_left_eq_some.mp h
  cases h
  dsimp only at hsize hsmall
  refine ⟨hcfg, rfl, ?_, rfl, by omega⟩
  rw [bbqMpmcMemsize, rounded_eq hcfg.blockNumLog (by omega), vPow2RoundDown_pow]

theorem bbqSpscInit_sized {cacheline blockNumLog capacity : Nat} {cfg : Config}
    (h : bbqSpscInit cacheline blockNumLog (bbqSpscMemsize cacheline blockNumLog capacity) =
      some cfg) : Sized cfg (2 * cacheline) (3 * cacheline) blockNumLog capacity := by
  have hcfg := BbqSpsc.bbqSpscInit_valid h
  have hsize := hcfg.size
  have hsmall := hcfg.small
  have hheader := lt_bbqBlockInitValue (2 * cacheline)
  simp only [bbqSpscInit] at h
  obtain ⟨-, h⟩ := Option.ite_none_left_eq_some.mp h
  obtain ⟨-, h⟩ := Option.ite_none_left_eq_some.mp h
  obtain ⟨-, h⟩ := Option.ite_none_left_eq_some.mp h
  obtain ⟨-, h⟩ := Option.ite_none_left_eq_some.mp h
  cases h
  dsimp only at hsize hsmall
  refine ⟨hcfg, rfl, ?_, rfl, by omega⟩
  rw [bbqSpscMemsize, rounded_eq hcfg.blockNumLog (by omega), vPow2RoundDown_pow]

namespace Sized

variable {cfg : Config} {blockHeader cacheline blockNumLog capacity : Nat}

/-- The blocks lie apart, within the memory that was asked for. -/
theorem packed (h : Sized cfg blockHeader (3 * cacheline) blockNumLog capacity) :
    Packed 0 (bbqMemsize blockHeader (3 * cacheline) blockNumLog capacity)
      (bbqRegions cacheline cfg) := by
  have hnum : blockNumLog ≤ 16 := h.blockNumLog_eq ▸ h.valid.blockNumLog
  have hlog : 2 ^ vLog2 cfg.blkSize = cfg.blkSize := by
    rw [h.blkSize, vLog2, Nat.log2_two_pow]
  have hblocks : (List.range cfg.blocks).map (fun i =>
      (⟨3 * cacheline + i <<< vLog2 cfg.blkSize, cfg.blkSize⟩ : Region)) =
      Region.array (3 * cacheline) cfg.blkSize cfg.blocks := by
    refine List.map_congr_left fun i _ => ?_
    rw [Nat.shiftLeft_eq, hlog, Nat.mul_comm i]
  have hfirst := Packed.single 0 (3 * cacheline)
  rw [Nat.zero_add] at hfirst
  rw [bbqRegions, hblocks, (bbqMemsize_eq hnum h.header).1, ← h.blkSize, ← h.blockNumLog_eq]
  exact hfirst.append (Packed.array _ _ _) (Nat.zero_le _) (Nat.le_add_right _ _)

/-- The share of a block, for capacities that can be meant. -/
theorem blockBytes_eq (hheader : blockHeader < 2 ^ 16)
    (hshare : capacity / 2 ^ blockNumLog < 2 ^ 16) :
    blockBytes blockHeader blockNumLog capacity =
      2 * (blockHeader + 8 * max 1 (capacity / 2 ^ blockNumLog)) - 1 := by
  rw [blockBytes, memEachBlk, wsub, bbqEntrySizeLog, Nat.shiftRight_eq_div_pow]
  generalize capacity / 2 ^ blockNumLog = share at hshare ⊢
  simp only [Nat.shiftLeft_eq]
  split <;> omega

/-- The queue has room for the capacity exactly when the sizes work out. -/
theorem room_iff (h : Sized cfg blockHeader (3 * cacheline) blockNumLog capacity) :
    capacity ≤ cfg.blocks * cfg.entries ↔ RoomFor blockHeader blockNumLog capacity := by
  have hsize := h.valid.size
  have hsmall := h.valid.small
  have hheader := lt_bbqBlockInitValue blockHeader
  have hblk := h.blkSize
  have hinit := h.initValue
  have hblocks : cfg.blocks = 2 ^ blockNumLog := by rw [Config.blocks, h.blockNumLog_eq]
  have hpos := Nat.two_pow_pos blockNumLog
  rw [hblocks]
  have hlog : (blockBytes blockHeader blockNumLog capacity).log2 < 16 := by
    rw [hblk] at hsmall
    exact (Nat.pow_lt_pow_iff_right (by omega)).mp hsmall
  constructor
  · intro hle
    have hshare : capacity / 2 ^ blockNumLog ≤ cfg.entries := by
      rw [Nat.mul_comm] at hle
      exact Nat.div_le_of_le_mul (by rw [Nat.mul_comm]; exact hle)
    have hceil : (capacity + 2 ^ blockNumLog - 1) / 2 ^ blockNumLog ≤ cfg.entries := by
      refine Nat.le_of_lt_succ ((Nat.div_lt_iff_lt_mul hpos).mpr ?_)
      rw [Nat.succ_mul, Nat.mul_comm]
      omega
    refine ⟨_, hlog, ?_, ?_⟩
    · rw [← hblk]
      omega
    · have hbytes := @blockBytes_eq blockHeader blockNumLog capacity (by omega) (by omega)
      have hself := Nat.log2_self_le (n := blockBytes blockHeader blockNumLog capacity) (by omega)
      omega
  · rintro ⟨m, hm, hlow, hhigh⟩
    have hpow : 2 ^ m ≤ 2 ^ 15 := Nat.pow_le_pow_right (by omega) (by omega)
    have hmono : capacity / 2 ^ blockNumLog ≤
        (capacity + 2 ^ blockNumLog - 1) / 2 ^ blockNumLog := Nat.div_le_div_right (by omega)
    have hbytes := @blockBytes_eq blockHeader blockNumLog capacity (by omega) (by omega)
    have hle : m ≤ (blockBytes blockHeader blockNumLog capacity).log2 := by
      rw [Nat.le_log2 (by omega)]
      omega
    have hblkle := Nat.pow_le_pow_right (n := 2) (by omega) hle
    have hceil : (capacity + 2 ^ blockNumLog - 1) / 2 ^ blockNumLog ≤ cfg.entries := by omega
    have hmul := Nat.mul_le_mul_left (2 ^ blockNumLog) hceil
    have hcover : capacity ≤ 2 ^ blockNumLog *
        ((capacity + 2 ^ blockNumLog - 1) / 2 ^ blockNumLog) := by
      have hsplit := Nat.div_add_mod (capacity + 2 ^ blockNumLog - 1) (2 ^ blockNumLog)
      have hrem := Nat.mod_lt (capacity + 2 ^ blockNumLog - 1) hpos
      omega
    exact hcover.trans hmul

end Sized

/-- An attempt of an enqueue goes on with the call or ends it. -/
theorem step_enqueue {v : Variant Q α} {s s' : State Q α} {buf rest : List α}
    (hcall : s.call = .enqueue buf rest) (hstep : step v s .attempt = some s') :
    (∃ rest', s'.call = .enqueue buf rest' ∧ s'.log = s.log) ∨
      s'.call = .idle ∧ ∃ ret, s'.log = .enqueue buf ret :: s.log := by
  simp only [step, hcall] at hstep
  obtain ⟨⟨retry, q, rest'⟩, -, rfl⟩ := Option.map_eq_some_iff.mp hstep
  cases retry with
  | true => exact .inl ⟨rest', rfl, rfl⟩
  | false => exact .inr ⟨rfl, _, rfl⟩

section Filling

variable {v : Variant Q α} {fits : State Q α → Act α → Prop}

/-- A call that runs and whose attempts meet the condition is run to its end. -/
theorem Returns.finish {s : State Q α} (h : Returns v fits s) {log : List (Done α)}
    {buf : List α}
    (hfits : ∀ past s, (machine v).Run past s → AllSteps fits past → taken s.log = [] →
      ∀ rest, s.call = .enqueue buf rest → fits s .attempt)
    {past : List (State Q α × Act α)} (run : (machine v).Run past s)
    (hall : AllSteps fits past) (htaken : taken log = [])
    (hat : (∃ rest, s.call = .enqueue buf rest ∧ s.log = log) ∨
      s.call = .idle ∧ ∃ ret, s.log = .enqueue buf ret :: log) :
    ∃ past' s', (machine v).Run past' s' ∧ AllSteps fits past' ∧ s'.call = .idle ∧
      ∃ ret, s'.log = .enqueue buf ret :: log := by
  induction h generalizing past with
  | @idle s hidle =>
    obtain ⟨rest, hcall, -⟩ | hdone := hat
    · rw [hidle] at hcall
      cases hcall
    · exact ⟨past, s, run, hall, hdone⟩
  | @attempt s hsome hnext ih =>
    obtain ⟨rest, hcall, hlog⟩ | hdone := hat
    · have hok := hfits past s run hall (by rw [hlog]; exact htaken) rest hcall
      obtain ⟨s', hstep⟩ := Option.isSome_iff_exists.mp (hsome hok)
      have hmachine : (machine v).step s .attempt = some s' := hstep
      refine ih s' hok hstep (run.step hmachine) (hall.cons hok) ?_
      obtain ⟨rest', hcall', hlog'⟩ | ⟨hidle, ret, hlog'⟩ := step_enqueue hcall hstep
      · exact .inl ⟨rest', hcall', hlog'.trans hlog⟩
      · exact .inr ⟨hidle, ret, by rw [hlog', hlog]⟩
    · exact ⟨past, s, run, hall, hdone⟩

/-- Values are stored one by one until one is refused. -/
theorem exists_refused [Inhabited α] {bound : Nat}
    (hreturns : ∀ past s, (machine v).Run past s → AllSteps fits past → Returns v fits s)
    (hserved : ∀ past s, (machine v).Run past s → AllSteps fits past →
      taken s.log = [] → s.call = .idle → (stored s.log).length ≤ bound)
    (hfits : ∀ past s, (machine v).Run past s → AllSteps fits past → taken s.log = [] →
      ∀ rest, s.call = .enqueue [default] rest → fits s .attempt)
    (hbegin : ∀ s buf, fits s (.enqueue buf)) (hstart : ∃ s, (machine v).start s) :
    ∃ past s log, (machine v).Run past s ∧ AllSteps fits past ∧ taken s.log = [] ∧
      s.log = .enqueue [default] 0 :: log ∧ (stored s.log).length ≤ bound := by
  have hstep (k : Nat) : (∃ past s log, (machine v).Run past s ∧ AllSteps fits past ∧
      taken s.log = [] ∧ s.log = .enqueue [default] 0 :: log ∧ (stored s.log).length ≤ bound) ∨
      ∃ past s, (machine v).Run past s ∧ AllSteps fits past ∧ taken s.log = [] ∧
        s.call = .idle ∧ (stored s.log).length = k := by
    induction k with
    | zero =>
      obtain ⟨s, hs⟩ := hstart
      refine .inr ⟨[], s, .start hs, nofun, ?_, hs.2.1, ?_⟩
      · rw [hs.2.2]
        rfl
      · rw [hs.2.2]
        rfl
    | succ k ih =>
      obtain hdone | ⟨past, s, run, hall, htaken, hidle, hlength⟩ := ih
      · exact .inl hdone
      have hcallstep : (machine v).step s (.enqueue [default]) =
          some { s with call := .enqueue [default] [default] } := by
        simp only [machine, step, hidle]
        rfl
      have run' := run.step hcallstep
      have hall' := hall.cons (hbegin s [default])
      obtain ⟨past', s', run'', hall'', hidle', ret, hlog⟩ :=
        (hreturns _ _ run' hall').finish hfits run' hall' htaken (.inl ⟨_, rfl, rfl⟩)
      have htaken' : taken s'.log = [] := by
        rw [hlog]
        exact htaken
      have hle := hserved _ _ run'' hall'' htaken' hidle'
      rcases Nat.eq_zero_or_pos ret with rfl | hpos
      · exact .inl ⟨past', s', _, run'', hall'', htaken', hlog, hle⟩
      · refine .inr ⟨past', s', run'', hall'', htaken', hidle', ?_⟩
        rw [hlog, stored, List.length_append, hlength, List.length_take, List.length_singleton]
        omega
  obtain hdone | ⟨past, s, run, hall, htaken, hidle, hlength⟩ := hstep (bound + 1)
  · exact hdone
  · have hle := hserved past s run hall htaken hidle
    omega

/-- A queue that serves its calls accepts as many values as its blocks have entries. -/
theorem accepts_iff [Inhabited α] {cfg : Config}
    (hserves : ∀ past s, (machine v).Run past s → AllSteps fits past → AllServed cfg s.log)
    (hreturns : ∀ past s, (machine v).Run past s → AllSteps fits past → Returns v fits s)
    (hbound : ∀ past s, (machine v).Run past s → AllSteps fits past →
      taken s.log = [] → s.call = .idle → (stored s.log).length ≤ cfg.blocks * cfg.entries)
    (hfits : ∀ past s, (machine v).Run past s → AllSteps fits past → taken s.log = [] →
      ∀ rest, s.call = .enqueue [default] rest → fits s .attempt)
    (hbegin : ∀ s buf, fits s (.enqueue buf)) (hstart : ∃ s, (machine v).start s)
    (capacity : Nat) : Accepts v fits capacity ↔ capacity ≤ cfg.blocks * cfg.entries := by
  constructor
  · intro haccepts
    obtain ⟨past, s, log, run, hall, htaken, hlog, hle⟩ :=
      exists_refused hreturns hbound hfits hbegin hstart
    exact (haccepts past s run hall htaken [default] 0 log hlog Nat.one_pos).trans hle
  · intro hle past s run hall htaken buf ret log hlog hless
    have hserved := hserves past s run hall
    rw [hlog] at hserved htaken ⊢
    have hfull : NoFreeBlock cfg (stored log ++ buf.take ret) (taken log) := hserved.1.2 hless
    have hnone : taken log = [] := htaken
    rw [NoFreeBlock, hnone, List.length_nil, Nat.zero_div, Nat.zero_add] at hfull
    exact hle.trans hfull.ge

end Filling

/-- While nothing was dequeued, the consumer is at the start of the first block. -/
theorem Held.fresh {cfg : Config} {q : SpscQueue α} {e : List α} {a b : Nat}
    (h : Held cfg q e [] a b) (hcfg : cfg.Valid) :
    q.widx < cfg.blocks ∧ e.length ≤ cfg.blocks * cfg.entries := by
  have hpos := hcfg.entries
  have hblocks := cfg.blocks_pos
  obtain ⟨he, hd⟩ := h.lengths
  have hle : a ≤ cfg.entries := h.prodLe
  have hnear : q.widx ≤ q.ridx + cfg.blocks := h.near
  have hfar : q.widx = q.ridx + cfg.blocks → b = cfg.entries := h.far
  rw [List.length_nil] at hd
  have hzero : q.ridx * cfg.entries = 0 := by omega
  have hridx : q.ridx = 0 := by
    rcases Nat.mul_eq_zero.mp hzero with hridx | hnone
    · exact hridx
    · omega
  have hlt : q.widx < cfg.blocks := by omega
  have hmul := Nat.mul_le_mul_right cfg.entries (Nat.succ_le_of_lt hlt)
  rw [Nat.succ_mul] at hmul
  exact ⟨hlt, by omega⟩

/-- The blocks that are opened while nothing was dequeued get the first version. -/
theorem Held.version_fresh {cfg : Config} {q : SpscQueue α} {e : List α} {a b : Nat}
    (h : Held cfg q e [] a b) (hcfg : cfg.Valid) :
    bbqGlobalVsn cfg.blockNumLog q.widx + 1 < 2 ^ 44 := by
  have hvsn : bbqGlobalVsn cfg.blockNumLog q.widx = q.widx / cfg.blocks :=
    BbqSpsc.Inv.globalVsn_widx h
  rw [hvsn, Nat.div_eq_of_lt (h.fresh hcfg).1]
  decide

/-- A call that is at work on one value has it still to store. -/
theorem Call.Ok.single {value : α} {rest : List α} (h : (Call.enqueue [value] rest).Ok)
    (hne : rest.length ≠ 0) : rest.length = 1 := by
  have hle := List.IsSuffix.length_le h
  rw [List.length_singleton] at hle
  omega

theorem spsc_accepts_iff [Inhabited α] {cfg : Config} (hcfg : cfg.Valid) (capacity : Nat) :
    Accepts (spsc (α := α) cfg) (SpscFits cfg) capacity ↔
      capacity ≤ cfg.blocks * cfg.entries := by
  have hstart : ∃ s, (machine (spsc (α := α) cfg)).start s :=
    ⟨⟨spscInitial cfg fun _ _ => default, .idle, []⟩, ⟨_, rfl⟩, rfl, rfl⟩
  refine accepts_iff (fun past s run hall => ?_) (fun past s run hall => ?_)
    (fun past s run hall htaken hidle => ?_) (fun past s run hall htaken rest hcall => ?_)
    (fun _ _ => trivial) hstart capacity
  · exact (spsc_good hcfg run hall).served
  · exact (spsc_good hcfg run hall).returns hcfg
  · obtain ⟨a, b, hheld⟩ := (spsc_good hcfg run hall).held
    simp only [State.enqueued, State.dequeued, hidle, htaken, Call.stored, Call.taken,
      List.append_nil] at hheld
    exact (hheld.fresh hcfg).2
  · obtain ⟨⟨a, b, hheld⟩, -, hok⟩ := spsc_good hcfg run hall
    rw [hcall] at hok
    simp only [State.dequeued, hcall, htaken, Call.taken, List.append_nil] at hheld
    simp only [SpscFits, hcall]
    intro hne
    unfold SpscFitsEnqueue
    simp only [hok.single hne]
    split
    · decide
    · exact fun _ => hheld.version_fresh hcfg

theorem mpmc_accepts_iff [Inhabited α] {cfg : Config} (hcfg : cfg.Valid) (capacity : Nat) :
    Accepts (mpmc (α := α) cfg) (MpmcFits cfg) capacity ↔
      capacity ≤ cfg.blocks * cfg.entries := by
  have hstart : ∃ s, (machine (mpmc (α := α) cfg)).start s :=
    ⟨⟨mpmcInitial cfg fun _ _ => default, .idle, []⟩, ⟨_, rfl⟩, rfl, rfl⟩
  refine accepts_iff (fun past s run hall => ?_) (fun past s run hall => ?_)
    (fun past s run hall htaken hidle => ?_) (fun past s run hall htaken rest hcall => ?_)
    (fun _ _ => trivial) hstart capacity
  · exact (mpmc_good hcfg run hall).1.served
  · obtain ⟨hgood, halone⟩ := mpmc_good hcfg run hall
    exact mpmc_returns hcfg hgood halone
  · obtain ⟨a, b, hheld⟩ := (mpmc_good hcfg run hall).1.held
    simp only [State.enqueued, State.dequeued, State.view, hidle, htaken, Call.stored, Call.taken,
      List.append_nil] at hheld
    exact (hheld.fresh hcfg).2
  · obtain ⟨⟨⟨a, b, hheld⟩, -, hok⟩, -⟩ := mpmc_good hcfg run hall
    have hok' : s.call.Ok := hok
    have hsmall := hcfg.small
    rw [hcall] at hok'
    simp only [State.dequeued, State.view, hcall, htaken, Call.taken, List.append_nil] at hheld
    simp only [MpmcFits, hcall]
    intro hne
    unfold MpmcFitsEnqueue
    simp only [hok'.single hne]
    split
    · rename_i hroom
      refine ⟨by decide, ?_⟩
      change _ + 8 < 2 ^ 20
      omega
    · exact fun _ => hheld.version_fresh hcfg

/-- In the memory that was asked for, the blocks have their places, and the capacity is accepted
exactly when there is room for it. -/
theorem bbq_capacity [Inhabited α] {cacheline blockNumLog capacity : Nat} {cfg : Config} :
    (bbqMpmcInit cacheline blockNumLog (bbqMpmcMemsize cacheline blockNumLog capacity) =
        some cfg →
      (Accepts (mpmc (α := α) cfg) (MpmcFits cfg) capacity ∧
        Packed 0 (bbqMpmcMemsize cacheline blockNumLog capacity) (bbqRegions cacheline cfg) ↔
          RoomFor (4 * cacheline) blockNumLog capacity)) ∧
    (bbqSpscInit cacheline blockNumLog (bbqSpscMemsize cacheline blockNumLog capacity) =
        some cfg →
      (Accepts (spsc (α := α) cfg) (SpscFits cfg) capacity ∧
        Packed 0 (bbqSpscMemsize cacheline blockNumLog capacity) (bbqRegions cacheline cfg) ↔
          RoomFor (2 * cacheline) blockNumLog capacity)) := by
  constructor
  · intro hinit
    have hsized := bbqMpmcInit_sized hinit
    have hpacked : Packed 0 (bbqMpmcMemsize cacheline blockNumLog capacity)
        (bbqRegions cacheline cfg) := hsized.packed
    rw [mpmc_accepts_iff hsized.valid, and_iff_left hpacked]
    exact hsized.room_iff
  · intro hinit
    have hsized := bbqSpscInit_sized hinit
    have hpacked : Packed 0 (bbqSpscMemsize cacheline blockNumLog capacity)
        (bbqRegions cacheline cfg) := hsized.packed
    rw [spsc_accepts_iff hsized.valid, and_iff_left hpacked]
    exact hsized.room_iff

theorem bbq_capacity_half :
    (Accepts (mpmc (α := Nat) ⟨3, 1024, 520⟩) (MpmcFits ⟨3, 1024, 520⟩) 504 ∧
      Packed 0 (bbqMpmcMemsize 128 3 504) (bbqRegions 128 ⟨3, 1024, 520⟩) ↔
        RoomFor (4 * 128) 3 504) ∧
    (Accepts (spsc (α := Nat) ⟨3, 1024, 264⟩) (SpscFits ⟨3, 1024, 264⟩) 760 ∧
      Packed 0 (bbqSpscMemsize 128 3 760) (bbqRegions 128 ⟨3, 1024, 264⟩) ↔
        RoomFor (2 * 128) 3 760) :=
  ⟨bbq_capacity.1 (by decide +kernel), bbq_capacity.2 (by decide +kernel)⟩

/-- The share of each block fills it up to the power of two, and one entry is reserved. -/
theorem bbq_capacity_full_block :
    (bbqMpmcInit 128 3 (bbqMpmcMemsize 128 3 512) = some ⟨3, 1024, 520⟩ ∧
      ¬ Accepts (mpmc (α := Nat) ⟨3, 1024, 520⟩) (MpmcFits ⟨3, 1024, 520⟩) 512) ∧
    bbqSpscInit 128 3 (bbqSpscMemsize 128 3 768) = some ⟨3, 1024, 264⟩ ∧
      ¬ Accepts (spsc (α := Nat) ⟨3, 1024, 264⟩) (SpscFits ⟨3, 1024, 264⟩) 768 := by
  have hmpmc : bbqMpmcInit 128 3 (bbqMpmcMemsize 128 3 512) = some ⟨3, 1024, 520⟩ := by
    decide +kernel
  have hspsc : bbqSpscInit 128 3 (bbqSpscMemsize 128 3 768) = some ⟨3, 1024, 264⟩ := by
    decide +kernel
  refine ⟨⟨hmpmc, ?_⟩, hspsc, ?_⟩
  · rw [mpmc_accepts_iff (bbqMpmcInit_valid hmpmc)]
    decide +kernel
  · rw [spsc_accepts_iff (BbqSpsc.bbqSpscInit_valid hspsc)]
    decide +kernel

end Libvsync.Queue.BbqCalls
