import Libvsync.Queue.BbqSpscSafe

/-!
The calls of the block-based bounded queues `bbq_spsc` and `bbq_mpmc` by one thread, none of
which waits. An attempt fills or empties the rest of one block or moves on to the next one, and
a call makes attempts until one of them returns false. An attempt that trips over an assertion
has no result.
-/

namespace Libvsync.Queue.BbqCalls

open Libvsync.Core Function
open Libvsync.Queue.Bbq
open Libvsync.Queue.BbqSpsc (Config writeEntry)

variable {α : Type}

/-- `bbq_mpmc_init` for a cache line of the given size: a block header has four fields with
a line each, and the queue three. -/
def bbqMpmcInit (cacheline blockNumLog size : Nat) : Option Config :=
  let initValue := bbqBlockInitValue (4 * cacheline)
  let blksTotalSize := wsub 64 size (3 * cacheline)
  let rounded := (blksTotalSize >>> blockNumLog) % 2 ^ 32
  if blockNumLog < bbqMinBlockNumLog ∨ bbqMaxBlockNumLog < blockNumLog then none
  else if rounded = 0 then none
  else if vPow2RoundDown rounded ≤ initValue then none
  else if vLog2 (vPow2RoundDown rounded) < bbqMinBlockSizeLog ∨
      bbqMaxBlockSizeLog ≤ vLog2 (vPow2RoundDown rounded) then none
  else some ⟨blockNumLog, vPow2RoundDown rounded, initValue⟩

/-- The values are copied to a block, from a place on. -/
def copyIn (entry : Nat → Nat → α) (block place : Nat) : List α → Nat → Nat → α
  | [] => entry
  | value :: values =>
    copyIn (writeEntry entry block place value) block (place + 2 ^ bbqEntrySizeLog) values

def copyOut (entry : Nat → Nat → α) (block place n : Nat) : List α :=
  (List.range n).map fun i => entry block (place + i * 2 ^ bbqEntrySizeLog)

structure SpscQueue (α : Type) where
  widx : Nat
  ridx : Nat
  committed : Nat → Nat
  consumed : Nat → Nat
  entry : Nat → Nat → α

/-- `_bbq_spsc_enqueue`, with `retry` and the rest of the batch. `memcpy_s` does not accept an
empty range. -/
def bbqSpscEnqueueOnce (cfg : Config) (q : SpscQueue α) (rest : List α) :
    Option (Bool × SpscQueue α × List α) :=
  if rest.length = 0 then some (false, q, rest)
  else
    let blockIdx := bbqGlobalIdx cfg.blockNumLog q.widx
    let committed := q.committed blockIdx
    let committedSpace := bbqLocalIdx committed
    let entryTotalSize := (rest.length <<< bbqEntrySizeLog) % 2 ^ 32
    if committedSpace < cfg.blkSize then
      let space := min entryTotalSize (cfg.blkSize - committedSpace) % 2 ^ 16
      if space = 0 then none
      else
        let offset := space >>> bbqEntrySizeLog
        let newCommitted := bbqLocalCompose (bbqLocalVsn committed) (committedSpace + space)
        some (true,
          { q with
            entry := copyIn q.entry blockIdx committedSpace (rest.take offset)
            committed := update q.committed blockIdx newCommitted },
          rest.drop offset)
    else
      let nblk := bbqGlobalIdx cfg.blockNumLog (blockIdx + 1)
      let globalVsn := bbqGlobalVsn cfg.blockNumLog q.widx
      if ¬ bbqBlockFullyConsumedWithVsn (q.consumed nblk) cfg.blkSize globalVsn then
        some (false, q, rest)
      else
        some (true,
          { q with
            committed := update q.committed nblk
              (bbqLocalCompose (globalVsn + 1) cfg.initValue)
            widx := wadd 64 q.widx 1 },
          rest)

/-- `_bbq_spsc_dequeue`, with `retry`, what is left of the count, and the entries. -/
def bbqSpscDequeueOnce (cfg : Config) (q : SpscQueue α) (rest : Nat) :
    Option (Bool × SpscQueue α × Nat × List α) :=
  if rest = 0 then some (false, q, rest, [])
  else
    let blockIdx := bbqGlobalIdx cfg.blockNumLog q.ridx
    let consumed := q.consumed blockIdx
    let consumedSpace := bbqLocalIdx consumed
    if consumedSpace < cfg.blkSize then
      let committedSpace := bbqLocalIdx (q.committed blockIdx)
      if committedSpace ≤ consumedSpace then
        if consumedSpace = committedSpace then some (false, q, rest, []) else none
      else
        let space := min ((rest <<< bbqEntrySizeLog) % 2 ^ 32)
          (committedSpace - consumedSpace) % 2 ^ 16
        if space = 0 then none
        else
          let offset := space >>> bbqEntrySizeLog
          some (true,
            { q with consumed := update q.consumed blockIdx (wadd 64 consumed space) },
            rest - offset, copyOut q.entry blockIdx consumedSpace offset)
    else
      let nblk := bbqGlobalIdx cfg.blockNumLog (blockIdx + 1)
      let globalVsn := bbqGlobalVsn cfg.blockNumLog q.ridx
      let nextBlockVsn := bbqLocalVsn (q.committed nblk)
      if nextBlockVsn ≠ globalVsn + 1 then some (false, q, rest, [])
      else
        some (true,
          { q with
            consumed := update q.consumed nblk
              (bbqLocalCompose (globalVsn + 1) cfg.initValue)
            ridx := wadd 64 q.ridx 1 },
          rest, [])

/-- The queue after `bbq_spsc_init`. -/
def spscInitial (cfg : Config) (entry : Nat → Nat → α) : SpscQueue α where
  widx := 0
  ridx := 0
  committed i := if i ≠ 0 then cfg.blkSize else cfg.initValue
  consumed i := if i ≠ 0 then cfg.blkSize else cfg.initValue
  entry := entry

structure MpmcQueue (α : Type) where
  widx : Nat
  ridx : Nat
  allocated : Nat → Nat
  committed : Nat → Nat
  reserved : Nat → Nat
  consumed : Nat → Nat
  entry : Nat → Nat → α

/-- `bbq_reset_block_cursor_heavy` -/
def bbqResetBlockCursorHeavy (cursors : Nat → Nat) (block newVsn initValue : Nat) : Nat → Nat :=
  update cursors block (max (cursors block) (bbqLocalCompose newVsn initValue))

/-- `_bbq_mpmc_enqueue` of a thread that runs alone: what it adds to is what it has read. -/
def bbqMpmcEnqueueOnce (cfg : Config) (q : MpmcQueue α) (rest : List α) :
    Option (Bool × MpmcQueue α × List α) :=
  if rest.length = 0 then some (false, q, rest)
  else
    let blockIdx := bbqGlobalIdx cfg.blockNumLog q.widx
    let allocated := q.allocated blockIdx
    let allocatedSpace := bbqLocalIdx allocated
    let entryTotalSize := (rest.length <<< bbqEntrySizeLog) % 2 ^ 32
    if allocatedSpace < cfg.blkSize then
      let space := min entryTotalSize (cfg.blkSize - allocatedSpace) % 2 ^ 16
      if space = 0 then none
      else
        let offset := space >>> bbqEntrySizeLog
        some (true,
          { q with
            allocated := update q.allocated blockIdx (wadd 64 allocated entryTotalSize)
            entry := copyIn q.entry blockIdx allocatedSpace (rest.take offset)
            committed :=
              update q.committed blockIdx (wadd 64 (q.committed blockIdx) space) },
          rest.drop offset)
    else
      let nblk := bbqGlobalIdx cfg.blockNumLog (blockIdx + 1)
      let globalVsn := bbqGlobalVsn cfg.blockNumLog q.widx
      if ¬ bbqBlockFullyConsumedWithVsn (q.consumed nblk) cfg.blkSize globalVsn then
        some (false, q, rest)
      else
        some (true,
          { q with
            committed := bbqResetBlockCursorHeavy q.committed nblk (globalVsn + 1) cfg.initValue
            allocated := bbqResetBlockCursorHeavy q.allocated nblk (globalVsn + 1) cfg.initValue
            widx := max q.widx (wadd 64 q.widx 1) },
          rest)

/-- `_bbq_mpmc_dequeue` of a thread that runs alone: the compare-and-swap succeeds. -/
def bbqMpmcDequeueOnce (cfg : Config) (q : MpmcQueue α) (rest : Nat) :
    Option (Bool × MpmcQueue α × Nat × List α) :=
  if rest = 0 then some (false, q, rest, [])
  else
    let blockIdx := bbqGlobalIdx cfg.blockNumLog q.ridx
    let reserved := q.reserved blockIdx
    let reservedSpace := bbqLocalIdx reserved
    if reservedSpace < cfg.blkSize then
      let committed := q.committed blockIdx
      let committedSpace := bbqLocalIdx committed
      if committedSpace ≤ reservedSpace then
        if reserved ≤ committed then some (false, q, rest, []) else none
      else
        let entryTotalSize := min ((rest <<< bbqEntrySizeLog) % 2 ^ 32)
          (committedSpace - reservedSpace) % 2 ^ 16
        if committedSpace ≠ cfg.blkSize ∧
            bbqLocalIdx (q.allocated blockIdx) ≠ committedSpace then
          some (false, q, rest, [])
        else if entryTotalSize = 0 then none
        else
          let offset := entryTotalSize >>> bbqEntrySizeLog
          some (true,
            { q with
              reserved := update q.reserved blockIdx (wadd 64 reserved entryTotalSize)
              consumed := update q.consumed blockIdx
                (wadd 64 (q.consumed blockIdx) entryTotalSize) },
            rest - offset, copyOut q.entry blockIdx reservedSpace offset)
    else
      let nblk := bbqGlobalIdx cfg.blockNumLog (blockIdx + 1)
      let nextConsumerVsn := wsub 64 (bbqLocalVsn reserved) (if blockIdx ≠ 0 then 1 else 0)
      let nextProducerVsn := bbqLocalVsn (q.committed nblk)
      if nextProducerVsn ≠ wadd 64 nextConsumerVsn 1 then some (false, q, rest, [])
      else
        some (true,
          { q with
            consumed :=
              bbqResetBlockCursorHeavy q.consumed nblk (wadd 64 nextConsumerVsn 1) cfg.initValue
            reserved :=
              bbqResetBlockCursorHeavy q.reserved nblk (wadd 64 nextConsumerVsn 1) cfg.initValue
            ridx := max q.ridx (wadd 64 q.ridx 1) },
          rest, [])

/-- The queue after `bbq_mpmc_init`. -/
def mpmcInitial (cfg : Config) (entry : Nat → Nat → α) : MpmcQueue α where
  widx := 0
  ridx := 0
  allocated i := if i ≠ 0 then cfg.blkSize else cfg.initValue
  committed i := if i ≠ 0 then cfg.blkSize else cfg.initValue
  reserved i := if i ≠ 0 then cfg.blkSize else cfg.initValue
  consumed i := if i ≠ 0 then cfg.blkSize else cfg.initValue
  entry := entry

/-- What the two queues do differently. -/
structure Variant (Q α : Type) where
  start : Q → Prop
  enqueueOnce : Q → List α → Option (Bool × Q × List α)
  dequeueOnce : Q → Nat → Option (Bool × Q × Nat × List α)

/-- The local variables of the call that runs; `got` is what a dequeue has put into its
buffer. -/
inductive Call (α : Type) where
  | idle
  | enqueue (buf rest : List α)
  | dequeue (count rest : Nat) (got : List α)
  deriving DecidableEq

/-- A call that has returned, with the number that it returned. -/
inductive Done (α : Type) where
  | enqueue (buf : List α) (ret : Nat)
  | dequeue (count : Nat) (got : List α) (ret : Nat)
  deriving DecidableEq

/-- The calls that have returned are listed newest first. -/
structure State (Q α : Type) where
  queue : Q
  call : Call α
  log : List (Done α)

inductive Act (α : Type) where
  | enqueue (buf : List α)
  | dequeue (count : Nat)
  | attempt

variable {Q : Type}

/-- The loop of `bbq_spsc_enqueue` and `bbq_mpmc_enqueue` after an attempt. -/
def enqueueNext (s : State Q α) (buf : List α) : Bool × Q × List α → State Q α
  | (true, q, rest) => { s with queue := q, call := .enqueue buf rest }
  | (false, q, rest) =>
    { queue := q, call := .idle, log := .enqueue buf (buf.length - rest.length) :: s.log }

/-- The loop of `bbq_spsc_dequeue` and `bbq_mpmc_dequeue` after an attempt. -/
def dequeueNext (s : State Q α) (count : Nat) (got : List α) :
    Bool × Q × Nat × List α → State Q α
  | (true, q, rest, more) => { s with queue := q, call := .dequeue count rest (got ++ more) }
  | (false, q, rest, more) =>
    { queue := q, call := .idle, log := .dequeue count (got ++ more) (count - rest) :: s.log }

/-- The counts are 32-bit numbers. -/
def step (v : Variant Q α) (s : State Q α) : Act α → Option (State Q α)
  | .enqueue buf =>
    match s.call with
    | .idle => if buf.length < 2 ^ 32 then some { s with call := .enqueue buf buf } else none
    | _ => none
  | .dequeue count =>
    match s.call with
    | .idle => if count < 2 ^ 32 then some { s with call := .dequeue count count [] } else none
    | _ => none
  | .attempt =>
    match s.call with
    | .idle => none
    | .enqueue buf rest => (v.enqueueOnce s.queue rest).map (enqueueNext s buf)
    | .dequeue count rest got => (v.dequeueOnce s.queue rest).map (dequeueNext s count got)

def machine (v : Variant Q α) : Machine (State Q α) (Act α) where
  start s := v.start s.queue ∧ s.call = .idle ∧ s.log = []
  step := step v

def spsc (cfg : Config) : Variant (SpscQueue α) α where
  start q := ∃ entry, q = spscInitial cfg entry
  enqueueOnce := bbqSpscEnqueueOnce cfg
  dequeueOnce := bbqSpscDequeueOnce cfg

def mpmc (cfg : Config) : Variant (MpmcQueue α) α where
  start q := ∃ entry, q = mpmcInitial cfg entry
  enqueueOnce := bbqMpmcEnqueueOnce cfg
  dequeueOnce := bbqMpmcDequeueOnce cfg

/-- What was stored by a list of calls. -/
def stored : List (Done α) → List α
  | [] => []
  | .enqueue buf ret :: log => stored log ++ buf.take ret
  | .dequeue .. :: log => stored log

/-- What was returned by a list of calls. -/
def taken : List (Done α) → List α
  | [] => []
  | .enqueue .. :: log => taken log
  | .dequeue _ got _ :: log => taken log ++ got

/-- Every place is used up to the block of the oldest value that was not dequeued: blocks are used
in turn, and a block is free again only when all of its values are dequeued. -/
def NoFreeBlock (cfg : Config) (enqueued dequeued : List α) : Prop :=
  enqueued.length = (dequeued.length / cfg.entries + cfg.blocks) * cfg.entries

/-- A call did what it should, after the calls of the list. -/
def Serves (cfg : Config) (log : List (Done α)) : Done α → Prop
  | .enqueue buf ret =>
    ret ≤ buf.length ∧
      (ret < buf.length → NoFreeBlock cfg (stored log ++ buf.take ret) (taken log))
  | .dequeue count got ret =>
    got = ((stored log).drop (taken log).length).take count ∧ ret = got.length

def AllServed (cfg : Config) : List (Done α) → Prop
  | [] => True
  | call :: log => Serves cfg log call ∧ AllServed cfg log

/-- What the call that runs has stored. -/
def Call.stored : Call α → List α
  | .enqueue buf rest => buf.take (buf.length - rest.length)
  | _ => []

/-- What the call that runs has taken. -/
def Call.taken : Call α → List α
  | .dequeue _ _ got => got
  | _ => []

/-- All values that were stored, by the calls that have returned and the one that runs. -/
def State.enqueued (s : State Q α) : List α := stored s.log ++ s.call.stored

def State.dequeued (s : State Q α) : List α := taken s.log ++ s.call.taken

end Libvsync.Queue.BbqCalls
