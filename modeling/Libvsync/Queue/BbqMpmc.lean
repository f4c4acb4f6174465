import Libvsync.Queue.BbqCalls

/-!
The block-based bounded queue `bbq_mpmc` under threads. A producer takes a range of its block
with one addition to `allocated`, which may go beyond the end of the block, copies its entries
and adds the range to `committed`; a consumer takes a range with a compare-and-swap on
`reserved`, copies and adds the range to `consumed`. Who finds its block used up opens the next
one: the cursors and the two indices only grow.

The fields from `enqueued` on are not read by the code: the values with their producers, in the
order in which the places were taken, who has taken the entry of each number, and what has been
put in the buffers of each thread. In a copy, `first` is the number of its first entry.
-/

namespace Libvsync.Queue.BbqMpmc

open Libvsync.Core Function
open Libvsync.Queue.Bbq
open Libvsync.Queue.BbqSpsc (Config EnqCall DeqCall writeEntry)
open Libvsync.Queue.BbqCalls (MpmcQueue bbqResetBlockCursorHeavy mpmcInitial)

/-- Where a thread stands: the next access to the queue, with the local variables. -/
inductive Pc (α : Type) where
  | idle (ret : Nat)
  | enqWidx (call : EnqCall α)
  | enqAllocated (call : EnqCall α) (widx : Nat)
  | enqAdd (call : EnqCall α) (widx : Nat)
  | enqCopy (call : EnqCall α) (widx first space offset : Nat) (todo : List α)
  | enqConsumed (call : EnqCall α) (widx : Nat)
  | resetCommitted (call : EnqCall α) (widx : Nat)
  | resetAllocated (call : EnqCall α) (widx : Nat)
  | advanceWidx (call : EnqCall α) (widx : Nat)
  | deqRidx (call : DeqCall)
  | deqReserved (call : DeqCall) (ridx : Nat)
  | deqCommitted (call : DeqCall) (ridx reserved : Nat)
  | deqAllocated (call : DeqCall) (ridx reserved committedSpace total : Nat)
  | deqReserve (call : DeqCall) (ridx reserved total : Nat)
  | deqCopy (call : DeqCall) (ridx reserved first total : Nat) (got : List α)
  | deqNext (call : DeqCall) (ridx reserved : Nat)
  | resetConsumed (call : DeqCall) (ridx vsn : Nat)
  | resetReserved (call : DeqCall) (ridx vsn : Nat)
  | advanceRidx (call : DeqCall) (ridx : Nat)
  | assertFailed
  deriving DecidableEq

structure State (Tid α : Type) where
  queue : MpmcQueue α
  pc : Tid → Pc α
  enqueued : List (Tid × α)
  granted : List Tid
  received : Tid → List α

inductive Act (Tid α : Type) where
  | enqueue (t : Tid) (buf : List α) (wait : Bool)
  | dequeue (t : Tid) (count : Nat) (wait : Bool)
  | step (t : Tid)

variable {Tid α : Type} [DecidableEq Tid]

def State.goto (s : State Tid α) (t : Tid) (pc : Pc α) : State Tid α :=
  { s with pc := update s.pc t pc }

/-- `_bbq_mpmc_enqueue` is called. With nothing left it returns false, and so does
`bbq_mpmc_enqueue`. -/
def enterEnqueue (call : EnqCall α) : Pc α :=
  if call.rest = [] then .idle call.count else .enqWidx call

/-- The loop of `bbq_mpmc_enqueue`, after a call that returned `retry`. -/
def nextEnqueue (call : EnqCall α) (retry : Bool) : Pc α :=
  if retry || call.wait then enterEnqueue call else .idle (call.count - call.rest.length)

def enterDequeue (call : DeqCall) : Pc α :=
  if call.rest = 0 then .idle call.count else .deqRidx call

/-- The loop of `bbq_mpmc_dequeue`, after a call that returned `retry`. -/
def nextDequeue (call : DeqCall) (retry : Bool) : Pc α :=
  if retry || call.wait then enterDequeue call else .idle (call.count - call.rest)

/-- `entry_total_size` of `_bbq_mpmc_enqueue`; the count has 32 bits. -/
def entryTotalSize (count : Nat) : Nat := (count <<< bbqEntrySizeLog) % 2 ^ 32

/-- `BBQ_GET_BLOCK` and `BBQ_GET_NEXT_BLOCK`, as indices. -/
def blockOf (cfg : Config) (idx : Nat) : Nat := bbqGlobalIdx cfg.blockNumLog idx

def nextBlockOf (cfg : Config) (idx : Nat) : Nat :=
  bbqGlobalIdx cfg.blockNumLog (blockOf cfg idx + 1)

/-- The addition to `allocated`. With some space in the block, the range that was taken is
copied. -/
def allocate (cfg : Config) (s : State Tid α) (t : Tid) (call : EnqCall α) (widx : Nat) :
    State Tid α :=
  let block := blockOf cfg widx
  let oldAllocated := s.queue.allocated block
  let total := entryTotalSize call.rest.length
  let queue := { s.queue with
    allocated := update s.queue.allocated block (wadd 64 oldAllocated total) }
  let oldLocalSpace := bbqLocalIdx oldAllocated
  if oldLocalSpace < cfg.blkSize then
    let space := min total (cfg.blkSize - oldLocalSpace) % 2 ^ 16
    let values := call.rest.take (space >>> bbqEntrySizeLog)
    { s with
      queue := queue
      enqueued := s.enqueued ++ values.map (t, ·) }.goto t
        (.enqCopy call widx s.enqueued.length space oldLocalSpace values)
  else { s with queue := queue }.goto t (.enqConsumed call widx)

/-- The next step of `_bbq_mpmc_enqueue`. -/
def enqueueStep (cfg : Config) (s : State Tid α) (t : Tid) : Pc α → Option (State Tid α)
  | .enqWidx call => some (s.goto t (.enqAllocated call s.queue.widx))
  | .enqAllocated call widx =>
    if bbqLocalIdx (s.queue.allocated (blockOf cfg widx)) < cfg.blkSize then
      some (s.goto t (.enqAdd call widx))
    else some (s.goto t (.enqConsumed call widx))
  | .enqAdd call widx => some (allocate cfg s t call widx)
  | .enqCopy call widx first space offset (value :: todo) =>
    some ({ s with queue.entry := writeEntry s.queue.entry (blockOf cfg widx) offset value }.goto
      t (.enqCopy call widx first space (offset + 2 ^ bbqEntrySizeLog) todo))
  | .enqCopy call widx _ space _ [] =>
    let block := blockOf cfg widx
    let rest := call.rest.drop (space >>> bbqEntrySizeLog)
    some ({ s with
      queue.committed := update s.queue.committed block
        (wadd 64 (s.queue.committed block) space) }.goto
      t (nextEnqueue { call with rest := rest } true))
  | .enqConsumed call widx =>
    if bbqBlockFullyConsumedWithVsn (s.queue.consumed (nextBlockOf cfg widx)) cfg.blkSize
        (bbqGlobalVsn cfg.blockNumLog widx) then
      some (s.goto t (.resetCommitted call widx))
    else some (s.goto t (nextEnqueue call false))
  | .resetCommitted call widx =>
    some ({ s with
      queue.committed := bbqResetBlockCursorHeavy s.queue.committed (nextBlockOf cfg widx)
        (bbqGlobalVsn cfg.blockNumLog widx + 1) cfg.initValue }.goto t (.resetAllocated call widx))
  | .resetAllocated call widx =>
    some ({ s with
      queue.allocated := bbqResetBlockCursorHeavy s.queue.allocated (nextBlockOf cfg widx)
        (bbqGlobalVsn cfg.blockNumLog widx + 1) cfg.initValue }.goto t (.advanceWidx call widx))
  | .advanceWidx call widx =>
    some ({ s with queue.widx := max s.queue.widx (wadd 64 widx 1) }.goto t
      (nextEnqueue call true))
  | _ => none

/-- `reserved` and `committed` of the block have been read. A block that is not fully committed
must not have a range that is still being written. -/
def haveCommitted (cfg : Config) (s : State Tid α) (t : Tid) (call : DeqCall)
    (ridx reserved committed : Nat) :
    State Tid α :=
  let reservedSpace := bbqLocalIdx reserved
  let committedSpace := bbqLocalIdx committed
  if committedSpace ≤ reservedSpace then
    if reserved ≤ committed then s.goto t (nextDequeue call false) else s.goto t .assertFailed
  else
    let total := min ((call.rest <<< bbqEntrySizeLog) % 2 ^ 32) (committedSpace - reservedSpace) %
      2 ^ 16
    if committedSpace ≠ cfg.blkSize then
      s.goto t (.deqAllocated call ridx reserved committedSpace total)
    else s.goto t (.deqReserve call ridx reserved total)

/-- The next step of `_bbq_mpmc_dequeue`. -/
def dequeueStep (cfg : Config) (s : State Tid α) (t : Tid) : Pc α → Option (State Tid α)
  | .deqRidx call => some (s.goto t (.deqReserved call s.queue.ridx))
  | .deqReserved call ridx =>
    let reserved := s.queue.reserved (blockOf cfg ridx)
    if bbqLocalIdx reserved < cfg.blkSize then some (s.goto t (.deqCommitted call ridx reserved))
    else some (s.goto t (.deqNext call ridx reserved))
  | .deqCommitted call ridx reserved =>
    some (haveCommitted cfg s t call ridx reserved (s.queue.committed (blockOf cfg ridx)))
  | .deqAllocated call ridx reserved committedSpace total =>
    if bbqLocalIdx (s.queue.allocated (blockOf cfg ridx)) ≠ committedSpace then
      some (s.goto t (nextDequeue call false))
    else some (s.goto t (.deqReserve call ridx reserved total))
  | .deqReserve call ridx reserved total =>
    let block := blockOf cfg ridx
    if s.queue.reserved block = reserved then
      some ({ s with
        queue.reserved := update s.queue.reserved block (wadd 64 reserved total)
        granted := s.granted ++ List.replicate (total >>> bbqEntrySizeLog) t }.goto t
          (.deqCopy call ridx reserved s.granted.length total []))
    else some (s.goto t (nextDequeue call true))
  | .deqCopy call ridx reserved first total got =>
    let block := blockOf cfg ridx
    let offset := total >>> bbqEntrySizeLog
    if got.length < offset then
      let value := s.queue.entry block
        (bbqLocalIdx reserved + got.length * 2 ^ bbqEntrySizeLog)
      some ({ s with
        received := update s.received t (s.received t ++ [value]) }.goto t
          (.deqCopy call ridx reserved first total (got ++ [value])))
    else
      some ({ s with
        queue.consumed := update s.queue.consumed block
          (wadd 64 (s.queue.consumed block) total) }.goto t
        (nextDequeue { call with rest := call.rest - offset } true))
  | .deqNext call ridx reserved =>
    let nextConsumerVsn :=
      wsub 64 (bbqLocalVsn reserved) (if blockOf cfg ridx ≠ 0 then 1 else 0)
    if bbqLocalVsn (s.queue.committed (nextBlockOf cfg ridx)) ≠ wadd 64 nextConsumerVsn 1 then
      some (s.goto t (nextDequeue call false))
    else some (s.goto t (.resetConsumed call ridx (wadd 64 nextConsumerVsn 1)))
  | .resetConsumed call ridx vsn =>
    some ({ s with
      queue.consumed :=
        bbqResetBlockCursorHeavy s.queue.consumed (nextBlockOf cfg ridx) vsn cfg.initValue }.goto
      t (.resetReserved call ridx vsn))
  | .resetReserved call ridx vsn =>
    some ({ s with
      queue.reserved :=
        bbqResetBlockCursorHeavy s.queue.reserved (nextBlockOf cfg ridx) vsn cfg.initValue }.goto
      t (.advanceRidx call ridx))
  | .advanceRidx call ridx =>
    some ({ s with queue.ridx := max s.queue.ridx (wadd 64 ridx 1) }.goto t
      (nextDequeue call true))
  | _ => none

/-- Calls of producers and of consumers, told apart by where they stand. -/
def Pc.enqueues : Pc α → Bool
  | .enqWidx _ | .enqAllocated .. | .enqAdd .. | .enqCopy .. | .enqConsumed .. |
    .resetCommitted .. | .resetAllocated .. | .advanceWidx .. => true
  | _ => false

/-- The batches have less than `2 ^ 29` values, so that their size in bytes fits 32 bits. -/
def step (cfg : Config) (s : State Tid α) : Act Tid α → Option (State Tid α)
  | .enqueue t buf wait =>
    match s.pc t with
    | .idle _ =>
      if buf.length < 2 ^ 29 then some (s.goto t (enterEnqueue ⟨buf.length, buf, wait⟩))
      else none
    | _ => none
  | .dequeue t count wait =>
    match s.pc t with
    | .idle _ =>
      if count < 2 ^ 29 then some (s.goto t (enterDequeue ⟨count, count, wait⟩)) else none
    | _ => none
  | .step t =>
    if (s.pc t).enqueues then enqueueStep cfg s t (s.pc t) else dequeueStep cfg s t (s.pc t)

/-- The queue after `bbq_mpmc_init`. -/
structure Initial (cfg : Config) (s : State Tid α) : Prop where
  queue : ∃ entry, s.queue = mpmcInitial cfg entry
  pc : s.pc = fun _ => .idle 0
  enqueued : s.enqueued = []
  granted : s.granted = []
  received : s.received = fun _ => []

def machine (Tid α : Type) [DecidableEq Tid] (cfg : Config) :
    Machine (State Tid α) (Act Tid α) where
  start := Initial cfg
  step := step cfg

/-- `BBQ_MPMC_COUNT` -/
def bbqMpmcCount (cfg : Config) (q : MpmcQueue α) : Nat :=
  let consumedIndex := bbqLocalIdx (q.consumed (blockOf cfg q.ridx))
  let committedIndex := bbqLocalIdx (q.committed (blockOf cfg q.widx))
  wadd 64 (wsub 64 q.widx q.ridx * (cfg.blkSize - cfg.initValue) % 2 ^ 64)
    (wsub 64 committedIndex consumedIndex) >>> bbqEntrySizeLog

/-- What is added to `allocated` beyond the end of the block stays within its 20 bits, and a
block is opened with a version of at most 44 bits. -/
def fits (cfg : Config) (s : State Tid α) : Act Tid α → Bool
  | .step t =>
    match s.pc t with
    | .enqAdd call widx => bbqLocalIdx (s.queue.allocated (blockOf cfg widx)) +
        entryTotalSize call.rest.length < 2 ^ 20
    | .resetCommitted _ widx => widx / 2 ^ cfg.blockNumLog + 1 < 2 ^ 44
    | _ => true
  | _ => true

/-- The block that a consumer leaves behind has still the version that `ridx` had stood for. -/
def prompt (cfg : Config) (s : State Tid α) : Act Tid α → Bool
  | .step t =>
    match s.pc t with
    | .deqNext _ ridx reserved =>
      bbqLocalVsn reserved = (ridx + 2 ^ cfg.blockNumLog - 1) / 2 ^ cfg.blockNumLog
    | _ => true
  | _ => true

end Libvsync.Queue.BbqMpmc
