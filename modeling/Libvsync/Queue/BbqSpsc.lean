import Libvsync.Core.Machine
import Libvsync.Queue.BbqCommon

/-!
The block-based bounded queue `bbq_spsc`, with one producer and one consumer. Each side
walks through the blocks with an index of its own. The producer opens a block by writing
the cursor `committed` of it with a new version, and the consumer follows by writing the
cursor `consumed`. The entries are copied one by one.

`enqueued` and `dequeued` are not read by the code: they are the values that were
committed and the values that were consumed.
-/

namespace Libvsync.Queue.BbqSpsc

open Libvsync.Core Function
open Libvsync.Queue.Bbq

/-- What `bbq_spsc_init` fixes: `BBQ_BLOCK_NUM_LOG`, the size of a block and
`BBQ_BLOCK_SPSC_INIT_VALUE`. -/
structure Config where
  blockNumLog : Nat
  blkSize : Nat
  initValue : Nat
  deriving DecidableEq

/-- `bbq_spsc_init` for a cache line of the given size: a block header has two fields with
a line each, and the queue three. `v_pow2_round_down` takes 32 bits, and not zero. -/
def bbqSpscInit (cacheline blockNumLog size : Nat) : Option Config :=
  let initValue := bbqBlockInitValue (2 * cacheline)
  let blksTotalSize := wsub 64 size (3 * cacheline)
  let rounded := (blksTotalSize >>> blockNumLog) % 2 ^ 32
  if blockNumLog < bbqMinBlockNumLog ∨ bbqMaxBlockNumLog < blockNumLog then none
  else if rounded = 0 then none
  else if vPow2RoundDown rounded ≤ initValue then none
  else if vLog2 (vPow2RoundDown rounded) < bbqMinBlockSizeLog ∨
      bbqMaxBlockSizeLog ≤ vLog2 (vPow2RoundDown rounded) then none
  else some ⟨blockNumLog, vPow2RoundDown rounded, initValue⟩

/-- The local variables of `bbq_spsc_enqueue`. -/
structure EnqCall (α : Type) where
  count : Nat
  rest : List α
  wait : Bool
  deriving DecidableEq

/-- The local variables of `bbq_spsc_dequeue`. -/
structure DeqCall where
  count : Nat
  rest : Nat
  wait : Bool
  deriving DecidableEq

/-- Where the producer stands: the next access to the queue, with the local variables.
`offset` is the place of the next entry of `todo`. -/
inductive ProdPc (α : Type) where
  | idle (ret : Nat)
  | readCommitted (call : EnqCall α)
  | copy (call : EnqCall α) (committed space offset : Nat) (todo : List α)
  | readConsumed (call : EnqCall α)
  | advance (call : EnqCall α)
  deriving DecidableEq

/-- Where the consumer stands. `got` are the entries that were copied. -/
inductive ConsPc (α : Type) where
  | idle (ret : Nat)
  | readConsumed (call : DeqCall)
  | readCommitted (call : DeqCall) (consumed : Nat)
  | copy (call : DeqCall) (consumed space : Nat) (got : List α)
  | readNext (call : DeqCall)
  | advance (call : DeqCall)
  | assertFailed
  deriving DecidableEq

/-- The blocks are given by their index, and the entries of a block by their place in
bytes. -/
structure State (α : Type) where
  widx : Nat
  ridx : Nat
  committed : Nat → Nat
  consumed : Nat → Nat
  entry : Nat → Nat → α
  prod : ProdPc α
  cons : ConsPc α
  enqueued : List α
  dequeued : List α

inductive Act (α : Type) where
  | enqueue (buf : List α) (wait : Bool)
  | dequeue (count : Nat) (wait : Bool)
  | prod
  | cons

variable {α : Type}

/-- `_bbq_spsc_enqueue` is called. With nothing left it returns false, and so does
`bbq_spsc_enqueue`. -/
def EnqCall.enter (call : EnqCall α) : ProdPc α :=
  if call.rest = [] then .idle call.count else .readCommitted call

/-- The loop of `bbq_spsc_enqueue`, after a call that returned `retry`. -/
def EnqCall.next (call : EnqCall α) (retry : Bool) : ProdPc α :=
  if retry || call.wait then call.enter else .idle (call.count - call.rest.length)

def DeqCall.enter (call : DeqCall) : ConsPc α :=
  if call.rest = 0 then .idle call.count else .readConsumed call

/-- The loop of `bbq_spsc_dequeue`, after a call that returned `retry`. -/
def DeqCall.next (call : DeqCall) (retry : Bool) : ConsPc α :=
  if retry || call.wait then call.enter else .idle (call.count - call.rest)

def writeEntry (entry : Nat → Nat → α) (block place : Nat) (value : α) : Nat → Nat → α :=
  update entry block (update (entry block) place value)

/-- The next step of `_bbq_spsc_enqueue`. -/
def enqueueStep (cfg : Config) (s : State α) : Option (State α) :=
  let blockIdx := bbqGlobalIdx cfg.blockNumLog s.widx
  let nblk := bbqGlobalIdx cfg.blockNumLog (blockIdx + 1)
  let globalVsn := bbqGlobalVsn cfg.blockNumLog s.widx
  match s.prod with
  | .idle _ => none
  | .readCommitted call =>
    let committed := s.committed blockIdx
    let committedSpace := bbqLocalIdx committed
    let entryTotalSize := (call.rest.length <<< bbqEntrySizeLog) % 2 ^ 32
    if committedSpace < cfg.blkSize then
      let space := min entryTotalSize (cfg.blkSize - committedSpace) % 2 ^ 16
      some { s with
        prod := .copy call committed space committedSpace
          (call.rest.take (space >>> bbqEntrySizeLog)) }
    else some { s with prod := .readConsumed call }
  | .copy call committed space offset (value :: todo) =>
    some { s with
      entry := writeEntry s.entry blockIdx offset value
      prod := .copy call committed space (offset + 2 ^ bbqEntrySizeLog) todo }
  | .copy call committed space _ [] =>
    let newCommitted :=
      bbqLocalCompose (bbqLocalVsn committed) (bbqLocalIdx committed + space)
    let offset := space >>> bbqEntrySizeLog
    some { s with
      committed := update s.committed blockIdx newCommitted
      enqueued := s.enqueued ++ call.rest.take offset
      prod := { call with rest := call.rest.drop offset }.next true }
  | .readConsumed call =>
    if bbqBlockFullyConsumedWithVsn (s.consumed nblk) cfg.blkSize globalVsn then
      some { s with prod := .advance call }
    else some { s with prod := call.next false }
  | .advance call =>
    some { s with
      committed := update s.committed nblk
        (bbqLocalCompose (globalVsn + 1) cfg.initValue)
      widx := wadd 64 s.widx 1
      prod := call.next true }

/-- The next step of `_bbq_spsc_dequeue`. -/
def dequeueStep (cfg : Config) (s : State α) : Option (State α) :=
  let blockIdx := bbqGlobalIdx cfg.blockNumLog s.ridx
  let nblk := bbqGlobalIdx cfg.blockNumLog (blockIdx + 1)
  let globalVsn := bbqGlobalVsn cfg.blockNumLog s.ridx
  match s.cons with
  | .idle _ => none
  | .assertFailed => none
  | .readConsumed call =>
    let consumed := s.consumed blockIdx
    if bbqLocalIdx consumed < cfg.blkSize then
      some { s with cons := .readCommitted call consumed }
    else some { s with cons := .readNext call }
  | .readCommitted call consumed =>
    let consumedSpace := bbqLocalIdx consumed
    let committedSpace := bbqLocalIdx (s.committed blockIdx)
    if committedSpace ≤ consumedSpace then
      if consumedSpace = committedSpace then some { s with cons := call.next false }
      else some { s with cons := .assertFailed }
    else
      let space := min ((call.rest <<< bbqEntrySizeLog) % 2 ^ 32)
        (committedSpace - consumedSpace) % 2 ^ 16
      some { s with cons := .copy call consumed space [] }
  | .copy call consumed space got =>
    let offset := space >>> bbqEntrySizeLog
    if got.length < offset then
      let value := s.entry blockIdx (bbqLocalIdx consumed + got.length * 2 ^ bbqEntrySizeLog)
      some { s with cons := .copy call consumed space (got ++ [value]) }
    else
      some { s with
        consumed := update s.consumed blockIdx (wadd 64 consumed space)
        dequeued := s.dequeued ++ got
        cons := { call with rest := call.rest - offset }.next true }
  | .readNext call =>
    if bbqLocalVsn (s.committed nblk) ≠ globalVsn + 1 then
      some { s with cons := call.next false }
    else some { s with cons := .advance call }
  | .advance call =>
    some { s with
      consumed := update s.consumed nblk
        (bbqLocalCompose (globalVsn + 1) cfg.initValue)
      ridx := wadd 64 s.ridx 1
      cons := call.next true }

/-- The batches have less than `2 ^ 29` values, so that their size in bytes fits 32 bits. -/
def step (cfg : Config) (s : State α) : Act α → Option (State α)
  | .enqueue buf wait =>
    match s.prod with
    | .idle _ =>
      if buf.length < 2 ^ 29 then
        some { s with prod := (EnqCall.mk buf.length buf wait).enter }
      else none
    | _ => none
  | .dequeue count wait =>
    match s.cons with
    | .idle _ =>
      if count < 2 ^ 29 then
        some { s with cons := (DeqCall.mk count count wait).enter }
      else none
    | _ => none
  | .prod => enqueueStep cfg s
  | .cons => dequeueStep cfg s

/-- The queue after `bbq_spsc_init`: the blocks but the first one are in the state that
follows their full use. -/
def initial (cfg : Config) (entry : Nat → Nat → α) : State α where
  widx := 0
  ridx := 0
  committed i := if i ≠ 0 then cfg.blkSize else cfg.initValue
  consumed i := if i ≠ 0 then cfg.blkSize else cfg.initValue
  entry := entry
  prod := .idle 0
  cons := .idle 0
  enqueued := []
  dequeued := []

def machine (α : Type) (cfg : Config) : Machine (State α) (Act α) where
  start s := ∃ entry, s = initial cfg entry
  step := step cfg

/-- `BBQ_SPSC_COUNT` -/
def bbqSpscCount (cfg : Config) (s : State α) : Nat :=
  let consumedIndex := bbqLocalIdx (s.consumed (bbqGlobalIdx cfg.blockNumLog s.ridx))
  let committedIndex := bbqLocalIdx (s.committed (bbqGlobalIdx cfg.blockNumLog s.widx))
  wadd 64 (wsub 64 s.widx s.ridx * (cfg.blkSize - cfg.initValue) % 2 ^ 64)
    (wsub 64 committedIndex consumedIndex) >>> bbqEntrySizeLog

end Libvsync.Queue.BbqSpsc
