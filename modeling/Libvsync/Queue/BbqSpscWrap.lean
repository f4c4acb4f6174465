import Libvsync.Queue.BbqSpscSafe

/-!
A run of `bbq_spsc` in which the version does not fit its 44 bits. With one block, every
round of the producer and the consumer uses the next version. After `2 ^ 44` rounds the
new version is 0: the consumer waits for `2 ^ 44` and stays in its block, while the
producer takes the higher version of the cursor `consumed` for a later one, and opens the
block again although nothing of it was consumed.
-/

namespace Libvsync.Queue.BbqSpsc

open Libvsync.Core Function
open Libvsync.Queue.Bbq

variable {α : Type} {cfg : Config} {s : State α} {past : List (State α × Act α)}

theorem globalIdx_one (hone : cfg.blockNumLog = 0) (v : Nat) :
    bbqGlobalIdx cfg.blockNumLog v = 0 := by
  rw [bbqGlobalIdx_eq, hone, Nat.pow_zero, Nat.mod_one]

theorem globalVsn_one (hone : cfg.blockNumLog = 0) (v : Nat) :
    bbqGlobalVsn cfg.blockNumLog v = v % 2 ^ 44 := by
  rw [bbqGlobalVsn_eq, hone, Nat.pow_zero, Nat.div_one]

theorem compose_mod (v : Nat) {l : Nat} (hl : l < 2 ^ 20) :
    bbqLocalCompose (v % 2 ^ 44) l = bbqLocalCompose v l := by
  rw [bbqLocalCompose_eq _ hl, bbqLocalCompose_eq _ hl, Nat.mod_mod]

theorem run_write {call : EnqCall α} {committed space offset : Nat} {todo : List α}
    (run : (machine α cfg).Run past s)
    (hat : s.prod = .copy call committed space offset todo) :
    ∃ past' entry offset', (machine α cfg).Run past'
      { s with entry := entry, prod := .copy call committed space offset' [] } := by
  induction todo generalizing s past offset with
  | nil =>
    refine ⟨past, s.entry, offset, ?_⟩
    rw [← hat]
    exact run
  | cons value todo ih =>
    have hstep : (machine α cfg).step s .prod = some { s with
        entry := writeEntry s.entry (bbqGlobalIdx cfg.blockNumLog s.widx) offset value
        prod := .copy call committed space (offset + 2 ^ bbqEntrySizeLog) todo } := by
      simp only [machine, step, enqueueStep, hat]
    obtain ⟨past', entry, offset', run'⟩ := ih (run.step hstep) rfl
    exact ⟨past', entry, offset', run'⟩

theorem run_read {call : DeqCall} {consumed n k : Nat} {got : List α}
    (run : (machine α cfg).Run past s) (hat : s.cons = .copy call consumed (8 * n) got)
    (hgot : got.length + k = n) :
    ∃ past' got', got'.length = n ∧
      (machine α cfg).Run past' { s with cons := .copy call consumed (8 * n) got' } := by
  induction k generalizing s past got with
  | zero =>
    refine ⟨past, got, hgot, ?_⟩
    rw [← hat]
    exact run
  | succ k ih =>
    have hstep : (machine α cfg).step s .cons = some { s with
        cons := .copy call consumed (8 * n) (got ++ [s.entry
          (bbqGlobalIdx cfg.blockNumLog s.ridx)
            (bbqLocalIdx consumed + got.length * 2 ^ bbqEntrySizeLog)]) } := by
      simp only [machine, step, dequeueStep, hat, shiftRight_entrySize]
      rw [if_pos (by omega)]
    obtain ⟨past', got', hlength, run'⟩ := ih (run.step hstep) rfl (by
      rw [List.length_append, List.length_singleton]
      omega)
    exact ⟨past', got', hlength, run'⟩

section Rounds

variable (hcfg : cfg.Valid)
include hcfg

theorem run_enqueue {m : Nat} (run : (machine α cfg).Run past s) (hprod : ∃ ret, s.prod = .idle ret)
    (value : α) (hm : 0 < m) (hle : m ≤ cfg.entries) :
    ∃ past' call, call.rest = List.replicate m value ∧
      (machine α cfg).Run past' { s with prod := .readCommitted call } := by
  have hsize := hcfg.size
  have hsmall := hcfg.small
  obtain ⟨ret, hprod⟩ := hprod
  have hlength : (List.replicate m value).length < 2 ^ 29 := by
    rw [List.length_replicate]
    omega
  have hne : List.replicate m value ≠ [] := by
    rw [Ne, List.replicate_eq_nil_iff]
    omega
  refine ⟨_, ⟨(List.replicate m value).length, _, false⟩, rfl,
    run.step (a := .enqueue (List.replicate m value) false) ?_⟩
  simp only [machine, step, hprod, if_pos hlength, EnqCall.enter, if_neg hne]

theorem run_dequeue (run : (machine α cfg).Run past s) (hcons : ∃ ret, s.cons = .idle ret) :
    ∃ past' call, call.rest = cfg.entries ∧
      (machine α cfg).Run past' { s with cons := .readConsumed call } := by
  have hsize := hcfg.size
  have hsmall := hcfg.small
  have hpos := hcfg.entries
  obtain ⟨ret, hcons⟩ := hcons
  refine ⟨_, ⟨cfg.entries, cfg.entries, false⟩, rfl, run.step (a := .dequeue cfg.entries false) ?_⟩
  simp only [machine, step, hcons, if_pos (show cfg.entries < 2 ^ 29 by omega), DeqCall.enter,
    if_neg (show cfg.entries ≠ 0 by omega)]

variable (hone : cfg.blockNumLog = 0)
include hone

theorem run_fill {call : EnqCall α} {v : Nat} (run : (machine α cfg).Run past s)
    (hat : s.prod = .readCommitted call)
    (hcommitted : s.committed 0 = bbqLocalCompose v cfg.initValue)
    (hcall : call.rest.length = cfg.entries) :
    ∃ past' entry, (machine α cfg).Run past' { s with
      entry := entry
      committed := update s.committed 0 (bbqLocalCompose v cfg.blkSize)
      enqueued := s.enqueued ++ call.rest
      prod := .idle call.count } := by
  have hsize := hcfg.size
  have hsmall := hcfg.small
  have hpos := hcfg.entries
  have hroom : cfg.blkSize - cfg.initValue = 8 * cfg.entries := by omega
  have hspace : min ((call.rest.length <<< bbqEntrySizeLog) % 2 ^ 32) (8 * cfg.entries) % 2 ^ 16 =
      8 * cfg.entries := by
    rw [space_eq (by omega) (by omega), hcall, Nat.min_self]
  have hread : (machine α cfg).step s .prod = some { s with
      prod := .copy call (bbqLocalCompose v cfg.initValue) (8 * cfg.entries) cfg.initValue
        call.rest } := by
    simp only [machine, step, enqueueStep, hat, globalIdx_one hone, hcommitted,
      bbqLocalIdx_compose v (show cfg.initValue < 2 ^ 20 by omega), hroom, hspace,
      shiftRight_entrySize]
    rw [if_pos (by omega), List.take_of_length_le hcall.le]
  have run' := run.step hread
  obtain ⟨past', entry, offset, run''⟩ := run_write run' rfl
  refine ⟨_, entry, run''.step (a := .prod) ?_⟩
  simp only [machine, step, enqueueStep, globalIdx_one hone, shiftRight_entrySize,
    bbqLocalIdx_compose v (show cfg.initValue < 2 ^ 20 by omega),
    bbqLocalVsn_compose v (show cfg.initValue < 2 ^ 20 by omega)]
  rw [compose_mod v (by omega), ← hsize, List.take_of_length_le hcall.le,
    List.drop_of_length_le hcall.le]
  rfl

theorem run_open {call : EnqCall α} {v w : Nat} (run : (machine α cfg).Run past s)
    (hat : s.prod = .readCommitted call) (hne : call.rest ≠ [])
    (hcommitted : s.committed 0 = bbqLocalCompose v cfg.blkSize)
    (hconsumed : s.consumed 0 = bbqLocalCompose w cfg.blkSize)
    (hfully : w % 2 ^ 44 = s.widx % 2 ^ 44 ∨ s.widx % 2 ^ 44 < w % 2 ^ 44) :
    ∃ past', (machine α cfg).Run past' { s with
      committed := update s.committed 0
        (bbqLocalCompose (s.widx % 2 ^ 44 + 1) cfg.initValue)
      widx := wadd 64 s.widx 1
      prod := .readCommitted call } := by
  have hsmall := hcfg.small
  have hread : (machine α cfg).step s .prod = some { s with prod := .readConsumed call } := by
    simp only [machine, step, enqueueStep, hat, globalIdx_one hone, hcommitted,
      bbqLocalIdx_compose v (show cfg.blkSize < 2 ^ 20 by omega)]
    rw [if_neg (lt_irrefl _)]
  have hcheck : bbqBlockFullyConsumedWithVsn (bbqLocalCompose w cfg.blkSize) cfg.blkSize
      (s.widx % 2 ^ 44) := by
    rw [bbqBlockFullyConsumedWithVsn, bbqLocalIdx_compose _ (by omega),
      bbqLocalVsn_compose _ (by omega)]
    exact hfully.imp (fun heq => ⟨rfl, heq⟩) id
  have hopen : (machine α cfg).step { s with prod := .readConsumed call } .prod =
      some { s with prod := .advance call } := by
    simp only [machine, step, enqueueStep, globalIdx_one hone, globalVsn_one hone, hconsumed]
    rw [if_pos hcheck]
  refine ⟨_, ((run.step hread).step hopen).step (a := .prod) ?_⟩
  simp only [machine, step, enqueueStep, globalIdx_one hone, globalVsn_one hone, EnqCall.next,
    EnqCall.enter, Bool.true_or, if_true, if_neg hne]

theorem run_drain {call : DeqCall} {v w : Nat} (run : (machine α cfg).Run past s)
    (hat : s.cons = .readConsumed call)
    (hconsumed : s.consumed 0 = bbqLocalCompose v cfg.initValue)
    (hcommitted : s.committed 0 = bbqLocalCompose w cfg.blkSize)
    (hcall : call.rest = cfg.entries) :
    ∃ past' got, got.length = cfg.entries ∧ (machine α cfg).Run past' { s with
      consumed := update s.consumed 0 (bbqLocalCompose v cfg.blkSize)
      dequeued := s.dequeued ++ got
      cons := .idle call.count } := by
  have hsize := hcfg.size
  have hsmall := hcfg.small
  have hpos := hcfg.entries
  have hroom : cfg.blkSize - cfg.initValue = 8 * cfg.entries := by omega
  have hspace : min ((call.rest <<< bbqEntrySizeLog) % 2 ^ 32) (8 * cfg.entries) % 2 ^ 16 =
      8 * cfg.entries := by
    rw [space_eq (by omega) (by omega), hcall, Nat.min_self]
  have hidx : bbqLocalIdx (bbqLocalCompose v cfg.initValue) = cfg.initValue :=
    bbqLocalIdx_compose v (by omega)
  have hfirst : (machine α cfg).step s .cons =
      some { s with cons := .readCommitted call (bbqLocalCompose v cfg.initValue) } := by
    simp only [machine, step, dequeueStep, hat, globalIdx_one hone, hconsumed, hidx]
    rw [if_pos (by omega)]
  have hsecond : (machine α cfg).step
      { s with cons := .readCommitted call (bbqLocalCompose v cfg.initValue) } .cons = some { s with
        cons := .copy call (bbqLocalCompose v cfg.initValue) (8 * cfg.entries) [] } := by
    simp only [machine, step, dequeueStep, globalIdx_one hone, hcommitted, hidx,
      bbqLocalIdx_compose w (show cfg.blkSize < 2 ^ 20 by omega), hroom, hspace]
    rw [if_neg (by omega)]
  obtain ⟨past', got, hgot, run₃⟩ :=
    run_read (k := cfg.entries) ((run.step hfirst).step hsecond) rfl (Nat.zero_add _)
  refine ⟨_, got, hgot, run₃.step (a := .cons) ?_⟩
  simp only [machine, step, dequeueStep, globalIdx_one hone, shiftRight_entrySize, hgot]
  rw [if_neg (lt_irrefl _), wadd_compose v (by omega), ← hsize, hcall, Nat.sub_self]
  rfl

/-- The consumer follows into the block when it finds the version after its own. -/
theorem run_follow {call : DeqCall} {v : Nat} (run : (machine α cfg).Run past s)
    (hat : s.cons = .readConsumed call) (hne : call.rest ≠ 0)
    (hconsumed : s.consumed 0 = bbqLocalCompose v cfg.blkSize)
    (hvsn : bbqLocalVsn (s.committed 0) = s.ridx % 2 ^ 44 + 1) :
    ∃ past', (machine α cfg).Run past' { s with
      consumed := update s.consumed 0
        (bbqLocalCompose (s.ridx % 2 ^ 44 + 1) cfg.initValue)
      ridx := wadd 64 s.ridx 1
      cons := .readConsumed call } := by
  have hsmall := hcfg.small
  have hfirst : (machine α cfg).step s .cons = some { s with cons := .readNext call } := by
    simp only [machine, step, dequeueStep, hat, globalIdx_one hone, hconsumed,
      bbqLocalIdx_compose v (show cfg.blkSize < 2 ^ 20 by omega)]
    rw [if_neg (lt_irrefl _)]
  have hsecond : (machine α cfg).step { s with cons := .readNext call } .cons =
      some { s with cons := .advance call } := by
    simp only [machine, step, dequeueStep, globalIdx_one hone, globalVsn_one hone, hvsn]
    rw [if_neg (not_not.mpr rfl)]
  refine ⟨_, ((run.step hfirst).step hsecond).step (a := .cons) ?_⟩
  simp only [machine, step, dequeueStep, globalIdx_one hone, globalVsn_one hone, DeqCall.next,
    DeqCall.enter, Bool.true_or, if_true, if_neg hne]

end Rounds

/-- A round ended: block 0 has version `n`, and is full and consumed. -/
structure Round (cfg : Config) (n : Nat) (s : State α) : Prop where
  widx : s.widx = n
  ridx : s.ridx = n
  committed : s.committed 0 = bbqLocalCompose n cfg.blkSize
  consumed : s.consumed 0 = bbqLocalCompose n cfg.blkSize
  prod : ∃ ret, s.prod = .idle ret
  cons : ∃ ret, s.cons = .idle ret
  enqueued : s.enqueued.length = (n + 1) * cfg.entries
  dequeued : s.dequeued.length = (n + 1) * cfg.entries

theorem round_zero (hcfg : cfg.Valid) (hone : cfg.blockNumLog = 0) (value : α) :
    ∃ past s, (machine α cfg).Run past s ∧ Round cfg 0 s := by
  have hsize := hcfg.size
  have hsmall := hcfg.small
  have hinit : cfg.initValue = bbqLocalCompose 0 cfg.initValue := by
    rw [bbqLocalCompose_eq _ (by omega)]
    omega
  have run₀ : (machine α cfg).Run [] (initial cfg fun _ _ => value) := .start ⟨_, rfl⟩
  obtain ⟨past₁, call, hcall, run₁⟩ :=
    run_enqueue hcfg run₀ ⟨0, rfl⟩ value hcfg.entries (le_refl _)
  have hlength : call.rest.length = cfg.entries := by rw [hcall, List.length_replicate]
  obtain ⟨past₂, entry, run₂⟩ := run_fill hcfg hone run₁ rfl hinit hlength
  obtain ⟨past₃, call', hcall', run₃⟩ := run_dequeue hcfg run₂ ⟨0, rfl⟩
  obtain ⟨past₄, got, hgot, run₄⟩ :=
    run_drain (w := 0) hcfg hone run₃ rfl hinit (by simp only [update_self]) hcall'
  refine ⟨_, _, run₄, rfl, rfl, by simp only [update_self],
    by simp only [update_self], ⟨_, rfl⟩, ⟨_, rfl⟩, ?_, ?_⟩
  · change ([] ++ call.rest).length = _
    rw [List.nil_append, hlength, Nat.zero_add, Nat.one_mul]
  · change ([] ++ got).length = _
    rw [List.nil_append, hgot, Nat.zero_add, Nat.one_mul]

/-- The producer opens and fills its block once more. -/
theorem Round.fill {n : Nat} (h : Round cfg n s) (hcfg : cfg.Valid) (hone : cfg.blockNumLog = 0)
    (value : α) (hn : n < 2 ^ 44) (run : (machine α cfg).Run past s) :
    ∃ past' s', (machine α cfg).Run past' s' ∧ s'.widx = n + 1 ∧ s'.ridx = n ∧
      s'.committed 0 = bbqLocalCompose (n + 1) cfg.blkSize ∧ s'.consumed = s.consumed ∧
        (∃ ret, s'.prod = .idle ret) ∧ s'.cons = s.cons ∧
          s'.enqueued.length = (n + 1 + 1) * cfg.entries ∧ s'.dequeued = s.dequeued := by
  obtain ⟨past₁, call, hcall, run₁⟩ :=
    run_enqueue hcfg run h.prod value hcfg.entries (le_refl _)
  have hpos := hcfg.entries
  have hlength : call.rest.length = cfg.entries := by rw [hcall, List.length_replicate]
  have hne : call.rest ≠ [] := List.ne_nil_of_length_pos (by omega)
  have hwidx : s.widx % 2 ^ 44 + 1 = n + 1 := by rw [h.widx, Nat.mod_eq_of_lt hn]
  have hfully : n % 2 ^ 44 = s.widx % 2 ^ 44 ∨ s.widx % 2 ^ 44 < n % 2 ^ 44 := by
    rw [h.widx]
    exact .inl rfl
  obtain ⟨past₂, run₂⟩ := run_open hcfg hone run₁ rfl hne h.committed h.consumed hfully
  rw [hwidx] at run₂
  obtain ⟨past₃, entry, run₃⟩ :=
    run_fill (v := n + 1) hcfg hone run₂ rfl (by simp only [update_self]) hlength
  refine ⟨_, _, run₃, ?_, h.ridx, by simp only [update_self], rfl, ⟨_, rfl⟩, rfl, ?_, rfl⟩
  · change wadd 64 s.widx 1 = n + 1
    rw [h.widx]
    exact Nat.mod_eq_of_lt (by omega)
  · change (s.enqueued ++ call.rest).length = _
    rw [List.length_append, hlength, h.enqueued, Nat.succ_mul (n + 1)]

theorem Round.next {n : Nat} (h : Round cfg n s) (hcfg : cfg.Valid) (hone : cfg.blockNumLog = 0)
    (value : α) (hn : n + 1 < 2 ^ 44) (run : (machine α cfg).Run past s) :
    ∃ past' s', (machine α cfg).Run past' s' ∧ Round cfg (n + 1) s' := by
  have hsmall := hcfg.small
  have hpos := hcfg.entries
  obtain ⟨past₁, s₁, run₁, hwidx, hridx, hcommitted, hconsumed, hprod, hcons, henqueued,
    hdequeued⟩ := h.fill hcfg hone value (by omega) run
  obtain ⟨past₂, call, hcall, run₂⟩ := run_dequeue hcfg run₁ (hcons ▸ h.cons)
  have hridx' : s₁.ridx % 2 ^ 44 + 1 = n + 1 := by rw [hridx, Nat.mod_eq_of_lt (by omega)]
  have hvsn : bbqLocalVsn (s₁.committed 0) = s₁.ridx % 2 ^ 44 + 1 := by
    rw [hridx', hcommitted, bbqLocalVsn_compose _ (by omega), Nat.mod_eq_of_lt hn]
  obtain ⟨past₃, run₃⟩ := run_follow hcfg hone run₂ rfl (by rw [hcall]; omega)
    ((congrFun hconsumed 0).trans h.consumed) hvsn
  rw [hridx'] at run₃
  obtain ⟨past₄, got, hgot, run₄⟩ :=
    run_drain (v := n + 1) hcfg hone run₃ rfl (by simp only [update_self]) hcommitted hcall
  refine ⟨_, _, run₄, hwidx, ?_, hcommitted, by simp only [update_self], hprod,
    ⟨_, rfl⟩, henqueued, ?_⟩
  · change wadd 64 s₁.ridx 1 = n + 1
    rw [hridx]
    exact Nat.mod_eq_of_lt (by omega)
  · change (s₁.dequeued ++ got).length = _
    rw [List.length_append, hgot, hdequeued, h.dequeued, Nat.succ_mul (n + 1)]

theorem round_reached (hcfg : cfg.Valid) (hone : cfg.blockNumLog = 0) (value : α) {n : Nat}
    (hn : n < 2 ^ 44) : ∃ past s, (machine α cfg).Run past s ∧ Round cfg n s := by
  induction n with
  | zero => exact round_zero hcfg hone value
  | succ n ih =>
    obtain ⟨past, s, run, h⟩ := ih (by omega)
    exact h.next hcfg hone value hn run

/-- With one block, there is a run in which the producer is about to write over a value
that was not consumed. -/
theorem wrap_overwrites (hcfg : cfg.Valid) (hone : cfg.blockNumLog = 0) (value : α) :
    ∃ past s, (machine α cfg).Run past s ∧ ¬ Safe cfg past s := by
  have hsize := hcfg.size
  have hsmall := hcfg.small
  have hpos := hcfg.entries
  obtain ⟨past, s, run, h⟩ := round_reached hcfg hone value (n := 2 ^ 44 - 1) (by omega)
  obtain ⟨past₁, s₁, run₁, hwidx, -, hcommitted, hconsumed, hprod, -, henqueued, hdequeued⟩ :=
    h.fill hcfg hone value (by omega) run
  obtain ⟨past₂, call, hcall, run₂⟩ := run_enqueue hcfg run₁ hprod value Nat.one_pos hpos
  have hne : call.rest ≠ [] := by
    rw [hcall]
    exact List.cons_ne_nil value []
  -- the version of the cursor `consumed` is the largest one
  have hfully : s₁.widx % 2 ^ 44 < (2 ^ 44 - 1) % 2 ^ 44 := by rw [hwidx]; omega
  obtain ⟨past₃, run₃⟩ := run_open hcfg hone run₂ rfl hne hcommitted
    ((congrFun hconsumed 0).trans h.consumed) (.inr hfully)
  have hidx : bbqLocalIdx (bbqLocalCompose (s₁.widx % 2 ^ 44 + 1) cfg.initValue) = cfg.initValue :=
    bbqLocalIdx_compose _ (by omega)
  have hroom : cfg.blkSize - cfg.initValue = 8 * cfg.entries := by omega
  have hspace : min ((call.rest.length <<< bbqEntrySizeLog) % 2 ^ 32) (8 * cfg.entries) % 2 ^ 16 =
      8 * 1 := by
    rw [hcall, List.length_replicate, space_eq (by omega) (by omega), Nat.min_eq_left hpos]
  have hread : (machine α cfg).step { s₁ with
      committed := update s₁.committed 0
        (bbqLocalCompose (s₁.widx % 2 ^ 44 + 1) cfg.initValue)
      widx := wadd 64 s₁.widx 1
      prod := .readCommitted call } .prod = some { s₁ with
        committed := update s₁.committed 0
          (bbqLocalCompose (s₁.widx % 2 ^ 44 + 1) cfg.initValue)
        widx := wadd 64 s₁.widx 1
        prod := .copy call (bbqLocalCompose (s₁.widx % 2 ^ 44 + 1) cfg.initValue) (8 * 1)
          cfg.initValue [value] } := by
    simp only [machine, step, enqueueStep, globalIdx_one hone, update_self, hidx, hroom,
      hspace, shiftRight_entrySize]
    rw [if_pos (by omega), hcall]
    rfl
  refine ⟨_, _, run₃.step hread, fun safe => ?_⟩
  have hlength : s₁.dequeued.length = 2 ^ 44 * cfg.entries + 0 := by
    rw [hdequeued, h.dequeued]
    rfl
  refine safe.notOverwritten _ _ _ _ _ _ rfl s₁.dequeued.length le_rfl ?_ ?_
  · change s₁.dequeued.length < s₁.enqueued.length
    rw [henqueued, hlength]
    omega
  · rw [hlength, place_of_lt hpos, globalIdx_one hone, globalIdx_one hone]
    rfl

/-- The smallest block of the default cache line. -/
theorem bbq_spsc_wraps :
    bbqSpscInit 128 0 896 = some ⟨0, 512, 264⟩ ∧
      ∃ past s, (machine Nat ⟨0, 512, 264⟩).Run past s ∧ ¬ Safe ⟨0, 512, 264⟩ past s := by
  have hinit : bbqSpscInit 128 0 896 = some ⟨0, 512, 264⟩ := by decide +kernel
  exact ⟨hinit, wrap_overwrites (bbqSpscInit_valid hinit) rfl 0⟩

end Libvsync.Queue.BbqSpsc
