import Libvsync.Queue.BbqSpscInv

/-!
The steps of `bbq_spsc` keep the invariant as long as the producer opens no block with a
version of more than 44 bits, and what follows for whole runs.
-/

namespace Libvsync.Queue.BbqSpsc

open Libvsync.Core Function
open Libvsync.Queue.Bbq

variable {α : Type} {cfg : Config} {s s' : State α} {a b : Nat} {done : List α}

theorem writeEntry_self (entry : Nat → Nat → α) (block place : Nat) (value : α) :
    writeEntry entry block place value block place = value := by
  rw [writeEntry, update_self, update_self]

theorem writeEntry_other (entry : Nat → Nat → α) {block place block' place' : Nat} (value : α)
    (h : (block', place') ≠ (block, place)) :
    writeEntry entry block place value block' place' = entry block' place' := by
  by_cases hblock : block' = block
  · subst hblock
    have hplace : place' ≠ place := fun heq => h (Prod.ext rfl heq)
    rw [writeEntry, update_self, update_of_ne hplace]
  · rw [writeEntry, update_of_ne hblock]

theorem Kept.append {entry : Nat → Nat → α} {low block offset : Nat} {values : List α} {v : α}
    (h : Kept cfg entry low values) (hplace : place cfg values.length = (block, offset))
    (hroom : values.length < low + cfg.entries * cfg.blocks) :
    Kept cfg (writeEntry entry block offset v) low (values ++ [v]) := by
  intro j w hj hw
  rcases Nat.lt_or_ge j values.length with hlt | hge
  · rw [List.getElem?_append_left hlt] at hw
    have hne : place cfg j ≠ (block, offset) := by
      rw [← hplace]
      intro heq
      have hjv := place_inj hj (by omega) (by omega) hroom heq
      omega
    exact (writeEntry_other entry v hne).trans (h j w hj hw)
  · rw [List.getElem?_append_right hge] at hw
    obtain ⟨hj', rfl⟩ : j - values.length = 0 ∧ v = w := by
      rw [List.getElem?_singleton] at hw
      split at hw
      · exact ⟨‹_›, Option.some.inj hw⟩
      · cases hw
    obtain rfl : j = values.length := by omega
    rw [hplace]
    exact writeEntry_self ..

theorem Kept.later {entry : Nat → Nat → α} {low low' : Nat} {values : List α}
    (h : Kept cfg entry low values) (hlow : low ≤ low') : Kept cfg entry low' values :=
  fun j v hj hv => h j v (hlow.trans hj) hv

theorem prefix_concat {l values : List α} {v : α} (h : l <+: values)
    (hv : values[l.length]? = some v) : l ++ [v] <+: values := by
  obtain ⟨rest, rfl⟩ := h
  rw [List.getElem?_append_right (le_refl _), Nat.sub_self] at hv
  obtain ⟨rest', rfl⟩ : ∃ rest', rest = v :: rest' := by
    cases rest with
    | nil => cases hv
    | cons w rest' =>
      cases hv
      exact ⟨rest', rfl⟩
  exact ⟨rest', by simp⟩

theorem ProdAt.enter {call : EnqCall α} (h : call.rest.length < 2 ^ 29) :
    ProdAt cfg s a b [] call.enter := by
  rw [EnqCall.enter]
  split
  · exact rfl
  · exact ⟨rfl, h⟩

theorem ProdAt.next {call : EnqCall α} (h : call.rest.length < 2 ^ 29) (retry : Bool) :
    ProdAt cfg s a b [] (call.next retry) := by
  rw [EnqCall.next]
  split
  · exact .enter h
  · exact rfl

theorem ConsAt.enter {call : DeqCall} (h : call.rest < 2 ^ 29) : ConsAt cfg s b call.enter := by
  rw [DeqCall.enter]
  split
  · trivial
  · exact h

theorem ConsAt.next {call : DeqCall} (h : call.rest < 2 ^ 29) (retry : Bool) :
    ConsAt cfg s b (call.next retry) := by
  rw [DeqCall.next]
  split
  · exact .enter h
  · trivial

theorem Inv.goProd (h : Inv cfg s a b done) {pc : ProdPc α} (hpc : ProdAt cfg s a b done pc) :
    Inv cfg { s with prod := pc } a b done :=
  { h with prod := by cases pc <;> exact hpc }

theorem Inv.goCons (h : Inv cfg s a b done) {pc : ConsPc α} (hpc : ConsAt cfg s b pc) :
    Inv cfg { s with cons := pc } a b done :=
  { h with
    prod := by
      have hprod := h.prod
      cases hat : s.prod <;> rw [hat] at hprod <;> exact hprod
    cons := by cases pc <;> exact hpc }

/-- A step of the producer leaves the consumer where it is. -/
theorem ConsAt.kept {pc : ConsPc α} (h : ConsAt cfg s b pc) (hconsumed : s'.consumed = s.consumed)
    (hridx : s'.ridx = s.ridx) (hdequeued : s'.dequeued = s.dequeued)
    (henqueued : s.enqueued <+: s'.enqueued) (hwidx : s.widx ≤ s'.widx) : ConsAt cfg s' b pc := by
  cases pc with
  | idle ret => trivial
  | readConsumed call => exact h
  | readCommitted call consumed =>
    rw [ConsAt, hconsumed, hridx]
    exact h
  | copy call consumed space got =>
    obtain ⟨hrest, hread, n, hspace, hn, hgot, hlength, hprefix⟩ := h
    rw [ConsAt, hconsumed, hridx, hdequeued]
    exact ⟨hrest, hread, n, hspace, hn, hgot, hlength.trans henqueued.length_le,
      hprefix.trans henqueued⟩
  | readNext call => exact h
  | advance call =>
    obtain ⟨hrest, hb, hlt⟩ := h
    exact ⟨hrest, hb, by omega⟩
  | assertFailed => exact h

/-- A step of the consumer leaves the producer where it is. -/
theorem ProdAt.kept {pc : ProdPc α} {b' : Nat} (h : ProdAt cfg s a b done pc)
    (hcommitted : s'.committed = s.committed) (hwidx : s'.widx = s.widx)
    (hridx : s.ridx ≤ s'.ridx)
    (hfull : b = cfg.entries → s'.ridx = s.ridx → b' = cfg.entries)
    (hopen : s.widx < s.ridx + cfg.blocks → s'.ridx = s.ridx ∨ s.widx + 1 < s'.ridx + cfg.blocks) :
    ProdAt cfg s' a b' done pc := by
  cases pc with
  | idle ret => exact h
  | readCommitted call => exact h
  | copy call committed space offset todo =>
    rw [ProdAt, hcommitted, hwidx]
    exact h
  | readConsumed call => exact h
  | advance call =>
    obtain ⟨hdone, hrest, ha, hlt, hb⟩ := h
    refine ⟨hdone, hrest, ha, by omega, fun heq => ?_⟩
    rcases hopen hlt with hsame | hfar
    · refine hfull (hb ?_) hsame
      omega
    · omega

/-- The space of a batch, in bytes, that fits where `room` entries are left. -/
theorem space_eq {count room : Nat} (hcount : count < 2 ^ 29) (hroom : 8 * room < 2 ^ 16) :
    min ((count <<< bbqEntrySizeLog) % 2 ^ 32) (8 * room) % 2 ^ 16 = 8 * min count room := by
  rw [bbqEntrySizeLog, Nat.shiftLeft_eq, Nat.mod_eq_of_lt (by omega),
    Nat.mod_eq_of_lt (by omega)]
  omega

theorem shiftRight_entrySize (n : Nat) : (8 * n) >>> bbqEntrySizeLog = n := by
  rw [bbqEntrySizeLog, Nat.shiftRight_eq_div_pow]
  omega

theorem Inv.prod_readCommitted (h : Inv cfg s a b done) (hcfg : cfg.Valid) {call : EnqCall α}
    (hat : s.prod = .readCommitted call) (hstep : enqueueStep cfg s = some s') :
    Inv cfg s' a b [] := by
  have hprod := h.prod
  rw [hat] at hprod
  obtain ⟨rfl, hrest⟩ := hprod
  have hsize := hcfg.size
  have hsmall := hcfg.small
  have hle := h.prodLe
  simp only [enqueueStep, hat, h.localIdx_committed hcfg] at hstep
  split at hstep
  · cases hstep
    have hroom : cfg.blkSize - (cfg.initValue + 8 * a) = 8 * (cfg.entries - a) := by omega
    rw [hroom, space_eq hrest (by omega), shiftRight_entrySize]
    refine h.goProd ⟨hrest, rfl, min call.rest.length (cfg.entries - a), rfl, by omega, by omega,
      rfl, ?_⟩
    rw [List.length_nil, Nat.add_zero]
  · cases hstep
    refine h.goProd ⟨rfl, hrest, ?_⟩
    omega

theorem Inv.prod_write (h : Inv cfg s a b done) {call : EnqCall α}
    {committed space offset : Nat} {value : α} {todo : List α}
    (hat : s.prod = .copy call committed space offset (value :: todo))
    (hstep : enqueueStep cfg s = some s') : Inv cfg s' a b (done ++ [value]) := by
  have hprod := h.prod
  rw [hat] at hprod
  obtain ⟨hrest, hread, n, hspace, hn, hcount, htake, hoffset⟩ := hprod
  simp only [enqueueStep, hat] at hstep
  cases hstep
  have hlength : done.length + todo.length + 1 = n := by
    have hlen := congrArg List.length htake
    rw [List.length_take, Nat.min_eq_left hcount, List.length_append, List.length_cons] at hlen
    omega
  have hplace : place cfg (s.enqueued ++ done).length =
      (bbqGlobalIdx cfg.blockNumLog s.widx, offset) := by
    rw [List.length_append, h.enqueued, Nat.add_assoc, place_of_lt (by omega), hoffset]
  have hkept := h.kept.append (v := value) hplace (by
    rw [List.length_append]
    exact h.room (by omega))
  rw [List.append_assoc] at hkept
  refine { h with
    kept := hkept
    prod := ⟨hrest, hread, n, hspace, hn, hcount, ?_, ?_⟩
    cons := h.cons.kept rfl rfl rfl List.prefix_rfl le_rfl }
  · rw [htake, List.append_assoc]
    rfl
  · rw [hoffset, bbqEntrySizeLog, List.length_append, List.length_singleton]
    omega

theorem Inv.prod_commit (h : Inv cfg s a b done) (hcfg : cfg.Valid) {call : EnqCall α}
    {committed space offset : Nat} (hat : s.prod = .copy call committed space offset [])
    (hstep : enqueueStep cfg s = some s') : ∃ a', Inv cfg s' a' b [] := by
  have hprod := h.prod
  rw [hat] at hprod
  obtain ⟨hrest, rfl, n, rfl, hn, hcount, htake, -⟩ := hprod
  rw [List.append_nil] at htake
  have hsize := hcfg.size
  have hsmall := hcfg.small
  have hpos := cfg.blocks_pos
  have hversion := h.version
  simp only [enqueueStep, hat, h.localIdx_committed hcfg] at hstep
  rw [h.committed_self, bbqLocalVsn_compose _ (by omega), Nat.mod_eq_of_lt hversion,
    shiftRight_entrySize] at hstep
  cases hstep
  refine ⟨a + n, ?_⟩
  have hspace : cfg.initValue + 8 * a + 8 * n = cfg.initValue + 8 * (a + n) := by omega
  have hlength : (s.enqueued ++ call.rest.take n).length = s.widx * cfg.entries + (a + n) := by
    rw [List.length_append, List.length_take, Nat.min_eq_left hcount, h.enqueued, Nat.add_assoc]
  refine { h with
    prodLe := hn
    committed := ?_
    enqueued := hlength
    fifo := h.fifo.trans (List.prefix_append _ _)
    kept := ?_
    prod := .next ?_ true
    cons := h.cons.kept rfl rfl rfl (List.prefix_append _ _) le_rfl }
  · rw [hspace]
    exact cursor_set h.committed
  · rw [List.append_nil, htake]
    exact h.kept
  · rw [List.length_drop]
    omega

theorem Inv.prod_readConsumed (h : Inv cfg s a b done) (hcfg : cfg.Valid) {call : EnqCall α}
    (hat : s.prod = .readConsumed call) (hstep : enqueueStep cfg s = some s') :
    Inv cfg s' a b [] := by
  have hprod := h.prod
  rw [hat] at hprod
  obtain ⟨rfl, hrest, ha⟩ := hprod
  simp only [enqueueStep, hat, next_block, h.globalVsn_widx] at hstep
  split at hstep
  · rename_i hfully
    cases hstep
    exact h.goProd ⟨rfl, hrest, ha, (h.fullyConsumed_iff hcfg).mp hfully⟩
  · cases hstep
    exact h.goProd (.next hrest false)

theorem Inv.prod_advance (h : Inv cfg s a b done) (hcfg : cfg.Valid) {call : EnqCall α}
    (hat : s.prod = .advance call)
    (hfits : bbqGlobalVsn cfg.blockNumLog s.widx + 1 < 2 ^ 44)
    (hstep : enqueueStep cfg s = some s') : Inv cfg s' 0 b [] := by
  have hprod := h.prod
  rw [hat] at hprod
  obtain ⟨rfl, hrest, ha, hlt, hb⟩ := hprod
  have hsize := hcfg.size
  have hpos := cfg.blocks_pos
  have hbehind := h.behind
  rw [h.globalVsn_widx] at hfits
  have hwadd : wadd 64 s.widx 1 = s.widx + 1 := by
    refine wadd_of_lt ?_
    have hlt : s.widx < 2 ^ 44 * cfg.blocks := (Nat.div_lt_iff_lt_mul hpos).mp (by omega)
    have hblocks := hcfg.blocks_le
    omega
  simp only [enqueueStep, hat, next_block, h.globalVsn_widx, hwadd] at hstep
  cases hstep
  have hnear : s.widx + 1 ≤ s.ridx + cfg.blocks := hlt
  refine { h with
    version := ?_
    behind := hbehind.trans (Nat.le_succ _)
    near := hnear
    far := hb
    prodLe := Nat.zero_le _
    committed := ?_
    enqueued := ?_
    prod := .next hrest true
    cons := h.cons.kept rfl rfl rfl List.prefix_rfl (Nat.le_succ _) }
  · have hsub : s.widx + 1 + cfg.blocks - 1 = s.widx + cfg.blocks := by omega
    rw [hsub, Nat.add_div_right _ hpos]
    exact hfits
  · have hcommitted := h.committed
    rw [ha] at hcommitted
    exact cursor_push hcfg hcommitted
  · rw [h.enqueued, ha, Nat.add_zero, Nat.succ_mul]

theorem Inv.cons_readConsumed (h : Inv cfg s a b done) (hcfg : cfg.Valid) {call : DeqCall}
    (hat : s.cons = .readConsumed call) (hstep : dequeueStep cfg s = some s') :
    Inv cfg s' a b done := by
  have hrest := h.cons
  rw [hat] at hrest
  have hsize := hcfg.size
  have hle := h.consLe
  simp only [dequeueStep, hat, h.localIdx_consumed hcfg] at hstep
  split at hstep
  · cases hstep
    refine h.goCons ⟨hrest, rfl, ?_⟩
    omega
  · cases hstep
    refine h.goCons ⟨hrest, ?_⟩
    omega

/-- The assertion of the consumer holds, and what it is going to copy was committed. -/
theorem Inv.cons_readCommitted (h : Inv cfg s a b done) (hcfg : cfg.Valid) {call : DeqCall}
    {consumed : Nat} (hat : s.cons = .readCommitted call consumed)
    (hstep : dequeueStep cfg s = some s') : Inv cfg s' a b done := by
  have hcons := h.cons
  rw [hat] at hcons
  obtain ⟨hrest, rfl, hb⟩ := hcons
  have hsize := hcfg.size
  have hsmall := hcfg.small
  have hprodLe := h.prodLe
  -- how many entries of the block are committed
  obtain ⟨m, hm, hmle, hspace⟩ : ∃ m, b ≤ m ∧ m ≤ cfg.entries ∧
      bbqLocalIdx (s.committed (bbqGlobalIdx cfg.blockNumLog s.ridx)) = cfg.initValue + 8 * m ∧
        s.dequeued.length + (m - b) ≤ s.enqueued.length := by
    have hlength := h.fifo.length_le
    rw [h.enqueued, h.dequeued] at hlength ⊢
    rw [h.localIdx_committed_ridx hcfg hb]
    by_cases heq : s.ridx = s.widx
    · rw [heq] at hlength ⊢
      rw [if_pos rfl]
      exact ⟨a, by omega, hprodLe, rfl, by omega⟩
    · rw [if_neg heq]
      refine ⟨cfg.entries, hb.le, le_rfl, hsize, ?_⟩
      have hlt : s.ridx + 1 ≤ s.widx := lt_of_le_of_ne h.behind heq
      have hmul := Nat.mul_le_mul_right cfg.entries hlt
      rw [Nat.succ_mul] at hmul
      omega
  simp only [dequeueStep, hat, h.localIdx_consumed hcfg, hspace.1] at hstep
  split at hstep
  · rw [if_pos (by omega)] at hstep
    cases hstep
    exact h.goCons (.next hrest false)
  · cases hstep
    have hroom : cfg.initValue + 8 * m - (cfg.initValue + 8 * b) = 8 * (m - b) := by omega
    rw [hroom, space_eq hrest (by omega)]
    refine h.goCons ⟨hrest, rfl, min call.rest (m - b), rfl, by omega, Nat.zero_le _, by omega, ?_⟩
    rw [List.append_nil]
    exact h.fifo

theorem Inv.cons_copy (h : Inv cfg s a b done) (hcfg : cfg.Valid) {call : DeqCall}
    {consumed space : Nat} {got : List α} (hat : s.cons = .copy call consumed space got)
    (hstep : dequeueStep cfg s = some s') : ∃ b', Inv cfg s' a b' done := by
  have hcons := h.cons
  rw [hat] at hcons
  obtain ⟨hrest, rfl, n, rfl, hn, hgot, hlength, hprefix⟩ := hcons
  have hsize := hcfg.size
  have hsmall := hcfg.small
  have hpos := cfg.blocks_pos
  simp only [dequeueStep, hat, shiftRight_entrySize, h.localIdx_consumed hcfg] at hstep
  split at hstep
  · rename_i hlt
    cases hstep
    refine ⟨b, h.goCons ⟨hrest, rfl, n, rfl, hn, ?_, hlength, ?_⟩⟩
    · rw [List.length_append, List.length_singleton]
      omega
    · rw [← List.append_assoc]
      refine prefix_concat hprefix ?_
      rw [List.length_append]
      have hin : s.dequeued.length + got.length < s.enqueued.length := by omega
      obtain ⟨v, hv⟩ : ∃ v, s.enqueued[s.dequeued.length + got.length]? = some v :=
        ⟨_, List.getElem?_eq_getElem hin⟩
      have hentry := h.kept (s.dequeued.length + got.length) v (by omega) (by
        rw [List.getElem?_append_left hin]
        exact hv)
      have hplace : cfg.initValue + 8 * (b + got.length) =
          cfg.initValue + 8 * b + got.length * 2 ^ bbqEntrySizeLog := by
        rw [bbqEntrySizeLog]
        omega
      have hnumber : s.dequeued.length + got.length =
          s.ridx * cfg.entries + (b + got.length) := by
        rw [h.dequeued, Nat.add_assoc]
      rw [hv, ← hentry, hnumber, place_of_lt (by omega), hplace]
  · cases hstep
    obtain rfl : got.length = n := by omega
    refine ⟨b + got.length, ?_⟩
    have hfar := h.far
    have hspace : cfg.initValue + 8 * b + 8 * got.length =
        cfg.initValue + 8 * (b + got.length) := by omega
    refine { h with
      far := fun heq => ?_
      consLe := hn
      consumed := ?_
      dequeued := ?_
      fifo := hprefix
      kept := h.kept.later ?_
      prod := ?_
      cons := .next ?_ true }
    · have hb := hfar heq
      omega
    · rw [h.consumed_self, wadd_compose _ (by omega), hspace]
      exact cursor_set h.consumed
    · rw [List.length_append, h.dequeued, Nat.add_assoc]
    · rw [List.length_append]
      omega
    · refine h.prod.kept rfl rfl le_rfl (fun hb _ => ?_) fun _ => .inl rfl
      omega
    · exact lt_of_le_of_lt (Nat.sub_le ..) hrest

theorem Inv.cons_readNext (h : Inv cfg s a b done) (hcfg : cfg.Valid) {call : DeqCall}
    (hat : s.cons = .readNext call) (hstep : dequeueStep cfg s = some s') :
    Inv cfg s' a b done := by
  have hcons := h.cons
  rw [hat] at hcons
  simp only [dequeueStep, hat, next_block, h.globalVsn_ridx] at hstep
  split at hstep
  · cases hstep
    exact h.goCons (.next hcons.1 false)
  · rename_i hvsn
    cases hstep
    exact h.goCons ⟨hcons.1, hcons.2, (h.nextVsn_iff hcfg).mp (not_not.mp hvsn)⟩

theorem Inv.cons_advance (h : Inv cfg s a b done) (hcfg : cfg.Valid) {call : DeqCall}
    (hat : s.cons = .advance call) (hstep : dequeueStep cfg s = some s') :
    Inv cfg s' a 0 done := by
  have hcons := h.cons
  rw [hat] at hcons
  obtain ⟨hrest, hb, hlt⟩ := hcons
  have hsize := hcfg.size
  have hpos := cfg.blocks_pos
  have hentries := hcfg.entries
  have hnear := h.near
  have hwadd : wadd 64 s.ridx 1 = s.ridx + 1 := by
    refine wadd_of_lt ?_
    have hlt : s.widx + cfg.blocks - 1 < 2 ^ 44 * cfg.blocks :=
      (Nat.div_lt_iff_lt_mul hpos).mp h.version
    have hblocks := hcfg.blocks_le
    omega
  simp only [dequeueStep, hat, next_block, h.globalVsn_ridx, hwadd] at hstep
  cases hstep
  have hnear' : s.widx ≤ s.ridx + 1 + cfg.blocks := by omega
  have hfar' : s.widx ≠ s.ridx + 1 + cfg.blocks := by omega
  refine { h with
    behind := hlt
    near := hnear'
    far := fun heq => absurd heq hfar'
    consLe := Nat.zero_le _
    consumed := ?_
    dequeued := ?_
    prod := ?_
    cons := .next hrest true }
  · have hconsumed := h.consumed
    rw [hb] at hconsumed
    exact cursor_push hcfg hconsumed
  · rw [h.dequeued, hb, Nat.add_zero, Nat.succ_mul]
  · refine h.prod.kept rfl rfl (Nat.le_succ _) (fun _ heq => ?_) fun hlt => .inr ?_
    · exact absurd heq (Nat.succ_ne_self _)
    · change s.widx + 1 < s.ridx + 1 + cfg.blocks
      omega

def Good (cfg : Config) (s : State α) : Prop := ∃ a b done, Inv cfg s a b done

/-- The producer is about to open the next block. -/
def ProdPc.advancing : ProdPc α → Bool
  | .advance _ => true
  | _ => false

/-- A block that the producer opens gets a version of 44 bits. -/
def Fits (cfg : Config) (s : State α) : Act α → Prop
  | .prod => s.prod.advancing = true → bbqGlobalVsn cfg.blockNumLog s.widx + 1 < 2 ^ 44
  | _ => True

instance (cfg : Config) (s : State α) (act : Act α) : Decidable (Fits cfg s act) :=
  match act with
  | .prod => inferInstanceAs (Decidable (_ → _))
  | .enqueue _ _ | .dequeue _ _ | .cons => inferInstanceAs (Decidable True)

theorem Inv.enqueueStep (h : Inv cfg s a b done) (hcfg : cfg.Valid)
    (hfits : Fits cfg s .prod) (hstep : enqueueStep cfg s = some s') : Good cfg s' := by
  cases hat : s.prod with
  | idle ret =>
    simp only [BbqSpsc.enqueueStep, hat] at hstep
    cases hstep
  | readCommitted call => exact ⟨a, b, [], h.prod_readCommitted hcfg hat hstep⟩
  | copy call committed space offset todo =>
    cases todo with
    | nil =>
      obtain ⟨a', inv⟩ := h.prod_commit hcfg hat hstep
      exact ⟨a', b, [], inv⟩
    | cons value todo => exact ⟨a, b, _, h.prod_write hat hstep⟩
  | readConsumed call => exact ⟨a, b, [], h.prod_readConsumed hcfg hat hstep⟩
  | advance call =>
    rw [Fits, hat] at hfits
    exact ⟨0, b, [], h.prod_advance hcfg hat (hfits rfl) hstep⟩

theorem Inv.dequeueStep (h : Inv cfg s a b done) (hcfg : cfg.Valid)
    (hstep : dequeueStep cfg s = some s') : Good cfg s' := by
  cases hat : s.cons with
  | idle ret | assertFailed =>
    simp only [BbqSpsc.dequeueStep, hat] at hstep
    cases hstep
  | readConsumed call => exact ⟨a, b, done, h.cons_readConsumed hcfg hat hstep⟩
  | readCommitted call consumed => exact ⟨a, b, done, h.cons_readCommitted hcfg hat hstep⟩
  | copy call consumed space got =>
    obtain ⟨b', inv⟩ := h.cons_copy hcfg hat hstep
    exact ⟨a, b', done, inv⟩
  | readNext call => exact ⟨a, b, done, h.cons_readNext hcfg hat hstep⟩
  | advance call => exact ⟨a, 0, done, h.cons_advance hcfg hat hstep⟩

theorem Good.step {act : Act α} (h : Good cfg s) (hcfg : cfg.Valid) (hfits : Fits cfg s act)
    (hstep : step cfg s act = some s') : Good cfg s' := by
  obtain ⟨a, b, done, h⟩ := h
  cases act with
  | enqueue buf wait =>
    simp only [BbqSpsc.step] at hstep
    split at hstep
    · rename_i ret hat
      split at hstep
      · rename_i hcount
        cases hstep
        have hdone := h.prod
        rw [hat] at hdone
        obtain rfl : done = [] := hdone
        exact ⟨a, b, [], h.goProd (.enter hcount)⟩
      · cases hstep
    · cases hstep
  | dequeue count wait =>
    simp only [BbqSpsc.step] at hstep
    split at hstep
    · split at hstep
      · rename_i hcount
        cases hstep
        exact ⟨a, b, done, h.goCons (.enter hcount)⟩
      · cases hstep
    · cases hstep
  | prod => exact h.enqueueStep hcfg hfits hstep
  | cons => exact h.dequeueStep hcfg hstep

/-- The first uses of the blocks have version 0. -/
theorem initial_window (hcfg : cfg.Valid) :
    Window cfg.blocks (fun i => if i ≠ 0 then cfg.blkSize else cfg.initValue) (0 + 1)
      (cursor cfg 0 0) := by
  have hsize := hcfg.size
  have hsmall := hcfg.small
  have hcompose (l : Nat) (hl : l < 2 ^ 20) : bbqLocalCompose 0 l = l := by
    rw [bbqLocalCompose_eq _ hl]
    omega
  intro u hu hu'
  have hdiv : (u - 1) / cfg.blocks = 0 := Nat.div_eq_of_lt (by omega)
  rw [cursor, hdiv, Nat.zero_add]
  by_cases heq : u = cfg.blocks
  · rw [if_pos heq, hcompose _ (by omega), heq, Nat.mod_self]
    rfl
  · rw [if_neg heq, hcompose _ (by omega), Nat.mod_eq_of_lt (by omega)]
    exact if_pos (by omega)

theorem initial_good (hcfg : cfg.Valid) (entry : Nat → Nat → α) :
    Good cfg (initial cfg entry) := by
  have hpos := cfg.blocks_pos
  refine ⟨0, 0, [], ?_, le_rfl, Nat.zero_le _, ?_, Nat.zero_le _, Nat.zero_le _,
    initial_window hcfg, initial_window hcfg, ?_, ?_, List.prefix_rfl, nofun, rfl, trivial⟩
  · change (0 + cfg.blocks - 1) / cfg.blocks < 2 ^ 44
    rw [Nat.div_eq_of_lt (by omega)]
    omega
  · change 0 = 0 + cfg.blocks → _
    omega
  · change 0 = 0 * cfg.entries + 0
    omega
  · change 0 = 0 * cfg.entries + 0
    omega

theorem run_inv {past : List (State α × Act α)} (hcfg : cfg.Valid)
    (run : (machine α cfg).Run past s) (hfits : AllSteps (Fits cfg) past) : Good cfg s := by
  refine run.invariant_if (I := Good cfg) ?_ (fun s act s' h hok hstep => h.step hcfg hok hstep)
    hfits
  rintro s ⟨entry, rfl⟩
  exact initial_good hcfg entry

/-- The call has put or taken `n` values so far. -/
def ProdPc.Counts (n : Nat) : ProdPc α → Prop
  | .idle ret => n = ret
  | .readCommitted call | .copy call _ _ _ _ | .readConsumed call | .advance call =>
    n + call.rest.length = call.count

def ConsPc.Counts (n : Nat) : ConsPc α → Prop
  | .idle ret => n = ret
  | .readConsumed call | .readCommitted call _ | .readNext call | .advance call =>
    n + call.rest = call.count
  | .copy call _ space got => n + call.rest = call.count ∧
      got.length ≤ space >>> bbqEntrySizeLog ∧ space >>> bbqEntrySizeLog ≤ call.rest
  | .assertFailed => True

/-- How many values were enqueued when the last call of the producer began. -/
def putBefore : List (State α × Act α) → Nat
  | [] => 0
  | (s, .enqueue _ _) :: _ => s.enqueued.length
  | _ :: past => putBefore past

/-- How many values were dequeued when the last call of the consumer began. -/
def takenBefore : List (State α × Act α) → Nat
  | [] => 0
  | (s, .dequeue _ _) :: _ => s.dequeued.length
  | _ :: past => takenBefore past

/-- The values that came and went in the calls are those that the calls count. -/
structure Counted (past : List (State α × Act α)) (s : State α) : Prop where
  put : ∃ n, s.enqueued.length = putBefore past + n ∧ s.prod.Counts n
  taken : ∃ n, s.dequeued.length = takenBefore past + n ∧ s.cons.Counts n

theorem EnqCall.enter_counts {call : EnqCall α} {n : Nat}
    (h : n + call.rest.length = call.count) : call.enter.Counts n := by
  rw [EnqCall.enter]
  split
  · rename_i hnone
    rw [hnone] at h
    exact h
  · exact h

theorem EnqCall.next_counts {call : EnqCall α} {n : Nat} (h : n + call.rest.length = call.count)
    (retry : Bool) : (call.next retry).Counts n := by
  rw [EnqCall.next]
  split
  · exact EnqCall.enter_counts h
  · exact Nat.eq_sub_of_add_eq h

theorem DeqCall.enter_counts {call : DeqCall} {n : Nat} (h : n + call.rest = call.count) :
    (call.enter : ConsPc α).Counts n := by
  rw [DeqCall.enter]
  split
  · rename_i hnone
    rw [hnone] at h
    exact h
  · exact h

theorem DeqCall.next_counts {call : DeqCall} {n : Nat} (h : n + call.rest = call.count)
    (retry : Bool) : (call.next retry : ConsPc α).Counts n := by
  rw [DeqCall.next]
  split
  · exact DeqCall.enter_counts h
  · exact Nat.eq_sub_of_add_eq h

/-- What a step of the producer enqueues is what its call counts. -/
theorem enqueueStep_counts {n : Nat} (h : s.prod.Counts n) (hstep : enqueueStep cfg s = some s') :
    (∃ k, s'.enqueued.length = s.enqueued.length + k ∧ s'.prod.Counts (n + k)) ∧
      s'.dequeued = s.dequeued ∧ s'.cons = s.cons := by
  cases hat : s.prod with
  | idle ret =>
    simp only [enqueueStep, hat] at hstep
    cases hstep
  | copy call committed space offset todo =>
    rw [hat] at h
    cases todo with
    | nil =>
      simp only [enqueueStep, hat] at hstep
      cases hstep
      refine ⟨⟨_, List.length_append, EnqCall.next_counts ?_ true⟩, rfl, rfl⟩
      change n + call.rest.length = call.count at h
      change _ = call.count
      rw [List.length_take, List.length_drop]
      omega
    | cons value todo =>
      simp only [enqueueStep, hat] at hstep
      cases hstep
      exact ⟨⟨0, rfl, h⟩, rfl, rfl⟩
  | readCommitted call | readConsumed call =>
    rw [hat] at h
    simp only [enqueueStep, hat] at hstep
    split at hstep <;> cases hstep
    · exact ⟨⟨0, rfl, h⟩, rfl, rfl⟩
    · first
        | exact ⟨⟨0, rfl, h⟩, rfl, rfl⟩
        | exact ⟨⟨0, rfl, EnqCall.next_counts h _⟩, rfl, rfl⟩
  | advance call =>
    rw [hat] at h
    simp only [enqueueStep, hat] at hstep
    cases hstep
    exact ⟨⟨0, rfl, EnqCall.next_counts h true⟩, rfl, rfl⟩

/-- What a step of the consumer dequeues is what its call counts. -/
theorem dequeueStep_counts {n : Nat} (h : s.cons.Counts n) (hstep : dequeueStep cfg s = some s') :
    (∃ k, s'.dequeued.length = s.dequeued.length + k ∧ s'.cons.Counts (n + k)) ∧
      s'.enqueued = s.enqueued ∧ s'.prod = s.prod := by
  cases hat : s.cons with
  | idle ret | assertFailed =>
    simp only [dequeueStep, hat] at hstep
    cases hstep
  | readConsumed call | readNext call =>
    rw [hat] at h
    simp only [dequeueStep, hat] at hstep
    split at hstep <;> cases hstep
    · first
        | exact ⟨⟨0, rfl, h⟩, rfl, rfl⟩
        | exact ⟨⟨0, rfl, DeqCall.next_counts h _⟩, rfl, rfl⟩
    · exact ⟨⟨0, rfl, h⟩, rfl, rfl⟩
  | readCommitted call consumed =>
    rw [hat] at h
    simp only [dequeueStep, hat] at hstep
    split at hstep
    · split at hstep <;> cases hstep
      · exact ⟨⟨0, rfl, DeqCall.next_counts h false⟩, rfl, rfl⟩
      · exact ⟨⟨0, rfl, trivial⟩, rfl, rfl⟩
    · cases hstep
      refine ⟨⟨0, rfl, h, Nat.zero_le _, ?_⟩, rfl, rfl⟩
      rw [bbqEntrySizeLog, Nat.shiftRight_eq_div_pow, Nat.shiftLeft_eq]
      omega
  | copy call consumed space got =>
    rw [hat] at h
    obtain ⟨hcount, hgot, hrest⟩ := h
    simp only [dequeueStep, hat] at hstep
    split at hstep
    · rename_i hlt
      cases hstep
      refine ⟨⟨0, rfl, hcount, ?_, hrest⟩, rfl, rfl⟩
      rw [List.length_append]
      exact hlt
    · cases hstep
      refine ⟨⟨_, List.length_append, DeqCall.next_counts ?_ true⟩, rfl, rfl⟩
      change n + got.length + (call.rest - space >>> bbqEntrySizeLog) = call.count
      omega
  | advance call =>
    rw [hat] at h
    simp only [dequeueStep, hat] at hstep
    cases hstep
    exact ⟨⟨0, rfl, DeqCall.next_counts h true⟩, rfl, rfl⟩

theorem Counted.step {past : List (State α × Act α)} {act : Act α} (h : Counted past s)
    (hstep : step cfg s act = some s') : Counted ((s, act) :: past) s' := by
  obtain ⟨⟨m, hm, hprod⟩, n, hn, hcons⟩ := h
  cases act with
  | enqueue buf wait =>
    simp only [BbqSpsc.step] at hstep
    split at hstep
    · split at hstep <;> cases hstep
      exact ⟨⟨0, rfl, EnqCall.enter_counts (Nat.zero_add _)⟩, n, hn, hcons⟩
    · cases hstep
  | dequeue count wait =>
    simp only [BbqSpsc.step] at hstep
    split at hstep
    · split at hstep <;> cases hstep
      exact ⟨⟨m, hm, hprod⟩, 0, rfl, DeqCall.enter_counts (Nat.zero_add _)⟩
    · cases hstep
  | prod =>
    obtain ⟨⟨k, hk, hprod'⟩, hdequeued, hsame⟩ := enqueueStep_counts hprod hstep
    exact ⟨⟨m + k, by rw [hk, hm, Nat.add_assoc]; rfl, hprod'⟩, n,
      by rw [hdequeued, hn]; rfl, by rw [hsame]; exact hcons⟩
  | cons =>
    obtain ⟨⟨k, hk, hcons'⟩, henqueued, hsame⟩ := dequeueStep_counts hcons hstep
    exact ⟨⟨m, by rw [henqueued, hm]; rfl, by rw [hsame]; exact hprod⟩, n + k,
      by rw [hk, hn, Nat.add_assoc]; rfl, hcons'⟩

theorem run_counted {past : List (State α × Act α)} (run : (machine α cfg).Run past s) :
    Counted past s := by
  induction run with
  | start hstart =>
    obtain ⟨entry, rfl⟩ := hstart
    exact ⟨⟨0, rfl, rfl⟩, 0, rfl, rfl⟩
  | step _ hstep ih => exact ih.step hstep

/-- The dequeued values are the first of the enqueued ones. The others are in their
places, and the producer is not about to write over one of them. The assertion of the
consumer has not failed. When no call is running, `BBQ_SPSC_COUNT` is the number of values
that were enqueued and not dequeued. A call returns the number of values that came or went
in it. -/
structure Safe (cfg : Config) (past : List (State α × Act α)) (s : State α) : Prop where
  fifo : s.dequeued <+: s.enqueued
  kept : Kept cfg s.entry s.dequeued.length s.enqueued
  notOverwritten : ∀ call committed space offset value todo,
    s.prod = .copy call committed space offset (value :: todo) →
      ∀ j, s.dequeued.length ≤ j → j < s.enqueued.length →
        place cfg j ≠ (bbqGlobalIdx cfg.blockNumLog s.widx, offset)
  asserted : s.cons ≠ .assertFailed
  count : ∀ m n, s.prod = .idle m → s.cons = .idle n →
    bbqSpscCount cfg s = s.enqueued.length - s.dequeued.length
  put : ∀ ret, s.prod = .idle ret → s.enqueued.length = putBefore past + ret
  taken : ∀ ret, s.cons = .idle ret → s.dequeued.length = takenBefore past + ret

theorem Inv.notOverwritten (h : Inv cfg s a b done) {call : EnqCall α}
    {committed space offset : Nat} {value : α} {todo : List α}
    (hat : s.prod = .copy call committed space offset (value :: todo)) {j : Nat}
    (hj : s.dequeued.length ≤ j) (hj' : j < s.enqueued.length) :
    place cfg j ≠ (bbqGlobalIdx cfg.blockNumLog s.widx, offset) := by
  have hprod := h.prod
  rw [hat] at hprod
  obtain ⟨-, -, n, -, hn, hcount, htake, rfl⟩ := hprod
  have hlength : done.length < n := by
    have hlen := congrArg List.length htake
    rw [List.length_take, Nat.min_eq_left hcount, List.length_append, List.length_cons] at hlen
    omega
  have hroom := h.room (n := done.length) (by omega)
  rw [← place_of_lt (by omega), ← Nat.add_assoc, ← h.enqueued]
  intro heq
  have hjv := place_inj hj (by omega) (by omega) hroom heq
  omega

theorem Inv.count (h : Inv cfg s a b done) (hcfg : cfg.Valid) :
    bbqSpscCount cfg s = s.enqueued.length - s.dequeued.length := by
  have hsize := hcfg.size
  have hsmall := hcfg.small
  have hpos := cfg.blocks_pos
  have hblocks := hcfg.blocks_le
  have hprodLe := h.prodLe
  have hconsLe := h.consLe
  have hnear := h.near
  have hlength := h.fifo.length_le
  have hwidx : s.widx + cfg.blocks - 1 < 2 ^ 44 * cfg.blocks :=
    (Nat.div_lt_iff_lt_mul hpos).mp h.version
  obtain ⟨d, hd⟩ := Nat.exists_eq_add_of_le h.behind
  have hsub : wsub 64 s.widx s.ridx = d := by
    rw [wsub]
    omega
  have hspan : cfg.blkSize - cfg.initValue = 8 * cfg.entries := by omega
  have hmul : s.widx * cfg.entries = s.ridx * cfg.entries + d * cfg.entries := by
    rw [hd, Nat.add_mul]
  have hsmallMul : d * cfg.entries ≤ 2 ^ 16 * 2 ^ 13 := Nat.mul_le_mul (by omega) (by omega)
  have hbytes : d * (8 * cfg.entries) = 8 * (d * cfg.entries) := Nat.mul_left_comm ..
  rw [h.enqueued, h.dequeued] at hlength ⊢
  simp only [bbqSpscCount, h.localIdx_committed hcfg, h.localIdx_consumed hcfg, hsub, hspan, hbytes,
    bbqEntrySizeLog, Nat.shiftRight_eq_div_pow]
  rw [wadd, wsub]
  omega

theorem Counted.safe {past : List (State α × Act α)} (hcounted : Counted past s) (h : Good cfg s)
    (hcfg : cfg.Valid) : Safe cfg past s := by
  obtain ⟨a, b, done, h⟩ := h
  refine ⟨h.fifo, fun j v hj hv => h.kept j v hj ?_, fun _ _ _ _ _ _ hat j => h.notOverwritten hat,
    fun hfailed => ?_, fun _ _ _ _ => h.count hcfg, fun ret hat => ?_, fun ret hat => ?_⟩
  · obtain ⟨hin, -⟩ := List.getElem?_eq_some_iff.mp hv
    rw [List.getElem?_append_left hin]
    exact hv
  · have hcons := h.cons
    rw [hfailed] at hcons
    exact hcons
  · obtain ⟨n, hn, hcounts⟩ := hcounted.put
    rw [hat] at hcounts
    rw [hn, show n = ret from hcounts]
  · obtain ⟨n, hn, hcounts⟩ := hcounted.taken
    rw [hat] at hcounts
    rw [hn, show n = ret from hcounts]

theorem bbq_spsc_safe {cacheline blockNumLog size : Nat}
    (hinit : bbqSpscInit cacheline blockNumLog size = some cfg)
    {past : List (State α × Act α)} (run : (machine α cfg).Run past s)
    (hfits : AllSteps (Fits cfg) past) : Safe cfg past s :=
  (run_counted run).safe (run_inv (bbqSpscInit_valid hinit) run hfits) (bbqSpscInit_valid hinit)

/-- Two blocks of 31 entries: the producer opens the second block, and the consumer
follows and stops before the last value. -/
def follow : List (Act Nat) :=
  List.flatten [
    .enqueue (List.range 33) false :: List.replicate 40 .prod,
    .dequeue 32 false :: List.replicate 41 .cons]

theorem bbq_spsc_safe_follow :
    ∃ past s, bbqSpscInit 128 1 1408 = some ⟨1, 512, 264⟩ ∧ (machine Nat ⟨1, 512, 264⟩).Run past s ∧
      AllSteps (Fits ⟨1, 512, 264⟩) past ∧ Safe ⟨1, 512, 264⟩ past s ∧
        s.enqueued = List.range 33 ∧ s.dequeued = List.range 32 ∧ s.ridx = 1 := by
  let M := machine Nat ⟨1, 512, 264⟩
  have hinit : bbqSpscInit 128 1 1408 = some ⟨1, 512, 264⟩ := by decide +kernel
  have hexec : (M.exec (initial ⟨1, 512, 264⟩ fun _ _ => 0) follow).map
      (fun s => (s.enqueued, s.dequeued, s.ridx)) = some (List.range 33, List.range 32, 1) := by
    decide +kernel
  obtain ⟨s, hs, hview⟩ := Option.map_eq_some_iff.mp hexec
  obtain ⟨henqueued, hrest⟩ := Prod.mk.inj hview
  obtain ⟨hdequeued, hridx⟩ := Prod.mk.inj hrest
  have run := (Machine.Run.start (M := M) ⟨_, rfl⟩).exec hs
  have hfits : ∀ p ∈ M.pastOf (initial ⟨1, 512, 264⟩ fun _ _ => 0) [] follow,
      Fits ⟨1, 512, 264⟩ p.1 p.2 := by
    decide +kernel
  exact ⟨_, s, hinit, run, hfits, bbq_spsc_safe hinit run hfits, henqueued, hdequeued, hridx⟩

end Libvsync.Queue.BbqSpsc
