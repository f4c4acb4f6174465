import Libvsync.Queue.BbqMpmcStep

/-!
The producers of `bbq_mpmc`: a range is taken, written entry by entry, and committed. The entries
of a range are not committed before its producer adds the range to `committed`, so nobody else
writes to their places and nobody reads them.
-/

namespace Libvsync.Queue.BbqMpmc

open Libvsync.Core
open Libvsync.Queue.Bbq
open Libvsync.Queue.BbqSpsc (Config EnqCall DeqCall place writeEntry)
open Libvsync.Queue.BbqCalls (MpmcQueue bbqResetBlockCursorHeavy)

variable {Tid α : Type} [DecidableEq Tid] {cfg : Config} {fr : Prop} {s s' : State Tid α}
  {g : Uses} {t : Tid} {call : EnqCall α} {w first space offset : Nat} {v : α}
  {written todo : List α}

theorem pos_range {e x j : Nat} (he : 0 < e) (h : x % e + j < e) :
    (x + j) / e = x / e ∧ (x + j) % e = x % e + j := by
  have hsplit : x + j = x % e + j + e * (x / e) := by
    have hdiv := Nat.mod_add_div x e
    omega
  constructor
  · rw [hsplit, Nat.add_mul_div_left _ _ he, Nat.div_eq_of_lt h, Nat.zero_add]
  · rw [hsplit, Nat.add_mul_mod_self_left, Nat.mod_eq_of_lt h]

/-- The place of an entry that has a known place in its use. -/
theorem place_eq {p : Nat} (hcfg : cfg.Valid) :
    place cfg p = (p / cfg.entries % cfg.blocks, cfg.initValue + 8 * (p % cfg.entries)) := by
  have hlt := Nat.mod_lt p hcfg.entries
  have hplace : place cfg (p / cfg.entries * cfg.entries + p % cfg.entries) = _ :=
    BbqSpsc.place_of_lt hlt
  rw [Nat.div_add_mod'] at hplace
  rw [hplace, bbqGlobalIdx_eq]
  rfl

omit [DecidableEq Tid] in
theorem Copies.length_le (h : Copies cfg s g t w first space offset written todo) :
    first + (written.length + todo.length) ≤ s.enqueued.length := by
  have hpos := h.pos
  have hlast : written.length + todo.length - 1 < (written ++ todo).length := by
    rw [List.length_append]
    omega
  have hat := h.values _ _ (List.getElem?_eq_getElem hlast)
  have hlt := (List.getElem?_eq_some_iff.mp hat).1
  omega

theorem Inv.take (h : Inv cfg fr s g) (hcfg : cfg.Valid) (hat : s.pc t = .enqAdd call w)
    (hfits : bbqLocalIdx (s.queue.allocated (w % cfg.blocks)) + 8 * call.rest.length < 2 ^ 20)
    (hroom : bbqLocalIdx (s.queue.allocated (w % cfg.blocks)) < cfg.blkSize) {m : Nat}
    (hm : m = min call.rest.length (cfg.entries - g.added g.alloc)) :
    ∃ g', Inv cfg fr ({ s with
      queue.allocated := Function.update s.queue.allocated (w % cfg.blocks)
        (wadd 64 (s.queue.allocated (w % cfg.blocks)) (8 * call.rest.length))
      enqueued := s.enqueued ++ (call.rest.take m).map (t, ·) }.goto t
        (.enqCopy call w s.enqueued.length (8 * m)
          (bbqLocalIdx (s.queue.allocated (w % cfg.blocks))) (call.rest.take m))) g' := by
  have hok := h.pcs t
  rw [hat] at hok
  obtain ⟨⟨hrest, hbatch⟩, hw⟩ := hok
  have hpos : 0 < call.rest.length := List.length_pos_iff.mpr hrest
  obtain ⟨hmod, hlt, hcell, hlast⟩ := h.ring.allocated_room hcfg hw hroom
  have hidx : bbqLocalIdx (s.queue.allocated (w % cfg.blocks)) =
      cfg.initValue + 8 * g.added g.alloc := by
    rw [hcell, word_idx (h.ring.added g.alloc)]
  rw [hidx] at hfits ⊢
  have hlength : (call.rest.take m).length = m := by
    rw [List.length_take]
    omega
  have hvalues : ((call.rest.take m).map (t, ·)).length = m := by
    rw [List.length_map, hlength]
  have htotal : (s.enqueued ++ (call.rest.take m).map (t, ·)).length = s.enqueued.length + m := by
    rw [List.length_append, hvalues]
  have hring := h.ring.take (m := m) (n := call.rest.length) (by omega) (by omega)
    (fun hless => by omega) hlast (by omega)
  rw [hmod] at hring
  have htaken : base cfg + s.enqueued.length = g.alloc * cfg.entries + g.added g.alloc := hlast
  have hdiv : (base cfg + s.enqueued.length) / cfg.entries = g.alloc := by
    rw [htaken, Nat.add_comm, Nat.add_mul_div_right _ _ hcfg.entries, Nat.div_eq_of_lt hlt,
      Nat.zero_add]
  have hrem : (base cfg + s.enqueued.length) % cfg.entries = g.added g.alloc := by
    rw [htaken, Nat.add_comm, Nat.add_mul_mod_self_right, Nat.mod_eq_of_lt hlt]
  refine ⟨{ g with
    added := Function.update g.added g.alloc (g.added g.alloc + call.rest.length) }, ?_⟩
  have hprefix : s.enqueued <+: s.enqueued ++ (call.rest.take m).map (t, ·) :=
    List.prefix_append ..
  have hsame (s₁ : State Tid α)
      (henqueued : s₁.enqueued = s.enqueued ++ (call.rest.take m).map (t, ·))
      (hgranted : s₁.granted = s.granted) (u : Tid) : s₁.share u = s.share u :=
    share_enqueued h.granted_le (henqueued ▸ hprefix) hgranted u
  apply h.move (t := t)
  · exact ⟨le_rfl, le_rfl, hprefix, List.prefix_rfl, le_rfl, le_rfl, le_rfl, le_rfl, fun _ => id,
      fun _ => id, fun _ _ _ _ => id, fun _ _ _ _ => id, fun _ _ _ _ _ => rfl⟩
  · have hsa : s.taken cfg + m =
        base cfg + (s.enqueued ++ (call.rest.take m).map (t, ·)).length := by
      rw [htotal, ← Nat.add_assoc]
      rfl
    rw [hsa] at hring
    exact hring
  · rfl
  · refine ⟨hbatch, [], ?_⟩
    have hnil : ([] : List α).length = 0 := rfl
    constructor
    · rw [hdiv, hmod]
    · rw [hlength, hnil]
      omega
    · rw [hlength, hnil, Nat.zero_add]
    · rw [hrem, hlength, hnil]
      omega
    · rw [hrem, hnil, Nat.add_zero]
    · intro j v hv
      change (s.enqueued ++ (call.rest.take m).map (t, ·))[s.enqueued.length + j]? = some (t, v)
      rw [List.getElem?_append_right (Nat.le_add_right ..), Nat.add_sub_cancel_left,
        List.getElem?_map]
      rw [List.nil_append] at hv
      rw [hv]
      rfl
    · intro j hj
      apply Bool.eq_false_of_not_eq_true
      intro hdone
      have hbelow := h.ring.done _ hdone
      change base cfg + s.enqueued.length + j < base cfg + s.enqueued.length at hbelow
      omega
    · intro j v hv
      cases hv
  · intro j v hv hdone hgone
    have hbelow : base cfg + j < base cfg + s.enqueued.length := h.ring.done _ hdone
    replace hv : (s.enqueued ++ (call.rest.take m).map (t, ·))[j]? = some v := hv
    rw [List.getElem?_append_left (by omega)] at hv
    exact h.kept j v hv hdone hgone
  · intro j hj _ hcase
    replace hj : j < (s.enqueued ++ (call.rest.take m).map (t, ·)).length := hj
    rw [htotal] at hj
    rcases hcase with hw | hge
    · rw [hat] at hw
      exact False.elim hw
    · refine ⟨hge, ?_⟩
      rw [shiftRight_size]
      exact hj
  · intro j hj _ hcase
    rcases hcase with hr | hge
    · rw [hat] at hr
      exact False.elim hr
    · exact absurd hj (Nat.not_lt.mpr hge)
  · rw [hat]
    exact .inr (.inr ⟨rfl, rfl, (Option.some_ne_none _).symm⟩)
  · intro hfr
    rw [hat]
    exact ⟨(h.follower hfr).1, .inr (.inr ⟨rfl, rfl, (Option.some_ne_none _).symm⟩)⟩
  · have hshare := h.shares t
    rw [hat] at hshare
    refine (hsame _ ?_ ?_ t).trans hshare
    · rfl
    · rfl
  · intro u _
    refine ⟨hsame _ ?_ ?_ u, rfl⟩
    · rfl
    · rfl

/-- The producer writes the next entry of its range. -/
theorem Inv.write (h : Inv cfg fr s g) (hcfg : cfg.Valid)
    (hat : s.pc t = .enqCopy call w first space offset (v :: todo)) :
    Inv cfg fr ({ s with
      queue.entry := writeEntry s.queue.entry (w % cfg.blocks) offset v }.goto t
        (.enqCopy call w first space (offset + 8) todo)) g := by
  have hok := h.pcs t
  rw [hat] at hok
  obtain ⟨hbatch, written, hc⟩ := hok
  have hcons : (v :: todo).length = todo.length + 1 := rfl
  have hfit := hc.fits
  have hle := hc.length_le
  have hsingle : (written ++ [v]).length = written.length + 1 := List.length_append
  have hsplit : written ++ v :: todo = written ++ [v] ++ todo := by
    rw [List.append_assoc]
    rfl
  rw [hcons] at hfit hle
  obtain ⟨hdiv, hrem⟩ := pos_range (x := base cfg + first) (j := written.length) hcfg.entries
    (by omega)
  have hfresh := hc.fresh written.length (by omega)
  have hmine : s.enqueued[first + written.length]? = some (t, v) := by
    apply hc.values
    rw [List.getElem?_append_right le_rfl, Nat.sub_self]
    rfl
  have hplace : place cfg (base cfg + first + written.length) = (w % cfg.blocks, offset) := by
    rw [place_eq hcfg, hdiv, hrem, hc.block, hc.offset]
  -- the entries that are there keep their values
  have hother {p : Nat} (hp : g.gone p = false) (hlt : p < s.taken cfg)
      (hne : p ≠ base cfg + first + written.length) :
      entryAt cfg { s.queue with entry := writeEntry s.queue.entry (w % cfg.blocks) offset v } p =
        entryAt cfg s.queue p := by
    have hapart := h.ring.place_ne hp hlt (h.ring.not_gone hfresh)
      (by change _ < base cfg + s.enqueued.length; omega) hne
    rw [hplace] at hapart
    rw [entryAt, entryAt]
    apply BbqSpsc.writeEntry_other
    exact hapart
  have hself : entryAt cfg
      { s.queue with entry := writeEntry s.queue.entry (w % cfg.blocks) offset v }
        (base cfg + first + written.length) = v := by
    rw [entryAt, hplace]
    exact BbqSpsc.writeEntry_self ..
  apply h.move (t := t)
  · refine ⟨le_rfl, le_rfl, List.prefix_rfl, List.prefix_rfl, le_rfl, le_rfl, le_rfl, le_rfl,
      fun _ => id, fun _ => id, fun _ _ _ _ => id, fun _ _ _ _ => id, fun j x hx hxt hdone => ?_⟩
    have hlt := (List.getElem?_eq_some_iff.mp hx).1
    apply hother (h.ring.not_gone hdone)
    · exact Nat.add_lt_add_left hlt _
    · intro heq
      obtain rfl : j = first + written.length := by omega
      rw [hmine] at hx
      cases hx
      exact hxt rfl
  · exact { h.ring with }
  · rfl
  · refine ⟨hbatch, written ++ [v], ?_⟩
    constructor
    · exact hc.block
    · omega
    · rw [hc.space, hcons, hsingle]
      omega
    · rw [hsingle]
      omega
    · rw [hc.offset, hsingle]
      omega
    · intro j x hx
      rw [← hsplit] at hx
      exact hc.values j x hx
    · intro j hj
      apply hc.fresh
      omega
    · intro j x hx
      rcases Nat.lt_or_ge j written.length with hlt | hge
      · rw [List.getElem?_append_left hlt] at hx
        have hold := hc.fresh j (by omega)
        rw [← hc.stored j x hx]
        apply hother (h.ring.not_gone hold)
        · change _ < base cfg + s.enqueued.length
          omega
        · omega
      · have hbound := (List.getElem?_eq_some_iff.mp hx).1
        obtain rfl : j = written.length := by omega
        rw [List.getElem?_concat_length] at hx
        cases hx
        exact hself
  · intro j x hx hdone hgone
    have hlt := (List.getElem?_eq_some_iff.mp hx).1
    rw [← h.kept j x hx hdone hgone]
    apply hother hgone
    · exact Nat.add_lt_add_left hlt _
    · intro heq
      rw [heq, hfresh] at hdone
      cases hdone
  · intro j hj _ hcase
    rcases hcase with hw | hge
    · rw [hat] at hw
      exact hw
    · exact absurd hj (Nat.not_lt.mpr hge)
  · intro j hj _ hcase
    rcases hcase with hr | hge
    · rw [hat] at hr
      exact False.elim hr
    · exact absurd hj (Nat.not_lt.mpr hge)
  · rw [hat]
    exact .inr (.inr ⟨rfl, rfl, (Option.some_ne_none _).symm⟩)
  · intro hfr
    rw [hat]
    exact ⟨(h.follower hfr).1, .inr (.inr ⟨rfl, rfl, (Option.some_ne_none _).symm⟩)⟩
  · have hshare := h.shares t
    rw [hat] at hshare
    exact hshare
  · exact fun _ _ => ⟨rfl, rfl⟩

theorem Inv.commit (h : Inv cfg fr s g) (hcfg : cfg.Valid)
    (hat : s.pc t = .enqCopy call w first space offset []) {rest : List α}
    (hrest : rest.length ≤ call.rest.length) :
    ∃ g', Inv cfg fr ({ s with
      queue.committed := Function.update s.queue.committed (w % cfg.blocks)
        (wadd 64 (s.queue.committed (w % cfg.blocks)) space) }.goto t
        (nextEnqueue { call with rest := rest } true)) g' := by
  have hok := h.pcs t
  rw [hat] at hok
  obtain ⟨hbatch, written, hc⟩ := hok
  have hnil : ([] : List α).length = 0 := rfl
  have hpos := hc.pos
  have hfit := hc.fits
  have hle := hc.length_le
  have hspace := hc.space
  rw [hnil, Nat.add_zero] at hpos hfit hle hspace
  have hring := h.ring.commit hcfg hpos hfit
    (by change _ ≤ base cfg + s.enqueued.length; omega) fun j hj => hc.fresh j (by omega)
  rw [hc.block, ← hspace] at hring
  obtain ⟨hwrites, hreads, hopens, hfollows, hcoming⟩ :=
    plain_spec (nextEnqueue_plain { call with rest := rest } true)
  have hmine {j : Nat} (hj : j < written.length) : ∃ v, s.enqueued[first + j]? = some (t, v) ∧
      entryAt cfg s.queue (base cfg + (first + j)) = v := by
    have hget := List.getElem?_eq_getElem hj
    refine ⟨_, ?_, (Nat.add_assoc ..) ▸ hc.stored j _ hget⟩
    apply hc.values
    rw [List.append_nil]
    exact hget
  refine ⟨{ g with done := mark g.done (base cfg + first) written.length }, ?_⟩
  apply h.move (t := t)
  · refine ⟨le_rfl, le_rfl, List.prefix_rfl, List.prefix_rfl, le_rfl, le_rfl, le_rfl, le_rfl,
      fun _ hp => mark_iff.mpr (.inl hp), fun _ => id, fun j x hx hxt hdone => ?_,
      fun _ _ _ _ => id, fun _ _ _ _ _ => rfl⟩
    apply Bool.eq_false_of_not_eq_true
    intro hmarked
    rcases mark_iff.mp hmarked with hold | hrange
    · rw [hdone] at hold
      cases hold
    · obtain ⟨v, hv, -⟩ := hmine (j := j - first) (by omega)
      rw [Nat.add_sub_cancel' (by omega), hx] at hv
      cases hv
      exact hxt rfl
  · exact hring
  · rfl
  · exact nextEnqueue_ok (lt_of_le_of_lt hrest hbatch) true
  · intro j x hx hdone hgone
    rcases mark_iff.mp hdone with hold | hrange
    · exact h.kept j x hx hold hgone
    · obtain ⟨v, hv, hentry⟩ := hmine (j := j - first) (by omega)
      rw [Nat.add_sub_cancel' (by omega)] at hv hentry
      replace hx : s.enqueued[j]? = some x := hx
      rw [hv] at hx
      cases hx
      exact hentry
  · intro j hj hdone hcase
    rcases hcase with hw | hge
    · rw [hat] at hw
      obtain ⟨hlow, hhigh⟩ := hw
      rw [hspace, shiftRight_size] at hhigh
      have hmarked : mark g.done (base cfg + first) written.length (base cfg + j) = true :=
        mark_iff.mpr (.inr (by omega))
      exact absurd (hdone.symm.trans hmarked) Bool.false_ne_true
    · exact absurd hj (Nat.not_lt.mpr hge)
  · intro j hj _ hcase
    rcases hcase with hr | hge
    · rw [hat] at hr
      exact False.elim hr
    · exact absurd hj (Nat.not_lt.mpr hge)
  · rw [hat]
    exact .inr (.inr ⟨rfl, rfl, (Option.some_ne_none _).symm⟩)
  · intro hfr
    rw [hat]
    exact ⟨(h.follower hfr).1, .inr (.inr ⟨rfl, rfl, (Option.some_ne_none _).symm⟩)⟩
  · have hshare := h.shares t
    rw [hat] at hshare
    rw [hcoming]
    exact hshare
  · exact fun _ _ => ⟨rfl, rfl⟩

theorem allocate_space {n a : Nat} (hcfg : cfg.Valid) (hn : n < 2 ^ 29) (ha : a < cfg.entries) :
    min (8 * n) (cfg.blkSize - (cfg.initValue + 8 * a)) % 2 ^ 16 =
      8 * min n (cfg.entries - a) := by
  have hsize := hcfg.size
  have hsmall := hcfg.small
  omega

theorem Inv.allocate (h : Inv cfg fr s g) (hcfg : cfg.Valid) (hat : s.pc t = .enqAdd call w)
    (hfits : fits cfg s (.step t) = true) : ∃ g', Inv cfg fr (allocate cfg s t call w) g' := by
  have hok := h.pcs t
  rw [hat] at hok
  obtain ⟨⟨-, hbatch⟩, hw⟩ := hok
  have htotal := entryTotalSize_eq hbatch
  rw [fits, hat] at hfits
  replace hfits := of_decide_eq_true hfits
  rw [blockOf_eq, htotal] at hfits
  dsimp only [BbqMpmc.allocate]
  rw [blockOf_eq, htotal]
  split
  · next hroom =>
      obtain ⟨-, hlt, hcell, -⟩ := h.ring.allocated_room hcfg hw hroom
      have hidx : bbqLocalIdx (s.queue.allocated (w % cfg.blocks)) =
          cfg.initValue + 8 * g.added g.alloc := by
        rw [hcell, word_idx (h.ring.added g.alloc)]
      have hspace := allocate_space hcfg hbatch hlt
      rw [← hidx] at hspace
      rw [hspace, shiftRight_size]
      exact h.take hcfg hat hfits hroom rfl
  · next hfull => exact h.overrun hcfg hat hfits hfull

theorem Inv.enqueueStep (h : Inv cfg fr s g) (hcfg : cfg.Valid)
    (hfits : fits cfg s (.step t) = true) (hstep : enqueueStep cfg s t (s.pc t) = some s') :
    ∃ g', Inv cfg fr s' g' := by
  have hok := h.pcs t
  cases hat : s.pc t with
  | enqWidx call =>
    rw [hat] at hstep hok
    cases hstep
    exact ⟨g, h.goto (by rw [hat]; rfl) rfl ⟨hok, le_rfl⟩⟩
  | enqAllocated call w =>
    rw [hat] at hstep hok
    obtain ⟨hbatch, hw⟩ := hok
    dsimp only [BbqMpmc.enqueueStep] at hstep
    rw [blockOf_eq] at hstep
    split at hstep
    next =>
      cases hstep
      exact ⟨g, h.goto (by rw [hat]; rfl) rfl ⟨hbatch, hw⟩⟩
    next hfull =>
      cases hstep
      exact ⟨g, h.goto (by rw [hat]; rfl) rfl
        ⟨hbatch, hw, h.ring.allocated_full hcfg hw hfull⟩⟩
  | enqAdd call w =>
    rw [hat] at hstep
    cases hstep
    exact h.allocate hcfg hat hfits
  | enqCopy call w first space offset todo =>
    cases todo with
    | nil =>
      rw [hat] at hstep
      cases hstep
      rw [blockOf_eq]
      exact h.commit hcfg hat (List.length_drop.trans_le (Nat.sub_le ..))
    | cons v todo =>
      rw [hat] at hstep
      cases hstep
      rw [blockOf_eq]
      exact ⟨g, h.write hcfg hat⟩
  | enqConsumed call w =>
    rw [hat] at hstep hok
    obtain ⟨hbatch, hw, hend⟩ := hok
    dsimp only [BbqMpmc.enqueueStep] at hstep
    rw [nextBlockOf_eq, h.ring.globalVsn (h.widx_comm hw)] at hstep
    split at hstep
    next hfull =>
      cases hstep
      exact ⟨g, h.goto (by rw [hat]; rfl) rfl
        ⟨hbatch, hw, hend, h.ring.fullyConsumed hcfg hw hfull⟩⟩
    next =>
      cases hstep
      exact ⟨g, h.goto (by rw [hat]; rfl) (nextEnqueue_plain call false)
        (nextEnqueue_ok hbatch.2 false)⟩
  | resetCommitted call w =>
    rw [hat] at hstep hok
    rw [fits, hat] at hfits
    cases hstep
    rw [nextBlockOf_eq, h.ring.globalVsn (h.widx_comm hok.2.1)]
    exact h.resetCommitted hcfg hat (of_decide_eq_true hfits)
  | resetAllocated call w =>
    rw [hat] at hstep hok
    cases hstep
    rw [nextBlockOf_eq, h.ring.globalVsn (h.widx_comm hok.2.1)]
    exact h.resetAllocated hcfg hat
  | advanceWidx call w =>
    rw [hat] at hstep hok
    cases hstep
    have halloc := hok.2.trans h.ring.alloc
    rw [wadd_of_lt (h.ring.index_lt hcfg (by omega))]
    exact ⟨g, h.advanceWidx hat⟩
  | _ =>
    rw [hat] at hstep
    cases hstep

end Libvsync.Queue.BbqMpmc
