import Libvsync.Map.ListsetOptInv

/-!
The optimistic list set is an atomic set: every operation is settled under the
locks of two neighbours of the list, by its validation or by its write.
-/

namespace Libvsync.Map.ListsetOpt

open Libvsync.Core Function
open Libvsync.Map.ListsetLf (Config rankOf numbered nodeTwo nodeThree)

variable {Tid Node Key : Type} [DecidableEq Node] [LinearOrder Key]
  {c : Config Node Key} {s s' : State Tid Node Key} {t : Tid}

/-- What a step does to the call of its thread. -/
inductive Does (c : Config Node Key) (s : State Tid Node Key) (pc : Pc Node Key)
    (s' : State Tid Node Key) (pc' : Pc Node Key) : Prop
  | walk (same : members c s' = members c s) (settled : pc'.settled = pc.settled)
  | settle (i : SetCall Node Key) (r : SetResult Node) (before : pc.settled = none)
      (after : pc'.settled = some (i, r)) (meets : setSpec c.key (members c s) i r (members c s'))
  | leave (same : members c s' = members c s) (idle : pc' = .idle)

variable [DecidableEq Tid]

structure Stepped (c : Config Node Key) (s : State Tid Node Key) (t : Tid)
    (s' : State Tid Node Key) (pc' : Pc Node Key) : Prop where
  acts : Acts c s t s' pc'
  does : Does c s (s.pc t) (s'.goto t pc') pc'

omit [DecidableEq Tid] in
theorem Acts.shared {pc' : Pc Node Key} (a : Acts c s t s' pc') (h : Inv c s) : Shared c s' :=
  a.effect.shared h.shared (h.owned t) (h.victims t)

/-- A step that leaves the set and the outcome as they are. -/
theorem Inv.walk (h : Inv c s) {pc' : Pc Node Key}
    (e : Effect c s t (s.pc t).owned (s.pc t).victims s') (ok : PcOk c s' t pc')
    (hlinked : s'.linked = s.linked) (hdetached : s'.detached = s.detached)
    (hinUse : s'.inUse = s.inUse) (howned : ∀ n ∈ pc'.owned, n ∈ (s.pc t).owned)
    (hretires : Retires s s' (s.pc t).victims pc'.victims)
    (hsettled : pc'.settled = (s.pc t).settled) : Stepped c s t s' pc' := by
  have hacts : Acts c s t s' pc' := by
    refine ⟨e, ok, ?_, hretires⟩
    intro n hn
    obtain ⟨hin, hunlinked⟩ := h.owned t n (howned n hn)
    rw [hlinked, hinUse]
    exact ⟨hin, hunlinked, .inl (howned n hn)⟩
  exact ⟨hacts,
    .walk (h.shared.members_eq ((hacts.shared h).goto t pc') hlinked hdetached) hsettled⟩

theorem Inv.go (h : Inv c s) {pc' : Pc Node Key} (ok : PcOk c s t pc')
    (howned : ∀ n ∈ pc'.owned, n ∈ (s.pc t).owned) (hvictims : pc'.victims = (s.pc t).victims)
    (hsettled : pc'.settled = (s.pc t).settled) : Stepped c s t s pc' :=
  h.walk .none ok rfl rfl rfl howned (.keep hvictims rfl rfl) hsettled

/-- The outcome is settled by what the set is, and the set stays. -/
theorem Inv.decided (h : Inv c s) {pc' : Pc Node Key} (ok : PcOk c s t pc')
    (howned : ∀ n ∈ pc'.owned, n ∈ (s.pc t).owned) (hvictims : pc'.victims = (s.pc t).victims)
    (hbefore : (s.pc t).settled = none) {i : SetCall Node Key} {r : SetResult Node}
    (hafter : pc'.settled = some (i, r))
    (hspec : setSpec c.key (members c s) i r (members c s)) : Stepped c s t s pc' := by
  refine ⟨⟨.none, ok, ?_, .keep hvictims rfl rfl⟩, .settle i r hbefore hafter hspec⟩
  intro n hn
  obtain ⟨hin, hunlinked⟩ := h.owned t n (howned n hn)
  exact ⟨hin, hunlinked, .inl (howned n hn)⟩

theorem Inv.find_read (h : Inv c s) {k : Key} {op : Op Node} {pred : Node}
    (hpc : s.pc t = .findRead k op pred) :
    Stepped c s t s (findTest c k op pred (s.next pred)) := by
  have hok := h.pc t
  rw [hpc] at hok
  obtain ⟨hop, hlinked, hbelow⟩ := hok
  have htail : pred ≠ c.tail := by
    rintro rfl
    exact lt_asymm hbelow (c.rank_tail k)
  obtain ⟨curr, hcurr, hcurrLinked, hrank⟩ := h.shared.list.closed pred hlinked htail
  have hhead : curr ≠ c.head := Config.ne_head_of_lt hrank
  rw [hcurr]
  simp only [findTest]
  split
  · rename_i hloop
    exact h.go ⟨hop, hcurrLinked, (Config.rank_lt_iff hhead hloop.1).mpr hloop.2⟩
      (by rw [hpc]; exact fun n hn => hn) (by rw [hpc]; rfl) (by rw [hpc]; rfl)
  · rename_i hloop
    have habove : rankOf k ≤ c.rank curr := by
      by_cases hend : curr = c.tail
      · rw [hend]
        exact (c.rank_tail k).le
      · rw [← not_lt, Config.rank_lt_iff hhead hend]
        exact fun hlt => hloop ⟨hend, hlt⟩
    exact h.go ⟨hop, hlinked, hcurrLinked, hbelow, habove⟩
      (by rw [hpc]; exact fun n hn => hn) (by rw [hpc]; rfl) (by rw [hpc]; rfl)

/-- The validation begins: the nodes that are detached now are stale. -/
theorem Inv.begin_validate (h : Inv c s) {k : Key} {op : Op Node} {pred curr : Node}
    (hpc : s.pc t = .lockCurr k op pred curr) (hfree : s.owner curr = none) :
    Stepped c s t { s with
      owner := update s.owner curr (some t)
      stale := update s.stale t s.detached } (validate c k op pred curr) := by
  have hok := h.pc t
  rw [hpc] at hok
  obtain ⟨hop, hplace, hpred⟩ := hok
  have hlocked : Locked { s with
      owner := update s.owner curr (some t)
      stale := update s.stale t s.detached } t pred curr :=
    ⟨(update_of_ne hplace.ne _ _).trans hpred, update_self ..⟩
  have heffect : Effect c s t (s.pc t).owned (s.pc t).victims { s with
      owner := update s.owner curr (some t)
      stale := update s.stale t s.detached } :=
    .acquire curr hfree _ fun u hu => update_of_ne hu _ _
  have hfirst := h.shared.list.first_in
  rw [validate]
  split
  · rename_i hhead
    exact h.walk heffect ⟨hop, { hplace with }, hlocked, hhead ▸ hfirst.2⟩ rfl rfl rfl
      (by rw [hpc]; exact fun n hn => hn) (.keep (by rw [hpc]; rfl) rfl rfl) (by rw [hpc]; rfl)
  · have hwalking : Walking { s with
        owner := update s.owner curr (some t)
        stale := update s.stale t s.detached } s.detached pred c.head := by
      refine ⟨fun _ => id, ?_, rfl, hfirst.1, hfirst.2⟩
      intro n m hn hattached hm
      exact (h.shared.list.next_in ⟨hn, hattached⟩ hm).2
    refine h.walk heffect ⟨hop, { hplace with }, hlocked, ?_, c.rank_head k⟩ rfl rfl rfl
      (by rw [hpc]; exact fun n hn => hn) (.keep (by rw [hpc]; rfl) rfl rfl) (by rw [hpc]; rfl)
    dsimp only
    rw [update_self]
    exact hwalking

/-- The second walk comes to `pred` only if `pred` is in the list. -/
theorem Inv.val_walk (h : Inv c s) {k : Key} {op : Op Node} {pred curr node : Node}
    (hpc : s.pc t = .valWalk k op pred curr node) :
    Stepped c s t s (valTest c k op pred curr (s.next node)) := by
  have hok := h.pc t
  rw [hpc] at hok
  obtain ⟨hop, hplace, hlocked, hwalking, hbelow⟩ := hok
  have htail : node ≠ c.tail := by
    rintro rfl
    exact lt_asymm hbelow (c.rank_tail k)
  obtain ⟨succ, hsucc, hsuccLinked, hrank⟩ := h.shared.list.closed node hwalking.linked htail
  have hfresh := hwalking.closed node succ hwalking.linked hwalking.fresh hsucc
  have hmine : ∀ n ∈ op.owned, n ∈ (s.pc t).owned := by
    rw [hpc]
    exact fun n hn => hn
  rw [hsucc]
  simp only [valTest]
  split
  · rename_i hloop
    split
    · rename_i hpred
      subst hpred
      exact h.go ⟨hop, hplace, hlocked, hwalking.kept.trans hfresh⟩ hmine (by rw [hpc]; rfl)
        (by rw [hpc]; rfl)
    · refine h.go ⟨hop, hplace, hlocked,
        { hwalking with linked := hsuccLinked, fresh := hfresh }, ?_⟩ hmine (by rw [hpc]; rfl)
        (by rw [hpc]; rfl)
      exact (Config.rank_lt_iff (Config.ne_head_of_lt hrank) hloop.1).mpr hloop.2
  · exact h.go ⟨hop, hplace, hlocked⟩ hmine (by rw [hpc]; rfl) (by rw [hpc]; rfl)

theorem Inv.val_next (h : Inv c s) {k : Key} {op : Op Node} {pred curr : Node}
    (hpc : s.pc t = .valNext k op pred curr) (hlink : s.next pred = some curr) :
    Stepped c s t s (validated c k op pred curr) := by
  have hok := h.pc t
  rw [hpc] at hok
  obtain ⟨hop, hplace, hlocked, hpred⟩ := hok
  have hvalid : Valid c s t k pred curr :=
    { hplace, hlocked with predIn := hpred, link := hlink }
  have hhead := hplace.currNotHead
  have hbefore : (s.pc t).settled = none := by
    rw [hpc]
    rfl
  have hnone : (s.pc t).victims = [] := by
    rw [hpc]
    rfl
  have hmine : ∀ n ∈ op.owned, n ∈ (s.pc t).owned := by
    rw [hpc]
    exact fun n hn => hn
  unfold validated
  split
  · rename_i hfound
    have hmember : curr ∈ members c s :=
      h.shared.members_iff.mpr ⟨hvalid.currInList h.shared, hhead, hfound.1⟩
    have hkey : c.key curr = k := (c.cmp_zero curr k).mp hfound.2
    cases op with
    | add node =>
      exact h.decided ⟨trivial, hplace, hlocked⟩ hmine hnone.symm hbefore rfl
        ⟨⟨curr, hmember, hkey⟩, rfl⟩
    | remove =>
      exact h.go ⟨hvalid, (Config.rank_eq_iff hhead hfound.1).mpr hfound.2, hfound.1⟩ nofun
        hnone.symm hbefore.symm
    | get =>
      exact h.decided ⟨trivial, hplace, hlocked⟩ nofun hnone.symm hbefore rfl
        ⟨hmember, hkey, rfl⟩
  · rename_i hno
    have habove : rankOf k < c.rank curr := by
      by_cases htail : curr = c.tail
      · rw [htail]
        exact c.rank_tail k
      · refine lt_of_le_of_ne hplace.above fun heq => hno ⟨htail, ?_⟩
        exact (Config.rank_eq_iff hhead htail).mp heq.symm
    cases op with
    | add node => exact h.go ⟨hop, hvalid, habove⟩ hmine hnone.symm hbefore.symm
    | remove | get =>
      exact h.decided ⟨trivial, hplace, hlocked⟩ nofun hnone.symm hbefore rfl
        ⟨h.shared.absent hvalid habove, rfl⟩

theorem Inv.add_link (h : Inv c s) {k : Key} {node pred curr : Node}
    (hpc : s.pc t = .addLink k node pred curr) :
    Stepped c s t { s with
      next := update s.next pred (some node)
      linked := update s.linked node true }
      (.unlockPred k (.stop (.added node true)) pred curr) := by
  have hok := h.pc t
  rw [hpc] at hok
  obtain ⟨hkey, hvalid, habove, hnext⟩ := hok
  have hmine : node ∈ (s.pc t).owned := by
    rw [hpc]
    exact List.mem_singleton_self node
  have hunlinked := (h.owned t node hmine).2
  have hfresh : s.detached node = false := by
    by_contra hd
    rw [h.shared.was node (by simpa using hd)] at hunlinked
    cases hunlinked
  have hmono {n : Node} (hn : s.linked n = true) : update s.linked node true n = true := by
    by_cases hne : n = node
    · exact hne ▸ update_self ..
    · exact (update_of_ne hne _ _).trans hn
  have hacts : Acts c s t { s with
      next := update s.next pred (some node)
      linked := update s.linked node true }
      (.unlockPred k (.stop (.added node true)) pred curr) := by
    refine ⟨.link k pred node curr hmine hvalid hkey habove hnext, ?_, nofun,
      .keep (by rw [hpc]; rfl) rfl rfl⟩
    exact ⟨trivial, ⟨hmono hvalid.predLinked, hmono hvalid.currLinked, hvalid.below, hvalid.above⟩,
      ⟨hvalid.predHeld, hvalid.currHeld⟩⟩
  refine ⟨hacts, .settle (.add k node) (.success true) (by rw [hpc]; rfl) rfl
    ⟨h.shared.absent hvalid habove, hkey, ?_⟩⟩
  have hnodeHead : node ≠ c.head := by
    rintro rfl
    rw [h.shared.list.first_in.1] at hunlinked
    cases hunlinked
  have hnodeTail : node ≠ c.tail := by
    rintro rfl
    rw [h.shared.list.last_in.1] at hunlinked
    cases hunlinked
  ext n
  rw [((hacts.shared h).goto t _).members_iff, Set.mem_insert_iff, h.shared.members_iff]
  dsimp only [State.goto, InList]
  by_cases hne : n = node
  · subst hne
    simp [hfresh, hnodeHead, hnodeTail]
  · simp [hne]

theorem Inv.remove_detach (h : Inv c s) {k : Key} {pred curr : Node} {succ : Option Node}
    (hpc : s.pc t = .removeDetach k pred curr succ) :
    Stepped c s t { s with
      next := update s.next pred succ
      detached := update s.detached curr true }
      (.unlockPred k (.stop (.removed (some curr))) pred curr) := by
  have hok := h.pc t
  rw [hpc] at hok
  obtain ⟨hvalid, hrank, htail, rfl⟩ := hok
  have hhead := hvalid.currNotHead
  have hcurr := hvalid.currInList h.shared
  obtain ⟨succ, hsucc, -⟩ := h.shared.list.closed curr hvalid.currLinked htail
  rw [hsucc]
  have hacts : Acts c s t { s with
      next := update s.next pred (some succ)
      detached := update s.detached curr true }
      (.unlockPred k (.stop (.removed (some curr))) pred curr) := by
    refine ⟨.detach k pred curr succ hvalid hsucc, ?_, nofun,
      .gain curr (by rw [hpc]; rfl) rfl hcurr.2 rfl rfl⟩
    exact ⟨trivial, { hvalid.toPlace with }, ⟨hvalid.predHeld, hvalid.currHeld⟩⟩
  refine ⟨hacts, .settle (.remove k) (.success true) (by rw [hpc]; rfl) rfl
    ⟨curr, h.shared.members_iff.mpr ⟨hcurr, hhead, htail⟩, ?_, ?_⟩⟩
  · exact (c.cmp_zero curr k).mp ((Config.rank_eq_iff hhead htail).mp hrank)
  · ext n
    rw [((hacts.shared h).goto t _).members_iff, Set.mem_sdiff, h.shared.members_iff,
      Set.mem_singleton_iff]
    dsimp only [State.goto, InList]
    by_cases hne : n = curr
    · subst hne
      simp
    · simp [hne]

theorem Inv.unlock_curr (h : Inv c s) {k : Key} {fate : Fate Node} {curr : Node}
    (hpc : s.pc t = .unlockCurr k fate curr) :
    Stepped c s t (s.release curr) (afterUnlock c k fate) := by
  have hok := h.pc t
  rw [hpc] at hok
  obtain ⟨hfate, hlinked, hheld⟩ := hok
  have hmove {pc' : Pc Node Key} (ok : PcOk c (s.release curr) t pc')
      (howned : ∀ n ∈ pc'.owned, n ∈ fate.owned) (hvictims : pc'.victims = (s.pc t).victims)
      (hsettled : pc'.settled = (s.pc t).settled) : Stepped c s t (s.release curr) pc' := by
    refine h.walk (.release curr (.inl hheld)) ok rfl rfl rfl ?_ (.keep hvictims rfl rfl) hsettled
    rw [hpc]
    exact howned
  cases fate with
  | again op =>
    exact hmove ⟨hfate, h.shared.list.first_in.1, c.rank_head k⟩ (fun n hn => hn)
      (by rw [hpc]; rfl) (by rw [hpc]; rfl)
  | stop outcome =>
    cases outcome with
    | added node ok =>
      refine hmove nofun ?_ (by rw [hpc]; rfl) (by rw [hpc]; rfl)
      cases ok <;> exact fun n hn => hn
    | removed node =>
      cases node with
      | none => exact hmove nofun nofun (by rw [hpc]; rfl) (by rw [hpc]; rfl)
      | some n => exact hmove trivial nofun (by rw [hpc]; rfl) (by rw [hpc]; rfl)
    | got node => exact hmove nofun nofun (by rw [hpc]; rfl) (by rw [hpc]; rfl)

theorem Inv.ret (h : Inv c s) {k : Key} {outcome : Outcome Node} (hpc : s.pc t = .ret k outcome)
    (hstep : nextStep c s t = some s') : ∃ s₁, s' = s₁.goto t .idle ∧ Stepped c s t s₁ .idle := by
  have hleave {s₁ : State Tid Node Key}
      (e : Effect c s t (s.pc t).owned (s.pc t).victims s₁) (hlinked : s₁.linked = s.linked)
      (hdetached : s₁.detached = s.detached) (hretired : s₁.retired = s.retired) :
      Stepped c s t s₁ .idle := by
    have hacts : Acts c s t s₁ .idle :=
      ⟨e, trivial, nofun, .keep (by rw [hpc]; rfl) hdetached hretired⟩
    refine ⟨hacts, .leave ?_ rfl⟩
    exact h.shared.members_eq ((hacts.shared h).goto t .idle) hlinked hdetached
  simp only [nextStep, hpc] at hstep
  cases outcome with
  | added node ok =>
    cases ok with
    | true =>
      cases hstep
      exact ⟨s, rfl, hleave .none rfl rfl rfl⟩
    | false =>
      cases hstep
      refine ⟨_, rfl, hleave (.give node ?_) rfl rfl rfl⟩
      rw [hpc]
      exact List.mem_singleton_self node
  | removed | got =>
    cases hstep
    exact ⟨s, rfl, hleave .none rfl rfl rfl⟩

omit [DecidableEq Tid] in
/-- The node that a thread is adding is not in the list. -/
theorem Inv.owned_ne (h : Inv c s) {n node : Node} (hmine : node ∈ (s.pc t).owned)
    (hn : s.linked n = true) : n ≠ node := by
  rintro rfl
  rw [(h.owned t n hmine).2] at hn
  cases hn

theorem Inv.next_step (h : Inv c s) (hstep : nextStep c s t = some s') :
    ∃ s₁ pc', s' = s₁.goto t pc' ∧ Stepped c s t s₁ pc' := by
  have hok := h.pc t
  cases hpc : s.pc t with
  | idle | crashed =>
    simp only [nextStep, hpc] at hstep
    cases hstep
  | findRead k op pred =>
    simp only [nextStep, hpc] at hstep
    cases hstep
    exact ⟨s, _, rfl, h.find_read hpc⟩
  | lockPred k op pred curr =>
    simp only [nextStep, hpc] at hstep
    obtain ⟨s₁, hacquire, rfl⟩ := Option.map_eq_some_iff.mp hstep
    rw [hpc] at hok
    simp only [State.acquire] at hacquire
    split at hacquire
    · rename_i hfree
      cases hacquire
      exact ⟨_, _, rfl, h.walk (.acquire pred hfree s.stale fun _ _ => rfl)
        ⟨hok.1, { hok.2 with }, update_self ..⟩ rfl rfl rfl
        (by rw [hpc]; exact fun n hn => hn) (.keep (by rw [hpc]; rfl) rfl rfl) (by rw [hpc]; rfl)⟩
    · cases hacquire
  | lockCurr k op pred curr =>
    simp only [nextStep, hpc] at hstep
    obtain ⟨s₁, hacquire, rfl⟩ := Option.map_eq_some_iff.mp hstep
    simp only [State.acquire] at hacquire
    split at hacquire
    · rename_i hfree
      cases hacquire
      exact ⟨_, _, rfl, h.begin_validate hpc hfree⟩
    · cases hacquire
  | valWalk k op pred curr node =>
    simp only [nextStep, hpc] at hstep
    cases hstep
    exact ⟨s, _, rfl, h.val_walk hpc⟩
  | valNext k op pred curr =>
    simp only [nextStep, hpc] at hstep
    cases hstep
    rw [hpc] at hok
    refine ⟨s, _, rfl, ?_⟩
    split
    · rename_i hlink
      exact h.val_next hpc hlink
    · exact h.go ⟨hok.1, hok.2.1, hok.2.2.1⟩ (by rw [hpc]; exact fun n hn => hn)
        (by rw [hpc]; rfl) (by rw [hpc]; rfl)
  | addInit k node pred curr =>
    simp only [nextStep, hpc] at hstep
    cases hstep
    rw [hpc] at hok
    obtain ⟨hkey, hvalid, habove⟩ := hok
    have hmine : node ∈ (s.pc t).owned := by
      rw [hpc]
      exact List.mem_singleton_self node
    refine ⟨_, _, rfl, h.walk (.release node (.inr hmine)) ⟨hkey, ?_, habove⟩ rfl rfl rfl
      (by rw [hpc]; exact fun n hn => hn) (.keep (by rw [hpc]; rfl) rfl rfl) (by rw [hpc]; rfl)⟩
    exact { hvalid with
      predHeld := (update_of_ne (h.owned_ne hmine hvalid.predLinked) _ _).trans hvalid.predHeld
      currHeld := (update_of_ne (h.owned_ne hmine hvalid.currLinked) _ _).trans hvalid.currHeld }
  | addNext k node pred curr =>
    simp only [nextStep, hpc] at hstep
    cases hstep
    rw [hpc] at hok
    obtain ⟨hkey, hvalid, habove⟩ := hok
    have hmine : node ∈ (s.pc t).owned := by
      rw [hpc]
      exact List.mem_singleton_self node
    refine ⟨_, _, rfl, h.walk (.point node hmine (some curr))
      ⟨hkey, ?_, habove, update_self ..⟩ rfl rfl rfl
      (by rw [hpc]; exact fun n hn => hn) (.keep (by rw [hpc]; rfl) rfl rfl) (by rw [hpc]; rfl)⟩
    exact { hvalid with
      link := (update_of_ne (h.owned_ne hmine hvalid.predLinked) _ _).trans hvalid.link }
  | addLink k node pred curr =>
    simp only [nextStep, hpc] at hstep
    cases hstep
    exact ⟨_, _, rfl, h.add_link hpc⟩
  | removeNext k pred curr =>
    simp only [nextStep, hpc] at hstep
    cases hstep
    rw [hpc] at hok
    exact ⟨s, _, rfl, h.go ⟨hok.1, hok.2.1, hok.2.2, rfl⟩ nofun (by rw [hpc]; rfl)
      (by rw [hpc]; rfl)⟩
  | removeDetach k pred curr succ =>
    simp only [nextStep, hpc] at hstep
    cases hstep
    exact ⟨_, _, rfl, h.remove_detach hpc⟩
  | unlockPred k fate pred curr =>
    simp only [nextStep, hpc] at hstep
    cases hstep
    rw [hpc] at hok
    obtain ⟨hfate, hplace, hlocked⟩ := hok
    refine ⟨_, _, rfl, h.walk (.release pred (.inl hlocked.predHeld))
      ⟨hfate, hplace.currLinked, ?_⟩ rfl rfl rfl (by rw [hpc]; exact fun n hn => hn)
      (.keep ?_ rfl rfl) ?_⟩
    · exact (update_of_ne hplace.ne.symm _ _).trans hlocked.currHeld
    · rw [hpc]
      rcases fate with op | (⟨node, ok⟩ | ⟨_ | n⟩ | node) <;> rfl
    · rw [hpc]
      cases fate <;> rfl
  | unlockCurr k fate curr =>
    simp only [nextStep, hpc] at hstep
    cases hstep
    exact ⟨_, _, rfl, h.unlock_curr hpc⟩
  | retire k curr =>
    simp only [nextStep, hpc] at hstep
    cases hstep
    have hvictim : (s.pc t).victims = [curr] := by
      rw [hpc]
      rfl
    refine ⟨_, _, rfl, h.walk (.retire curr (hvictim ▸ List.mem_singleton_self curr)) ?_ rfl rfl
      rfl nofun (.pay curr hvictim rfl rfl rfl) (by rw [hpc]; rfl)⟩
    rintro n ⟨⟩
    exact List.mem_cons_self
  | ret k outcome =>
    obtain ⟨s₁, rfl, hstepped⟩ := h.ret hpc hstep
    exact ⟨s₁, _, rfl, hstepped⟩

theorem Inv.begin_call (h : Inv c s) (hidle : s.pc t = .idle) {k : Key} {op : Op Node}
    (hstep : beginCall c s t k op = some s') :
    ∃ s₁ pc', s' = s₁.goto t pc' ∧ Stepped c s t s₁ pc' := by
  have hfirst := h.shared.list.first_in.1
  cases op with
  | add node =>
    simp only [beginCall] at hstep
    split at hstep
    · rename_i hnew
      obtain ⟨hfresh, hhead, htail, hkey⟩ := hnew
      cases hstep
      have hunlinked : s.linked node = false := by
        by_contra hlinked
        rcases h.shared.known node (by simpa using hlinked) with hin | hin | hin
        · rw [hfresh] at hin
          cases hin
        · exact hhead hin
        · exact htail hin
      have hacts : Acts c s t { s with inUse := update s.inUse node true }
          (.findRead k (.add node) c.head) := by
        refine ⟨.take node hfresh, ⟨hkey, hfirst, c.rank_head k⟩, ?_,
          .keep (by rw [hidle]; rfl) rfl rfl⟩
        intro n hn
        rw [List.mem_singleton.mp hn]
        exact ⟨update_self .., hunlinked, .inr hfresh⟩
      refine ⟨_, _, rfl, hacts, .walk ?_ (by rw [hidle]; rfl)⟩
      exact h.shared.members_eq ((hacts.shared h).goto t _) rfl rfl
    · cases hstep
  | remove | get =>
    cases hstep
    exact ⟨s, _, rfl, h.go ⟨trivial, hfirst, c.rank_head k⟩ nofun (by rw [hidle]; rfl)
      (by rw [hidle]; rfl)⟩

theorem Inv.step (h : Inv c s) {a : Act Tid Node Key} (hstep : step c s a = some s') :
    ∃ s₁ pc', s' = s₁.goto a.thread pc' ∧ Stepped c s a.thread s₁ pc' := by
  cases a with
  | step t => exact h.next_step hstep
  | call t k op =>
    simp only [ListsetOpt.step] at hstep
    split at hstep
    · rename_i hidle
      exact h.begin_call hidle hstep
    · cases hstep

section

omit [DecidableEq Tid]

theorem vlistsetInit_quiet (c : Config Node Key) :
    Quiet c (vlistsetInit c : State Tid Node Key) where
  idle _ := rfl
  list := by
    refine .ends c.distinct ?_ ?_ ?_
    · simp [Config.rank, c.distinct.symm]
    · simp [vlistsetInit]
    · simp [vlistsetInit, c.distinct.symm]
  known _ hn := .inr (of_decide_eq_true hn)
  detached := rfl
  retired := rfl

theorem Quiet.inv (h : Quiet c s) : Inv c s where
  shared := {
    list := h.list
    was := by simp [h.detached]
    known := h.known
    retired := by simp [h.retired]
    once := by simp [h.retired] }
  pc t := by
    rw [h.idle]
    trivial
  owned t n hn := by
    rw [h.idle] at hn
    cases hn
  apart t u n hn := by
    rw [h.idle] at hn
    cases hn
  victims t n hn := by
    rw [h.idle] at hn
    cases hn
  one t u n hn := by
    rw [h.idle] at hn
    cases hn
  accounted n hn := by simp [h.detached] at hn

end

variable {past : List (State Tid Node Key × Act Tid Node Key)}

theorem run_inv (run : (machine Tid c).Run past s) : Inv c s := by
  apply run.invariant
  · intro s h
    exact h.inv
  · intro s a s' h hstep
    obtain ⟨s₁, pc', rfl, hstepped⟩ := h.step hstep
    exact hstepped.acts.inv h

/-- After the calls of a run another run can begin, in which the nodes that are
no longer in the list may be added. -/
theorem run_renew (run : (machine Tid c).Run past s) (hidle : ∀ t, s.pc t = .idle) :
    (machine Tid c).start s.renew ∧
      ∀ n, ¬ Reaches s.next c.head n → s.renew.inUse n = false := by
  have h := (run_inv run).shared
  obtain ⟨hused, hfree⟩ := h.list.renew_used h.known
  exact ⟨⟨hidle, h.list.renew, hused, rfl, rfl⟩, hfree⟩

theorem run_moves (run : (machine Tid c).Run past s) {a : Act Tid Node Key}
    (hstep : step c s a = some s') : Moves (view c) (setSpec c.key) a.thread past s s' := by
  obtain ⟨s₁, pc', rfl, hstepped⟩ := (run_inv run).step hstep
  have hself : (s₁.goto a.thread pc').pc a.thread = pc' := update_self ..
  have hown : (view c).settled a.thread (s₁.goto a.thread pc') = pc'.settled :=
    congrArg Pc.settled hself
  constructor
  · cases hstepped.does with
    | walk same settled => exact .walk same (hown.trans settled)
    | settle i r before after meets => exact .settle i r before (hown.trans after) meets
    | leave same idle =>
      refine .leave same fun hbusy => hbusy ?_
      rw [hself, idle]
  · intro u hu
    show (update s₁.pc a.thread pc' u).settled = (s.pc u).settled
    rw [update_of_ne hu, hstepped.acts.effect.pc_eq]

/-- A validation that is about to return true has locked two neighbours of the
list, and so has a thread that is about to link or to detach a node; the list is
sorted; the operations are atomic; and a removed node is retired once, after it
was detached. -/
structure Safe (c : Config Node Key) (past : List (State Tid Node Key × Act Tid Node Key))
    (s : State Tid Node Key) : Prop where
  validates : ∀ t k op pred curr, s.pc t = .valNext k op pred curr → s.next pred = some curr →
    s.owner pred = some t ∧ s.owner curr = some t ∧ Reaches s.next c.head pred ∧
      Reaches s.next c.head curr
  writes : ∀ t k pred curr, ((∃ node, s.pc t = .addLink k node pred curr) ∨
      ∃ succ, s.pc t = .removeDetach k pred curr succ) →
    Reaches s.next c.head pred ∧ s.next pred = some curr
  sorted : ∃ nodes, Chain s.next c.head c.tail nodes ∧
    nodes.Pairwise (fun a b => c.rank a < c.rank b)
  atomic : Linear (machine Tid c) Act.thread (view c) (setSpec c.key) past s
  retiredOnce : s.retired.Nodup ∧ ∀ t k n, s.pc t = .retire k n → n ∉ s.retired
  retiredAll : (∀ t k n, s.pc t = .ret k (.removed (some n)) → n ∈ s.retired) ∧
    ∀ n, s.detached n = true → n ∈ s.retired ∨ ∃ t, n ∈ (s.pc t).victims
  retiredLate : ∀ n, n ∈ s.retired ∨ (∃ t k, s.pc t = .retire k n) → ¬ Reaches s.next c.head n
  noCrash : ∀ t, s.pc t ≠ .crashed

theorem listset_opt_safe (run : (machine Tid c).Run past s) : Safe c past s := by
  have h := run_inv run
  have hvictim {t : Tid} {k : Key} {n : Node} (hpc : s.pc t = .retire k n) :
      s.detached n = true ∧ n ∉ s.retired := by
    apply h.victims t
    rw [hpc]
    exact List.mem_singleton_self n
  constructor
  · intro t k op pred curr hpc hlink
    have hok := h.pc t
    rw [hpc] at hok
    obtain ⟨-, hplace, hlocked, hpred⟩ := hok
    have hin : InList s.linked s.detached pred := ⟨hplace.predLinked, hpred⟩
    exact ⟨hlocked.predHeld, hlocked.currHeld, h.shared.list.reaches_iff.mpr hin,
      h.shared.list.reaches_iff.mpr (h.shared.list.next_in hin hlink)⟩
  · intro t k pred curr hpc
    have hok := h.pc t
    rcases hpc with ⟨node, hpc⟩ | ⟨succ, hpc⟩
    · rw [hpc] at hok
      exact ⟨h.shared.list.reaches_iff.mpr hok.2.1.predInList, hok.2.1.link⟩
    · rw [hpc] at hok
      exact ⟨h.shared.list.reaches_iff.mpr hok.1.predInList, hok.1.link⟩
  · exact h.shared.list.sorted
  · refine run.linear_always ?_ ?_
    · intro s h t
      exact congrArg Pc.settled (h.idle t)
    · intro past s a s' run hstep
      exact run_moves run hstep
  · exact ⟨h.shared.once, fun t k n hpc => (hvictim hpc).2⟩
  · refine ⟨?_, h.accounted⟩
    intro t k n hpc
    have hok := h.pc t
    rw [hpc] at hok
    exact hok n rfl
  · intro n hn hreach
    have hgone : s.detached n = true := by
      rcases hn with hn | ⟨t, k, hpc⟩
      · exact h.shared.retired n hn
      · exact (hvictim hpc).1
    rw [(h.shared.list.reaches_iff.mp hreach).2] at hgone
    cases hgone
  · intro t hpc
    have hok := h.pc t
    rw [hpc] at hok
    exact hok

/-- Nodes 2 and 3 are added and node 2 is removed; a lookup that had come to node
2 validates in vain, and the next search finds node 3. -/
def lookupPastRemoved : List (Act Bool (Fin 4) Nat) :=
  List.flatten [
    .call true 2 (.add nodeTwo) :: List.replicate 10 (.step true),
    .call true 3 (.add nodeThree) :: List.replicate 12 (.step true),
    .call false 3 .get :: List.replicate 2 (.step false),
    .call true 2 .remove :: List.replicate 10 (.step true),
    List.replicate 11 (.step false)]

theorem listset_opt_safe_removed :
    ∃ past s, (machine Bool numbered).Run past s ∧ s.pc false = .ret 3 (.got (some 3)) ∧
      s.retired = [2] ∧ Safe numbered past s := by
  have hexec : ((machine Bool numbered).exec (vlistsetInit numbered) lookupPastRemoved).map
      (fun s => (s.pc false, s.retired)) = some (.ret 3 (.got (some 3)), [2]) := by
    decide +kernel
  obtain ⟨s, hs, hend⟩ := Option.map_eq_some_iff.mp hexec
  obtain ⟨hret, hretired⟩ := Prod.mk.inj hend
  have run := (Machine.Run.start (vlistsetInit_quiet numbered)).exec hs
  exact ⟨_, s, run, hret, hretired, listset_opt_safe run⟩

end Libvsync.Map.ListsetOpt
