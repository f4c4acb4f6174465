import Libvsync.Map.ListsetLazyInv

/-!
The lazy list set is an atomic set. An operation that locks is settled under its
locks: by the validation, by the link, or by the mark. A lookup that walks over
detached nodes is right in hindsight, for the pointer and the mark of a detached
node are those it had when it left the list.
-/

namespace Libvsync.Map.ListsetLazy

open Libvsync.Core Function
open Libvsync.Map.ListsetLf (Config rankOf numbered nodeTwo)

variable {Tid Node Key : Type} [DecidableEq Node] [LinearOrder Key]
  {c : Config Node Key} {s s' : State Tid Node Key} {t : Tid}

/-- The node that a lookup has come to. -/
def Pc.visited : Pc Node Key → Option Node
  | .getRead _ n | .getMark _ n => some n
  | _ => none

/-- What a step does to the call of its thread. A lookup that finds nothing
concludes this from the pointer or the mark of the node it stands on, as they
were when that node was in the list. -/
inductive Does (c : Config Node Key) (s : State Tid Node Key) (pc : Pc Node Key)
    (s' : State Tid Node Key) (pc' : Pc Node Key) : Prop
  | walk (same : members c s' = members c s) (settled : pc'.settled = pc.settled)
  | settle (i : SetCall Node Key) (r : SetResult Node) (before : pc.settled = none)
      (after : pc'.settled = some (i, r)) (meets : setSpec c.key (members c s) i r (members c s'))
  | remember (k : Key) (n : Node) (same : members c s' = members c s) (before : pc.settled = none)
      (after : pc'.settled = some (.get k, .found none)) (at_ : pc.visited = some n)
      (absent : ∀ s₀ : State Tid Node Key, Shared c s₀ → InList s₀.linked s₀.detached n →
        s₀.next n = s.next n → s₀.marked n = s.marked n → ∀ m ∈ members c s₀, c.key m ≠ k)
  | leave (same : members c s' = members c s) (idle : pc' = .idle)

/-- The node a lookup comes to is in the list now, or it was when the node before
it was in the list with its pointer. -/
def Sees (c : Config Node Key) (s : State Tid Node Key) (pc : Pc Node Key)
    (s' : State Tid Node Key) (pc' : Pc Node Key) : Prop :=
  ∀ n, pc'.visited = some n → InList s'.linked s'.detached n ∨
    ∃ m, pc.visited = some m ∧ ∀ s₀ : State Tid Node Key, Shared c s₀ →
      InList s₀.linked s₀.detached m → s₀.next m = s.next m → InList s₀.linked s₀.detached n

variable [DecidableEq Tid]

structure Stepped (c : Config Node Key) (s : State Tid Node Key) (t : Tid)
    (s' : State Tid Node Key) (pc' : Pc Node Key) : Prop where
  acts : Acts c s t s' pc'
  does : Does c s (s.pc t) (s'.goto t pc') pc'
  sees : Sees c s (s.pc t) s' pc'

omit [DecidableEq Tid] in
theorem Acts.shared {pc' : Pc Node Key} (a : Acts c s t s' pc') (h : Inv c s) : Shared c s' :=
  a.effect.shared h.shared (h.owned t)

/-- A step that leaves the set and the outcome as they are. -/
theorem Inv.walk (h : Inv c s) {pc' : Pc Node Key} (e : Effect c s t (s.pc t).owned s')
    (ok : PcOk c s' t pc') (hlinked : s'.linked = s.linked) (hinUse : s'.inUse = s.inUse)
    (hmarked : ∀ n, s.linked n = true → s'.marked n = s.marked n)
    (howned : ∀ n ∈ pc'.owned, n ∈ (s.pc t).owned) (hsettled : pc'.settled = (s.pc t).settled)
    (hvisited : pc'.visited = none) : Stepped c s t s' pc' := by
  have hacts : Acts c s t s' pc' := by
    refine ⟨e, ok, ?_⟩
    intro n hn
    obtain ⟨hin, hunlinked⟩ := h.owned t n (howned n hn)
    rw [hlinked, hinUse]
    exact ⟨hin, hunlinked, .inl (howned n hn)⟩
  refine ⟨hacts, .walk ?_ hsettled, ?_⟩
  · exact h.shared.members_eq ((hacts.shared h).goto t pc') hlinked hmarked
  · intro n hn
    rw [hvisited] at hn
    cases hn

theorem Inv.go (h : Inv c s) {pc' : Pc Node Key} (ok : PcOk c s t pc')
    (howned : ∀ n ∈ pc'.owned, n ∈ (s.pc t).owned) (hsettled : pc'.settled = (s.pc t).settled)
    (hvisited : pc'.visited = none) : Stepped c s t s pc' :=
  h.walk .none ok rfl rfl (fun _ _ => rfl) howned hsettled hvisited

/-- The outcome is settled by what the set is, and the set stays. -/
theorem Inv.decided (h : Inv c s) {pc' : Pc Node Key} (ok : PcOk c s t pc')
    (howned : ∀ n ∈ pc'.owned, n ∈ (s.pc t).owned) (hbefore : (s.pc t).settled = none)
    (hvisited : pc'.visited = none) {i : SetCall Node Key} {r : SetResult Node}
    (hafter : pc'.settled = some (i, r))
    (hspec : setSpec c.key (members c s) i r (members c s)) : Stepped c s t s pc' := by
  refine ⟨⟨.none, ok, ?_⟩, .settle i r hbefore hafter hspec, ?_⟩
  · intro n hn
    obtain ⟨hin, hunlinked⟩ := h.owned t n (howned n hn)
    exact ⟨hin, hunlinked, .inl (howned n hn)⟩
  · intro n hn
    rw [hvisited] at hn
    cases hn

theorem Inv.find_read (h : Inv c s) {k : Key} {op : Op Node} {pred : Node}
    (hpc : s.pc t = .findRead k op pred) :
    Stepped c s t s (findTest c k op pred (s.next pred)) := by
  have hok := h.pc t
  rw [hpc] at hok
  obtain ⟨hop, hlinked, hbelow⟩ := hok
  have htail : pred ≠ c.tail := by
    rintro rfl
    exact lt_asymm hbelow (c.rank_tail k)
  obtain ⟨curr, hcurr, hcurrLinked, hrank⟩ := h.shared.list.closed pred hlinked htail
  have hhead : curr ≠ c.head := Config.ne_head_of_lt hrank
  rw [hcurr]
  simp only [findTest]
  split
  · rename_i hloop
    refine h.go ⟨hop, hcurrLinked, (Config.rank_lt_iff hhead hloop.1).mpr hloop.2⟩ ?_ ?_ rfl
    · rw [hpc]
      exact fun n hn => hn
    · rw [hpc]
      rfl
  · rename_i hloop
    have habove : rankOf k ≤ c.rank curr := by
      by_cases hend : curr = c.tail
      · rw [hend]
        exact (c.rank_tail k).le
      · rw [← not_lt, Config.rank_lt_iff hhead hend]
        exact fun hlt => hloop ⟨hend, hlt⟩
    refine h.go ⟨hop, hlinked, hcurrLinked, hbelow, habove⟩ ?_ ?_ rfl
    · rw [hpc]
      exact fun n hn => hn
    · rw [hpc]
      rfl

theorem Inv.check_next (h : Inv c s) {k : Key} {op : Op Node} {pred curr : Node}
    (hpc : s.pc t = .checkNext k op pred curr) (hlink : s.next pred = some curr) :
    Stepped c s t s (validated c k op pred curr) := by
  have hok := h.pc t
  rw [hpc] at hok
  obtain ⟨hop, hplace, hlocked, hpred, hcurr⟩ := hok
  have hvalid : Valid c s t k pred curr :=
    { hplace, hlocked with predIn := hpred, currIn := hcurr, link := hlink }
  have hhead := hplace.currNotHead
  have hmember (hne : curr ≠ c.tail) : curr ∈ members c s :=
    h.shared.members_iff.mpr ⟨hplace.currLinked, hcurr, hhead, hne⟩
  have hgap (hno : ¬ (curr ≠ c.tail ∧ c.cmpFun curr k = 0)) : rankOf k < c.rank curr := by
    by_cases htail : curr = c.tail
    · rw [htail]
      exact c.rank_tail k
    · refine lt_of_le_of_ne hplace.above fun heq => hno ⟨htail, ?_⟩
      exact (Config.rank_eq_iff hhead htail).mp heq.symm
  have hbefore : (s.pc t).settled = none := by
    rw [hpc]
    rfl
  cases op with
  | add node =>
    have hmine (n : Node) (hn : n ∈ [node]) : n ∈ (s.pc t).owned := by
      rw [hpc]
      exact hn
    simp only [validated]
    split
    · rename_i hfound
      exact h.decided ⟨trivial, hplace, hlocked⟩ hmine hbefore rfl rfl
        ⟨⟨curr, hmember hfound.1, (c.cmp_zero curr k).mp hfound.2⟩, rfl⟩
    · rename_i hno
      exact h.go ⟨hop, hvalid, hgap hno⟩ hmine hbefore.symm rfl
  | remove =>
    simp only [validated]
    split
    · rename_i hfound
      exact h.go ⟨hvalid, (Config.rank_eq_iff hhead hfound.1).mpr hfound.2, hfound.1⟩ nofun
        hbefore.symm rfl
    · rename_i hno
      exact h.decided ⟨trivial, hplace, hlocked⟩ nofun hbefore rfl rfl
        ⟨h.shared.absent (hvalid.predInList h.shared) hlink hplace.below (hgap hno), rfl⟩

theorem Inv.add_link (h : Inv c s) {k : Key} {node pred curr : Node}
    (hpc : s.pc t = .addLink k node pred curr) :
    Stepped c s t { s with
      next := update s.next pred (some node)
      linked := update s.linked node true }
      (.unlockPred k (.stop (.added node true)) pred curr) := by
  have hok := h.pc t
  rw [hpc] at hok
  obtain ⟨hkey, hvalid, habove, hmarked, hnext⟩ := hok
  have hmine : node ∈ (s.pc t).owned := by
    rw [hpc]
    exact List.mem_singleton_self node
  have hunlinked := (h.owned t node hmine).2
  have hmono {n : Node} (hn : s.linked n = true) : update s.linked node true n = true := by
    by_cases hne : n = node
    · exact hne ▸ update_self ..
    · exact (update_of_ne hne _ _).trans hn
  have hacts : Acts c s t { s with
      next := update s.next pred (some node)
      linked := update s.linked node true }
      (.unlockPred k (.stop (.added node true)) pred curr) := by
    refine ⟨.link k pred node curr hmine hvalid hkey habove hmarked hnext, ?_, nofun⟩
    exact ⟨trivial, ⟨hmono hvalid.predLinked, hmono hvalid.currLinked, hvalid.below, hvalid.above⟩,
      ⟨hvalid.predHeld, hvalid.currHeld⟩⟩
  refine ⟨hacts, .settle (.add k node) (.success true) (by rw [hpc]; rfl) rfl
    ⟨h.shared.absent (hvalid.predInList h.shared) hvalid.link hvalid.below habove, hkey, ?_⟩, nofun⟩
  have hnodeHead : node ≠ c.head := by
    rintro rfl
    rw [h.shared.list.first_in.1] at hunlinked
    cases hunlinked
  have hnodeTail : node ≠ c.tail := by
    rintro rfl
    rw [h.shared.list.last_in.1] at hunlinked
    cases hunlinked
  ext n
  rw [((hacts.shared h).goto t _).members_iff, Set.mem_insert_iff, h.shared.members_iff]
  dsimp only [State.goto]
  by_cases hne : n = node
  · subst hne
    simp [hmarked, hnodeHead, hnodeTail]
  · simp [hne]

theorem Inv.remove_mark (h : Inv c s) {k : Key} {pred curr : Node}
    (hpc : s.pc t = .removeMark k pred curr) :
    Stepped c s t { s with marked := update s.marked curr true }
      (.removeNext k pred curr) := by
  have hok := h.pc t
  rw [hpc] at hok
  obtain ⟨hvalid, hrank, htail⟩ := hok
  have hhead := hvalid.currNotHead
  have hacts : Acts c s t { s with marked := update s.marked curr true }
      (.removeNext k pred curr) := by
    refine ⟨.mark k pred curr hvalid htail, ?_, nofun⟩
    exact { hvalid.toPlace, hvalid.toLocked with
      predIn := (update_of_ne hvalid.ne _ _).trans hvalid.predIn
      marked := update_self ..
      attached := (h.shared.inList hvalid.currLinked hvalid.currIn).2
      link := hvalid.link
      notTail := htail }
  refine ⟨hacts, .settle (.remove k) (.success true) (by rw [hpc]; rfl) rfl
    ⟨curr, h.shared.members_iff.mpr ⟨hvalid.currLinked, hvalid.currIn, hhead, htail⟩,
    ?_, ?_⟩, nofun⟩
  · exact (c.cmp_zero curr k).mp ((Config.rank_eq_iff hhead htail).mp hrank)
  · ext n
    rw [((hacts.shared h).goto t _).members_iff, Set.mem_sdiff, h.shared.members_iff,
      Set.mem_singleton_iff]
    dsimp only [State.goto]
    by_cases hne : n = curr
    · subst hne
      simp
    · simp [hne]

theorem Inv.get_read (h : Inv c s) {k : Key} {pred : Node} (hpc : s.pc t = .getRead k pred) :
    Stepped c s t s (getTest c k (s.next pred)) := by
  have hok := h.pc t
  rw [hpc] at hok
  obtain ⟨hlinked, hbelow⟩ := hok
  have htail : pred ≠ c.tail := by
    rintro rfl
    exact lt_asymm hbelow (c.rank_tail k)
  obtain ⟨curr, hcurr, hcurrLinked, hrank⟩ := h.shared.list.closed pred hlinked htail
  have hhead : curr ≠ c.head := Config.ne_head_of_lt hrank
  have hstays {pc' : Pc Node Key} (hvisited : pc'.visited = some curr) :
      Sees c s (s.pc t) s pc' := by
    intro n hn
    rw [hvisited] at hn
    cases hn
    refine .inr ⟨pred, by rw [hpc]; rfl, ?_⟩
    intro s₀ h₀ hin hnext
    exact h₀.list.next_in hin (hnext.trans hcurr)
  have hsettled : (s.pc t).settled = none := by
    rw [hpc]
    rfl
  rw [hcurr]
  simp only [getTest]
  split
  · rename_i hloop
    exact ⟨⟨.none, ⟨hcurrLinked, (Config.rank_lt_iff hhead hloop.1).mpr hloop.2⟩, nofun⟩,
      .walk rfl hsettled.symm, hstays rfl⟩
  · rename_i hloop
    split
    · rename_i hfound
      exact ⟨⟨.none, ⟨hcurrLinked, (Config.rank_eq_iff hhead hfound.1).mpr hfound.2, hfound.1⟩,
        nofun⟩, .walk rfl hsettled.symm, hstays rfl⟩
    · rename_i hno
      have habove : rankOf k < c.rank curr := by
        by_cases hend : curr = c.tail
        · rw [hend]
          exact c.rank_tail k
        · have hnotLt : ¬ c.rank curr < rankOf k := by
            rw [Config.rank_lt_iff hhead hend]
            exact fun hlt => hloop ⟨hend, hlt⟩
          have hne : c.rank curr ≠ rankOf k := by
            rw [ne_eq, Config.rank_eq_iff hhead hend]
            exact fun heq => hno ⟨hend, heq⟩
          exact lt_of_le_of_ne (not_lt.mp hnotLt) hne.symm
      refine ⟨⟨.none, trivial, nofun⟩,
        .remember k pred rfl hsettled rfl (by rw [hpc]; rfl) ?_, nofun⟩
      intro s₀ h₀ hin hnext _
      exact h₀.absent hin (hnext.trans hcurr) hbelow habove

theorem Inv.get_mark (h : Inv c s) {k : Key} {curr : Node} (hpc : s.pc t = .getMark k curr) :
    Stepped c s t s (.ret k (.got (if s.marked curr then none else some curr))) := by
  have hok := h.pc t
  rw [hpc] at hok
  obtain ⟨hlinked, hrank, htail⟩ := hok
  have hsettled : (s.pc t).settled = none := by
    rw [hpc]
    rfl
  split
  · rename_i hmarked
    refine ⟨⟨.none, trivial, nofun⟩,
      .remember k curr rfl hsettled rfl (by rw [hpc]; rfl) ?_, nofun⟩
    intro s₀ h₀ hin _ hmark
    exact h₀.absent_marked hin hrank (hmark.trans hmarked)
  · rename_i hmarked
    have hhead : curr ≠ c.head := by
      rintro rfl
      exact absurd hrank (ne_of_lt (c.rank_head k))
    refine h.decided trivial nofun hsettled rfl rfl ⟨?_, ?_, rfl⟩
    · exact h.shared.members_iff.mpr ⟨hlinked, by simpa using hmarked, hhead, htail⟩
    · exact (c.cmp_zero curr k).mp ((Config.rank_eq_iff hhead htail).mp hrank)

theorem Inv.ret (h : Inv c s) {k : Key} {outcome : Outcome Node} (hpc : s.pc t = .ret k outcome)
    (hstep : nextStep c s t = some s') : ∃ s₁, s' = s₁.goto t .idle ∧ Stepped c s t s₁ .idle := by
  have hleave {s₁ : State Tid Node Key} (e : Effect c s t (s.pc t).owned s₁)
      (hlinked : s₁.linked = s.linked) (hmarked : s₁.marked = s.marked) :
      Stepped c s t s₁ .idle := by
    have hacts : Acts c s t s₁ .idle := ⟨e, trivial, nofun⟩
    refine ⟨hacts, .leave ?_ rfl, nofun⟩
    exact h.shared.members_eq ((hacts.shared h).goto t .idle) hlinked
      (fun n _ => congrFun hmarked n)
  simp only [nextStep, hpc] at hstep
  cases outcome with
  | added node ok =>
    cases ok with
    | true =>
      cases hstep
      exact ⟨s, rfl, hleave .none rfl rfl⟩
    | false =>
      cases hstep
      refine ⟨_, rfl, hleave (.give node ?_) rfl rfl⟩
      rw [hpc]
      exact List.mem_singleton_self node
  | removed | got =>
    cases hstep
    exact ⟨s, rfl, hleave .none rfl rfl⟩

theorem Inv.acquire (h : Inv c s) {n : Node} {pc' : Pc Node Key}
    (hstep : s.acquire t n pc' = some s')
    (ok : PcOk c { s with owner := update s.owner n (some t) } t pc')
    (howned : pc'.owned = (s.pc t).owned) (hsettled : pc'.settled = (s.pc t).settled)
    (hvisited : pc'.visited = none) :
    ∃ s₁ pc', s' = s₁.goto t pc' ∧ Stepped c s t s₁ pc' := by
  simp only [State.acquire] at hstep
  split at hstep
  · rename_i hfree
    cases hstep
    exact ⟨_, _, rfl, h.walk (.acquire n hfree) ok rfl rfl (fun _ _ => rfl)
      (fun m hm => howned ▸ hm) hsettled hvisited⟩
  · cases hstep

omit [DecidableEq Tid] in
/-- The node that a thread is adding is not in the list. -/
theorem Inv.owned_ne (h : Inv c s) {n node : Node} (hmine : node ∈ (s.pc t).owned)
    (hn : s.linked n = true) : n ≠ node := by
  rintro rfl
  rw [(h.owned t n hmine).2] at hn
  cases hn

theorem Inv.next_step (h : Inv c s) (hstep : nextStep c s t = some s') :
    ∃ s₁ pc', s' = s₁.goto t pc' ∧ Stepped c s t s₁ pc' := by
  have hok := h.pc t
  cases hpc : s.pc t with
  | idle | crashed =>
    simp only [nextStep, hpc] at hstep
    cases hstep
  | findRead k op pred =>
    simp only [nextStep, hpc] at hstep
    cases hstep
    exact ⟨s, _, rfl, h.find_read hpc⟩
  | lockPred k op pred curr =>
    simp only [nextStep, hpc] at hstep
    rw [hpc] at hok
    exact h.acquire hstep ⟨hok.1, { hok.2 with }, update_self ..⟩ (by rw [hpc]; rfl)
      (by rw [hpc]; rfl) rfl
  | lockCurr k op pred curr =>
    simp only [nextStep, hpc] at hstep
    rw [hpc] at hok
    obtain ⟨hop, hplace, hpred⟩ := hok
    exact h.acquire hstep ⟨hop, { hplace with },
      ⟨(update_of_ne hplace.ne _ _).trans hpred, update_self ..⟩⟩
      (by rw [hpc]; rfl) (by rw [hpc]; rfl) rfl
  | checkPred k op pred curr =>
    simp only [nextStep, hpc] at hstep
    cases hstep
    rw [hpc] at hok
    refine ⟨s, _, rfl, ?_⟩
    split
    · exact h.go hok (by rw [hpc]; exact fun n hn => hn) (by rw [hpc]; rfl) rfl
    · rename_i hmarked
      exact h.go ⟨hok.1, hok.2.1, hok.2.2, by simpa using hmarked⟩
        (by rw [hpc]; exact fun n hn => hn) (by rw [hpc]; rfl) rfl
  | checkCurr k op pred curr =>
    simp only [nextStep, hpc] at hstep
    cases hstep
    rw [hpc] at hok
    obtain ⟨hop, hplace, hlocked, hpred⟩ := hok
    refine ⟨s, _, rfl, ?_⟩
    split
    · exact h.go ⟨hop, hplace, hlocked⟩ (by rw [hpc]; exact fun n hn => hn) (by rw [hpc]; rfl) rfl
    · rename_i hmarked
      exact h.go ⟨hop, hplace, hlocked, hpred, by simpa using hmarked⟩
        (by rw [hpc]; exact fun n hn => hn) (by rw [hpc]; rfl) rfl
  | checkNext k op pred curr =>
    simp only [nextStep, hpc] at hstep
    cases hstep
    rw [hpc] at hok
    refine ⟨s, _, rfl, ?_⟩
    split
    · rename_i hlink
      exact h.check_next hpc hlink
    · exact h.go ⟨hok.1, hok.2.1, hok.2.2.1⟩ (by rw [hpc]; exact fun n hn => hn)
        (by rw [hpc]; rfl) rfl
  | addInit k node pred curr =>
    simp only [nextStep, hpc] at hstep
    cases hstep
    rw [hpc] at hok
    obtain ⟨hkey, hvalid, habove⟩ := hok
    have hmine : node ∈ (s.pc t).owned := by
      rw [hpc]
      exact List.mem_singleton_self node
    refine ⟨_, _, rfl, h.walk (.release node (.inr hmine)) ⟨hkey, ?_, habove⟩ rfl rfl
      (fun _ _ => rfl) (by rw [hpc]; exact fun n hn => hn) (by rw [hpc]; rfl) rfl⟩
    exact { hvalid with
      predHeld := (update_of_ne (h.owned_ne hmine hvalid.predLinked) _ _).trans hvalid.predHeld
      currHeld := (update_of_ne (h.owned_ne hmine hvalid.currLinked) _ _).trans hvalid.currHeld }
  | addUnmark k node pred curr =>
    simp only [nextStep, hpc] at hstep
    cases hstep
    rw [hpc] at hok
    obtain ⟨hkey, hvalid, habove⟩ := hok
    have hmine : node ∈ (s.pc t).owned := by
      rw [hpc]
      exact List.mem_singleton_self node
    refine ⟨_, _, rfl, h.walk (.unmark node hmine) ⟨hkey, ?_, habove, update_self ..⟩
      rfl rfl (fun n hn => update_of_ne (h.owned_ne hmine hn) _ _)
      (by rw [hpc]; exact fun n hn => hn) (by rw [hpc]; rfl) rfl⟩
    exact { hvalid with
      predIn := (update_of_ne (h.owned_ne hmine hvalid.predLinked) _ _).trans hvalid.predIn
      currIn := (update_of_ne (h.owned_ne hmine hvalid.currLinked) _ _).trans hvalid.currIn }
  | addNext k node pred curr =>
    simp only [nextStep, hpc] at hstep
    cases hstep
    rw [hpc] at hok
    obtain ⟨hkey, hvalid, habove, hmarked⟩ := hok
    have hmine : node ∈ (s.pc t).owned := by
      rw [hpc]
      exact List.mem_singleton_self node
    refine ⟨_, _, rfl, h.walk (.point node hmine (some curr))
      ⟨hkey, ?_, habove, hmarked, update_self ..⟩ rfl rfl (fun _ _ => rfl)
      (by rw [hpc]; exact fun n hn => hn) (by rw [hpc]; rfl) rfl⟩
    exact { hvalid with
      link := (update_of_ne (h.owned_ne hmine hvalid.predLinked) _ _).trans hvalid.link }
  | addLink k node pred curr =>
    simp only [nextStep, hpc] at hstep
    cases hstep
    exact ⟨_, _, rfl, h.add_link hpc⟩
  | removeMark k pred curr =>
    simp only [nextStep, hpc] at hstep
    cases hstep
    exact ⟨_, _, rfl, h.remove_mark hpc⟩
  | removeNext k pred curr =>
    simp only [nextStep, hpc] at hstep
    cases hstep
    rw [hpc] at hok
    exact ⟨s, _, rfl, h.go ⟨hok, rfl⟩ nofun (by rw [hpc]; rfl) rfl⟩
  | removeDetach k pred curr succ =>
    simp only [nextStep, hpc] at hstep
    cases hstep
    rw [hpc] at hok
    obtain ⟨hremoving, rfl⟩ := hok
    obtain ⟨succ, hsucc, -⟩ := h.shared.list.closed curr hremoving.currLinked hremoving.notTail
    rw [hsucc]
    refine ⟨_, _, rfl, h.walk (.detach k pred curr succ hremoving hsucc)
      ⟨{ hremoving.toPlace with }, ⟨hremoving.predHeld, hremoving.currHeld⟩,
        update_self .., ?_⟩ rfl rfl (fun _ _ => rfl) nofun (by rw [hpc]; rfl) rfl⟩
    intro hretired
    have hgone := h.shared.retired curr hretired
    rw [hremoving.attached] at hgone
    cases hgone
  | removeRetire k pred curr =>
    simp only [nextStep, hpc] at hstep
    cases hstep
    rw [hpc] at hok
    obtain ⟨hplace, hlocked, hgone, hfirst⟩ := hok
    exact ⟨_, _, rfl, h.walk (.retire curr hlocked.currHeld hgone hfirst)
      ⟨trivial, { hplace with }, { hlocked with }⟩ rfl rfl (fun _ _ => rfl) nofun
      (by rw [hpc]; rfl) rfl⟩
  | unlockPred k fate pred curr =>
    simp only [nextStep, hpc] at hstep
    cases hstep
    rw [hpc] at hok
    obtain ⟨hfate, hplace, hlocked⟩ := hok
    refine ⟨_, _, rfl, h.walk (.release pred (.inl hlocked.predHeld))
      ⟨hfate, hplace.currLinked, ?_⟩ rfl rfl (fun _ _ => rfl)
      (by rw [hpc]; exact fun n hn => hn) ?_ rfl⟩
    · exact (update_of_ne hplace.ne.symm _ _).trans hlocked.currHeld
    · rw [hpc]
      cases fate <;> rfl
  | unlockCurr k fate curr =>
    rw [hpc] at hok
    obtain ⟨hfate, hlinked, hheld⟩ := hok
    cases fate with
    | again op =>
      simp only [nextStep, hpc] at hstep
      cases hstep
      exact ⟨_, _, rfl, h.walk (.release curr (.inl hheld))
        ⟨hfate, h.shared.list.first_in.1, c.rank_head k⟩ rfl rfl (fun _ _ => rfl)
        (by rw [hpc]; exact fun n hn => hn) (by rw [hpc]; rfl) rfl⟩
    | stop outcome =>
      simp only [nextStep, hpc] at hstep
      cases hstep
      refine ⟨_, _, rfl, h.walk (.release curr (.inl hheld)) trivial rfl rfl
        (fun _ _ => rfl) ?_ (by rw [hpc]; rfl) rfl⟩
      rw [hpc]
      intro n hn
      cases outcome with
      | added node ok => cases ok <;> exact hn
      | removed | got => cases hn
  | getRead k pred =>
    simp only [nextStep, hpc] at hstep
    cases hstep
    exact ⟨s, _, rfl, h.get_read hpc⟩
  | getMark k curr =>
    simp only [nextStep, hpc] at hstep
    cases hstep
    exact ⟨s, _, rfl, h.get_mark hpc⟩
  | ret k outcome =>
    obtain ⟨s₁, rfl, hstepped⟩ := h.ret hpc hstep
    exact ⟨s₁, _, rfl, hstepped⟩

theorem Inv.begin_call (h : Inv c s) {a : Act Tid Node Key} (hidle : s.pc a.thread = .idle)
    (hstep : beginCall c s a = some s') :
    ∃ s₁ pc', s' = s₁.goto a.thread pc' ∧ Stepped c s a.thread s₁ pc' := by
  cases a with
  | add t k node =>
    simp only [beginCall] at hstep
    split at hstep
    · rename_i hnew
      obtain ⟨hfresh, hhead, htail, hkey⟩ := hnew
      cases hstep
      have hunlinked : s.linked node = false := by
        by_contra hlinked
        rcases h.shared.known node (by simpa using hlinked) with hin | hin | hin
        · rw [hfresh] at hin
          cases hin
        · exact hhead hin
        · exact htail hin
      have hacts : Acts c s t { s with inUse := update s.inUse node true }
          (.findRead k (.add node) c.head) := by
        refine ⟨.take node hfresh, ⟨hkey, h.shared.list.first_in.1, c.rank_head k⟩, ?_⟩
        intro n hn
        rw [List.mem_singleton.mp hn]
        exact ⟨update_self .., hunlinked, .inr hfresh⟩
      refine ⟨_, _, rfl, hacts, .walk ?_ ?_, nofun⟩
      · exact h.shared.members_eq ((hacts.shared h).goto t _) rfl (fun _ _ => rfl)
      · rw [hidle]
        rfl
    · cases hstep
  | remove t k =>
    cases hstep
    refine ⟨s, _, rfl, h.go ⟨trivial, h.shared.list.first_in.1, c.rank_head k⟩ nofun ?_ rfl⟩
    rw [hidle]
    rfl
  | get t k =>
    cases hstep
    refine ⟨s, _, rfl, ⟨.none, ⟨h.shared.list.first_in.1, c.rank_head k⟩, nofun⟩,
      .walk rfl (by rw [hidle]; rfl), ?_⟩
    rintro n ⟨⟩
    exact .inl h.shared.list.first_in
  | step t => cases hstep

theorem Inv.step (h : Inv c s) {a : Act Tid Node Key} (hstep : step c s a = some s') :
    ∃ s₁ pc', s' = s₁.goto a.thread pc' ∧ Stepped c s a.thread s₁ pc' := by
  cases a with
  | step t => exact h.next_step hstep
  | add | remove | get =>
    simp only [ListsetLazy.step] at hstep
    split at hstep
    · rename_i hidle
      exact h.begin_call hidle hstep
    · cases hstep

section

omit [DecidableEq Tid]

theorem vlistsetInit_quiet (c : Config Node Key) :
    Quiet c (vlistsetInit c : State Tid Node Key) where
  idle _ := rfl
  list := by
    refine .ends c.distinct ?_ ?_ ?_
    · simp [Config.rank, c.distinct.symm]
    · simp [vlistsetInit]
    · simp [vlistsetInit, c.distinct.symm]
  sentinels := ⟨rfl, rfl⟩
  known _ hn := .inr (of_decide_eq_true hn)
  detached := rfl
  retired := rfl

theorem Quiet.inv (h : Quiet c s) : Inv c s where
  shared := {
    list := h.list
    frozen := by simp [h.detached]
    sentinels := h.sentinels
    known := h.known
    retired := by simp [h.retired]
    once := by simp [h.retired] }
  pc t := by
    rw [h.idle]
    trivial
  owned t n hn := by
    rw [h.idle] at hn
    cases hn
  apart t u n hn := by
    rw [h.idle] at hn
    cases hn

end

variable {past : List (State Tid Node Key × Act Tid Node Key)}

theorem run_inv (run : (machine Tid c).Run past s) : Inv c s := by
  apply run.invariant
  · intro s h
    exact h.inv
  · intro s a s' h hstep
    obtain ⟨s₁, pc', rfl, hstepped⟩ := h.step hstep
    exact hstepped.acts.inv h

/-- After the calls of a run another run can begin, in which the nodes that are
no longer in the list may be added. -/
theorem run_renew (run : (machine Tid c).Run past s) (hidle : ∀ t, s.pc t = .idle) :
    (machine Tid c).start s.renew ∧
      ∀ n, ¬ Reaches s.next c.head n → s.renew.inUse n = false := by
  have h := (run_inv run).shared
  obtain ⟨hused, hfree⟩ := h.list.renew_used h.known
  exact ⟨⟨hidle, h.list.renew, h.sentinels, hused, rfl, rfl⟩, hfree⟩

/-- A node that was in the list at a moment of a stretch was so at a moment of it
with the pointer and the mark that it has now. -/
theorem hindsight (run : (machine Tid c).Run past s) {busy : State Tid Node Key → Prop} {n : Node}
    (hwas : During busy (fun s₀ => InList s₀.linked s₀.detached n) (moments past s)) :
    During busy (fun s₀ => Shared c s₀ ∧ InList s₀.linked s₀.detached n ∧
      s₀.next n = s.next n ∧ s₀.marked n = s.marked n) (moments past s) := by
  let inPlace (s₀ : State Tid Node Key) : Prop := InList s₀.linked s₀.detached n
  let gone (s₀ : State Tid Node Key) : Prop := s₀.linked n = true ∧ s₀.detached n = true
  let content (s₀ : State Tid Node Key) := (s₀.next n, s₀.marked n)
  have hgoes : ∀ past s a s', (machine Tid c).Run past s → (machine Tid c).step s a = some s' →
      inPlace s → inPlace s' ∨ gone s' ∧ content s' = content s := by
    intro past s a s' run hstep hin
    obtain ⟨s₁, pc', rfl, hstepped⟩ := (run_inv run).step hstep
    rcases hstepped.acts.effect.leaves hin with hstays | ⟨hgone, hnext, hmarked⟩
    · exact .inl hstays
    · exact .inr ⟨hgone, Prod.ext hnext hmarked⟩
  have hstays : ∀ past s a s', (machine Tid c).Run past s → (machine Tid c).step s a = some s' →
      gone s → gone s' ∧ content s' = content s := by
    intro past s a s' run hstep hgone
    obtain ⟨s₁, pc', rfl, hstepped⟩ := (run_inv run).step hstep
    have h := run_inv run
    obtain ⟨hgone', hnext, hmarked⟩ := hstepped.acts.effect.gone h.shared
      (fun n hn => (h.owned a.thread n hn).2) hgone
    exact ⟨hgone', Prod.ext hnext hmarked⟩
  apply (run.hindsight hgoes hstays hwas).2.mono
  rintro s₀ ⟨⟨before, run₀⟩, hin, hcontent⟩
  obtain ⟨hnext, hmarked⟩ := Prod.mk.inj hcontent
  exact ⟨(run_inv run₀).shared, hin, hnext, hmarked⟩

/-- The node a lookup stands on was in the list at a moment of the call. -/
theorem run_visited (run : (machine Tid c).Run past s) {n : Node}
    (hvisited : (s.pc t).visited = some n) :
    During (fun s₀ => s₀.pc t ≠ .idle) (fun s₀ => InList s₀.linked s₀.detached n)
      (moments past s) := by
  have hbusy : s.pc t ≠ .idle := by
    intro hidle
    rw [hidle] at hvisited
    cases hvisited
  have hseen := run.seen (fun t s₀ => s₀.pc t ≠ .idle)
    (fun t s s₀ => ∀ n, (s.pc t).visited = some n → InList s₀.linked s₀.detached n)
    ?_ ?_ hbusy
  · exact hseen.mono fun s₀ h₀ => h₀ n hvisited
  · intro s h t hbusy
    exact absurd (h.idle t) hbusy
  · intro past s a s' run hstep t hbusy
    obtain ⟨s₁, pc', rfl, hstepped⟩ := (run_inv run).step hstep
    by_cases ht : t = a.thread
    · subst ht
      have hself : (s₁.goto a.thread pc').pc a.thread = pc' := update_self ..
      rw [hself]
      cases hvisit : pc'.visited with
      | none => exact .inl nofun
      | some n =>
        rcases hstepped.sees n hvisit with hnow | ⟨m, hm, hfollows⟩
        · refine .inl ?_
          rintro n' ⟨⟩
          exact hnow
        · refine .inr ⟨?_, ?_⟩
          · intro hidle
            rw [hidle] at hm
            cases hm
          · intro hduring
            apply (hindsight run (hduring.mono fun s₀ h₀ => h₀ m hm)).mono
            rintro s₀ ⟨h₀, hin, hnext, -⟩ n' ⟨⟩
            exact hfollows s₀ h₀ hin hnext
    · have hsame : (s₁.goto a.thread pc').pc t = s.pc t := by
        simp only [State.goto, update_of_ne ht, hstepped.acts.effect.pc_eq]
      rw [hsame] at hbusy ⊢
      exact .inr ⟨hbusy, id⟩

theorem run_moves (run : (machine Tid c).Run past s) {a : Act Tid Node Key}
    (hstep : step c s a = some s') : Moves (view c) (setSpec c.key) a.thread past s s' := by
  obtain ⟨s₁, pc', rfl, hstepped⟩ := (run_inv run).step hstep
  have hself : (s₁.goto a.thread pc').pc a.thread = pc' := update_self ..
  have hown : (view c).settled a.thread (s₁.goto a.thread pc') = pc'.settled :=
    congrArg Pc.settled hself
  constructor
  · cases hstepped.does with
    | walk same settled => exact .walk same (hown.trans settled)
    | settle i r before after meets => exact .settle i r before (hown.trans after) meets
    | remember k n same before after at_ absent =>
      refine .remember _ _ same before (hown.trans after) ?_
      apply (hindsight run (run_visited run at_)).mono
      rintro s₀ ⟨h₀, hin, hnext, hmarked⟩
      exact ⟨absent s₀ h₀ hin hnext hmarked, rfl⟩
    | leave same idle =>
      refine .leave same fun hbusy => hbusy ?_
      rw [hself, idle]
  · intro u hu
    show (update s₁.pc a.thread pc' u).settled = (s.pc u).settled
    rw [update_of_ne hu, hstepped.acts.effect.pc_eq]

/-- The list is sorted; a node that was added is in the set exactly while it is
not marked; the operations are atomic; and a node is retired once, after it was
detached. -/
structure Safe (c : Config Node Key) (past : List (State Tid Node Key × Act Tid Node Key))
    (s : State Tid Node Key) : Prop where
  sorted : ∃ nodes, Chain s.next c.head c.tail nodes ∧
    nodes.Pairwise (fun a b => c.rank a < c.rank b)
  present : ∀ n, s.linked n = true → n ≠ c.head → n ≠ c.tail →
    (s.marked n = false ↔ n ∈ members c s)
  reachable : ∀ n, s.linked n = true → s.marked n = false → Reaches s.next c.head n
  atomic : Linear (machine Tid c) Act.thread (view c) (setSpec c.key) past s
  retiredOnce : s.retired.Nodup ∧
    ∀ t k pred curr, s.pc t = .removeRetire k pred curr → curr ∉ s.retired
  retiredLate : ∀ n, n ∈ s.retired ∨ (∃ t k pred, s.pc t = .removeRetire k pred n) →
    ¬ Reaches s.next c.head n
  noCrash : ∀ t, s.pc t ≠ .crashed

theorem listset_lazy_safe (run : (machine Tid c).Run past s) : Safe c past s := by
  have h := run_inv run
  constructor
  · exact h.shared.list.sorted
  · intro n hlinked hhead htail
    rw [h.shared.members_iff]
    exact ⟨fun hmarked => ⟨hlinked, hmarked, hhead, htail⟩, fun hmem => hmem.2.1⟩
  · intro n hlinked hmarked
    exact h.shared.list.reaches_iff.mpr (h.shared.inList hlinked hmarked)
  · refine run.linear_always ?_ ?_
    · intro s h t
      exact congrArg Pc.settled (h.idle t)
    · intro past s a s' run hstep
      exact run_moves run hstep
  · refine ⟨h.shared.once, ?_⟩
    intro t k pred curr hpc
    have hok := h.pc t
    rw [hpc] at hok
    exact hok.2.2.2
  · intro n hn hreach
    have hgone : s.detached n = true := by
      rcases hn with hn | ⟨t, k, pred, hpc⟩
      · exact h.shared.retired n hn
      · have hok := h.pc t
        rw [hpc] at hok
        exact hok.2.2.1
    rw [(h.shared.list.reaches_iff.mp hreach).2] at hgone
    cases hgone
  · intro t hpc
    have hok := h.pc t
    rw [hpc] at hok
    exact hok

/-- Node 2 is added; a lookup comes to it, and finds it marked after another
thread has removed it. -/
def lookupRemoved : List (Act Bool (Fin 4) Nat) :=
  List.flatten [
    .add true 2 nodeTwo :: List.replicate 13 (.step true),
    .get false 2 :: [.step false],
    .remove true 2 :: List.replicate 10 (.step true),
    [.step false]]

theorem listset_lazy_safe_removed :
    ∃ past s, (machine Bool numbered).Run past s ∧ s.pc false = .ret 2 (.got none) ∧
      s.retired = [2] ∧ Safe numbered past s := by
  have hexec : ((machine Bool numbered).exec (vlistsetInit numbered) lookupRemoved).map
      (fun s => (s.pc false, s.retired)) = some (.ret 2 (.got none), [2]) := by
    decide +kernel
  obtain ⟨s, hs, hend⟩ := Option.map_eq_some_iff.mp hexec
  obtain ⟨hret, hretired⟩ := Prod.mk.inj hend
  have run := (Machine.Run.start (vlistsetInit_quiet numbered)).exec hs
  exact ⟨_, s, run, hret, hretired, listset_lazy_safe run⟩

end Libvsync.Map.ListsetLazy
