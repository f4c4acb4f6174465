import Libvsync.Map.SkiplistCleanup
import Libvsync.Map.SkiplistLookup

/-!
The skiplist as an ordered map: what each call returns when a thread makes it alone, after any
interleaving of calls that have come to their ends. A search alone never fails to snip, and a
removal marks the node that its search has found.
-/

namespace Libvsync.Map.Skiplist

open Libvsync.Core Function

variable {Tid Node Key : Type} [DecidableEq Tid] [DecidableEq Node] [LinearOrder Key]
variable {c : Config Node Key} {keyOf : Node → Key} {s s' s₁ : State Tid Node Key} {t : Tid}
variable {f : Find Node Key} {curr succ n : Node} {k : Key} {l : Nat}

section Find

theorem Solo.good (hs : Solo c t s s') (ho : Ordered c keyOf) (h : Good c keyOf s) :
    Good c keyOf s' := by
  induction hs with
  | refl => exact h
  | tail _ hstep ih => exact step_good (a := .step t) ho trivial ih hstep

omit [DecidableEq Tid] in
theorem Good.safe (h : Good c keyOf s) (t : Tid) (message : String) :
    s.pc t ≠ .failed message := by
  intro hpc
  have hok := h.inv.pc t
  rwa [hpc] at hok

omit [DecidableEq Node] [LinearOrder Key] in
theorem Alike.goto (s : State Tid Node Key) (t : Tid) (pc : Pc Node Key) :
    Alike s (s.goto t pc) := ⟨rfl, rfl, fun _ _ => rfl⟩

/-- A snipped node is counted down, and retired after the last count. -/
theorem findDec_alone (ho : Ordered c keyOf) (h : Good c keyOf s)
    (hpc : s.pc t = .findDec f curr) :
    ∃ s', Solo c t s s' ∧ s'.pc t = .findReload f ∧ s'.next = s.next ∧ Alike s s' := by
  let s₁ := { s with
    nonSnippedLevel := update s.nonSnippedLevel curr
      (wsub 64 (s.nonSnippedLevel curr) 1)
    counted := set2 s.counted curr f.level true }
  have hstep : nextStep c s t = some
      (if s.nonSnippedLevel curr = 0 then s₁.goto t (.failed "o_non_snip_lvl != 0")
      else if s.nonSnippedLevel curr = 1 then
        if curr = c.head then s₁.goto t (.failed "curr != head")
        else if curr = c.tail then s₁.goto t (.failed "curr != tail")
        else s₁.goto t (.findRetire f curr)
      else s₁.goto t (.findReload f)) := by
    simp only [nextStep, hpc]
    split
    · rfl
    · split
      · split
        · rfl
        · split <;> rfl
      · rfl
  have hfail {message : String} (hs : nextStep c s t = some (s₁.goto t (.failed message))) :
      False := (Solo.good (.single hs) ho h).safe t message (goto_pc _ t _)
  rcases Classical.em (s.nonSnippedLevel curr = 0) with hzero | hpos
  · rw [if_pos hzero] at hstep
    exact (hfail hstep).elim
  · rw [if_neg hpos] at hstep
    rcases Classical.em (s.nonSnippedLevel curr = 1) with hone | hmore
    · rw [if_pos hone] at hstep
      rcases Classical.em (curr = c.head) with hhead | hhead
      · rw [if_pos hhead] at hstep
        exact (hfail hstep).elim
      · rw [if_neg hhead] at hstep
        rcases Classical.em (curr = c.tail) with htail | htail
        · rw [if_pos htail] at hstep
          exact (hfail hstep).elim
        · rw [if_neg htail] at hstep
          let s₂ := s₁.goto t (.findRetire f curr)
          let s₃ := { s₂ with handed := curr :: s₂.handed }
          have hretire : nextStep c s₂ t = some (s₃.goto t (.findReload f)) := by
            simp only [nextStep, s₂, goto_pc]
            rfl
          exact ⟨_, .head hstep (.single hretire), goto_pc _ t _, rfl, rfl, rfl,
            fun _ _ => rfl⟩
    · rw [if_neg hmore] at hstep
      exact ⟨_, .single hstep, goto_pc _ t _, rfl, rfl, rfl, fun _ _ => rfl⟩

/-- A search alone snips the marked node that it has come to. -/
theorem findSnip_alone (ho : Ordered c keyOf) (h : Good c keyOf s)
    (hpc : s.pc t = .findSnip f curr (some succ))
    (hread : s.next f.pred f.level = (some curr, false)) :
    ∃ s', Solo c t s s' ∧ s'.pc t = .findCurr f succ ∧
      s'.next = set2 s.next f.pred f.level (some succ, false) ∧ Alike s s' := by
  let s₁ := { s with
    next := set2 s.next f.pred f.level (some succ, false)
    snipped := set2 s.snipped curr f.level true }
  have hsnip : nextStep c s t = some (s₁.goto t (.findDec f curr)) := by
    simp only [nextStep, hpc]
    rw [if_pos hread]
  have hone : Solo c t s (s₁.goto t (.findDec f curr)) := .single hsnip
  obtain ⟨s₂, hdec, hpc₂, hnext₂, halike⟩ := findDec_alone ho (hone.good ho h) (goto_pc _ t _)
  have hnext : s₂.next = set2 s.next f.pred f.level (some succ, false) := hnext₂
  have hreload : nextStep c s₂ t = some (s₂.goto t (.findCurr f succ)) := by
    simp only [nextStep, hpc₂, hnext, set2_self]
  have hmarks : Alike s (s₁.goto t (.findDec f curr)) :=
    ⟨rfl, rfl, fun _ _ => Writes.set2_mark (by rw [hread])⟩
  exact ⟨s₂.goto t (.findCurr f succ), (hone.trans hdec).tail hreload, goto_pc _ t _, hnext,
    (hmarks.trans halike).trans (.goto s₂ t _)⟩

/-- Where the search of a thread alone stands. -/
structure Standing (c : Config Node Key) (s : State Tid Node Key) (t : Tid) (f : Find Node Key)
    (curr : Node) : Prop where
  pc : s.pc t = .findCurr f curr
  clear : Clear c s f.level f.pred
  read : s.next f.pred f.level = (some curr, false)

/-- The search has come to the end of a level. -/
structure FindStops (c : Config Node Key) (s : State Tid Node Key) (t : Tid) (f : Find Node Key)
    (curr : Node) : Prop extends Standing c s t f curr where
  unmarked : (s.next curr f.level).2 = false
  stop : ¬ (curr ≠ c.tail ∧ c.funCmp curr f.key < 0 ∧ f.specific ≠ some curr)

theorem findCurr_alone (ho : Ordered c keyOf) (h : Good c keyOf s)
    (hstand : Standing c s t f curr) {nodes : List Node}
    (hchain : Chain (s.level f.level) f.pred c.tail (f.pred :: curr :: nodes)) :
    ∃ s' pred curr', Solo c t s s' ∧ Alike s s' ∧
      FindStops c s' t { f with pred := pred } curr' := by
  induction nodes generalizing s f curr with
  | nil =>
    have hlinks := h.inv.heap.toLinksInv
    obtain rfl : curr = c.tail := Option.some.inj hchain.tail.last
    exact ⟨s, f.pred, c.tail, .refl, .refl s, hstand,
      congrArg Prod.snd (hlinks.sentinels f.level).2, fun hstop => hstop.1 rfl⟩
  | cons succ nodes ih =>
    have hlinks := h.inv.heap.toLinksInv
    have hnext : s.level f.level curr = some succ :=
      (List.isChain_cons_cons.mp hchain.tail.links).1
    have hok := h.inv.pc t
    rw [hstand.pc] at hok
    obtain ⟨hfind, hlinked, hhead⟩ := hok
    have htail := hlinks.ne_tail hnext
    rcases Bool.eq_false_or_eq_true (s.next curr f.level).2 with hmarked | hunmarked
    · have hread : s.next curr f.level = (some succ, true) := Prod.ext hnext hmarked
      have hsee : nextStep c s t = some (s.goto t (.findSnip f curr (some succ))) := by
        simp only [nextStep, hstand.pc, hread]
      have hone : Solo c t s (s.goto t (.findSnip f curr (some succ))) := .single hsee
      obtain ⟨s₂, hsnip, hpc₂, hnext₂, halike⟩ := findSnip_alone ho (hone.good ho h)
        (goto_pc s t _) hstand.read
      have hsolo : Solo c t s s₂ := hone.trans hsnip
      have hgood := hsolo.good ho h
      have hmarks : Alike s s₂ := (Alike.goto s t _).trans halike
      have hread₂ : s₂.next f.pred f.level = (some succ, false) := by
        rw [hnext₂]
        exact set2_self s.next f.pred f.level (some succ, false)
      have hchain₂ : Chain (s₂.level f.level) f.pred c.tail (f.pred :: succ :: nodes) := by
        rw [← List.nil_append (f.pred :: curr :: succ :: nodes)] at hchain
        refine hchain.snip (congrArg Prod.fst hread₂) fun m hm => ?_
        rw [State.level, State.level, hnext₂]
        exact congrArg Prod.fst (set2_of_ne s.next (some succ, false) (.inl hm))
      obtain ⟨s', pred, curr', hrest, halike', hstops⟩ := ih hgood
        ⟨hpc₂, hmarks.clear hgood.inv.heap.toLinksInv hstand.clear, hread₂⟩ hchain₂
      exact ⟨s', pred, curr', hsolo.trans hrest, hmarks.trans halike', hstops⟩
    · have hread : s.next curr f.level = (some succ, false) := Prod.ext hnext hunmarked
      rcases Classical.em (c.funCmp curr f.key < 0 ∧ f.specific ≠ some curr) with hgo | hgo
      · have hwalk : nextStep c s t =
            some (s.goto t (.findCurr { f with pred := curr } succ)) := by
          simp only [nextStep, hstand.pc, hread]
          rw [if_neg hhead, if_pos ⟨htail, hgo⟩]
        have hone : Solo c t s (s.goto t (.findCurr { f with pred := curr } succ)) :=
          .single hwalk
        have hclear : Clear c s f.level curr :=
          ⟨hlinks.on_of_unmarked hlinked hunmarked, hunmarked, htail⟩
        have hgood := hone.good ho h
        obtain ⟨s', pred, curr', hrest, halike, hstops⟩ := ih hgood
          ⟨goto_pc s t _, (Alike.goto s t _).clear hgood.inv.heap.toLinksInv hclear, hread⟩
          hchain.tail
        exact ⟨s', pred, curr', hone.trans hrest, (Alike.goto s t _).trans halike, hstops⟩
      · exact ⟨s, f.pred, curr, .refl, .refl s, hstand, hunmarked,
          fun hstop => hgo hstop.2⟩

theorem findLevel_alone (ho : Ordered c keyOf) (h : Good c keyOf s)
    (hpc : s.pc t = .findLevel f) (hpred : Clear c s f.level f.pred) :
    ∃ s' pred curr, Solo c t s s' ∧ Alike s s' ∧
      FindStops c s' t { f with pred := pred } curr := by
  have hlinks := h.inv.heap.toLinksInv
  have hok := h.inv.pc t
  rw [hpc] at hok
  have hl : f.level ≤ c.topLevel := hok.level
  obtain ⟨curr, hread, -, -⟩ := hpred.next hlinks hl
  have henter : nextStep c s t = some (s.goto t (.findCurr f curr)) := by
    simp only [nextStep, hpc, hread]
    rw [if_pos (hlinks.height f.pred f.level hpred.on.1)]
  have hone : Solo c t s (s.goto t (.findCurr f curr)) := .single henter
  have hgood := hone.good ho h
  obtain ⟨nodes, hchain, -⟩ := hlinks.rest hl hpred.on
  obtain ⟨rest, rfl⟩ : ∃ rest, nodes = curr :: rest := by
    cases nodes with
    | nil => exact absurd (Option.some.inj hchain.last) hpred.notTail
    | cons m rest =>
      have hm : s.level f.level f.pred = some m := (List.isChain_cons_cons.mp hchain.links).1
      have heq : some m = some curr := hm.symm.trans (congrArg Prod.fst hread)
      exact ⟨rest, by rw [Option.some.inj heq]⟩
  obtain ⟨s', pred, curr', hwalk, halike, hstops⟩ := findCurr_alone ho hgood
    ⟨goto_pc s t _, (Alike.goto s t _).clear hgood.inv.heap.toLinksInv hpred, hread⟩ hchain
  exact ⟨s', pred, curr', hone.trans hwalk, (Alike.goto s t _).trans halike, hstops⟩

/-- The step at the end of a level. -/
theorem FindStops.next (hstops : FindStops c s t f curr) (h : Good c keyOf s) :
    nextStep c s t = some (s.findDown c t f curr) := by
  have hok := h.inv.pc t
  rw [hstops.pc] at hok
  have hread : s.next curr f.level = ((s.next curr f.level).1, false) :=
    Prod.ext rfl hstops.unmarked
  simp only [nextStep, hstops.pc]
  rw [hread]
  simp only []
  rw [if_neg hok.2.2, if_neg hstops.stop]

theorem find_alone (ho : Ordered c keyOf) (h : Good c keyOf s) (hpc : s.pc t = .findLevel f)
    (hpred : Clear c s f.level f.pred) :
    ∃ s' f' curr, Solo c t s s' ∧ Alike s s' ∧ FindStops c s' t f' curr ∧ f'.level = 0 ∧
      f'.key = f.key ∧ f'.specific = f.specific ∧ f'.caller = f.caller := by
  induction hlevel : f.level generalizing s f with
  | zero =>
    obtain ⟨s', pred, curr, hsolo, halike, hstops⟩ := findLevel_alone ho h hpc hpred
    exact ⟨s', _, curr, hsolo, halike, hstops, hlevel, rfl, rfl, rfl⟩
  | succ l ih =>
    obtain ⟨s₁, pred, curr, hsolo, halike, hstops⟩ := findLevel_alone ho h hpc hpred
    have h₁ := hsolo.good ho h
    have hstep := hstops.next h₁
    have hdown : s₁.findDown c t { f with pred := pred } curr = s₁.goto t (.findLevel
        { f with
          pred := pred
          preds := update f.preds f.level pred
          succs := update f.succs f.level curr
          level := l }) := by
      simp only [State.findDown, hlevel]
      rw [if_neg (Nat.succ_ne_zero l)]
      rfl
    rw [hdown] at hstep
    have hone : Solo c t s₁ _ := .single hstep
    have hclear : Clear c s₁ (l + 1) pred := hlevel ▸ hstops.clear
    have hbelow := hclear.down h₁.inv.heap.toLinksInv h₁.duty
    obtain ⟨s', f', curr', hrest, halike', hdone⟩ := ih (hone.good ho h₁) (goto_pc s₁ t _)
      ((Alike.goto s₁ t _).clear (hone.good ho h₁).inv.heap.toLinksInv hbelow) rfl
    exact ⟨s', f', curr', (hsolo.trans hone).trans hrest,
      halike.trans ((Alike.goto s₁ t _).trans halike'), hdone⟩

end Find

section Remove

theorem FindStops.return (hstops : FindStops c s t f curr) (h : Good c keyOf s)
    (hlevel : f.level = 0) : ∃ preds succs, nextStep c s t =
      some (s.findReturn c t { f with preds := preds, succs := succs } curr) := by
  refine ⟨update f.preds f.level f.pred, update f.succs f.level curr, ?_⟩
  rw [hstops.next h, State.findDown]
  simp only [hlevel, if_true]

theorem detach_alone (ho : Ordered c keyOf) (h : Good c keyOf s) (hpc : s.pc t = .findLevel f)
    (hpred : Clear c s f.level f.pred) (hcaller : f.caller = .detach) :
    ∃ s', Solo c t s s' ∧ s'.pc t = .removeRet true := by
  obtain ⟨s₁, f', curr, hsolo, -, hstops, hlevel, -, -, hcaller'⟩ := find_alone ho h hpc hpred
  obtain ⟨preds, succs, hreturn⟩ := hstops.return (hsolo.good ho h) hlevel
  rw [hcaller] at hcaller'
  simp only [State.findReturn, hcaller'] at hreturn
  exact ⟨_, hsolo.tail hreturn, goto_pc s₁ t _⟩

omit [LinearOrder Key] in
theorem markRead_alone (hpc : s.pc t = .markRead k n l) (hunmarked : (s.next n l).2 = false) :
    ∃ s₂ : State Tid Node Key, Solo c t s (s₂.marked c t k n l true) ∧
      s₂.next = set2 s.next n l ((s.next n l).1, true) := by
  have hread : s.next n l = ((s.next n l).1, false) := Prod.ext rfl hunmarked
  let s₁ := s.goto t (.markCas k n l (s.next n l).1)
  let s₂ := { s₁ with next := set2 s.next n l ((s.next n l).1, true) }
  have hsee : nextStep c s t = some s₁ := by
    simp only [nextStep, hpc]
    rw [hread]
  have hmark : nextStep c s₁ t = some (s₂.marked c t k n l true) := by
    simp only [nextStep, s₁, goto_pc, goto_next]
    exact if_pos hread
  exact ⟨s₂, .head hsee (.single hmark), rfl⟩

/-- A removal alone marks the node from the top and detaches it. -/
theorem mark_alone (ho : Ordered c keyOf) (h : Good c keyOf s)
    (hpc : s.pc t = .markRead k n l) (hunmarked : ∀ j ≤ l, (s.next n j).2 = false) :
    ∃ s', Solo c t s s' ∧ s'.pc t = .removeRet true := by
  induction l generalizing s with
  | zero =>
    obtain ⟨s₁, hsolo, -⟩ := markRead_alone (c := c) hpc (hunmarked 0 (Nat.le_refl 0))
    have hfind : s₁.marked c t k n 0 true = s₁.find c t k (some n) .detach := rfl
    have h₁ := hsolo.good ho h
    rw [hfind] at hsolo h₁
    rw [find_eq (h₁.safe t)] at hsolo h₁
    obtain ⟨s', hrest, hret⟩ := detach_alone ho h₁ (goto_pc s₁ t _)
      (h₁.inv.heap.head_clear (Nat.le_refl _)) rfl
    exact ⟨s', hsolo.trans hrest, hret⟩
  | succ l ih =>
    obtain ⟨s₁, hsolo, hnext⟩ := markRead_alone (c := c) hpc (hunmarked _ (Nat.le_refl _))
    have hgo : s₁.marked c t k n (l + 1) true = s₁.goto t (.markRead k n l) := rfl
    have h₁ := hsolo.good ho h
    rw [hgo] at hsolo h₁
    obtain ⟨s', hrest, hret⟩ := ih h₁ (goto_pc s₁ t _) fun j hj => by
      rw [goto_next, hnext, set2_of_ne s.next _ (.inr (Nat.ne_of_lt (Nat.lt_succ_of_le hj)))]
      exact hunmarked j (Nat.le_succ_of_le hj)
    exact ⟨s', hsolo.trans hrest, hret⟩

omit [DecidableEq Tid] in
theorem FindStops.found (hstops : FindStops c s t f curr) (ho : Ordered c keyOf)
    (h : Good c keyOf s) (hlevel : f.level = 0) (hspecific : f.specific = none) :
    Found c keyOf s (LowerSet.Iio (keyRank f.key)) curr := by
  have hlinks := h.inv.heap.toLinksInv
  have hok := h.inv.pc t
  have hsorted := h.pcs t
  rw [hstops.pc] at hok hsorted
  have hclear : Clear c s 0 f.pred := hlevel ▸ hstops.clear
  have hnext : s.level 0 f.pred = some curr := by
    rw [State.level, ← hlevel, hstops.read]
  have hunmarked : ¬ s.isMarked curr 0 := by
    rw [State.isMarked, ← hlevel, hstops.unmarked]
    exact Bool.false_ne_true
  have hstop : ¬ (curr ≠ c.tail ∧ c.funCmp curr f.key < 0) := fun hgo =>
    hstops.stop ⟨hgo.1, hgo.2, by rw [hspecific]; exact (Option.some_ne_none curr).symm⟩
  refine ⟨h.bottom.next_in hclear.on hnext, hunmarked, hok.2.2, fun hin => ?_,
    .start h hclear.on (LowerSet.mem_Iio_iff.mpr hsorted.below) hnext⟩
  exact absurd (LowerSet.mem_Iio_iff.mp hin) (not_lt.mpr (ho.stop_le hok.2.2 hstop))

theorem removeNode_alone (ho : Ordered c keyOf) (h : Good c keyOf s) (hs : Settled c s)
    (hidle : s.pc t = .idle) (k : Key) (n : Node) :
    ∃ s₁ s' ok, step c s (.removeNode t k n) = some s₁ ∧ Solo c t s₁ s' ∧
      s'.pc t = .removeRet ok ∧ (ok = true ↔ Present c s n ∧ keyOf n = k) := by
  have hcall : step c s (.removeNode t k n) = some (s.find c t k none (.remove (some n))) := by
    have hthread : (Act.removeNode t k n : Act Tid Node Key).thread = t := rfl
    simp only [step, hthread, hidle, beginCall]
  have h₁ := step_good (a := .removeNode t k n) ho trivial h hcall
  rw [find_eq (h₁.safe t)] at hcall h₁
  obtain ⟨s', f, curr, hsolo, halike, hstops, hlevel, hkey, hspecific, hcaller⟩ :=
    find_alone ho h₁ (goto_pc s t _) (h₁.inv.heap.head_clear (Nat.le_refl _))
  have h' := hsolo.good ho h₁
  have hfound := hstops.found ho h' hlevel hspecific
  have hlinks := h'.inv.heap.toLinksInv
  have hpresent (m : Node) : Present c s' m ↔ Present c s m :=
    ((Alike.goto s t _).trans halike).present m
  obtain ⟨preds, succs, hreturn⟩ := hstops.return h' hlevel
  dsimp only at hkey hcaller
  simp only [State.findReturn, hcaller, hkey] at hreturn
  rw [hkey] at hfound
  rcases Classical.em (curr = n ∧ Present c s n ∧ keyOf n = k) with ⟨rfl, hn, hk⟩ | hnot
  · have hcmp : curr ≠ c.tail ∧ c.funCmp curr k = 0 := ⟨hn.notTail, (ho.eq curr k).mpr hk⟩
    rw [if_pos ⟨hcmp, .inr rfl⟩] at hreturn
    have hone := hsolo.tail hreturn
    have h₂ := Solo.good hone ho h₁
    obtain ⟨hheight, hremove⟩ := removeNode_eq (h₂.safe t)
    rw [hremove] at hone h₂
    obtain ⟨s'', hrest, hret⟩ := mark_alone ho h₂ (goto_pc s' t _) fun j _ => by
      rw [goto_next, halike.marks]
      exact Bool.eq_false_of_not_eq_true fun hmarked =>
        hn.unmarked (hs.uniform curr j 0 hmarked (hs.height curr 0 hn.linked))
    exact ⟨_, s'', true, hcall, hone.trans hrest, hret, iff_of_true rfl ⟨hn, hk⟩⟩
  · have hmissed : ¬ ((curr ≠ c.tail ∧ c.funCmp curr k = 0) ∧
        (some n = none ∨ some n = some curr)) := by
      rintro ⟨⟨htail, hcmp⟩, hexpected⟩
      have heq : n = curr := Option.some.inj (hexpected.resolve_left (by simp))
      subst heq
      exact hnot ⟨rfl, (hpresent n).mp (hfound.present htail), (ho.eq n k).mp hcmp⟩
    rw [if_neg hmissed] at hreturn
    refine ⟨_, _, false, hcall, hsolo.tail hreturn, goto_pc s' t _,
      iff_of_false Bool.false_ne_true ?_⟩
    rintro ⟨hn, hk⟩
    have hleast := hfound.least_key hlinks
    have hn' := (hpresent n).mpr hn
    split at hleast
    · rename_i hcurr
      have heq := h'.unique hleast.1.1 hn' (hcurr.2.trans hk.symm)
      exact hnot ⟨heq, hn, hk⟩
    · exact hleast n ⟨hn', hk⟩

end Remove

section Calls

/-- A thread that makes a call alone comes to `pc`. -/
def Alone (c : Config Node Key) (s : State Tid Node Key) (a : Act Tid Node Key)
    (pc : Pc Node Key) : Prop :=
  ∃ rounds s', (machine Tid c).exec s (a :: List.replicate rounds (.step a.thread)) = some s' ∧
    s'.pc a.thread = pc

omit [LinearOrder Key] in
theorem Alone.of_solo {a : Act Tid Node Key} {pc : Pc Node Key} (hcall : step c s a = some s₁)
    (hsolo : Solo c a.thread s₁ s') (hpc : s'.pc a.thread = pc) : Alone c s a pc := by
  obtain ⟨rounds, hexec⟩ := hsolo.exec
  exact ⟨rounds, s', Machine.exec_cons hcall hexec, hpc⟩

/-- What the calls of thread `t` answer when they are made alone. -/
structure Answers (c : Config Node Key) (keyOf : Node → Key) (s : State Tid Node Key) (t : Tid) :
    Prop where
  lookup : ∀ k, ∃ r, Alone c s (.lookup t k) (.lookupRet r) ∧
    Least keyOf (fun m => Present c s m ∧ keyOf m = k) r
  lookupNext : ∀ k, ∃ r, Alone c s (.lookupNext t k) (.lookupRet r) ∧
    Least keyOf (fun m => Present c s m ∧ k ≤ keyOf m) r
  getFirst : ∃ rounds r, vskiplistGetFirst c s rounds = some r ∧ Least keyOf (Present c s) r
  getSucc : ∀ n, Present c s n → ∃ rounds r, vskiplistGetSucc c s rounds n = some r ∧
    Least keyOf (fun m => Present c s m ∧ keyOf n < keyOf m) r
  removeNode : ∀ k n, ∃ ok, Alone c s (.removeNode t k n) (.removeRet ok) ∧
    (ok = true ↔ Present c s n ∧ keyOf n = k)

/-- What the levels look like. -/
structure LevelsOrdered (c : Config Node Key) (keyOf : Node → Key) (s : State Tid Node Key) :
    Prop where
  sorted : ∀ l ≤ c.topLevel, ∃ nodes, Chain (s.level l) c.head c.tail nodes ∧
    nodes.Pairwise (fun a b => c.rank keyOf a ≤ c.rank keyOf b)
  present : ∀ l ≤ c.topLevel, ∀ n, n ≠ c.head → n ≠ c.tail →
    Reaches (s.level l) c.head n → ¬ s.isMarked n l → Present c s n
  levels : ∀ n, Present c s n → ∀ l ≤ c.topLevel,
    Reaches (s.level l) c.head n ↔ l < s.height n
  unique : ∀ m n, Present c s m → Present c s n → keyOf m = keyOf n → m = n

theorem lookupCall_alone (ho : Ordered c keyOf) (h : Good c keyOf s) (t : Tid)
    (acceptNext : Bool) (k : Key) :
    ∃ curr, Solo c t (s.goto t (.lookupLevel k acceptNext c.head c.topLevel))
        (s.goto t (.lookupRet (lookupResult c k acceptNext curr))) ∧
      Found c keyOf s (LowerSet.Iio (keyRank k)) curr :=
  lookup_alone ho h t acceptNext (Nat.le_refl _) (h.inv.heap.head_clear (Nat.le_refl _))
    first_lt_key

/-- After any interleaving of calls that have come to their ends, with nodes added under their
keys, the levels are in order and a call that is made alone answers from the unmarked nodes. -/
theorem skiplist_map {past : List (State Tid Node Key × Act Tid Node Key)}
    (ho : Ordered c keyOf) (run : (machine Tid c).Run past s)
    (hsound : AllSteps (fun _ a => a.Sound keyOf) past) (hquiet : Quiet s) (t : Tid) :
    Answers c keyOf s t ∧ LevelsOrdered c keyOf s := by
  have h := run_good ho run hsound
  have hs := run_settled run hquiet
  have hlinks := hs.toLinksInv
  constructor
  · refine ⟨fun k => ?_, fun k => ?_, getFirst_least h, fun n hn => getSucc_least h hn,
      fun k n => ?_⟩
    · obtain ⟨curr, hsolo, hfound⟩ := lookupCall_alone ho h t false k
      have hcall : step c s (.lookup t k) =
          some (s.goto t (.lookupLevel k false c.head c.topLevel)) := by
        have hthread : (Act.lookup t k : Act Tid Node Key).thread = t := rfl
        simp only [step, hthread, hquiet t, beginCall]
      refine ⟨_, .of_solo hcall hsolo (goto_pc s t _), ?_⟩
      have hresult : lookupResult c k false curr =
          if curr ≠ c.tail ∧ keyOf curr = k then some curr else none := by
        rw [lookupResult]
        refine if_congr (and_congr_right fun _ => ?_) rfl rfl
        rw [or_iff_left Bool.false_ne_true, ho.eq]
      rw [hresult]
      exact hfound.least_key hlinks
    · obtain ⟨curr, hsolo, hfound⟩ := lookupCall_alone ho h t true k
      have hcall : step c s (.lookupNext t k) =
          some (s.goto t (.lookupLevel k true c.head c.topLevel)) := by
        have hthread : (Act.lookupNext t k : Act Tid Node Key).thread = t := rfl
        simp only [step, hthread, hquiet t, beginCall]
      refine ⟨_, .of_solo hcall hsolo (goto_pc s t _), ?_⟩
      have hresult : lookupResult c k true curr = if curr = c.tail then none else some curr := by
        rw [lookupResult, ← ite_not]
        refine if_congr ?_ rfl rfl
        rw [and_iff_left (Or.inr rfl), not_not]
      rw [hresult]
      refine (hfound.least hlinks).congr fun m => and_congr_right fun hm => ?_
      rw [LowerSet.mem_Iio_iff, hm.rank_eq, keyRank_lt, not_lt]
    · obtain ⟨s₁, s', ok, hcall, hsolo, hret, hok⟩ := removeNode_alone ho h hs (hquiet t) k n
      exact ⟨ok, .of_solo hcall hsolo hret, hok⟩
  · exact {
      sorted := fun l hl => h.level_sorted hl
      present := fun l hl n hhead htail hreach hunmarked =>
        hs.reaches_present hl hreach hunmarked hhead htail
      levels := fun n hn l hl => hs.present_reaches hn hl
      unique := fun m n hm hn heq => h.unique hm hn heq }

theorem fourLevels_ordered : Ordered fourLevels id where
  lt n k := by
    simp only [fourLevels, id]
    omega
  eq n k := by
    simp only [fourLevels, id]
    omega

/-- Nodes are their own keys. -/
def addsItself (_ : State Bool Nat Nat) : Act Bool Nat Nat → Bool
  | .add _ key node _ => node = key
  | _ => true

theorem addsItself_sound {s : State Bool Nat Nat} {a : Act Bool Nat Nat}
    (hok : addsItself s a = true) : a.Sound id := by
  cases a with
  | add t key node height =>
    have hkey : node = key := of_decide_eq_true hok
    exact hkey
  | _ => trivial

/-- Node 2 is still linked at its upper level, marked. -/
theorem skiplist_map_leftover :
    ∃ past s, (machine Bool fourLevels).Run past s ∧ s.OnLevel 1 2 ∧ s.isMarked 2 1 ∧
      Alone fourLevels s (.lookup true 5) (.lookupRet (some 5)) ∧
      Alone fourLevels s (.lookup true 2) (.lookupRet none) := by
  have hend : (((machine Bool fourLevels).guarded addsItself).exec (vskiplistInit fourLevels)
      removedBefore).map (fun s => (decide (Quiet s), decide (s.OnLevel 1 2), (s.next 2 1).2,
        (s.next 2 0).2, s.linked 5 0, (s.next 5 0).2)) =
        some (true, true, true, true, true, false) := by
    decide +kernel
  obtain ⟨s, hexec, hs⟩ := Option.map_eq_some_iff.mp hend
  simp only [Prod.mk.injEq, decide_eq_true_iff] at hs
  obtain ⟨hquiet, hon, hupper, hlower, hlinked, hunmarked⟩ := hs
  obtain ⟨run, hok⟩ := ((Machine.Run.start rfl).exec hexec).of_guarded
  obtain ⟨hanswers, -⟩ := skiplist_map fourLevels_ordered run
    (fun p hp => addsItself_sound (hok p hp)) hquiet true
  refine ⟨_, s, run, hon, hupper, ?_, ?_⟩
  · obtain ⟨r, halone, hleast⟩ := hanswers.lookup 5
    cases r with
    | none =>
      exact absurd ⟨⟨by decide, by decide, hlinked, State.not_isMarked hunmarked⟩, rfl⟩
        (hleast 5)
    | some m =>
      obtain rfl : m = 5 := hleast.1.2
      exact halone
  · obtain ⟨r, halone, hleast⟩ := hanswers.lookup 2
    cases r with
    | none => exact halone
    | some m =>
      obtain rfl : m = 2 := hleast.1.2
      exact absurd hlower hleast.1.1.unmarked

end Calls

end Libvsync.Map.Skiplist
