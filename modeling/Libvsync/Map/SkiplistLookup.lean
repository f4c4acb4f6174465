import Libvsync.Map.SkiplistKeys

/-!
`vskiplist_lookup`, `vskiplist_lookup_next`, `vskiplist_get_first` and `vskiplist_get_succ` while
no other call moves. A lookup goes down the levels by unmarked nodes with smaller keys; on the way
it steps over marked ones, which may be left on some levels only.
-/

namespace Libvsync.Map.Skiplist

open Libvsync.Core

variable {Tid Node Key : Type} [DecidableEq Node]

section Source

/-- The loop of `vskiplist_get_succ`, with a number of rounds. -/
def getSuccLoop (c : Config Node Key) (s : State Tid Node Key) :
    Nat → Option Node → Option (Option Node)
  | 0, _ => none
  | _ + 1, none => none
  | rounds + 1, some succ =>
    match s.next succ 0 with
    | (succNext, true) => getSuccLoop c s rounds succNext
    | (_, false) => some (if succ = c.tail then none else some succ)

/-- `vskiplist_get_succ` -/
def vskiplistGetSucc (c : Config Node Key) (s : State Tid Node Key) (rounds : Nat)
    (curr : Node) : Option (Option Node) :=
  getSuccLoop c s rounds (s.next curr 0).1

/-- `vskiplist_get_first` -/
def vskiplistGetFirst (c : Config Node Key) (s : State Tid Node Key) (rounds : Nat) :
    Option (Option Node) :=
  match (s.next c.head 0).1 with
  | none => none
  | some node =>
    if node = c.tail then some none
    else if (s.next node 0).2 then vskiplistGetSucc c s rounds node
    else some (some node)

end Source

section Succ

variable [LinearOrder Key] {c : Config Node Key} {keyOf : Node → Key} {s : State Tid Node Key}
variable {curr succ n : Node} {low : LowerSet (WithBot (WithTop Key))}

/-- Behind a node that is not in `low` there is none that is. -/
theorem Good.above_next (h : Good c keyOf s) (hcurr : s.OnLevel 0 curr)
    (habove : c.rank keyOf curr ∉ low) (hnext : s.level 0 curr = some succ) :
    c.rank keyOf succ ∉ low :=
  fun hin => habove (low.lower ((h.sort curr 0 succ hcurr.1 hnext).1) hin)

theorem getSuccLoop_spec (h : Good c keyOf s) {nodes : List Node}
    (hchain : Chain (s.level 0) curr c.tail (curr :: nodes)) (hcurr : s.OnLevel 0 curr)
    (hhead : curr ≠ c.head) (habove : c.rank keyOf curr ∉ low)
    (hgap : Gap c keyOf s low curr) {rounds : Nat} (hrounds : nodes.length < rounds) :
    ∃ n, getSuccLoop c s rounds (some curr) = some (if n = c.tail then none else some n) ∧
      Found c keyOf s low n := by
  have hlinks := h.inv.heap.toLinksInv
  induction nodes generalizing curr rounds with
  | nil =>
    obtain ⟨rounds, rfl⟩ := Nat.exists_eq_succ_of_ne_zero (Nat.ne_zero_of_lt hrounds)
    obtain rfl : curr = c.tail := Option.some.inj hchain.last
    refine ⟨c.tail, ?_, hcurr, hlinks.tail_unmarked 0, hhead, habove, hgap⟩
    simp only [getSuccLoop, (hlinks.sentinels 0).2]
  | cons succ nodes ih =>
    obtain ⟨rounds, rfl⟩ := Nat.exists_eq_succ_of_ne_zero (Nat.ne_zero_of_lt hrounds)
    have hnext : s.level 0 curr = some succ := (List.isChain_cons_cons.mp hchain.links).1
    rcases Bool.eq_false_or_eq_true (s.next curr 0).2 with hmarked | hunmarked
    · have hsucc := h.bottom.next_in hcurr hnext
      obtain ⟨n, hrun, hfound⟩ := ih hchain.tail hsucc (hlinks.ne_head hcurr.1 hnext)
        (h.above_next hcurr habove hnext) (hgap.skip h hcurr hmarked hnext)
        (Nat.lt_of_succ_lt_succ hrounds)
      refine ⟨n, ?_, hfound⟩
      have hread : s.next curr 0 = (some succ, true) := Prod.ext hnext hmarked
      simp only [getSuccLoop, hread]
      exact hrun
    · have hread : s.next curr 0 = (some succ, false) := Prod.ext hnext hunmarked
      refine ⟨curr, ?_, hcurr, State.not_isMarked hunmarked, hhead, habove, hgap⟩
      simp only [getSuccLoop, hread]

theorem vskiplistGetSucc_spec (h : Good c keyOf s) (hn : s.OnLevel 0 n)
    (hnext : s.level 0 n = some curr) (habove : c.rank keyOf curr ∉ low)
    (hgap : Gap c keyOf s low curr) :
    ∃ rounds m, vskiplistGetSucc c s rounds n = some (if m = c.tail then none else some m) ∧
      Found c keyOf s low m := by
  have hlinks := h.inv.heap.toLinksInv
  have hcurr := h.bottom.next_in hn hnext
  obtain ⟨nodes, hchain, -⟩ := hlinks.rest (Nat.zero_le _) hcurr
  obtain ⟨m, hrun, hfound⟩ := getSuccLoop_spec h hchain hcurr (hlinks.ne_head hn.1 hnext) habove
    hgap (Nat.lt_succ_self nodes.length)
  refine ⟨nodes.length + 1, m, ?_, hfound⟩
  have hread : (s.next n 0).1 = some curr := hnext
  rw [vskiplistGetSucc, hread]
  exact hrun

theorem getSucc_least (h : Good c keyOf s) (hn : Present c s n) :
    ∃ rounds r, vskiplistGetSucc c s rounds n = some r ∧
      Least keyOf (fun m => Present c s m ∧ keyOf n < keyOf m) r := by
  have hlinks := h.inv.heap.toLinksInv
  have hon := hn.on hlinks
  obtain ⟨curr, hnext, -, -⟩ := hlinks.next_on (Nat.zero_le _) hon hn.notTail
  have hlt := (h.sort n 0 curr hon.1 hnext).2 rfl
  have habove : c.rank keyOf curr ∉ LowerSet.Iic (c.rank keyOf n) :=
    fun hin => absurd (LowerSet.mem_Iic_iff.mp hin) (not_le.mpr hlt)
  have hgap : Gap c keyOf s (LowerSet.Iic (c.rank keyOf n)) curr :=
    .start h hon (LowerSet.mem_Iic_iff.mpr le_rfl) hnext
  obtain ⟨rounds, m, hrun, hfound⟩ := vskiplistGetSucc_spec h hon hnext habove hgap
  refine ⟨rounds, _, hrun, (hfound.least hlinks).congr fun m => ?_⟩
  refine and_congr_right fun hm => ?_
  rw [LowerSet.mem_Iic_iff, hn.rank_eq, hm.rank_eq, keyRank_le, not_le]

theorem getFirst_least (h : Good c keyOf s) :
    ∃ rounds r, vskiplistGetFirst c s rounds = some r ∧ Least keyOf (Present c s) r := by
  have hlinks := h.inv.heap.toLinksInv
  have hhead := hlinks.head_on (Nat.zero_le _)
  obtain ⟨node, hnext, hnode, hnodeHead⟩ := hlinks.next_on (Nat.zero_le _) hhead c.distinct
  have hlt := (h.sort c.head 0 node hhead.1 hnext).2 rfl
  have habove : c.rank keyOf node ∉ LowerSet.Iic (c.rank keyOf c.head) :=
    fun hin => absurd (LowerSet.mem_Iic_iff.mp hin) (not_le.mpr hlt)
  have hgap : Gap c keyOf s (LowerSet.Iic (c.rank keyOf c.head)) node :=
    .start h hhead (LowerSet.mem_Iic_iff.mpr le_rfl) hnext
  have hspec : ∃ rounds m, vskiplistGetFirst c s rounds =
      some (if m = c.tail then none else some m) ∧
        Found c keyOf s (LowerSet.Iic (c.rank keyOf c.head)) m := by
    rcases Bool.eq_false_or_eq_true (s.next node 0).2 with hmarked | hunmarked
    · have htail : node ≠ c.tail := by
        rintro rfl
        exact hlinks.tail_unmarked 0 hmarked
      obtain ⟨succ, hsucc, -, -⟩ := hlinks.next_on (Nat.zero_le _) hnode htail
      obtain ⟨rounds, m, hrun, hfound⟩ := vskiplistGetSucc_spec h hnode hsucc
        (h.above_next hnode habove hsucc) (hgap.skip h hnode hmarked hsucc)
      refine ⟨rounds, m, ?_, hfound⟩
      simp only [vskiplistGetFirst, hnext]
      rw [if_neg htail, if_pos hmarked, hrun]
    · refine ⟨0, node, ?_, hnode, State.not_isMarked hunmarked, hnodeHead, habove, hgap⟩
      simp only [vskiplistGetFirst, hnext]
      rcases Classical.em (node = c.tail) with htail | htail
      · rw [if_pos htail, if_pos htail]
      · rw [if_neg htail, hunmarked, if_neg Bool.false_ne_true, if_neg htail]
  obtain ⟨rounds, m, hrun, hfound⟩ := hspec
  refine ⟨rounds, _, hrun, (hfound.least hlinks).congr fun m => and_iff_left_of_imp fun hm => ?_⟩
  rw [LowerSet.mem_Iic_iff, hm.rank_eq, not_le]
  exact first_lt_key

end Succ

section Lookup

variable [DecidableEq Tid] [LinearOrder Key] {c : Config Node Key} {keyOf : Node → Key}
variable {s : State Tid Node Key} {t : Tid} {k : Key} {acceptNext : Bool} {pred curr : Node}
variable {l : Nat}

/-- Steps of one thread alone. -/
def Solo (c : Config Node Key) (t : Tid) : State Tid Node Key → State Tid Node Key → Prop :=
  (machine Tid c).Steps (.step t)

section

omit [DecidableEq Node] [LinearOrder Key]

@[simp] theorem goto_goto (s : State Tid Node Key) (t : Tid) (pc pc' : Pc Node Key) :
    (s.goto t pc).goto t pc' = s.goto t pc' := by
  rw [State.goto, State.goto, State.goto, Function.update_idem]

@[simp] theorem goto_next (s : State Tid Node Key) (t : Tid) (pc : Pc Node Key) :
    (s.goto t pc).next = s.next := rfl

end

/-- A level of a lookup has come to its end. -/
structure Stopped (c : Config Node Key) (keyOf : Node → Key) (s : State Tid Node Key) (l : Nat)
    (k : Key) (pred curr : Node) : Prop where
  clear : Clear c s l pred
  below : c.rank keyOf pred < keyRank k
  unmarked : (s.next curr l).2 = false
  notHead : curr ≠ c.head
  stop : ¬ (curr ≠ c.tail ∧ c.funCmp curr k < 0)
  found : l = 0 → Found c keyOf s (LowerSet.Iio (keyRank k)) curr

omit [DecidableEq Tid] in
theorem Stopped.of_stop (ho : Ordered c keyOf) (hclear : Clear c s l pred)
    (hbelow : c.rank keyOf pred < keyRank k) (hcurr : s.OnLevel l curr)
    (hunmarked : (s.next curr l).2 = false) (hhead : curr ≠ c.head)
    (hstop : ¬ (curr ≠ c.tail ∧ c.funCmp curr k < 0))
    (hgap : l = 0 → Gap c keyOf s (LowerSet.Iio (keyRank k)) curr) :
    Stopped c keyOf s l k pred curr where
  clear := hclear
  below := hbelow
  unmarked := hunmarked
  notHead := hhead
  stop := hstop
  found hl := by
    subst hl
    refine ⟨hcurr, State.not_isMarked hunmarked, hhead, fun hin => ?_, hgap rfl⟩
    exact absurd (LowerSet.mem_Iio_iff.mp hin) (not_lt.mpr (ho.stop_le hhead hstop))

/-- The walk of a lookup along a level. -/
theorem lookupCurr_alone (ho : Ordered c keyOf) (h : Good c keyOf s) (t : Tid)
    (acceptNext : Bool) (hl : l ≤ c.topLevel) {nodes : List Node}
    (hchain : Chain (s.level l) curr c.tail (curr :: nodes)) (hcurr : s.OnLevel l curr)
    (hhead : curr ≠ c.head) (hpred : Clear c s l pred) (hbelow : c.rank keyOf pred < keyRank k)
    (hgap : l = 0 → Gap c keyOf s (LowerSet.Iio (keyRank k)) curr) :
    ∃ pred' curr', Solo c t (s.goto t (.lookupCurr k acceptNext pred l curr))
        (s.goto t (.lookupCurr k acceptNext pred' l curr')) ∧
      Stopped c keyOf s l k pred' curr' := by
  have hlinks := h.inv.heap.toLinksInv
  induction nodes generalizing pred curr with
  | nil =>
    obtain rfl : curr = c.tail := Option.some.inj hchain.last
    exact ⟨pred, c.tail, .refl, .of_stop ho hpred hbelow hcurr
      (congrArg Prod.snd (hlinks.sentinels l).2) hhead (fun hstop => hstop.1 rfl) hgap⟩
  | cons succ nodes ih =>
    have hnext : s.level l curr = some succ := (List.isChain_cons_cons.mp hchain.links).1
    have htail := hlinks.ne_tail hnext
    have hsuccHead := hlinks.ne_head hcurr.1 hnext
    have hsucc : s.OnLevel l succ := by
      obtain ⟨m, hm, hon, -⟩ := hlinks.next_on hl hcurr htail
      have heq : some succ = some m := hnext.symm.trans hm
      rwa [Option.some.inj heq]
    rcases Bool.eq_false_or_eq_true (s.next curr l).2 with hmarked | hunmarked
    · have hread : s.next curr l = (some succ, true) := Prod.ext hnext hmarked
      have hsee : nextStep c (s.goto t (.lookupCurr k acceptNext pred l curr)) t =
          some (s.goto t (.lookupSkip k acceptNext pred l curr)) := by
        simp only [nextStep, goto_pc, goto_next, hread, goto_goto]
      have hskip : nextStep c (s.goto t (.lookupSkip k acceptNext pred l curr)) t =
          some (s.goto t (.lookupCurr k acceptNext pred l succ)) := by
        simp only [nextStep, goto_pc, goto_next, hread, goto_goto]
      obtain ⟨pred', curr', hwalk, hstopped⟩ := ih hchain.tail hsucc hsuccHead hpred hbelow
        fun hzero => by
          subst hzero
          exact (hgap rfl).skip h hcurr hmarked hnext
      exact ⟨pred', curr', .head hsee (.head hskip hwalk), hstopped⟩
    · have hread : s.next curr l = (some succ, false) := Prod.ext hnext hunmarked
      rcases Classical.em (c.funCmp curr k < 0) with hcmp | hcmp
      · have hgo : nextStep c (s.goto t (.lookupCurr k acceptNext pred l curr)) t =
            some (s.goto t (.lookupCurr k acceptNext curr l succ)) := by
          simp only [nextStep, goto_pc, goto_next, hread, goto_goto]
          rw [if_neg hhead, if_pos ⟨htail, hcmp⟩]
        have hlow := (ho.rank_lt hhead htail).mpr hcmp
        obtain ⟨pred', curr', hwalk, hstopped⟩ := ih hchain.tail hsucc hsuccHead
          ⟨hcurr, hunmarked, htail⟩ hlow fun hzero => by
            subst hzero
            exact .start h hcurr (LowerSet.mem_Iio_iff.mpr hlow) hnext
        exact ⟨pred', curr', .head hgo hwalk, hstopped⟩
      · exact ⟨pred, curr, .refl, .of_stop ho hpred hbelow hcurr hunmarked hhead
          (fun hstop => hcmp hstop.2) hgap⟩

theorem lookupLevel_alone (ho : Ordered c keyOf) (h : Good c keyOf s) (t : Tid)
    (acceptNext : Bool) (hl : l ≤ c.topLevel) (hpred : Clear c s l pred)
    (hbelow : c.rank keyOf pred < keyRank k) :
    ∃ pred' curr', Solo c t (s.goto t (.lookupLevel k acceptNext pred l))
        (s.goto t (.lookupCurr k acceptNext pred' l curr')) ∧
      Stopped c keyOf s l k pred' curr' := by
  have hlinks := h.inv.heap.toLinksInv
  obtain ⟨curr, hread, hcurr, hhead⟩ := hpred.next hlinks hl
  obtain ⟨nodes, hchain, -⟩ := hlinks.rest hl hcurr
  have henter : nextStep c (s.goto t (.lookupLevel k acceptNext pred l)) t =
      some (s.goto t (.lookupCurr k acceptNext pred l curr)) := by
    simp only [nextStep, goto_pc, goto_next, hread, goto_goto]
  obtain ⟨pred', curr', hwalk, hstopped⟩ := lookupCurr_alone ho h t acceptNext hl hchain hcurr
    hhead hpred hbelow fun hzero => by
      subst hzero
      exact .start h hpred.on (LowerSet.mem_Iio_iff.mpr hbelow) (congrArg Prod.fst hread)
  exact ⟨pred', curr', .head henter hwalk, hstopped⟩

/-- What a lookup returns. -/
def lookupResult (c : Config Node Key) (k : Key) (acceptNext : Bool) (curr : Node) :
    Option Node :=
  if curr ≠ c.tail ∧ (c.funCmp curr k = 0 ∨ acceptNext = true) then some curr else none

theorem lookup_alone (ho : Ordered c keyOf) (h : Good c keyOf s) (t : Tid) (acceptNext : Bool)
    (hl : l ≤ c.topLevel) (hpred : Clear c s l pred) (hbelow : c.rank keyOf pred < keyRank k) :
    ∃ curr, Solo c t (s.goto t (.lookupLevel k acceptNext pred l))
        (s.goto t (.lookupRet (lookupResult c k acceptNext curr))) ∧
      Found c keyOf s (LowerSet.Iio (keyRank k)) curr := by
  induction l generalizing pred with
  | zero =>
    obtain ⟨pred', curr, hwalk, hstopped⟩ := lookupLevel_alone ho h t acceptNext hl hpred hbelow
    have hreturn : nextStep c (s.goto t (.lookupCurr k acceptNext pred' 0 curr)) t =
        some (s.goto t (.lookupRet (lookupResult c k acceptNext curr))) := by
      have hread : s.next curr 0 = ((s.next curr 0).1, false) := Prod.ext rfl hstopped.unmarked
      simp only [nextStep, goto_pc, goto_next]
      rw [hread]
      simp only [goto_goto]
      rw [if_neg hstopped.notHead, if_neg hstopped.stop, if_pos trivial]
      rfl
    exact ⟨curr, hwalk.tail hreturn, hstopped.found rfl⟩
  | succ l ih =>
    obtain ⟨pred', curr, hwalk, hstopped⟩ := lookupLevel_alone ho h t acceptNext hl hpred hbelow
    have hdown : nextStep c (s.goto t (.lookupCurr k acceptNext pred' (l + 1) curr)) t =
        some (s.goto t (.lookupLevel k acceptNext pred' l)) := by
      have hread : s.next curr (l + 1) = ((s.next curr (l + 1)).1, false) :=
        Prod.ext rfl hstopped.unmarked
      simp only [nextStep, goto_pc, goto_next]
      rw [hread]
      simp only [goto_goto]
      rw [if_neg hstopped.notHead, if_neg hstopped.stop, if_neg (Nat.succ_ne_zero l)]
      rfl
    obtain ⟨curr', hrest, hfound⟩ := ih (Nat.le_of_succ_le hl)
      (hstopped.clear.down h.inv.heap.toLinksInv h.duty) hstopped.below
    exact ⟨curr', (hwalk.tail hdown).trans hrest, hfound⟩

end Lookup

end Libvsync.Map.Skiplist
