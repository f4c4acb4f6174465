import Libvsync.Queue.PrioSkiplistFind

/-!
Adding a node. The search gives the two neighbours on every level, and nobody
interferes, so every compare-and-exchange succeeds: the node ends up between
them on each of its levels. On the bottom level that is behind all nodes with
the same priority.
-/

namespace Libvsync.Queue.PrioSkiplist

open Libvsync.Core Function
open Libvsync.Map.Skiplist (set2 set2_self set2_of_ne)

variable {Node Key : Type} [DecidableEq Node] [LinearOrder Key] {c : Config Node}
  {s s' : State Node Key} {ins : List Node} {nodes nodes' : Nat → List Node} {key : Key}
  {node : Node} {height : Nat} {f : Find Node}

/-- A node that is not in yet is prepared. -/
def prepared (s : State Node Key) (node : Node) (priority : Key) (height : Nat) :
    State Node Key :=
  { s with
    priority := update s.priority node priority
    marked := update s.marked node false
    added := node :: s.added
    height := update s.height node height
    nonSnippedLevel := update s.nonSnippedLevel node height }

section

omit [LinearOrder Key]

theorem Inv.prepared (h : Inv c s ins nodes) (hhead : node ≠ c.head) (htail : node ≠ c.tail)
    (hnew : node ∉ ins) : Inv c (prepared s node key height) ins nodes := by
  have hne (n : Node) (hn : n ∈ ins) : n ≠ node := fun heq => hnew (heq ▸ hn)
  have hlinked (l : Nat) (hl : l ≤ c.topLevel) (n : Node) (hn : n ∈ nodes l) : n ≠ node := by
    rcases h.known l hl n hn with rfl | rfl | hin
    · exact hhead.symm
    · exact htail.symm
    · exact hne n hin
  constructor
  · exact h.chain
  · exact h.known
  · intro l hl n hn
    simp only [PrioSkiplist.prepared, update_of_ne (hlinked l hl n hn)]
    exact h.tall l hl n hn
  · exact h.ends
  · simp only [PrioSkiplist.prepared, update_of_ne hhead.symm]
    exact h.headHeight
  · exact h.fresh
  · have hbound := h.bound
    simp only [PrioSkiplist.prepared, List.length_cons]
    omega
  · intro n hn
    simp only [PrioSkiplist.prepared, update_of_ne (hne n hn)]
    exact h.height n hn
  · intro n hn l
    simp only [PrioSkiplist.prepared, update_of_ne (hne n hn)]
    exact h.mark n hn l
  · intro n hn
    simp only [PrioSkiplist.prepared, update_of_ne (hne n hn)]
    exact h.full n hn
  · intro n hn
    simp only [PrioSkiplist.prepared, update_of_ne (hne n hn)]
    exact h.count n hn
  · exact h.retired

/-- The node points to the successors on the levels below `k`. -/
def pointed (next : Node → Nat → Option Node × Bool) (node : Node) (succs : Nat → Node)
    (k : Nat) : Node → Nat → Option Node × Bool :=
  fun n l => if n = node ∧ l < k then (some (succs l), false) else next n l

theorem setNexts_eq (s : State Node Key) (node : Node) (succs : Nat → Node) (k : Nat) :
    setNexts s node succs k = { s with next := pointed s.next node succs k } := by
  induction k with
  | zero =>
    have hnone : pointed s.next node succs 0 = s.next := by
      funext n l
      rw [pointed, if_neg (fun hat => absurd hat.2 (by omega))]
    rw [setNexts, hnone]
  | succ k ih =>
    rw [setNexts, ih]
    simp only [State.mk.injEq, and_true]
    funext n l
    by_cases hat : n = node ∧ l = k
    · rw [hat.1, hat.2, set2_self, pointed, if_pos ⟨rfl, by omega⟩]
    · rw [set2_of_ne _ _ (not_and_or.mp hat), pointed, pointed]
      by_cases hlow : n = node ∧ l < k
      · rw [if_pos hlow, if_pos ⟨hlow.1, by omega⟩]
      · rw [if_neg hlow, if_neg]
        rintro ⟨heq, hl⟩
        rcases Nat.lt_or_eq_of_le (Nat.le_of_lt_succ hl) with hl | hl
        · exact hlow ⟨heq, hl⟩
        · exact hat ⟨heq, hl⟩

end

/-- The predecessors point to the node on the levels below `k`. -/
def spliced (next : Node → Nat → Option Node × Bool) (node : Node) (preds : Nat → Node)
    (k : Nat) : Node → Nat → Option Node × Bool :=
  fun n l => if l < k ∧ n = preds l then (some node, false) else next n l

theorem set2_spliced (next : Node → Nat → Option Node × Bool) (preds : Nat → Node) (k : Nat) :
    set2 (spliced next node preds k) (preds k) k (some node, false) =
      spliced next node preds (k + 1) := by
  funext n l
  by_cases hat : n = preds k ∧ l = k
  · rw [hat.1, hat.2, set2_self, spliced, if_pos ⟨by omega, rfl⟩]
  · rw [set2_of_ne _ _ (not_and_or.mp hat), spliced, spliced]
    by_cases hlow : l < k ∧ n = preds l
    · rw [if_pos hlow, if_pos ⟨by omega, hlow.2⟩]
    · rw [if_neg hlow, if_neg]
      rintro ⟨hl, heq⟩
      rcases Nat.lt_or_eq_of_le (Nat.le_of_lt_succ hl) with hl | rfl
      · exact hlow ⟨hl, heq⟩
      · exact hat ⟨heq, rfl⟩

/-- The levels from `level` on: no compare-and-exchange fails. -/
theorem linkLevels_spec {rounds level : Nat} {next : Node → Nat → Option Node × Bool}
    (hnode : ∀ l, l < height → next node l = (some (f.succs l), false) ∧ node ≠ f.preds l)
    (hpreds : ∀ l, l < height → next (f.preds l) l = (some (f.succs l), false))
    (hlevel : level ≤ height) (hrounds : height < rounds + level) :
    linkLevels c key node height rounds { s with next := spliced next node f.preds level }
      level f = .ok { s with next := spliced next node f.preds height } := by
  induction rounds generalizing level with
  | zero => omega
  | succ rounds ih =>
    rw [linkLevels]
    by_cases hmore : level < height
    · have hself : spliced next node f.preds level node level =
          (some (f.succs level), false) := by
        rw [spliced, if_neg (fun hlow => (hnode level hmore).2 hlow.2), (hnode level hmore).1]
      have hpred : spliced next node f.preds level (f.preds level) level =
          (some (f.succs level), false) := by
        rw [spliced, if_neg (fun hlow => absurd hlow.1 (by omega)), hpreds level hmore]
      simp only [if_pos hmore, hself, if_true, hpred, set2_spliced]
      exact ih (by omega) (by omega)
    · have heq : level = height := by omega
      rw [if_neg hmore, heq]

section Splice

variable {before after : Nat → List Node}

/-- The levels with the node in its place. -/
def splicedNodes (nodes before after : Nat → List Node) (f : Find Node) (node : Node)
    (height : Nat) (l : Nat) : List Node :=
  if l < height then before l ++ f.preds l :: node :: f.succs l :: after l else nodes l

variable
  (hsplit : ∀ l, l ≤ c.topLevel → nodes l = before l ++ f.preds l :: f.succs l :: after l)

include hsplit

omit [DecidableEq Node] in
theorem mem_splicedNodes (node : Node) (height : Nat) {l : Nat} (hl : l ≤ c.topLevel) (n : Node) :
    n ∈ splicedNodes nodes before after f node height l ↔
      n ∈ nodes l ∨ n = node ∧ l < height := by
  rw [splicedNodes]
  split
  · rename_i hlow
    rw [hsplit l hl]
    simp only [List.mem_append, List.mem_cons]
    tauto
  · rename_i hhigh
    simp [hhigh]

theorem linkCount_splicedNodes (hheight : height ≤ c.topLevel + 1)
    (hnew : ∀ l, l ≤ c.topLevel → node ∉ nodes l) (n : Node) :
    linkCount c (splicedNodes nodes before after f node height) n =
      if n = node then height else linkCount c nodes n := by
  have hmem (l : Nat) (hl : l ∈ Finset.range (c.topLevel + 1)) :=
    mem_splicedNodes hsplit node height (Nat.le_of_lt_succ (Finset.mem_range.mp hl)) n
  rw [linkCount, Finset.filter_congr hmem]
  split
  · rename_i heq
    subst heq
    have hlow : (Finset.range (c.topLevel + 1)).filter
        (fun l => n ∈ nodes l ∨ n = n ∧ l < height) = Finset.range height := by
      ext l
      simp only [Finset.mem_filter, Finset.mem_range]
      constructor
      · rintro ⟨hl, hin | ⟨-, hlow⟩⟩
        · exact absurd hin (hnew l (by omega))
        · exact hlow
      · intro hlow
        exact ⟨by omega, .inr ⟨trivial, hlow⟩⟩
    rw [hlow, Finset.card_range]
  · rename_i hne
    simp only [hne, false_and, or_false]
    rfl

omit hsplit

/-- The pointers with the node in its place. -/
def splicedNext (next : Node → Nat → Option Node × Bool) (f : Find Node) (node : Node)
    (height : Nat) : Node → Nat → Option Node × Bool :=
  spliced (pointed next node f.succs height) node f.preds height

theorem splicedNext_high (next : Node → Nat → Option Node × Bool) {l : Nat} (hl : ¬ l < height)
    (n : Node) : splicedNext next f node height n l = next n l := by
  rw [splicedNext, spliced, if_neg (fun h => hl h.1), pointed, if_neg (fun h => hl h.2)]

theorem splicedNext_pred (next : Node → Nat → Option Node × Bool) {l : Nat} (hl : l < height) :
    splicedNext next f node height (f.preds l) l = (some node, false) := by
  rw [splicedNext, spliced, if_pos ⟨hl, rfl⟩]

theorem splicedNext_node (next : Node → Nat → Option Node × Bool) {l : Nat} (hl : l < height)
    (hne : node ≠ f.preds l) :
    splicedNext next f node height node l = (some (f.succs l), false) := by
  rw [splicedNext, spliced, if_neg (fun h => hne h.2), pointed, if_pos ⟨rfl, hl⟩]

theorem splicedNext_of_ne (next : Node → Nat → Option Node × Bool) {l : Nat} {n : Node}
    (hnode : n ≠ node) (hpred : n ≠ f.preds l) :
    splicedNext next f node height n l = next n l := by
  rw [splicedNext, spliced, if_neg (fun h => hpred h.2), pointed, if_neg (fun h => hnode h.1)]

/-- A predecessor of the search points to the successor, and is not marked. -/
theorem Found.link (hfound : Found c s ins nodes key f) (h : Inv c s ins nodes) {l : Nat}
    (hl : l ≤ c.topLevel) : s.next (f.preds l) l = (some (f.succs l), false) := by
  obtain ⟨⟨before, after, hsplit⟩, hleft, -⟩ := hfound.between l hl
  have hchain := h.chain l hl
  have hmem : f.preds l ∈ nodes l := by simp [hsplit]
  have hmark := (h.of_left hl hleft (h.tall l hl _ hmem)).2.1
  rw [hsplit] at hchain
  exact Prod.ext (List.isChain_append_cons_cons.mp hchain.links).2.1 hmark

include hsplit

theorem Inv.splice (h : Inv c s ins nodes) (hfound : Found c s ins nodes key f)
    (hhead : node ≠ c.head) (htail : node ≠ c.tail) (hnew : node ∉ ins) (hpos : 1 ≤ height)
    (htop : height ≤ c.topLevel + 1) (hheight : s.height node = height)
    (hcount : s.nonSnippedLevel node = height) (hmarked : s.marked node = false)
    (hbound : ins.length < s.added.length) :
    Inv c { s with next := splicedNext s.next f node height } (node :: ins)
      (splicedNodes nodes before after f node height) := by
  have hout (l : Nat) (hl : l ≤ c.topLevel) : node ∉ nodes l := by
    intro hin
    rcases h.known l hl node hin with heq | heq | hin
    · exact hhead heq
    · exact htail heq
    · exact hnew hin
  have hpred (l : Nat) (hl : l ≤ c.topLevel) : node ≠ f.preds l := by
    intro heq
    apply hout l hl
    rw [heq, hsplit l hl]
    simp
  have hne (n : Node) (hn : n ∈ ins) : n ≠ node := fun heq => hnew (heq ▸ hn)
  have hmark (n : Node) (hn : n ≠ node) (l : Nat) :
      (splicedNext s.next f node height n l).2 = (s.next n l).2 := by
    by_cases hl : l < height
    · by_cases heq : n = f.preds l
      · rw [heq, splicedNext_pred _ hl, hfound.link h (by omega)]
      · rw [splicedNext_of_ne _ hn heq]
    · rw [splicedNext_high _ hl]
  constructor
  · intro l hl
    have hchain := h.chain l hl
    rw [splicedNodes]
    split
    · rename_i hlow
      have hin := hout l hl
      rw [hsplit l hl] at hchain hin
      refine hchain.insert hin ?_ ?_ ?_
      · dsimp only
        rw [splicedNext_pred _ hlow]
      · dsimp only
        rw [splicedNext_node _ hlow (hpred l hl)]
      · intro m hm hm'
        dsimp only
        rw [splicedNext_of_ne _ hm' hm]
    · rename_i hhigh
      refine hchain.congr ?_
      intro m _ _
      dsimp only
      rw [splicedNext_high _ hhigh]
  · intro l hl n hn
    rw [mem_splicedNodes hsplit node height hl] at hn
    rcases hn with hn | ⟨rfl, -⟩
    · rcases h.known l hl n hn with heq | heq | hin
      · exact .inl heq
      · exact .inr (.inl heq)
      · exact .inr (.inr (List.mem_cons_of_mem _ hin))
    · exact .inr (.inr (by simp))
  · intro l hl n hn
    rw [mem_splicedNodes hsplit node height hl] at hn
    rcases hn with hn | ⟨rfl, hlow⟩
    · exact h.tall l hl n hn
    · dsimp only
      rw [hheight]
      exact hlow
  · intro l hl
    dsimp only
    rw [hmark _ hhead.symm, hmark _ htail.symm]
    exact h.ends l hl
  · exact h.headHeight
  · simp only [List.mem_cons, not_or]
    exact ⟨⟨hhead.symm, h.fresh.1⟩, htail.symm, h.fresh.2⟩
  · exact hbound
  · intro n hn
    rcases List.mem_cons.mp hn with rfl | hn
    · dsimp only
      rw [hheight]
      exact ⟨hpos, htop⟩
    · exact h.height n hn
  · intro n hn l hl
    dsimp only at hl ⊢
    rcases List.mem_cons.mp hn with rfl | hn
    · rw [hheight] at hl
      rw [splicedNext_node _ hl (hpred l (by omega)), hmarked]
    · rw [hmark n (hne n hn)]
      exact h.mark n hn l hl
  · intro n hn hunmarked l hl
    dsimp only at hl hunmarked
    rcases List.mem_cons.mp hn with rfl | hn
    · rw [hheight] at hl
      exact (mem_splicedNodes hsplit n height (by omega) n).mpr (.inr ⟨rfl, hl⟩)
    · have hle := (h.height n hn).2
      exact (mem_splicedNodes hsplit node height (by omega) n).mpr
        (.inl (h.full n hn hunmarked l hl))
  · intro n hn
    rw [linkCount_splicedNodes hsplit htop hout]
    rcases List.mem_cons.mp hn with rfl | hn
    · rw [if_pos rfl]
      exact hcount
    · rw [if_neg (hne n hn)]
      exact h.count n hn
  · refine ⟨h.retired.1, fun n => ?_⟩
    rw [← linkCount_eq_zero, linkCount_splicedNodes hsplit htop hout]
    dsimp only
    rw [h.retired.2 n, ← linkCount_eq_zero]
    by_cases heq : n = node
    · subst heq
      rw [if_pos rfl]
      constructor
      · rintro ⟨hin, -⟩
        exact absurd hin hnew
      · rintro ⟨-, hzero⟩
        omega
    · rw [if_neg heq, List.mem_cons, or_iff_right heq]

omit [LinearOrder Key] in
/-- The new node comes behind the nodes of the line that are not above it, and
before the others. -/
theorem line_splice (ins : List Node) (hpos : 1 ≤ height)
    (hnew : ∀ l, l ≤ c.topLevel → node ∉ nodes l)
    (hmarked : s.marked node = false) (next : Node → Nat → Option Node × Bool) :
    ∃ left right, line s ins nodes = left ++ right ∧
      line { s with next := next } (node :: ins) (splicedNodes nodes before after f node height) =
        left ++ node :: right ∧
      left = (before 0 ++ [f.preds 0]).filter (fun n => n ∈ ins ∧ s.marked n = false) ∧
      right = (f.succs 0 :: after 0).filter (fun n => n ∈ ins ∧ s.marked n = false) := by
  refine ⟨_, _, ?_, ?_, rfl, rfl⟩
  · rw [line, hsplit 0 (Nat.zero_le _), ← List.filter_append]
    simp
  · have hall := hnew 0 (Nat.zero_le _)
    rw [hsplit 0 (Nat.zero_le _)] at hall
    have hcongr (ns : List Node) (hns : node ∉ ns) :
        ns.filter (fun n => n ∈ node :: ins ∧ s.marked n = false) =
          ns.filter (fun n => n ∈ ins ∧ s.marked n = false) := by
      apply List.filter_congr
      intro n hn
      have hne : n ≠ node := fun heq => hns (heq ▸ hn)
      simp [hne]
    have heq : before 0 ++ f.preds 0 :: node :: f.succs 0 :: after 0 =
        (before 0 ++ [f.preds 0]) ++ node :: (f.succs 0 :: after 0) := by simp
    rw [line, splicedNodes, if_pos (by omega), heq, List.filter_append, hcongr]
    · rw [List.filter_cons_of_pos (by simp [hmarked]), hcongr]
      simp only [List.mem_append, List.mem_cons] at hall
      simp only [List.mem_cons]
      tauto
    · simp only [List.mem_append, List.mem_cons] at hall ⊢
      tauto

end Splice

/-- The line is in order, so a key between two neighbours of the bottom level is
between all the nodes before them and all the nodes behind. -/
theorem Inv.line_between (h : Inv c s ins nodes)
    (hsorted : (line s ins nodes).Pairwise (fun a b => s.priority a ≤ s.priority b))
    {before after : List Node} {p q : Node} (hbetween : Between c s ins nodes key 0 p q)
    (hsplit : nodes 0 = before ++ p :: q :: after) :
    (∀ n ∈ (before ++ [p]).filter (fun n => n ∈ ins ∧ s.marked n = false),
      s.priority n ≤ key) ∧
    ∀ n ∈ (q :: after).filter (fun n => n ∈ ins ∧ s.marked n = false), key < s.priority n := by
  have hchain := h.chain 0 (Nat.zero_le _)
  rw [line, hsplit] at hsorted
  rw [hsplit] at hchain
  constructor
  · rcases hbetween.left with rfl | ⟨hin, hmarked, hle⟩
    · intro n hn
      rw [hchain.before_nil] at hn
      simp [h.fresh.1] at hn
    · rw [List.filter_append, List.filter_cons_of_pos (by simp [hin, hmarked]),
        List.pairwise_append] at hsorted
      intro n hn
      rw [List.filter_append, List.mem_append] at hn
      rcases hn with hn | hn
      · exact (hsorted.2.2 n hn p (by simp)).trans hle
      · have heq : n = p := by simpa [hin, hmarked] using hn
        exact heq ▸ hle
  · rcases hbetween.right with rfl | ⟨hin, hmarked, hlt⟩
    · intro n hn
      have heq : before ++ p :: c.tail :: after = (before ++ [p]) ++ c.tail :: after := by simp
      rw [heq] at hchain
      have hafter := hchain.after_nil
      rw [hafter] at hn
      simp [h.fresh.2] at hn
    · have heq : before ++ p :: q :: after = (before ++ [p]) ++ q :: after := by simp
      rw [heq, List.filter_append, List.filter_cons_of_pos (by simp [hin, hmarked]),
        List.pairwise_append, List.pairwise_cons] at hsorted
      intro n hn
      rw [List.filter_cons_of_pos (by simp [hin, hmarked]), List.mem_cons] at hn
      rcases hn with rfl | hn
      · exact hlt
      · exact hlt.trans_le (hsorted.2.1.1 n hn)

omit [LinearOrder Key] in
theorem Inv.not_linked (h : Inv c s ins nodes) (hhead : node ≠ c.head) (htail : node ≠ c.tail)
    (hnew : node ∉ ins) {l : Nat} (hl : l ≤ c.topLevel) : node ∉ nodes l := by
  intro hin
  rcases h.known l hl node hin with heq | heq | hin
  · exact hhead heq
  · exact htail heq
  · exact hnew hin

theorem addLoop_spec (key : Key) (h : Inv c s ins nodes) (hhead : node ≠ c.head)
    (htail : node ≠ c.tail)
    (hnew : node ∉ ins) (hpos : 1 ≤ height) (htop : height ≤ c.topLevel + 1) {more : Nat}
    (hmore : 1 ≤ more) :
    ∃ s' nodes' f, Searched c s nodes s' nodes' ins ∧ Found c s' ins nodes' key f ∧
      addLoop c key node height more s =
        .ok ({ s' with next := splicedNext s'.next f node height }, true) := by
  have hspecific : ∀ n, (none : Option Node) = some n → s.marked n = true := by
    intro n hn
    cases hn
  obtain ⟨s', f, nodes', hfind, hsearched, hfound⟩ := find_spec h key hspecific
  refine ⟨s', nodes', f, hsearched, hfound, ?_⟩
  obtain ⟨more, rfl⟩ : ∃ k, more = k + 1 := ⟨more - 1, by omega⟩
  have hinv := hsearched.inv
  have hpred (l : Nat) (hl : l < height) : node ≠ f.preds l := by
    intro heq
    obtain ⟨⟨before, after, hsplit⟩, -, -⟩ := hfound.between l (by omega)
    apply hinv.not_linked hhead htail hnew (l := l) (by omega)
    rw [heq, hsplit]
    simp
  have hnode (l : Nat) (hl : l < height) :
      pointed s'.next node f.succs height node l = (some (f.succs l), false) ∧
        node ≠ f.preds l :=
    ⟨if_pos ⟨rfl, hl⟩, hpred l hl⟩
  have hpreds (l : Nat) (hl : l < height) :
      pointed s'.next node f.succs height (f.preds l) l = (some (f.succs l), false) := by
    rw [pointed, if_neg (fun hat => hpred l hl hat.1.symm), hfound.link hinv (by omega)]
  have hzero : spliced (pointed s'.next node f.succs height) node f.preds 0 =
      pointed s'.next node f.succs height := by
    funext n l
    rw [spliced, if_neg (fun hat => absurd hat.1 (by omega))]
  have hone : set2 (pointed s'.next node f.succs height) (f.preds 0) 0 (some node, false) =
      spliced (pointed s'.next node f.succs height) node f.preds 1 := by
    rw [← set2_spliced, hzero]
  have hrounds : height < rounds c s' + 1 := by
    have hle : (c.topLevel + 1) * 2 ≤ rounds c s' := Nat.mul_le_mul_left _ (by omega)
    omega
  have hlevels : linkLevels c key node height (rounds c s')
      { s' with next := spliced (pointed s'.next node f.succs height) node f.preds 1 } 1 f =
      .ok { s' with next := splicedNext s'.next f node height } :=
    linkLevels_spec hnode hpreds hpos hrounds
  rw [addLoop, hfind]
  simp only [ok_bind, Option.isSome_none, Bool.false_eq_true, if_false, setNexts_eq]
  rw [if_pos (hpreds 0 (by omega)), hone]
  change (do
    let s ← linkLevels c key node height (rounds c s')
      { s' with next := spliced (pointed s'.next node f.succs height) node f.preds 1 } 1 f
    return (s, true)) = _
  rw [hlevels]
  rfl

omit [LinearOrder Key] in
theorem mem_added {n : Node} (hn : n ∈ line s ins nodes) : n ∈ ins := by
  have hwaits := (List.mem_filter.mp hn).2
  simp only [decide_eq_true_eq] at hwaits
  exact hwaits.1

/-- Adding a node puts it behind the nodes of the line that are not above it. -/
theorem vqueuePrioAdd_spec (key : Key) (h : Inv c s s.added nodes)
    (hsorted : (line s s.added nodes).Pairwise (fun a b => s.priority a ≤ s.priority b))
    (hhead : node ≠ c.head) (htail : node ≠ c.tail) (hnew : node ∉ s.added) (hpos : 1 ≤ height)
    (htop : height ≤ c.topLevel + 1) :
    ∃ s' nodes' left right, vqueuePrioAdd c s node key height = .ok s' ∧
      Inv c s' s'.added nodes' ∧ s'.added = node :: s.added ∧
      s'.priority = update s.priority node key ∧
      line s s.added nodes = left ++ right ∧ line s' s'.added nodes' = left ++ node :: right ∧
      (∀ n ∈ left, s.priority n ≤ key) ∧ ∀ n ∈ right, key < s.priority n := by
  have hprepared : Inv c (prepared s node key height) s.added nodes :=
    h.prepared hhead htail hnew
  have hmore : 1 ≤ rounds c (prepared s node key height) := by
    have hle : (c.topLevel + 1) * 2 ≤ rounds c (prepared s node key height) :=
      Nat.mul_le_mul_left _ (by omega)
    omega
  obtain ⟨s', nodes', f, hsearched, hfound, hloop⟩ :=
    addLoop_spec key hprepared hhead htail hnew hpos htop hmore
  obtain ⟨hinv, hsame, houtside, hline⟩ := hsearched
  have hne (n : Node) (hn : n ∈ s.added) : n ≠ node := fun heq => hnew (heq ▸ hn)
  have hmarked : s'.marked node = false := by
    rw [hsame.marked]
    exact update_self ..
  have hold : line (prepared s node key height) s.added nodes = line s s.added nodes := by
    apply List.filter_congr
    intro n _
    by_cases heq : n = node
    · simp [heq, hnew]
    · simp [prepared, update_of_ne heq]
  have hpriority (n : Node) (hn : n ∈ s.added) : s'.priority n = s.priority n := by
    rw [hsame.priority]
    exact update_of_ne (hne n hn) ..
  have hbefore (l : Nat) (hl : l ≤ c.topLevel) := (hfound.between l hl).split
  choose! before after hsplit using hbefore
  have hadded : s'.added = node :: s.added := hsame.added
  obtain ⟨left, right, hleft, hright, hleftEq, hrightEq⟩ :=
    line_splice hsplit s.added hpos (fun l hl => hinv.not_linked hhead htail hnew hl) hmarked
      (splicedNext s'.next f node height)
  rw [hline, hold] at hleft
  have hsorted' : (line s' s.added nodes').Pairwise
      (fun a b => s'.priority a ≤ s'.priority b) := by
    rw [hline, hold]
    refine hsorted.imp_of_mem ?_
    intro a b ha hb hab
    rw [hpriority a (mem_added ha), hpriority b (mem_added hb)]
    exact hab
  have hbetween := hinv.line_between hsorted' (hfound.between 0 (Nat.zero_le _))
    (hsplit 0 (Nat.zero_le _))
  rw [← hleftEq, ← hrightEq] at hbetween
  have hmem (n : Node) (hn : n ∈ left ∨ n ∈ right) : n ∈ s.added := by
    have hin : n ∈ line s s.added nodes := by
      rw [hleft]
      exact List.mem_append.mpr hn
    exact mem_added hin
  refine ⟨{ s' with next := splicedNext s'.next f node height },
    splicedNodes nodes' before after f node height, left, right, ?_, ?_, hadded, hsame.priority,
    hleft, ?_, ?_, ?_⟩
  · have hadd : vskiplistAdd c { s with
        priority := update s.priority node key
        marked := update s.marked node false
        added := node :: s.added } key node height =
          .ok ({ s' with next := splicedNext s'.next f node height }, true) := by
      rw [vskiplistAdd, initNode, check_true htop]
      exact hloop
    rw [vqueuePrioAdd, hadd]
    rfl
  · change Inv c _ s'.added _
    have hinv' := hinv.splice hsplit hfound hhead htail hnew hpos htop ?_ ?_ hmarked ?_
    · rw [← hadded] at hinv'
      exact hinv'
    · rw [hsame.height]
      exact update_self ..
    · rw [houtside node hnew]
      exact update_self ..
    · rw [hadded, List.length_cons]
      omega
  · change line _ s'.added _ = _
    rw [← hadded] at hright
    exact hright
  · intro n hn
    rw [← hpriority n (hmem n (.inl hn))]
    exact hbetween.1 n hn
  · intro n hn
    rw [← hpriority n (hmem n (.inr hn))]
    exact hbetween.2 n hn

end Libvsync.Queue.PrioSkiplist
