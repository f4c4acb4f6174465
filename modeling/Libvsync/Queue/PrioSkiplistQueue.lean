import Libvsync.Queue.PrioSkiplistAdd

/-!
Taking the minimum, and destroying the queue. The first node of the bottom level
that is not marked is the first of the line. It is marked on all levels before
the search that unlinks it, and that search stops at no node: it goes behind all
nodes with the same priority and may leave marked ones linked. So a removed node
can be found by a later search or by `vqueue_prio_destroy`, whichever comes
first, and is counted down there.
-/

namespace Libvsync.Queue.PrioSkiplist

open Libvsync.Core Function
open Libvsync.Map.Skiplist (set2 set2_self set2_of_ne)

variable {Node Key : Type} [DecidableEq Node] {c : Config Node}
  {s s' : State Node Key} {ins : List Node} {nodes nodes' : Nat → List Node} {node : Node}

theorem getSuccLoop_marked {m : Node} {succ : Option Node} (hread : s.next m 0 = (succ, true))
    (rounds : Nat) : getSuccLoop c s (rounds + 1) (some m) = getSuccLoop c s rounds succ := by
  simp only [getSuccLoop, asserted, ok_bind, hread]

theorem getSuccLoop_unmarked {m : Node} {succ : Option Node} (hread : s.next m 0 = (succ, false))
    (rounds : Nat) :
    getSuccLoop c s (rounds + 1) (some m) = .ok (if m = c.tail then none else some m) := by
  simp only [getSuccLoop, asserted, ok_bind, hread]
  rfl

/-- The walk over the marked nodes of the bottom level. -/
theorem getSuccLoop_spec (h : Inv c s ins nodes) {before rest : List Node} {m : Node}
    {rounds : Nat} (hsplit : nodes 0 = before ++ m :: rest) (hbefore : before ≠ [])
    (hrounds : rest.length + 1 ≤ rounds) :
    getSuccLoop c s rounds (some m) =
      .ok ((m :: rest).filter (fun n => n ∈ ins ∧ s.marked n = false)).head? := by
  induction rest generalizing before m rounds with
  | nil =>
    have hchain := h.chain 0 (Nat.zero_le _)
    have hlast := hchain.last
    rw [hsplit, List.getLast?_append_cons, List.getLast?_singleton, Option.some.injEq] at hlast
    obtain ⟨rounds, rfl⟩ : ∃ k, rounds = k + 1 := ⟨rounds - 1, by simp at hrounds; omega⟩
    have hread : s.next m 0 = ((s.next m 0).1, false) := by
      rw [hlast]
      exact Prod.ext rfl (h.ends 0 (Nat.zero_le _)).2
    rw [getSuccLoop_unmarked hread]
    simp [hlast, h.fresh.2]
  | cons q rest ih =>
    have hchain := h.chain 0 (Nat.zero_le _)
    have hmem : m ∈ nodes 0 := by simp [hsplit]
    rw [hsplit] at hchain
    have hlink : (s.next m 0).1 = some q :=
      (List.isChain_append_cons_cons.mp hchain.links).2.1
    have hhead : m ≠ c.head := by
      rintro rfl
      exact hbefore hchain.before_nil
    have htail : m ≠ c.tail := by
      rintro rfl
      exact absurd hchain.after_nil (by simp)
    have hin := ((h.known 0 (Nat.zero_le _) m hmem).resolve_left hhead).resolve_left htail
    have hmark := h.mark m hin 0 (h.height m hin).1
    simp only [List.length_cons] at hrounds
    obtain ⟨rounds, rfl⟩ : ∃ k, rounds = k + 1 := ⟨rounds - 1, by omega⟩
    have hread : s.next m 0 = (some q, s.marked m) := Prod.ext hlink hmark
    cases hmarked : s.marked m with
    | true =>
      rw [hmarked] at hread
      rw [getSuccLoop_marked hread, List.filter_cons_of_neg (by simp [hmarked])]
      have hshift : nodes 0 = (before ++ [m]) ++ q :: rest := by simp [hsplit]
      exact ih hshift (by simp) (by omega)
    | false =>
      rw [hmarked] at hread
      rw [getSuccLoop_unmarked hread, List.filter_cons_of_pos (by simp [hin, hmarked])]
      simp [htail]

/-- `vskiplist_get_first` gives the first of the line. -/
theorem getFirst_spec (h : Inv c s ins nodes) :
    getFirst c s = .ok (line s ins nodes).head? := by
  have hchain := h.chain 0 (Nat.zero_le _)
  obtain ⟨m, before, rest, hsplit, hnext⟩ := hchain.split hchain.first_mem c.distinct
  rw [hsplit] at hchain
  have hnil := hchain.before_nil
  subst hnil
  have hline : line s ins nodes =
      (m :: rest).filter (fun n => n ∈ ins ∧ s.marked n = false) := by
    rw [line, hsplit, List.nil_append, List.filter_cons_of_neg (by simp [h.fresh.1])]
  have hmem : m ∈ nodes 0 := by simp [hsplit]
  have hhead : m ≠ c.head := by
    rintro rfl
    have hnodup := hchain.nodup
    simp at hnodup
  rw [getFirst, hnext]
  change (if m = c.tail then pure none
    else if (s.next m 0).2 then getSuccLoop c s (rounds c s) (s.next m 0).1
    else pure (some m)) = _
  by_cases htail : m = c.tail
  · have hshift : ([] : List Node) ++ c.head :: m :: rest = [c.head] ++ m :: rest := rfl
    rw [hshift, htail] at hchain
    rw [if_pos htail, hline, htail, hchain.after_nil]
    simp [h.fresh.2]
    rfl
  · have hin := ((h.known 0 (Nat.zero_le _) m hmem).resolve_left hhead).resolve_left htail
    have hmark := h.mark m hin 0 (h.height m hin).1
    rw [if_neg htail, hline, hmark]
    cases hmarked : s.marked m with
    | true =>
      rw [List.filter_cons_of_neg (by simp [hmarked])]
      cases rest with
      | nil =>
        have hlast : m = c.tail := by simpa using hchain.last
        exact absurd hlast htail
      | cons q rest =>
        have hlinks := (List.isChain_append_cons_cons.mp hchain.links).2.2
        have hlink : (s.next m 0).1 = some q := (List.isChain_cons_cons.mp hlinks).1
        have hlength := h.length_le (Nat.zero_le _)
        rw [hsplit] at hlength
        have hrounds : rest.length + 1 ≤ rounds c s := by
          have hle : 1 * (s.added.length + 2) ≤ rounds c s :=
            Nat.mul_le_mul_right _ (by omega)
          simp only [List.nil_append, List.length_cons] at hlength
          omega
        have hshift : nodes 0 = [c.head, m] ++ q :: rest := hsplit
        rw [hlink, if_pos rfl]
        exact getSuccLoop_spec h hshift (by simp) hrounds
    | false =>
      rw [List.filter_cons_of_pos (by simp [hin, hmarked])]
      rfl

/-- The node is marked on the levels below `k`. -/
def markedNext (next : Node → Nat → Option Node × Bool) (node : Node) (k : Nat) :
    Node → Nat → Option Node × Bool :=
  fun n l => if n = node ∧ l < k then ((next n l).1, true) else next n l

theorem markedNext_fst (next : Node → Nat → Option Node × Bool) (k : Nat) (n : Node) (l : Nat) :
    (markedNext next node k n l).1 = (next n l).1 := by
  rw [markedNext]
  split <;> rfl

theorem markLevels_eq {k : Nat} (hunmarked : ∀ l, l ≤ k → (s.next node l).2 = false) :
    markLevels s node k = ({ s with next := markedNext s.next node (k + 1) }, true) := by
  induction k generalizing s with
  | zero =>
    have hread : s.next node 0 = ((s.next node 0).1, false) :=
      Prod.ext rfl (hunmarked 0 le_rfl)
    have hnext : set2 s.next node 0 ((s.next node 0).1, true) = markedNext s.next node 1 := by
      funext n l
      by_cases hat : n = node ∧ l = 0
      · rw [hat.1, hat.2, set2_self, markedNext, if_pos ⟨rfl, by omega⟩]
      · rw [set2_of_ne _ _ (not_and_or.mp hat), markedNext, if_neg]
        exact fun hlow => hat ⟨hlow.1, by omega⟩
    rw [markLevels, markLevel, hread]
    simp only [hnext]
  | succ k ih =>
    have hread : s.next node (k + 1) = ((s.next node (k + 1)).1, false) :=
      Prod.ext rfl (hunmarked (k + 1) le_rfl)
    have hnext : markedNext (set2 s.next node (k + 1) ((s.next node (k + 1)).1, true)) node
        (k + 1) = markedNext s.next node (k + 2) := by
      funext n l
      by_cases hat : n = node ∧ l = k + 1
      · rw [hat.1, hat.2, markedNext, if_neg (fun hlow => absurd hlow.2 (by omega)), set2_self,
          markedNext, if_pos ⟨rfl, by omega⟩]
      · rw [markedNext, set2_of_ne _ _ (not_and_or.mp hat), markedNext]
        by_cases hlow : n = node ∧ l < k + 1
        · rw [if_pos hlow, if_pos ⟨hlow.1, by omega⟩]
        · rw [if_neg hlow, if_neg]
          rintro ⟨heq, hl⟩
          rcases Nat.lt_or_eq_of_le (Nat.le_of_lt_succ hl) with hl | hl
          · exact hlow ⟨heq, hl⟩
          · exact hat ⟨heq, hl⟩
    rw [markLevels, markLevel, hread]
    simp only
    rw [ih, hnext]
    intro l hl
    dsimp only
    rw [set2_of_ne _ _ (.inr (by omega))]
    exact hunmarked l (by omega)

/-- A node that is taken: chosen, and marked on all levels. -/
def taken (s : State Node Key) (node : Node) : State Node Key :=
  { s with
    marked := update s.marked node true
    next := markedNext s.next node (s.height node) }

theorem Inv.taken (h : Inv c s ins nodes) (hin : node ∈ ins) (hmarked : s.marked node = false) :
    Inv c (taken s node) ins nodes := by
  have hends (n : Node) (hn : n ∉ ins) (l : Nat) :
      markedNext s.next node (s.height node) n l = s.next n l := by
    rw [markedNext, if_neg]
    rintro ⟨rfl, -⟩
    exact hn hin
  constructor
  · intro l hl
    refine (h.chain l hl).congr ?_
    intro n _ _
    exact markedNext_fst _ _ n l
  · exact h.known
  · exact h.tall
  · intro l hl
    simp only [PrioSkiplist.taken, hends _ h.fresh.1, hends _ h.fresh.2]
    exact h.ends l hl
  · exact h.headHeight
  · exact h.fresh
  · exact h.bound
  · exact h.height
  · intro n hn l hl
    simp only [PrioSkiplist.taken] at hl ⊢
    by_cases heq : n = node
    · subst heq
      rw [update_self, markedNext, if_pos ⟨rfl, hl⟩]
    · rw [update_of_ne heq, markedNext, if_neg (fun hat => heq hat.1)]
      exact h.mark n hn l hl
  · intro n hn hunmarked l hl
    simp only [PrioSkiplist.taken] at hunmarked
    have hne : n ≠ node := by
      rintro rfl
      rw [update_self] at hunmarked
      cases hunmarked
    rw [update_of_ne hne] at hunmarked
    exact h.full n hn hunmarked l hl
  · exact h.count
  · exact h.retired

theorem line_taken (h : Inv c s ins nodes) {rest : List Node}
    (hline : line s ins nodes = node :: rest) : line (taken s node) ins nodes = rest := by
  have hnodup : (line s ins nodes).Nodup := (h.chain 0 (Nat.zero_le _)).nodup.filter _
  rw [hline, List.nodup_cons] at hnodup
  have hfilter : line (taken s node) ins nodes = (line s ins nodes).filter (fun n => n ≠ node) := by
    rw [line, line, List.filter_filter]
    apply List.filter_congr
    intro n _
    by_cases heq : n = node
    · simp [heq, taken]
    · simp [heq, taken]
  rw [hfilter, hline, List.filter_cons_of_neg (by simp), List.filter_eq_self]
  intro n hn
  simpa using fun heq : n = node => hnodup.1 (heq ▸ hn)

variable [LinearOrder Key]

/-- The first of the line is returned and leaves it. -/
theorem vqueuePrioRemoveMin_spec (h : Inv c s s.added nodes) :
    ∃ s' nodes', vqueuePrioRemoveMin c s = .ok (s', (line s s.added nodes).head?) ∧
      Inv c s' s'.added nodes' ∧ s'.added = s.added ∧ s'.priority = s.priority ∧
      line s' s'.added nodes' = (line s s.added nodes).tail := by
  have hrounds : ∃ k, rounds c s = k + 1 := by
    have hle : (c.topLevel + 1) * 2 ≤ rounds c s := Nat.mul_le_mul_left _ (by omega)
    exact ⟨rounds c s - 1, by omega⟩
  obtain ⟨k, hk⟩ := hrounds
  have hfirst := getFirst_spec h
  cases hline : line s s.added nodes with
  | nil =>
    rw [hline] at hfirst
    refine ⟨s, nodes, ?_, h, rfl, rfl, hline⟩
    rw [vqueuePrioRemoveMin, hk, findAndMarkMin, hfirst]
    rfl
  | cons node rest =>
    rw [hline] at hfirst
    have hmem : node ∈ line s s.added nodes := by simp [hline]
    have hin := mem_added hmem
    have hmarked : s.marked node = false := by
      have hwaits := (List.mem_filter.mp hmem).2
      simp only [decide_eq_true_eq] at hwaits
      exact hwaits.2
    obtain ⟨hpos, -⟩ := h.height node hin
    have htaken := h.taken hin hmarked
    have hspecific : ∀ n, some node = some n → (taken s node).marked n = true := by
      intro n hn
      cases hn
      exact update_self ..
    obtain ⟨s', f, nodes', hfind, ⟨hinv, hsame, -, hsearched⟩, -⟩ :=
      find_spec htaken (s.priority node) hspecific
    have hadded : s'.added = s.added := hsame.added
    refine ⟨s', nodes', ?_, hadded ▸ hinv, hadded, hsame.priority, ?_⟩
    · have hlevels : markLevels { s with marked := update s.marked node true } node
          (s.height node - 1) = (taken s node, true) := by
        rw [markLevels_eq]
        · rw [Nat.sub_add_cancel hpos]
          rfl
        · intro l hl
          exact (h.mark node hin l (by omega)).trans hmarked
      have hdetach : detachNode c { s with marked := update s.marked node true }
          (s.priority node) node = .ok s' := by
        have htall : 0 < s.height node := hpos
        rw [detachNode]
        dsimp only
        rw [check_true htall, ok_bind, hlevels]
        dsimp only
        rw [if_pos rfl, hfind]
        rfl
      have hmin : findAndMarkMin c (rounds c s) s =
          .ok ({ s with marked := update s.marked node true }, some node) := by
        rw [hk, findAndMarkMin, hfirst]
        simp only [ok_bind, List.head?_cons, hmarked, if_true]
        rfl
      rw [vqueuePrioRemoveMin, hmin, ok_bind]
      dsimp only
      rw [hdetach]
      rfl
    · rw [hadded, hsearched, line_taken h hline]
      rfl

section Destroy

omit [LinearOrder Key]

/-- The nodes `ns` are visited once, and destroyed at their last level. -/
structure Visited (s s' : State Node Key) (destroyed destroyed' ns : List Node) : Prop where
  next : s'.next = s.next
  added : s'.added = s.added
  height : s'.height = s.height
  count : ∀ n, s'.nonSnippedLevel n =
    if n ∈ ns then s.nonSnippedLevel n - 1 else s.nonSnippedLevel n
  mem : ∀ n, n ∈ destroyed' ↔ n ∈ destroyed ∨ n ∈ ns ∧ s.nonSnippedLevel n = 1
  nodup : destroyed.Nodup → (∀ n ∈ ns, n ∉ destroyed) → destroyed'.Nodup

variable {destroyed destroyed' : List Node}

theorem Visited.cons {s₁ s₂ : State Node Key} {destroyed₁ destroyed₂ ns : List Node}
    (h : Visited s s₁ destroyed destroyed₁ [node])
    (hrest : Visited s₁ s₂ destroyed₁ destroyed₂ ns) (hnode : node ∉ ns) :
    Visited s s₂ destroyed destroyed₂ (node :: ns) := by
  constructor
  · rw [hrest.next, h.next]
  · rw [hrest.added, h.added]
  · rw [hrest.height, h.height]
  · intro n
    rw [hrest.count, h.count]
    by_cases heq : n = node
    · subst heq
      simp [hnode]
    · simp [heq]
  · intro n
    rw [hrest.mem, h.mem, h.count]
    by_cases heq : n = node
    · subst heq
      simp [hnode]
    · simp [heq]
  · intro hnodup hout
    apply hrest.nodup
    · apply h.nodup hnodup
      intro n hn
      exact hout n (by simp at hn; simp [hn])
    · intro n hn hin
      have hne : n ≠ node := fun heq => hnode (heq ▸ hn)
      rcases (h.mem n).mp hin with hin | ⟨hin, -⟩
      · exact hout n (by simp [hn]) hin
      · exact hne (by simpa using hin)

theorem destroyNode_spec (destroyed : List Node) (hpos : 1 ≤ s.nonSnippedLevel node)
    (hfit : s.nonSnippedLevel node ≤ c.topLevel + 1) :
    ∃ s' destroyed', destroyNode c s destroyed node = .ok (s', destroyed') ∧
      Visited s s' destroyed destroyed' [node] := by
  have hfits := c.fits
  have hdec : wsub 64 (s.nonSnippedLevel node) 1 = s.nonSnippedLevel node - 1 :=
    wsub_one hpos (by omega)
  have hcount (n : Node) : update s.nonSnippedLevel node (s.nonSnippedLevel node - 1) n =
      if n ∈ [node] then s.nonSnippedLevel n - 1 else s.nonSnippedLevel n := by
    by_cases heq : n = node
    · subst heq
      simp
    · simp [heq]
  rw [destroyNode, hdec, check_true (by omega), ok_bind]
  by_cases hlast : s.nonSnippedLevel node - 1 = 0
  · rw [if_pos hlast]
    refine ⟨_, _, rfl, rfl, rfl, rfl, hcount, ?_, ?_⟩
    · intro n
      by_cases heq : n = node
      · subst heq
        have hone : s.nonSnippedLevel n = 1 := by omega
        simp [hone]
      · simp [heq]
    · intro hnodup hout
      exact List.nodup_cons.mpr ⟨hout node (by simp), hnodup⟩
  · rw [if_neg hlast]
    refine ⟨_, _, rfl, rfl, rfl, rfl, hcount, ?_, fun hnodup _ => hnodup⟩
    intro n
    by_cases heq : n = node
    · subst heq
      have hone : s.nonSnippedLevel n ≠ 1 := by omega
      simp [hone]
    · simp [heq]

/-- The nodes of a level from `curr` to the one before tail are visited. -/
theorem visitLoop_spec (destroyed : List Node) {l rounds : Nat} {curr : Node} {ns : List Node}
    (hlinks : (curr :: ns ++ [c.tail]).IsChain (fun a b => (s.next a l).1 = some b))
    (hnodup : (curr :: ns ++ [c.tail]).Nodup)
    (hcount : ∀ n ∈ curr :: ns, 1 ≤ s.nonSnippedLevel n ∧ s.nonSnippedLevel n ≤ c.topLevel + 1)
    (hrounds : ns.length + 1 ≤ rounds) :
    ∃ s' destroyed', visitLoop c l rounds s destroyed curr = .ok (s', destroyed') ∧
      Visited s s' destroyed destroyed' (curr :: ns) := by
  induction ns generalizing s destroyed curr rounds with
  | nil =>
    obtain ⟨rounds, rfl⟩ : ∃ k, rounds = k + 1 := ⟨rounds - 1, by omega⟩
    obtain ⟨hpos, hfit⟩ := hcount curr (by simp)
    obtain ⟨s₁, destroyed₁, hdestroy, hvisited⟩ := destroyNode_spec destroyed hpos hfit
    have hlink : (s.next curr l).1 = some c.tail := (List.isChain_cons_cons.mp hlinks).1
    refine ⟨s₁, destroyed₁, ?_, hvisited⟩
    rw [visitLoop]
    dsimp only
    rw [hdestroy, hlink]
    change (if c.tail = c.tail then pure (s₁, destroyed₁) else _) = _
    rw [if_pos rfl]
    rfl
  | cons q ns ih =>
    obtain ⟨rounds, rfl⟩ : ∃ k, rounds = k + 1 := ⟨rounds - 1, by omega⟩
    obtain ⟨hpos, hfit⟩ := hcount curr (by simp)
    obtain ⟨s₁, destroyed₁, hdestroy, hvisited⟩ := destroyNode_spec destroyed hpos hfit
    obtain ⟨hlink, hlinks⟩ := List.isChain_cons_cons.mp hlinks
    obtain ⟨hcurr, hnodup⟩ := List.nodup_cons.mp hnodup
    have htail : q ≠ c.tail := by
      rintro rfl
      simp at hnodup
    have hout : curr ∉ q :: ns := fun hin => hcurr (List.mem_append_left _ hin)
    have hcount₁ : ∀ n ∈ q :: ns,
        1 ≤ s₁.nonSnippedLevel n ∧ s₁.nonSnippedLevel n ≤ c.topLevel + 1 := by
      intro n hn
      have hne : n ≠ curr := fun heq => hout (heq ▸ hn)
      rw [hvisited.count, if_neg (by simpa using hne)]
      exact hcount n (List.mem_cons_of_mem _ hn)
    simp only [List.length_cons] at hrounds
    rw [← hvisited.next] at hlinks
    have hmore : ns.length + 1 ≤ rounds := by omega
    obtain ⟨s₂, destroyed₂, hrest, hvisited₂⟩ := ih destroyed₁ hlinks hnodup hcount₁ hmore
    refine ⟨s₂, destroyed₂, ?_, hvisited.cons hvisited₂ hout⟩
    rw [visitLoop]
    dsimp only
    rw [hdestroy, hlink]
    change (if q = c.tail then pure (s₁, destroyed₁) else visitLoop c l rounds s₁
      destroyed₁ q) = _
    rw [if_neg htail]
    exact hrest

/-- The number of levels below `k` that a node is linked on. -/
def linksBelow (nodes : Nat → List Node) (k : Nat) (n : Node) : Nat :=
  ((Finset.range k).filter (fun l => n ∈ nodes l)).card

theorem linksBelow_succ (nodes : Nat → List Node) (k : Nat) (n : Node) :
    linksBelow nodes (k + 1) n = linksBelow nodes k n + if n ∈ nodes k then 1 else 0 := by
  rw [linksBelow, Finset.range_add_one, Finset.filter_insert]
  split
  · rw [Finset.card_insert_of_notMem (by simp)]
    rfl
  · rfl

theorem linksBelow_le (nodes : Nat → List Node) (k : Nat) (n : Node) :
    linksBelow nodes k n ≤ k := by
  have hle := Finset.card_filter_le (Finset.range k) (fun l => n ∈ nodes l)
  rwa [Finset.card_range] at hle

/-- The levels from `k` up are visited: the nodes that are linked on none of the
others are destroyed. -/
structure Down (c : Config Node) (s : State Node Key) (ins : List Node)
    (nodes : Nat → List Node) (k : Nat) (s' : State Node Key) (destroyed : List Node) :
    Prop where
  next : s'.next = s.next
  added : s'.added = s.added
  height : s'.height = s.height
  count : ∀ n ∈ ins, s'.nonSnippedLevel n = linksBelow nodes k n
  nodup : destroyed.Nodup
  mem : ∀ n, n ∈ destroyed ↔ n ∈ ins ∧ linksBelow nodes k n = 0 ∧ linkCount c nodes n ≠ 0

theorem visitLevel_spec {k : Nat} (h : Inv c s ins nodes) (hk : k ≤ c.topLevel)
    (hdown : Down c s ins nodes (k + 1) s' destroyed) :
    ∃ s'' destroyed'', visitLevel c s' destroyed k = .ok (s'', destroyed'') ∧
      Down c s ins nodes k s'' destroyed'' := by
  have hchain := h.chain k hk
  have hlength := h.length_le hk
  obtain ⟨curr, before, rest, hsplit, hnext⟩ := hchain.split hchain.first_mem c.distinct
  rw [hsplit] at hchain
  have hnil := hchain.before_nil
  subst hnil
  obtain ⟨inner, hinner⟩ : ∃ inner, curr :: rest = inner ++ [c.tail] := by
    have hlast := hchain.last
    rw [List.getLast?_append_cons, List.getLast?_cons_cons] at hlast
    exact List.getLast?_eq_some_iff.mp hlast
  have hnodup := (List.nodup_cons.mp hchain.nodup).2
  have hheadOut := (List.nodup_cons.mp hchain.nodup).1
  rw [hinner] at hnodup hheadOut
  have hmem (n : Node) (hn : n ∈ ins) : n ∈ nodes k ↔ n ∈ inner := by
    have hne : n ≠ c.head := fun heq => h.fresh.1 (heq ▸ hn)
    have hne' : n ≠ c.tail := fun heq => h.fresh.2 (heq ▸ hn)
    rw [hsplit, List.nil_append, hinner]
    simp [hne, hne']
  have hins (n : Node) (hn : n ∈ inner) : n ∈ ins := by
    have hin : n ∈ nodes k := by
      rw [hsplit, List.nil_append, hinner]
      simp [hn]
    refine ((h.known k hk n hin).resolve_left ?_).resolve_left ?_
    · rintro rfl
      exact hheadOut (by simp [hn])
    · rintro rfl
      exact (List.nodup_append'.mp hnodup).2.2 hn (by simp)
  have hcount (n : Node) (hn : n ∈ inner) :
      s'.nonSnippedLevel n = linksBelow nodes k n + 1 := by
    rw [hdown.count n (hins n hn), linksBelow_succ, if_pos ((hmem n (hins n hn)).mpr hn)]
  have hafter {s'' : State Node Key} {destroyed'' : List Node}
      (hvisited : Visited s' s'' destroyed destroyed'' inner) :
      Down c s ins nodes k s'' destroyed'' := by
    constructor
    · rw [hvisited.next, hdown.next]
    · rw [hvisited.added, hdown.added]
    · rw [hvisited.height, hdown.height]
    · intro n hn
      rw [hvisited.count]
      split
      · rename_i hin
        rw [hcount n hin]
        rfl
      · rename_i hout
        rw [hdown.count n hn, linksBelow_succ, if_neg (fun hin => hout ((hmem n hn).mp hin))]
        rfl
    · apply hvisited.nodup hdown.nodup
      intro n hn hin
      have hzero := ((hdown.mem n).mp hin).2.1
      rw [← hdown.count n (hins n hn), hcount n hn] at hzero
      omega
    · intro n
      rw [hvisited.mem, hdown.mem, linksBelow_succ]
      by_cases hn : n ∈ ins
      · by_cases hin : n ∈ inner
        · have hlinked := (hmem n hn).mpr hin
          have hcounted : linkCount c nodes n ≠ 0 := by
            rw [Ne, linkCount_eq_zero]
            exact fun hnone => hnone k hk hlinked
          rw [if_pos hlinked, hcount n hin]
          simp [hn, hin, hcounted]
        · rw [if_neg (fun hlinked => hin ((hmem n hn).mp hlinked))]
          simp [hin]
      · have hout : n ∉ inner := fun hin => hn (hins n hin)
        simp [hn, hout]
  have hhead : k < s'.height c.head := by
    rw [hdown.height, h.headHeight]
    omega
  rw [visitLevel, check_true hhead, ok_bind, hdown.next, hnext]
  change ∃ s'' destroyed'', (if curr = c.tail then pure (s', destroyed)
    else visitLoop c k (rounds c s') s' destroyed curr) = _ ∧ _
  cases inner with
  | nil =>
    have htail : curr = c.tail := by simpa using (List.cons.inj hinner).1
    rw [if_pos htail]
    exact ⟨s', destroyed, rfl, hafter ⟨rfl, rfl, rfl, by simp, by simp, fun hn _ => hn⟩⟩
  | cons m ns =>
    have hcurr : curr = m := (List.cons.inj hinner).1
    have hrest : rest = ns ++ [c.tail] := (List.cons.inj hinner).2
    subst hcurr hrest
    have htail : curr ≠ c.tail := by
      rintro rfl
      simp at hnodup
    rw [if_neg htail]
    have hlinks : (curr :: ns ++ [c.tail]).IsChain
        (fun a b => (s'.next a k).1 = some b) := by
      rw [hdown.next]
      exact (List.isChain_append_cons_cons.mp hchain.links).2.2
    have hfit (n : Node) (hn : n ∈ curr :: ns) :
        1 ≤ s'.nonSnippedLevel n ∧ s'.nonSnippedLevel n ≤ c.topLevel + 1 := by
      have hle := linksBelow_le nodes k n
      rw [hcount n hn]
      omega
    have hrounds : ns.length + 1 ≤ rounds c s' := by
      have hle : 1 * (s'.added.length + 2) ≤ rounds c s' :=
        Nat.mul_le_mul_right _ (by omega)
      rw [hdown.added] at hle
      rw [hsplit] at hlength
      simp only [List.nil_append, List.length_cons, List.length_append] at hlength
      omega
    obtain ⟨s'', destroyed'', hrun, hvisited⟩ :=
      visitLoop_spec destroyed hlinks hnodup hfit hrounds
    exact ⟨s'', destroyed'', hrun, hafter hvisited⟩

theorem visitLevels_spec {k : Nat} (h : Inv c s ins nodes) (hk : k ≤ c.topLevel + 1)
    (hdown : Down c s ins nodes k s' destroyed) :
    ∃ s'' destroyed'', visitLevels c k s' destroyed = .ok (s'', destroyed'') ∧
      Down c s ins nodes 0 s'' destroyed'' := by
  induction k generalizing s' destroyed with
  | zero => exact ⟨s', destroyed, rfl, hdown⟩
  | succ k ih =>
    obtain ⟨s₁, destroyed₁, hlevel, hdown₁⟩ := visitLevel_spec h (by omega) hdown
    obtain ⟨s₂, destroyed₂, hrest, hdown₂⟩ := ih (by omega) hdown₁
    refine ⟨s₂, destroyed₂, ?_, hdown₂⟩
    rw [visitLevels, hlevel]
    exact hrest

/-- Exactly the nodes that are not retired are destroyed, each once. -/
theorem vqueuePrioDestroy_spec (h : Inv c s ins nodes) :
    ∃ s' destroyed, vqueuePrioDestroy c s = .ok (s', destroyed) ∧ destroyed.Nodup ∧
      ∀ n, n ∈ destroyed ↔ n ∈ ins ∧ n ∉ s.retired := by
  have hdown : Down c s ins nodes (c.topLevel + 1) s [] := by
    refine ⟨rfl, rfl, rfl, h.count, List.nodup_nil, ?_⟩
    intro n
    simp only [List.not_mem_nil, false_iff]
    rintro ⟨-, hzero, hne⟩
    exact hne hzero
  obtain ⟨s', destroyed, hrun, hfinal⟩ := visitLevels_spec h le_rfl hdown
  refine ⟨s', destroyed, hrun, hfinal.nodup, ?_⟩
  intro n
  rw [hfinal.mem, h.retired.2 n, ← linkCount_eq_zero]
  have hzero : linksBelow nodes 0 n = 0 := by
    have hle := linksBelow_le nodes 0 n
    omega
  constructor
  · rintro ⟨hin, -, hne⟩
    exact ⟨hin, fun hout => hne hout.2⟩
  · rintro ⟨hin, hout⟩
    exact ⟨hin, hzero, fun hnone => hout ⟨hin, hnone⟩⟩

end Destroy

omit [LinearOrder Key] in
theorem init_inv (memory : State Node Key) :
    Inv c (vqueuePrioInit c memory) [] (fun _ => [c.head, c.tail]) := by
  constructor
  · intro l hl
    refine ⟨?_, rfl, rfl, ?_⟩
    · simp [vqueuePrioInit]
    · simp [c.distinct]
  · intro l hl n hn
    rcases List.mem_cons.mp hn with rfl | hn
    · exact .inl rfl
    · exact .inr (.inl (List.mem_singleton.mp hn))
  · intro l hl n hn
    have hends : n = c.head ∨ n = c.tail := by simpa using hn
    simp only [vqueuePrioInit, if_pos hends]
    omega
  · intro l hl
    simp [vqueuePrioInit, c.distinct.symm]
  · simp [vqueuePrioInit]
  · simp
  · simp [vqueuePrioInit]
  · simp
  · simp
  · simp
  · simp
  · simp [vqueuePrioInit]

/-- The queue, with all nodes that were ever added. -/
def ledgerSpec (t : List (Node × Key) × List Node) (call : Call Node Key) (r : Option Node)
    (t' : List (Node × Key) × List Node) : Prop :=
  queueSpec t.1 call r t'.1 ∧
    t'.2 = match call with
      | .add node _ _ => node :: t.2
      | .removeMin => t.2

/-- The line is the queue, stably sorted. -/
def Queued (c : Config Node) (s : State Node Key) (t : List (Node × Key) × List Node) : Prop :=
  ∃ nodes, Inv c s s.added nodes ∧ s.added = t.2 ∧
    StableSort Prod.snd t.1 ((line s s.added nodes).map (fun n => (n, s.priority n)))

variable {t : List (Node × Key) × List Node}

theorem Queued.call {call : Call Node Key} (h : Queued c s t) (hallowed : Allowed c s call) :
    ∃ s' r t', object c s call = .ok (s', r) ∧ ledgerSpec t call r t' ∧ Queued c s' t' := by
  obtain ⟨nodes, hinv, hadded, hsort⟩ := h
  cases call with
  | add node priority height =>
    obtain ⟨hhead, htail, hnew, hpos, htop⟩ := hallowed
    have hsorted : (line s s.added nodes).Pairwise
        (fun a b => s.priority a ≤ s.priority b) := by
      have hpairs := hsort.sorted
      rwa [List.pairwise_map] at hpairs
    obtain ⟨s', nodes', left, right, hrun, hinv', hadded', hpriority, hline, hline', hleft,
      hright⟩ := vqueuePrioAdd_spec priority hinv hsorted hhead htail hnew hpos htop
    have hsame (ns : List Node) (hns : ∀ n ∈ ns, n ∈ line s s.added nodes) :
        ns.map (fun n => (n, s'.priority n)) = ns.map (fun n => (n, s.priority n)) := by
      apply List.map_congr_left
      intro n hn
      have hne : n ≠ node := fun heq => hnew (heq ▸ mem_added (hns n hn))
      rw [hpriority, update_of_ne hne]
    refine ⟨s', none, (t.1 ++ [(node, priority)], node :: t.2), ?_, ⟨⟨rfl, rfl⟩, rfl⟩, nodes',
      hinv', by rw [hadded', hadded], ?_⟩
    · change (vqueuePrioAdd c s node priority height >>= fun s => pure (s, none)) = _
      rw [hrun]
      rfl
    · rw [hline', List.map_append, List.map_cons, hpriority, update_self, ← hpriority,
        hsame left (fun n hn => by simp [hline, hn]),
        hsame right (fun n hn => by simp [hline, hn])]
      rw [hline, List.map_append] at hsort
      refine hsort.insert ?_ ?_
      · intro e he
        obtain ⟨n, hn, rfl⟩ := List.mem_map.mp he
        exact hleft n hn
      · intro e he
        obtain ⟨n, hn, rfl⟩ := List.mem_map.mp he
        exact hright n hn
  | removeMin =>
    obtain ⟨s', nodes', hrun, hinv', hadded', hpriority, hline⟩ := vqueuePrioRemoveMin_spec hinv
    cases hfirst : line s s.added nodes with
    | nil =>
      rw [hfirst] at hrun hline hsort
      have hnone : t.1 = [] := by
        apply List.eq_nil_iff_forall_not_mem.mpr
        intro e he
        simpa using (hsort.mem_iff e).mpr he
      refine ⟨s', none, t, hrun, ⟨⟨hnone, rfl⟩, rfl⟩, nodes', hinv', by rw [hadded', hadded],
        ?_⟩
      rw [hline, hnone]
      exact StableSort.nil
    | cons node rest =>
      rw [hfirst] at hrun hline hsort
      obtain ⟨before, after, hqueue, hbefore, hafter, hsort'⟩ := hsort.first
      refine ⟨s', some node, (before ++ after, t.2), hrun, ⟨⟨before, _, after, hqueue, hbefore,
        hafter, rfl⟩, rfl⟩, nodes', hinv', by rw [hadded', hadded], ?_⟩
      rw [hline, hpriority]
      exact hsort'

def Adds (n : Node) (calls : List (Call Node Key)) : Prop :=
  ∃ priority height, Call.add n priority height ∈ calls

variable {calls : List (Call Node Key)}

section

omit [DecidableEq Node] [LinearOrder Key]

theorem adds_add {n : Node} {priority : Key} {height : Nat} :
    Adds n (.add node priority height :: calls) ↔ n = node ∨ Adds n calls := by
  constructor
  · rintro ⟨p, k, hmem⟩
    rcases List.mem_cons.mp hmem with heq | hmem
    · exact .inl (Call.add.inj heq).1
    · exact .inr ⟨p, k, hmem⟩
  · rintro (rfl | ⟨p, k, hmem⟩)
    · exact ⟨priority, height, by simp⟩
    · exact ⟨p, k, List.mem_cons_of_mem _ hmem⟩

theorem adds_removeMin {n : Node} : Adds n (.removeMin :: calls) ↔ Adds n calls := by
  simp [Adds]

end

omit [DecidableEq Node] in
/-- What is added is returned later or still in the queue. -/
theorem ledger_run {t' : List (Node × Key) × List Node} {results : List (Option Node)}
    (h : SpecRun ledgerSpec t calls results t') :
    SpecRun queueSpec t.1 calls results t'.1 ∧ (∀ n, n ∈ t'.2 ↔ n ∈ t.2 ∨ Adds n calls) ∧
      ∀ n, (n ∈ t.1.map Prod.fst ∨ Adds n calls) →
        n ∈ t'.1.map Prod.fst ∨ some n ∈ results := by
  induction h with
  | nil t => exact ⟨.nil _, by simp [Adds], by simp [Adds]⟩
  | @cons t t₁ t' call r calls results hspec _ ih =>
    obtain ⟨hqueue, hadded, hleft⟩ := ih
    refine ⟨.cons hspec.1 hqueue, ?_, ?_⟩
    · intro n
      rw [hadded, hspec.2]
      cases call with
      | add node priority height => rw [adds_add, List.mem_cons, or_assoc, or_left_comm]
      | removeMin => rw [adds_removeMin]
    · intro n hn
      suffices hsuff : (n ∈ t₁.1.map Prod.fst ∨ Adds n calls) ∨ r = some n by
        rcases hsuff with hin | rfl
        · exact (hleft n hin).imp_right (List.mem_cons_of_mem _)
        · exact .inr (by simp)
      cases call with
      | add node priority height =>
        refine .inl ?_
        rw [adds_add] at hn
        rw [hspec.1.2, List.map_append, List.mem_append, List.map_singleton,
          List.mem_singleton, or_assoc]
        exact hn
      | removeMin =>
        rw [adds_removeMin] at hn
        cases r with
        | none =>
          rw [hspec.1.2]
          exact .inl hn
        | some node =>
          obtain ⟨before, priority, after, hold, -, -, hnew⟩ := hspec.1
          rw [hnew]
          rw [hold] at hn
          simp only [List.map_append, List.map_cons, List.mem_append, List.mem_cons,
            Option.some.injEq] at hn ⊢
          rcases hn with (hn | rfl | hn) | hn
          · exact .inl (.inl (.inl hn))
          · exact .inr rfl
          · exact .inl (.inl (.inr hn))
          · exact .inl (.inr hn)

theorem Queued.retired (h : Queued c s t) :
    s.retired.Nodup ∧ (∀ n ∈ s.retired, n ∈ t.2 ∧ n ∉ t.1.map Prod.fst) ∧
      ∃ s' destroyed, vqueuePrioDestroy c s = .ok (s', destroyed) ∧ destroyed.Nodup ∧
        ∀ n, n ∈ destroyed ↔ n ∈ t.2 ∧ n ∉ s.retired := by
  obtain ⟨nodes, hinv, hadded, hsort⟩ := h
  obtain ⟨s', destroyed, hrun, hnodup, hmem⟩ := vqueuePrioDestroy_spec hinv
  refine ⟨hinv.retired.1, ?_, s', destroyed, hrun, hnodup, hadded ▸ hmem⟩
  intro n hn
  obtain ⟨hin, hout⟩ := (hinv.retired.2 n).mp hn
  refine ⟨hadded ▸ hin, ?_⟩
  intro hqueue
  obtain ⟨e, he, rfl⟩ := List.mem_map.mp hqueue
  obtain ⟨m, hm, rfl⟩ := List.mem_map.mp ((hsort.mem_iff e).mpr he)
  exact hout 0 (Nat.zero_le _) (List.mem_filter.mp hm).1

/-- The queue is a stable priority queue: every run of allowed calls returns
(so no assertion fails), with the results of the specification. A node is retired
at most once and only after a call returned it, and `vqueue_prio_destroy` destroys
exactly the other nodes that were added, each once. -/
theorem vqueue_prio_skiplist_stable (c : Config Node) (memory : State Node Key)
    (calls : List (Call Node Key))
    (hallowed : Object.Meets (object c) (Allowed c) (vqueuePrioInit c memory) calls) :
    ∃ final results queue,
      Object.run (object c) (vqueuePrioInit c memory) calls = .ok (final, results) ∧
      SpecRun queueSpec [] calls results queue ∧
      final.retired.Nodup ∧ (∀ n ∈ final.retired, some n ∈ results) ∧
      ∃ s' destroyed, vqueuePrioDestroy c final = .ok (s', destroyed) ∧ destroyed.Nodup ∧
        ∀ n, n ∈ destroyed ↔ Adds n calls ∧ n ∉ final.retired := by
  have hinit : Queued c (vqueuePrioInit c memory) ([], []) := by
    refine ⟨fun _ => [c.head, c.tail], init_inv memory, rfl, ?_⟩
    have hline : line (vqueuePrioInit c memory) (vqueuePrioInit c memory).added
        (fun _ => [c.head, c.tail]) = [] := by
      simp [line, vqueuePrioInit]
    rw [hline]
    exact StableSort.nil
  have hstep (s : State Node Key) (t : List (Node × Key) × List Node) (call : Call Node Key)
      (h : Queued c s t) (hok : Allowed c s call) := h.call hok
  obtain ⟨final, results, t, hrun, hspec, hqueued⟩ := Object.refines hstep hinit hallowed
  obtain ⟨hqueue, hadded, hleft⟩ := ledger_run hspec
  obtain ⟨hnodup, hretired, s', destroyed, hdestroy, honce, hmem⟩ := hqueued.retired
  have hcalls (n : Node) : n ∈ t.2 ↔ Adds n calls := by simp [hadded]
  refine ⟨final, results, t.1, hrun, hqueue, hnodup, ?_, s', destroyed, hdestroy, honce, ?_⟩
  · intro n hn
    obtain ⟨hin, hout⟩ := hretired n hn
    exact (hleft n (.inr ((hcalls n).mp hin))).resolve_left hout
  · intro n
    rw [hmem, hcalls]

theorem twoLevels_fits : 1 + 1 ≤ 255 := by decide

/-- Two levels. -/
def twoLevels : Config Nat where
  head := 0
  tail := 1
  distinct := Nat.zero_ne_one
  topLevel := 1
  fits := twoLevels_fits

/-- Node 2 stays linked behind head when it is removed: the search enters the
bottom level from node 3, which has the same priority. -/
def removeBehind : List (Call Nat Nat) := [.add 2 5 1, .add 3 5 2, .removeMin]

def blank : State Nat Nat where
  next _ _ := (none, false)
  height _ := 0
  nonSnippedLevel _ := 0
  priority _ := 0
  marked _ := false
  retired := []
  added := []

theorem vqueue_prio_skiplist_stable_behind :
    Object.Meets (object twoLevels) (Allowed twoLevels) (vqueuePrioInit twoLevels blank)
      removeBehind ∧
    ∃ final queue,
      Object.run (object twoLevels) (vqueuePrioInit twoLevels blank) removeBehind =
        .ok (final, [none, none, some 2]) ∧
      SpecRun queueSpec [] removeBehind [none, none, some 2] queue ∧ final.retired = [] ∧
      ∃ s' destroyed, vqueuePrioDestroy twoLevels final = .ok (s', destroyed) ∧
        ∀ n, n ∈ destroyed ↔ n = 2 ∨ n = 3 := by
  have hallowed : Object.Meets (object twoLevels) (Allowed twoLevels)
      (vqueuePrioInit twoLevels blank) removeBehind := by
    refine ⟨⟨by decide, by decide, ?_, by decide, by decide⟩,
      ⟨by decide, by decide, ?_, by decide, by decide⟩, trivial, trivial⟩
    · decide
    · decide +kernel
  refine ⟨hallowed, ?_⟩
  obtain ⟨final, results, queue, hrun, hspec, -, -, s', destroyed, hdestroy, -, hmem⟩ :=
    vqueue_prio_skiplist_stable twoLevels blank removeBehind hallowed
  have hcode : (Object.run (object twoLevels) (vqueuePrioInit twoLevels blank)
      removeBehind).toOption.map (fun e => (e.1.retired, e.2)) =
      some ([], [none, none, some 2]) := by
    decide +kernel
  rw [hrun] at hcode
  obtain ⟨hretired, hresults⟩ := Prod.mk.inj (Option.some.inj hcode)
  subst hresults
  refine ⟨final, queue, hrun, hspec, hretired, s', destroyed, hdestroy, ?_⟩
  intro n
  rw [hmem, hretired, removeBehind, adds_add, adds_add, adds_removeMin]
  simp [Adds]

end Libvsync.Queue.PrioSkiplist
