import Libvsync.Map.SkiplistHeap
import Libvsync.Queue.PrioSkiplist

/-!
The levels of the skiplist and the search through them. Every level is a chain
from head to tail. A node that is not marked is linked on all of its levels; a
marked one may have been left behind on some of them, and the number of those is
`non_snipped_level`. A search unlinks the marked nodes that it meets and keeps
the others. Only the bottom level has to be in order.
-/

namespace Libvsync.Queue.PrioSkiplist

open Libvsync.Core Function
open Libvsync.Map.Skiplist (set2 set2_self set2_of_ne)

variable {Node Key : Type} [DecidableEq Node] [LinearOrder Key] {c : Config Node}

/-- The number of levels that a node is linked on. -/
def linkCount (c : Config Node) (nodes : Nat → List Node) (n : Node) : Nat :=
  ((Finset.range (c.topLevel + 1)).filter (fun l => n ∈ nodes l)).card

/-- The levels, and the nodes `ins` that have been put in. -/
structure Inv (c : Config Node) (s : State Node Key) (ins : List Node)
    (nodes : Nat → List Node) : Prop where
  chain : ∀ l, l ≤ c.topLevel → Chain (fun n => (s.next n l).1) c.head c.tail (nodes l)
  known : ∀ l, l ≤ c.topLevel → ∀ n ∈ nodes l, n = c.head ∨ n = c.tail ∨ n ∈ ins
  tall : ∀ l, l ≤ c.topLevel → ∀ n ∈ nodes l, l < s.height n
  ends : ∀ l, l ≤ c.topLevel → (s.next c.head l).2 = false ∧ (s.next c.tail l).2 = false
  headHeight : s.height c.head = c.topLevel + 1
  fresh : c.head ∉ ins ∧ c.tail ∉ ins
  bound : ins.length ≤ s.added.length
  height : ∀ n ∈ ins, 1 ≤ s.height n ∧ s.height n ≤ c.topLevel + 1
  mark : ∀ n ∈ ins, ∀ l, l < s.height n → (s.next n l).2 = s.marked n
  full : ∀ n ∈ ins, s.marked n = false → ∀ l, l < s.height n → n ∈ nodes l
  count : ∀ n ∈ ins, s.nonSnippedLevel n = linkCount c nodes n
  retired : s.retired.Nodup ∧
    ∀ n, n ∈ s.retired ↔ n ∈ ins ∧ ∀ l, l ≤ c.topLevel → n ∉ nodes l

variable {s s' : State Node Key} {ins : List Node} {nodes nodes' : Nat → List Node} {key : Key}

omit [LinearOrder Key] in
theorem Inv.length_le (h : Inv c s ins nodes) {l : Nat} (hl : l ≤ c.topLevel) :
    (nodes l).length ≤ s.added.length + 2 := by
  have hsub : nodes l ⊆ c.head :: c.tail :: ins := by
    intro n hn
    simpa using h.known l hl n hn
  have hle := ((h.chain l hl).nodup.subperm hsub).length_le
  have hbound := h.bound
  simp only [List.length_cons] at hle
  omega

/-- The nodes in the order of the bottom level that are not marked. -/
def line (s : State Node Key) (ins : List Node) (nodes : Nat → List Node) : List Node :=
  (nodes 0).filter (fun n => n ∈ ins ∧ s.marked n = false)

/-- A node that a search for `key` may stand on. -/
def Left (c : Config Node) (s : State Node Key) (ins : List Node) (key : Key) (n : Node) : Prop :=
  n = c.head ∨ n ∈ ins ∧ s.marked n = false ∧ s.priority n ≤ key

/-- A node that ends a search for `key` on a level. -/
def Right (c : Config Node) (s : State Node Key) (ins : List Node) (key : Key) (n : Node) : Prop :=
  n = c.tail ∨ n ∈ ins ∧ s.marked n = false ∧ key < s.priority n

/-- Two neighbours of a level that the key belongs between. -/
structure Between (c : Config Node) (s : State Node Key) (ins : List Node)
    (nodes : Nat → List Node) (key : Key) (l : Nat) (p q : Node) : Prop where
  split : ∃ before after, nodes l = before ++ p :: q :: after
  left : Left c s ins key p
  right : Right c s ins key q

/-- Searches change neither the nodes that are in nor their priorities. -/
structure Same (s s' : State Node Key) : Prop where
  added : s'.added = s.added
  priority : s'.priority = s.priority
  marked : s'.marked = s.marked
  height : s'.height = s.height

section

omit [DecidableEq Node] [LinearOrder Key]

theorem Same.refl (s : State Node Key) : Same s s := ⟨rfl, rfl, rfl, rfl⟩

theorem Same.trans {s₁ s₂ s₃ : State Node Key} (h : Same s₁ s₂) (h' : Same s₂ s₃) : Same s₁ s₃ :=
  ⟨h'.added.trans h.added, h'.priority.trans h.priority, h'.marked.trans h.marked,
    h'.height.trans h.height⟩

end

section

omit [DecidableEq Node]

theorem Same.left (h : Same s s') {n : Node} (hn : Left c s ins key n) : Left c s' ins key n := by
  rw [Left, h.marked, h.priority]
  exact hn

theorem Same.right (h : Same s s') {n : Node} (hn : Right c s ins key n) :
    Right c s' ins key n := by
  rw [Right, h.marked, h.priority]
  exact hn

end

omit [LinearOrder Key] in
theorem Same.line (h : Same s s') : line s' ins nodes = line s ins nodes := by
  rw [PrioSkiplist.line, h.marked]
  rfl

section Nodes

variable (h : Inv c s ins nodes) {l : Nat} (hl : l ≤ c.topLevel) {n : Node}

include h hl

omit [LinearOrder Key] in
/-- A marked node is one that was put in. -/
theorem Inv.of_mark (hn : n ∈ nodes l) (hmark : (s.next n l).2 = true) :
    n ∈ ins ∧ s.marked n = true := by
  rcases h.known l hl n hn with rfl | rfl | hin
  · rw [(h.ends l hl).1] at hmark
    cases hmark
  · rw [(h.ends l hl).2] at hmark
    cases hmark
  · exact ⟨hin, (h.mark n hin l (h.tall l hl n hn)).symm.trans hmark⟩

/-- A node of a search is not marked and is linked on all lower levels. -/
theorem Inv.of_left (hleft : Left c s ins key n) (hn : l < s.height n) :
    n ∈ nodes l ∧ (s.next n l).2 = false ∧ n ≠ c.tail := by
  rcases hleft with rfl | ⟨hin, hmark, -⟩
  · exact ⟨(h.chain l hl).first_mem, (h.ends l hl).1, c.distinct⟩
  · refine ⟨h.full n hin hmark l hn, (h.mark n hin l hn).trans hmark, ?_⟩
    rintro rfl
    exact h.fresh.2 hin

end Nodes

section

omit [LinearOrder Key]

theorem linkCount_snip {before after : List Node} {pred curr q : Node} {level : Nat}
    (hlevel : level ≤ c.topLevel) (hnodes : nodes level = before ++ pred :: curr :: q :: after)
    (hnodup : (nodes level).Nodup) (n : Node) :
    linkCount c (update nodes level (before ++ pred :: q :: after)) n =
      if n = curr then linkCount c nodes n - 1 else linkCount c nodes n := by
  have hperm : (before ++ pred :: curr :: q :: after).Perm
      (curr :: (before ++ pred :: q :: after)) := by
    have hmiddle : (before ++ [pred] ++ curr :: (q :: after)).Perm
        (curr :: (before ++ [pred] ++ (q :: after))) := List.perm_middle
    simpa using hmiddle
  rw [hnodes, hperm.nodup_iff, List.nodup_cons] at hnodup
  split
  · rename_i heq
    subst heq
    have herase : (Finset.range (c.topLevel + 1)).filter
        (fun l => n ∈ update nodes level (before ++ pred :: q :: after) l) =
        ((Finset.range (c.topLevel + 1)).filter (fun l => n ∈ nodes l)).erase level := by
      ext l
      simp only [Finset.mem_filter, Finset.mem_erase, Finset.mem_range]
      by_cases hl : l = level
      · subst hl
        rw [update_self]
        simp [hnodup.1]
      · rw [update_of_ne hl]
        simp [hl]
    have hmem : level ∈ (Finset.range (c.topLevel + 1)).filter (fun l => n ∈ nodes l) := by
      simp only [Finset.mem_filter, Finset.mem_range, hnodes]
      exact ⟨by omega, by simp⟩
    rw [linkCount, herase, Finset.card_erase_of_mem hmem, linkCount]
  · rename_i hne
    have hsame : ∀ l, n ∈ update nodes level (before ++ pred :: q :: after) l ↔
        n ∈ nodes l := by
      intro l
      by_cases hl : l = level
      · subst hl
        rw [update_self, hnodes, hperm.mem_iff, List.mem_cons, or_iff_right hne]
      · rw [update_of_ne hl]
    simp only [linkCount, hsame]

theorem linkCount_eq_zero {n : Node} :
    linkCount c nodes n = 0 ↔ ∀ l, l ≤ c.topLevel → n ∉ nodes l := by
  rw [linkCount, Finset.card_eq_zero, Finset.filter_eq_empty_iff]
  constructor
  · intro h l hl
    exact h (by rw [Finset.mem_range]; omega)
  · intro h l hl
    rw [Finset.mem_range] at hl
    exact h l (by omega)

end

theorem wsub_one {o : Nat} (hpos : 1 ≤ o) (hfit : o ≤ 255) : wsub 64 o 1 = o - 1 := by
  rw [wsub]
  omega

omit [LinearOrder Key] in
theorem Inv.count_le (h : Inv c s ins nodes) {n : Node} (hn : n ∈ ins) :
    s.nonSnippedLevel n ≤ 255 := by
  rw [h.count n hn, linkCount]
  have hle := Finset.card_filter_le (Finset.range (c.topLevel + 1)) (fun l => n ∈ nodes l)
  rw [Finset.card_range] at hle
  have hfits := c.fits
  omega

section Snip

variable {level : Nat} {pred curr q : Node} {before after : List Node}

omit [LinearOrder Key] in
theorem Inv.snip (h : Inv c s ins nodes) (hlevel : level ≤ c.topLevel)
    (hnodes : nodes level = before ++ pred :: curr :: q :: after) (hcurr : curr ∈ ins)
    (hmarked : s.marked curr = true) (hpred : (s.next pred level).2 = false) :
    ∃ s', snip c s level pred curr (some q) = .ok s' ∧
      Inv c s' ins (update nodes level (before ++ pred :: q :: after)) ∧ Same s s' ∧
      (∀ n, n ≠ curr → s'.nonSnippedLevel n = s.nonSnippedLevel n) ∧
      (s'.next pred level).1 = some q := by
  have hnodup := (h.chain level hlevel).nodup
  have hcount := linkCount_snip (c := c) hlevel hnodes hnodup
  have hmem (l : Nat) (n : Node) :
      n ∈ update nodes level (before ++ pred :: q :: after) l ↔
        n ∈ nodes l ∧ (l = level → n ≠ curr) := by
    by_cases hl : l = level
    · subst hl
      rw [update_self, hnodes]
      rw [hnodes] at hnodup
      have hout : curr ∉ before ++ pred :: q :: after := by
        have hperm : (before ++ pred :: curr :: q :: after).Perm
            (curr :: (before ++ pred :: q :: after)) := by
          have hmiddle : (before ++ [pred] ++ curr :: (q :: after)).Perm
              (curr :: (before ++ [pred] ++ (q :: after))) := List.perm_middle
          simpa using hmiddle
        exact (List.nodup_cons.mp (hperm.nodup_iff.mp hnodup)).1
      constructor
      · intro hn
        refine ⟨?_, ?_⟩
        · simp only [List.mem_append, List.mem_cons] at hn ⊢
          tauto
        · rintro - rfl
          exact hout hn
      · rintro ⟨hn, hne⟩
        have hne := hne rfl
        simp only [List.mem_append, List.mem_cons] at hn ⊢
        tauto
    · rw [update_of_ne hl]
      simp [hl]
  have hlinked : curr ∈ nodes level := by simp [hnodes]
  have hpos : 1 ≤ s.nonSnippedLevel curr := by
    rw [h.count curr hcurr, linkCount, Nat.one_le_iff_ne_zero, ← Nat.pos_iff_ne_zero,
      Finset.card_pos]
    exact ⟨level, by simp only [Finset.mem_filter, Finset.mem_range]; exact ⟨by omega, hlinked⟩⟩
  have hdec : wsub 64 (s.nonSnippedLevel curr) 1 = s.nonSnippedLevel curr - 1 :=
    wsub_one hpos (h.count_le hcurr)
  have hnext (n : Node) (l : Nat) (hne : n ≠ pred ∨ l ≠ level) :
      set2 s.next pred level (some q, false) n l = s.next n l := set2_of_ne _ _ hne
  have hmark (n : Node) (l : Nat) : (set2 s.next pred level (some q, false) n l).2 =
      (s.next n l).2 := by
    by_cases hat : n = pred ∧ l = level
    · rw [hat.1, hat.2, set2_self, hpred]
    · rw [hnext n l (not_and_or.mp hat)]
  have hheadne : curr ≠ c.head := fun heq => h.fresh.1 (heq ▸ hcurr)
  have htailne : curr ≠ c.tail := fun heq => h.fresh.2 (heq ▸ hcurr)
  have hretired : ∀ n, (n ∈ ins ∧ ∀ l, l ≤ c.topLevel →
      n ∉ update nodes level (before ++ pred :: q :: after) l) ↔
      n ∈ s.retired ∨ n = curr ∧ s.nonSnippedLevel curr = 1 := by
    intro n
    rw [← linkCount_eq_zero, hcount]
    by_cases hn : n = curr
    · subst hn
      have hout : n ∉ s.retired := fun hin => ((h.retired.2 n).mp hin).2 level hlevel hlinked
      rw [if_pos rfl, ← h.count n hcurr]
      constructor
      · rintro ⟨-, hzero⟩
        exact .inr ⟨rfl, by omega⟩
      · rintro (hin | ⟨-, hone⟩)
        · exact absurd hin hout
        · exact ⟨hcurr, by omega⟩
    · rw [if_neg hn, linkCount_eq_zero, ← h.retired.2 n]
      simp [hn]
  have hinv (retired : List Node) (hretired' : retired.Nodup ∧ ∀ n, n ∈ retired ↔
      n ∈ s.retired ∨ n = curr ∧ s.nonSnippedLevel curr = 1) :
      Inv c { s with
        next := set2 s.next pred level (some q, false)
        nonSnippedLevel := update s.nonSnippedLevel curr
          (wsub 64 (s.nonSnippedLevel curr) 1)
        retired := retired } ins
        (update nodes level (before ++ pred :: q :: after)) := by
    constructor
    · intro l hl
      by_cases hat : l = level
      · subst hat
        rw [update_self]
        have hchain := h.chain l hl
        rw [hnodes] at hchain
        refine hchain.snip (by simp) ?_
        intro m hm
        dsimp only
        rw [hnext m l (.inl hm)]
      · rw [update_of_ne hat]
        refine (h.chain l hl).congr ?_
        intro m _ _
        dsimp only
        rw [hnext m l (.inr hat)]
    · intro l hl n hn
      exact h.known l hl n ((hmem l n).mp hn).1
    · intro l hl n hn
      exact h.tall l hl n ((hmem l n).mp hn).1
    · intro l hl
      dsimp only
      rw [hmark, hmark]
      exact h.ends l hl
    · exact h.headHeight
    · exact h.fresh
    · exact h.bound
    · exact h.height
    · intro n hn l hl
      dsimp only
      rw [hmark]
      exact h.mark n hn l hl
    · intro n hn hunmarked l hl
      rw [hmem]
      refine ⟨h.full n hn hunmarked l hl, ?_⟩
      rintro - rfl
      rw [hmarked] at hunmarked
      cases hunmarked
    · intro n hn
      dsimp only
      rw [hcount, hdec]
      by_cases hne : n = curr
      · subst hne
        rw [update_self, if_pos rfl, h.count n hcurr]
      · rw [update_of_ne hne, if_neg hne, h.count n hn]
    · refine ⟨hretired'.1, fun n => ?_⟩
      rw [hretired, hretired'.2]
  have hothers (n : Node) (hn : n ≠ curr) : update s.nonSnippedLevel curr
      (wsub 64 (s.nonSnippedLevel curr) 1) n = s.nonSnippedLevel n := update_of_ne hn ..
  by_cases hone : s.nonSnippedLevel curr = 1
  · refine ⟨_, ?_, hinv (curr :: s.retired) ⟨?_, ?_⟩, ⟨rfl, rfl, rfl, rfl⟩, hothers, by simp⟩
    · simp only [PrioSkiplist.snip, hone, check_true hheadne, check_true htailne, ok_bind, if_true]
      rw [check_true (by decide)]
      rfl
    · refine List.nodup_cons.mpr ⟨?_, h.retired.1⟩
      exact fun hin => ((h.retired.2 curr).mp hin).2 level hlevel hlinked
    · intro n
      simp [hone, or_comm]
  · refine ⟨_, ?_, hinv s.retired ⟨h.retired.1, by simp [hone]⟩, ⟨rfl, rfl, rfl, rfl⟩, hothers,
      by simp⟩
    simp only [PrioSkiplist.snip, hone, if_false]
    rw [check_true (by omega)]
    rfl

end Snip

/-- A search stands on a level between `pred` and `curr`, and the levels above
are done. -/
structure At (c : Config Node) (s : State Node Key) (ins : List Node) (nodes : Nat → List Node)
    (key : Key) (f : Find Node) (before after : List Node) : Prop where
  level : f.level ≤ c.topLevel
  split : nodes f.level = before ++ f.pred :: f.curr :: after
  left : Left c s ins key f.pred
  done : ∀ l, f.level < l → l ≤ c.topLevel →
    Between c s ins nodes key l (f.preds l) (f.succs l)

/-- What a search leaves behind. -/
structure Found (c : Config Node) (s : State Node Key) (ins : List Node)
    (nodes : Nat → List Node) (key : Key) (f : Find Node) : Prop where
  between : ∀ l, l ≤ c.topLevel → Between c s ins nodes key l (f.preds l) (f.succs l)
  curr : f.curr = f.succs 0

/-- What a search keeps. -/
structure Searched (c : Config Node) (s : State Node Key) (nodes : Nat → List Node)
    (s' : State Node Key) (nodes' : Nat → List Node) (ins : List Node) : Prop where
  inv : Inv c s' ins nodes'
  same : Same s s'
  outside : ∀ n, n ∉ ins → s'.nonSnippedLevel n = s.nonSnippedLevel n
  line : line s' ins nodes' = line s ins nodes

omit [LinearOrder Key] in
theorem Searched.trans {s₁ s₂ s₃ : State Node Key} {nodes₁ nodes₂ nodes₃ : Nat → List Node}
    (h : Searched c s₁ nodes₁ s₂ nodes₂ ins) (h' : Searched c s₂ nodes₂ s₃ nodes₃ ins) :
    Searched c s₁ nodes₁ s₃ nodes₃ ins :=
  ⟨h'.inv, h.same.trans h'.same, fun n hn => (h'.outside n hn).trans (h.outside n hn),
    h'.line.trans h.line⟩

section Search

variable {f : Find Node} {before after : List Node} {specific : Option Node}

/-- The chain goes on behind a node that is not the tail. -/
theorem At.more (hat : At c s ins nodes key f before after) (h : Inv c s ins nodes)
    (hcurr : f.curr ≠ c.tail) :
    ∃ q rest, after = q :: rest ∧ (s.next f.curr f.level).1 = some q := by
  have hchain := h.chain f.level hat.level
  rw [hat.split] at hchain
  cases after with
  | nil =>
    have hlast := hchain.last
    simp only [List.getLast?_append_cons, List.getLast?_cons_cons, List.getLast?_singleton,
      Option.some.injEq] at hlast
    exact absurd hlast hcurr
  | cons q rest =>
    have hlinks := (List.isChain_append_cons_cons.mp hchain.links).2.2
    exact ⟨q, rest, rfl, (List.isChain_cons_cons.mp hlinks).1⟩

theorem At.link (hat : At c s ins nodes key f before after) (h : Inv c s ins nodes) :
    s.next f.pred f.level = (some f.curr, false) := by
  have hchain := h.chain f.level hat.level
  have hmem : f.pred ∈ nodes f.level := by simp [hat.split]
  have hmark := (h.of_left hat.level hat.left (h.tall _ hat.level _ hmem)).2.1
  rw [hat.split] at hchain
  have hlink : (s.next f.pred f.level).1 = some f.curr :=
    (List.isChain_append_cons_cons.mp hchain.links).2.1
  exact Prod.ext hlink hmark

theorem At.curr_ne_head (hat : At c s ins nodes key f before after) (h : Inv c s ins nodes) :
    f.curr ≠ c.head := by
  intro heq
  have hchain := h.chain f.level hat.level
  have hhead := hchain.head
  have hnodup := hchain.nodup
  rw [hat.split] at hhead hnodup
  cases before with
  | nil =>
    have hpred : f.pred = c.head := by simpa using hhead
    simp [hpred, heq] at hnodup
  | cons b before =>
    have hb : b = c.head := by simpa using hhead
    simp [hb, heq] at hnodup

/-- A marked node is unlinked, and the search stays. -/
theorem At.snip (hat : At c s ins nodes key f before after) (h : Inv c s ins nodes)
    (hmark : (s.next f.curr f.level).2 = true) :
    ∃ q rest s' nodes', after = q :: rest ∧ (s.next f.curr f.level).1 = some q ∧
      snip c s f.level f.pred f.curr (some q) = .ok s' ∧
      (s'.next f.pred f.level).1 = some q ∧ Searched c s nodes s' nodes' ins ∧
      At c s' ins nodes' key { f with curr := q } before rest := by
  have hmem : f.curr ∈ nodes f.level := by simp [hat.split]
  obtain ⟨hin, hmarked⟩ := h.of_mark hat.level hmem hmark
  have htail : f.curr ≠ c.tail := fun heq => h.fresh.2 (heq ▸ hin)
  obtain ⟨q, rest, rfl, hq⟩ := hat.more h htail
  have hpred : (s.next f.pred f.level).2 = false := by rw [hat.link h]
  obtain ⟨s', hsnip, hinv, hsame, hothers, hnext⟩ := h.snip hat.level hat.split hin hmarked hpred
  refine ⟨q, rest, s', _, rfl, hq, hsnip, hnext, ⟨hinv, hsame, ?_, ?_⟩, hat.level, ?_, ?_, ?_⟩
  · intro n hn
    exact hothers n (fun heq => hn (heq ▸ hin))
  · rw [hsame.line]
    by_cases hzero : f.level = 0
    · rw [line, line, ← hzero, update_self, hat.split]
      simp [List.filter_cons, hmarked]
    · rw [line, line, update_of_ne (Ne.symm hzero)]
  · exact update_self ..
  · exact hsame.left hat.left
  · intro l hl htop
    obtain ⟨hsplit, hleft, hright⟩ := hat.done l hl htop
    dsimp only at hl
    refine ⟨?_, hsame.left hleft, hsame.right hright⟩
    rw [update_of_ne (by omega)]
    exact hsplit

/-- A node that is not marked and not above the key is passed. -/
theorem At.pass (hat : At c s ins nodes key f before after) (h : Inv c s ins nodes)
    (hmark : (s.next f.curr f.level).2 = false) (htail : f.curr ≠ c.tail)
    (hle : s.priority f.curr ≤ key) :
    ∃ q rest, after = q :: rest ∧ (s.next f.curr f.level).1 = some q ∧
      At c s ins nodes key { f with pred := f.curr, curr := q } (before ++ [f.pred]) rest := by
  obtain ⟨q, rest, rfl, hq⟩ := hat.more h htail
  have hmem : f.curr ∈ nodes f.level := by simp [hat.split]
  have hleft : Left c s ins key f.curr := by
    rcases h.known f.level hat.level f.curr hmem with heq | heq | hin
    · exact .inl heq
    · exact absurd heq htail
    · rw [h.mark f.curr hin f.level (h.tall _ hat.level _ hmem)] at hmark
      exact .inr ⟨hin, hmark, hle⟩
  refine ⟨q, rest, rfl, hq, hat.level, ?_, hleft, hat.done⟩
  simp [hat.split]

theorem At.stop (hat : At c s ins nodes key f before after) (h : Inv c s ins nodes)
    (hmark : (s.next f.curr f.level).2 = false)
    (hstop : f.curr = c.tail ∨ key < s.priority f.curr) :
    Between c s ins nodes key f.level f.pred f.curr := by
  have hmem : f.curr ∈ nodes f.level := by simp [hat.split]
  refine ⟨⟨before, after, hat.split⟩, hat.left, ?_⟩
  rcases h.known f.level hat.level f.curr hmem with heq | heq | hin
  · exact absurd heq (hat.curr_ne_head h)
  · exact .inl heq
  · rcases hstop with heq | hlt
    · exact .inl heq
    · rw [h.mark f.curr hin f.level (h.tall _ hat.level _ hmem)] at hmark
      exact .inr ⟨hin, hmark, hlt⟩

/-- A search enters a level from a node that is linked there. -/
theorem Inv.enter (h : Inv c s ins nodes) {l : Nat} (hl : l ≤ c.topLevel) {pred : Node}
    (hleft : Left c s ins key pred) (htall : l < s.height pred) :
    ∃ before curr after, enterLevel s l pred = .ok curr ∧
      nodes l = before ++ pred :: curr :: after := by
  obtain ⟨hmem, -, htail⟩ := h.of_left hl hleft htall
  obtain ⟨curr, before, after, hsplit, hnext⟩ := (h.chain l hl).split hmem htail
  refine ⟨before, curr, after, ?_, hsplit⟩
  rw [enterLevel, check_true htall, ok_bind, hnext]
  rfl

theorem At.down (hat : At c s ins nodes key f before after) (h : Inv c s ins nodes)
    (hbetween : Between c s ins nodes key f.level f.pred f.curr) :
    ∃ before' curr after', enterLevel s (f.level - 1) f.pred = .ok curr ∧
      At c s ins nodes key
        { f with
          level := f.level - 1, curr := curr
          preds := update f.preds f.level f.pred
          succs := update f.succs f.level f.curr } before' after' := by
  have hmem : f.pred ∈ nodes f.level := by simp [hat.split]
  have htall := h.tall _ hat.level _ hmem
  have hle := hat.level
  obtain ⟨before', curr, after', henter, hsplit⟩ :=
    h.enter (l := f.level - 1) (by omega) hat.left (by omega)
  refine ⟨before', curr, after', henter, by dsimp only; omega, hsplit, hat.left, ?_⟩
  intro l hl htop
  dsimp only at hl ⊢
  by_cases heq : l = f.level
  · subst heq
    rw [update_self, update_self]
    exact hbetween
  · rw [update_of_ne heq, update_of_ne heq]
    exact hat.done l (by omega) htop

/-- The rounds of a search: one for each node that is left on the level, and a
level's worth for each level below. -/
theorem findLoop_spec {rounds : Nat} (h : Inv c s ins nodes)
    (hspecific : ∀ n, specific = some n → s.marked n = true)
    (hat : At c s ins nodes key f before after)
    (hrounds : after.length + 1 + f.level * (s.added.length + 2) ≤ rounds) :
    ∃ s' f' nodes', findLoop c key specific rounds s f = .ok (s', f') ∧
      Searched c s nodes s' nodes' ins ∧ Found c s' ins nodes' key f' := by
  induction rounds generalizing s nodes f before after with
  | zero => omega
  | succ rounds ih =>
    cases hmark : (s.next f.curr f.level).2 with
    | true =>
      obtain ⟨q, rest, s', nodes', rfl, hq, hsnip, hnext, hkept, hat'⟩ := hat.snip h hmark
      have hread : s.next f.curr f.level = (some q, true) := Prod.ext hq hmark
      rw [List.length_cons] at hrounds
      obtain ⟨s'', f'', nodes'', hrun, hsearched, hfound⟩ := ih hkept.inv
        (fun n hn => by rw [hkept.same.marked]; exact hspecific n hn) hat'
        (by rw [hkept.same.added]; dsimp only; omega)
      refine ⟨s'', f'', nodes'', ?_, hkept.trans hsearched, hfound⟩
      simp only [findLoop, hread, hat.link h, if_true, hsnip, ok_bind, hnext]
      exact hrun
    | false =>
      have hread : s.next f.curr f.level = ((s.next f.curr f.level).1, false) :=
        Prod.ext rfl hmark
      have hmem : f.curr ∈ nodes f.level := by simp [hat.split]
      by_cases hpass : f.curr ≠ c.tail ∧ s.priority f.curr ≤ key
      · obtain ⟨q, rest, rfl, hq, hat'⟩ := hat.pass h hmark hpass.1 hpass.2
        have hother : specific ≠ some f.curr := by
          intro heq
          have hin := (h.known _ hat.level _ hmem).resolve_left (hat.curr_ne_head h)
          have htrue := h.mark f.curr (hin.resolve_left hpass.1) f.level
            (h.tall _ hat.level _ hmem)
          rw [hmark, hspecific f.curr heq] at htrue
          cases htrue
        have hcmp : cmpPriority s f.curr key < 0 := by
          rw [cmpPriority, if_pos hpass.2]
          decide
        rw [List.length_cons] at hrounds
        obtain ⟨s'', f'', nodes'', hrun, hsearched, hfound⟩ := ih h hspecific hat'
          (by dsimp only; omega)
        refine ⟨s'', f'', nodes'', ?_, hsearched, hfound⟩
        rw [findLoop, hread, hq]
        simp only [check_true (hat.curr_ne_head h), ok_bind]
        rw [if_pos ⟨hpass.1, hcmp, hother⟩]
        exact hrun
      · have hstop : f.curr = c.tail ∨ key < s.priority f.curr := by
          rcases not_and_or.mp hpass with heq | hlt
          · exact .inl (not_not.mp heq)
          · exact .inr (not_le.mp hlt)
        have hcmp : ¬ (f.curr ≠ c.tail ∧ cmpPriority s f.curr key < 0 ∧
            specific ≠ some f.curr) := by
          rintro ⟨hne, hneg, -⟩
          rw [cmpPriority, if_neg (not_le.mpr (hstop.resolve_left hne))] at hneg
          exact absurd hneg (by decide)
        have hbetween := hat.stop h hmark hstop
        by_cases hlevel : f.level = 0
        · refine ⟨s, { f with
            preds := update f.preds f.level f.pred
            succs := update f.succs f.level f.curr }, nodes, ?_,
            ⟨h, Same.refl s, fun n _ => rfl, rfl⟩, ?_, ?_⟩
          · rw [findLoop, hread]
            simp only [check_true (hat.curr_ne_head h), ok_bind]
            rw [if_neg hcmp, if_pos hlevel]
            rfl
          · intro l hl
            dsimp only
            by_cases heq : l = f.level
            · subst heq
              rw [update_self, update_self]
              exact hbetween
            · rw [update_of_ne heq, update_of_ne heq]
              exact hat.done l (by omega) hl
          · dsimp only
            rw [hlevel, update_self]
        · obtain ⟨before', curr, after', henter, hat'⟩ := hat.down h hbetween
          have hlength := h.length_le hat'.level
          rw [hat'.split] at hlength
          simp only [List.length_append, List.length_cons] at hlength
          have hlevels : f.level * (s.added.length + 2) =
              (f.level - 1) * (s.added.length + 2) + (s.added.length + 2) := by
            rw [← Nat.succ_mul]
            congr 1
            omega
          obtain ⟨s'', f'', nodes'', hrun, hsearched, hfound⟩ := ih h hspecific hat'
            (by dsimp only; omega)
          refine ⟨s'', f'', nodes'', ?_, hsearched, hfound⟩
          rw [findLoop, hread]
          simp only [check_true (hat.curr_ne_head h), ok_bind]
          rw [if_neg hcmp, if_neg hlevel, henter]
          exact hrun

/-- A search returns no node: the key belongs behind the nodes that have it. -/
theorem find_spec (h : Inv c s ins nodes) (key : Key)
    (hspecific : ∀ n, specific = some n → s.marked n = true) :
    ∃ s' f' nodes', find c s key specific = .ok (s', f', none) ∧
      Searched c s nodes s' nodes' ins ∧ Found c s' ins nodes' key f' := by
  have hhead : Left c s ins key c.head := .inl rfl
  obtain ⟨before, curr, after, henter, hsplit⟩ :=
    h.enter (le_refl c.topLevel) hhead (by rw [h.headHeight]; omega)
  have hlength := h.length_le (le_refl c.topLevel)
  rw [hsplit] at hlength
  simp only [List.length_append, List.length_cons] at hlength
  have hat : At c s ins nodes key
      { pred := c.head, level := c.topLevel, curr := curr, preds := fun _ => c.head,
        succs := fun _ => c.head } before after :=
    ⟨le_rfl, hsplit, hhead, fun l hl htop => absurd htop (by dsimp only at hl; omega)⟩
  have hrounds : after.length + 1 + c.topLevel * (s.added.length + 2) ≤ rounds c s := by
    rw [rounds, Nat.succ_mul]
    omega
  obtain ⟨s', f', nodes', hrun, hsearched, hfound⟩ := findLoop_spec h hspecific hat hrounds
  have hbetween := hfound.between 0 (Nat.zero_le _)
  have hcurr : f'.curr ≠ c.head := by
    rw [hfound.curr]
    rcases hbetween.right with heq | ⟨hin, -, -⟩
    · rw [heq]
      exact c.distinct.symm
    · exact fun heq => h.fresh.1 (heq ▸ hin)
  have hnone : ¬ (f'.curr ≠ c.tail ∧ cmpPriority s' f'.curr key = 0) := by
    rintro ⟨-, hzero⟩
    rw [cmpPriority] at hzero
    split at hzero <;> cases hzero
  refine ⟨s', f', nodes', ?_, hsearched, hfound⟩
  have hheight : s.height c.head ≠ 0 := by
    rw [h.headHeight]
    omega
  rw [find, retry, check_true hheight, ok_bind, henter]
  simp only [ok_bind, pure, Except.pure]
  rw [hrun]
  simp only [ok_bind, check_true hcurr]
  rw [if_neg hnone]

end Search

end Libvsync.Queue.PrioSkiplist
