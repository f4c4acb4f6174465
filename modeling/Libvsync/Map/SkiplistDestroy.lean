import Libvsync.Map.SkiplistQuiet

/-!
`vskiplist_destroy`. It visits every level from the top down and counts each node on it down; the
last count of a node hands it over. What has been handed over may be freed at once, so that an
access to it is a fault, and so is a failed assertion. Loops are given a number of rounds.
-/

namespace Libvsync.Map.Skiplist

open Libvsync.Core Function

variable {Tid Node Key : Type}

section Source

variable [DecidableEq Node]

/-- `_vskiplist_disconnect_node` -/
def disconnectNode (c : Config Node Key) (s : State Tid Node Key) (node : Node) :
    Option (State Tid Node Key × Bool) :=
  let nonSnipped := wsub 64 (s.nonSnippedLevel node) 1
  if node ∈ s.handed then
    none
  else if nonSnipped ≤ c.topLevel + 1 then
    some ({ s with nonSnippedLevel := update s.nonSnippedLevel node nonSnipped },
      nonSnipped = 0)
  else
    none

/-- `_vskiplist_destroy_node` -/
def destroyNode (c : Config Node Key) (s : State Tid Node Key) (node : Node) (_marked : Bool) :
    Option (State Tid Node Key) :=
  (disconnectNode c s node).map fun r =>
    if r.2 then { r.1 with handed := node :: r.1.handed } else r.1

/-- The loop of `_vskiplist_visit_level`. -/
def visitLoop (c : Config Node Key) (level : Nat)
    (visit : State Tid Node Key → Node → Bool → Option (State Tid Node Key)) :
    Nat → State Tid Node Key → Node → Option (State Tid Node Key)
  | 0, _, _ => none
  | rounds + 1, s, curr =>
    if curr ∈ s.handed then
      none
    else
      (visit s curr (s.next curr level).2).bind fun s' =>
        match (s.next curr level).1 with
        | none => none
        | some succ =>
          if succ = c.tail then some s' else visitLoop c level visit rounds s' succ

/-- `_vskiplist_visit_level` -/
def visitLevel (c : Config Node Key) (level : Nat)
    (visit : State Tid Node Key → Node → Bool → Option (State Tid Node Key)) (rounds : Nat)
    (s : State Tid Node Key) : Option (State Tid Node Key) :=
  if level < s.height c.head then
    match (s.next c.head level).1 with
    | none => none
    | some curr => if curr = c.tail then some s else visitLoop c level visit rounds s curr
  else
    none

/-- The loop of `vskiplist_destroy` over the levels. -/
def destroyLevels (c : Config Node Key) (rounds : Nat) :
    Nat → State Tid Node Key → Option (State Tid Node Key)
  | 0, s => visitLevel c 0 (destroyNode c) rounds s
  | level + 1, s =>
    (visitLevel c (level + 1) (destroyNode c) rounds s).bind (destroyLevels c rounds level)

/-- `vskiplist_destroy` -/
def vskiplistDestroy (c : Config Node Key) (rounds : Nat) (s : State Tid Node Key) :
    Option (State Tid Node Key) :=
  destroyLevels c rounds c.topLevel s

end Source

instance (s : State Tid Node Key) (l : Nat) (n : Node) : Decidable (s.OnLevel l n) :=
  inferInstanceAs (Decidable (_ ∧ _))

/-- The levels below `l` that a node is on. -/
def State.levelsBelow (s : State Tid Node Key) (l : Nat) (n : Node) : Nat :=
  ((Finset.range l).filter (s.OnLevel · n)).card

/-- A destroy of `s₀` on its way: `left n` visits of an added node are still to come. -/
structure Destroying (c : Config Node Key) (s₀ s : State Tid Node Key) (left : Node → Nat) :
    Prop where
  next : s.next = s₀.next
  height : s.height = s₀.height
  count : ∀ n, Added c s₀ n → s.nonSnippedLevel n = left n
  handed : ∀ n, n ∈ s.handed ↔ Added c s₀ n ∧ left n = 0
  once : s.handed.Nodup
  grown : ∃ retired, s.handed = retired ++ s₀.handed

variable {c : Config Node Key} {s₀ s : State Tid Node Key} {left left' : Node → Nat} {n : Node}
variable {l : Nat}

theorem LinksInv.added (h : LinksInv c s) (hn : s.OnLevel l n) (hhead : n ≠ c.head)
    (htail : n ≠ c.tail) : Added c s n :=
  ⟨hhead, htail, h.bottom hn.1⟩

/-- The levels that are counted one by one. -/
theorem levelsBelow_succ (s : State Tid Node Key) (l : Nat) (n : Node) :
    s.levelsBelow (l + 1) n = s.levelsBelow l n + if s.OnLevel l n then 1 else 0 := by
  rw [State.levelsBelow, Finset.range_add_one, Finset.filter_insert]
  split
  · rw [Finset.card_insert_of_notMem (by simp)]
    rfl
  · rfl

theorem levelsBelow_le (s : State Tid Node Key) (l : Nat) (n : Node) : s.levelsBelow l n ≤ l :=
  (Finset.card_filter_le _ _).trans_eq (Finset.card_range l)

theorem Destroying.congr (h : Destroying c s₀ s left)
    (hsame : ∀ n, Added c s₀ n → left n = left' n) : Destroying c s₀ s left' where
  next := h.next
  height := h.height
  count n hn := (h.count n hn).trans (hsame n hn)
  handed n := by
    rw [h.handed]
    exact and_congr_right fun hn => by rw [hsame n hn]
  once := h.once
  grown := h.grown

/-- Before a destroy `non_snipped_level` is the number of visits to come. -/
theorem Settled.destroying (hs : Settled c s₀) :
    Destroying c s₀ s₀ (s₀.levelsBelow (c.topLevel + 1)) := by
  have hlevels (n : Node) (hn : s₀.linked n 0 = true) :
      (Finset.range (s₀.height n)).filter (s₀.snipped n · = false) =
        (Finset.range (c.topLevel + 1)).filter (s₀.OnLevel · n) := by
    ext k
    rw [Finset.mem_filter, Finset.mem_filter, Finset.mem_range, Finset.mem_range]
    constructor
    · rintro ⟨hk, hsnipped⟩
      exact ⟨hk.trans_le (hs.bound n), hs.full n k hn hk, hsnipped⟩
    · rintro ⟨_, hlinked, hsnipped⟩
      exact ⟨hs.height n k hlinked, hsnipped⟩
  have hcount (n : Node) (hn : s₀.linked n 0 = true) :
      s₀.nonSnippedLevel n = s₀.levelsBelow (c.topLevel + 1) n := by
    rw [hs.count n hn, hlevels n hn, State.levelsBelow]
  refine ⟨rfl, rfl, fun n hn => hcount n hn.linked, fun n => ?_, hs.once, [], rfl⟩
  rw [hs.handed]
  constructor
  · rintro ⟨hlinked, hall⟩
    have hsnipped := hall 0 (hs.height n 0 hlinked)
    have hmarked := (hs.frozen n 0 hsnipped).2
    refine ⟨⟨?_, ?_, hlinked⟩, ?_⟩
    · rintro rfl
      rw [(hs.sentinels 0).1] at hmarked
      cases hmarked
    · rintro rfl
      rw [(hs.sentinels 0).2] at hmarked
      cases hmarked
    · rw [State.levelsBelow, ← hlevels n hlinked, Finset.card_eq_zero,
        Finset.filter_eq_empty_iff]
      intro k hk
      rw [hall k (Finset.mem_range.mp hk)]
      exact Bool.true_eq_false.mp
  · rintro ⟨hn, hzero⟩
    rw [State.levelsBelow, ← hlevels n hn.linked, Finset.card_eq_zero,
      Finset.filter_eq_empty_iff] at hzero
    refine ⟨hn.linked, fun k hk => ?_⟩
    exact Bool.eq_true_of_not_eq_false (hzero (Finset.mem_range.mpr hk))

theorem Settled.rounds (hs : Settled c s₀) : ∃ rounds, ∀ l ≤ c.topLevel, ∃ nodes,
    LevelChain c s₀ l nodes ∧ nodes.length ≤ rounds := by
  have hbelow (k : Nat) (hk : k ≤ c.topLevel + 1) : ∃ rounds, ∀ l < k, ∃ nodes,
      LevelChain c s₀ l nodes ∧ nodes.length ≤ rounds := by
    induction k with
    | zero => exact ⟨0, fun l hl => absurd hl (Nat.not_lt_zero l)⟩
    | succ k ih =>
      obtain ⟨rounds, hrounds⟩ := ih (Nat.le_of_succ_le hk)
      obtain ⟨nodes, hnodes⟩ := hs.chain k (Nat.le_of_succ_le_succ hk)
      refine ⟨max rounds nodes.length, fun l hl => ?_⟩
      rcases Nat.lt_or_eq_of_le (Nat.le_of_lt_succ hl) with hlt | rfl
      · obtain ⟨nodes', hnodes', hle⟩ := hrounds l hlt
        exact ⟨nodes', hnodes', hle.trans (Nat.le_max_left _ _)⟩
      · exact ⟨nodes, hnodes, Nat.le_max_right _ _⟩
  obtain ⟨rounds, hrounds⟩ := hbelow (c.topLevel + 1) (Nat.le_refl _)
  exact ⟨rounds, fun l hl => hrounds l (Nat.lt_succ_of_le hl)⟩

section Visits

variable [DecidableEq Node]

theorem Destroying.visit (h : Destroying c s₀ s left) (hn : Added c s₀ n) (hpos : 1 ≤ left n)
    (hle : left n ≤ c.topLevel + 1) (marked : Bool) :
    ∃ s', destroyNode c s n marked = some s' ∧
      Destroying c s₀ s' (update left n (left n - 1)) := by
  have hfits := c.fits
  have hnot : n ∉ s.handed := fun hmem => by
    have hzero := ((h.handed n).mp hmem).2
    omega
  have hsub : wsub 64 (s.nonSnippedLevel n) 1 = left n - 1 := by
    rw [h.count n hn, wsub]
    omega
  have hdisconnect : disconnectNode c s n =
      some ({ s with
        nonSnippedLevel := update s.nonSnippedLevel n (left n - 1) },
        decide (left n - 1 = 0)) := by
    simp only [disconnectNode, hsub]
    rw [if_neg hnot, if_pos (by omega)]
  have hcount (m : Node) (hm : Added c s₀ m) :
      update s.nonSnippedLevel n (left n - 1) m =
        update left n (left n - 1) m := by
    rcases Classical.em (m = n) with rfl | hne
    · rw [update_self, update_self]
    · rw [update_of_ne hne, update_of_ne hne]
      exact h.count m hm
  have hhanded (m : Node) (hne : m ≠ n) : m ∈ s.handed ↔
      Added c s₀ m ∧ update left n (left n - 1) m = 0 := by
    rw [update_of_ne hne]
    exact h.handed m
  rcases Nat.eq_zero_or_pos (left n - 1) with hzero | hmore
  · refine ⟨{ s with
      nonSnippedLevel := update s.nonSnippedLevel n (left n - 1)
      handed := n :: s.handed }, ?_, h.next, h.height, hcount, fun m => ?_,
      List.nodup_cons.mpr ⟨hnot, h.once⟩, ?_⟩
    · rw [destroyNode, hdisconnect, Option.map_some, if_pos (decide_eq_true hzero)]
    · rcases Classical.em (m = n) with rfl | hne
      · rw [update_self]
        exact ⟨fun _ => ⟨hn, hzero⟩, fun _ => List.mem_cons_self⟩
      · rw [List.mem_cons, or_iff_right hne]
        exact hhanded m hne
    · obtain ⟨retired, hgrown⟩ := h.grown
      exact ⟨n :: retired, by rw [hgrown, List.cons_append]⟩
  · refine ⟨{ s with
      nonSnippedLevel := update s.nonSnippedLevel n (left n - 1) }, ?_, h.next,
      h.height, hcount, fun m => ?_, h.once, h.grown⟩
    · have hfalse : ¬ (decide (left n - 1 = 0) = true) := by
        rw [decide_eq_true_iff]
        omega
      rw [destroyNode, hdisconnect, Option.map_some, if_neg hfalse]
    · rcases Classical.em (m = n) with rfl | hne
      · rw [update_self]
        refine ⟨fun hmem => absurd hmem hnot, fun hm => ?_⟩
        omega
      · exact hhanded m hne

/-- The nodes of a level from `curr` on are visited. -/
theorem visitLoop_spec {curr : Node} {nodes : List Node}
    (hchain : Chain (s₀.level l) curr c.tail (curr :: nodes)) (hcurr : curr ≠ c.tail)
    (hadded : ∀ m ∈ curr :: nodes, m ≠ c.tail → Added c s₀ m)
    (h : Destroying c s₀ s left)
    (hleft : ∀ m ∈ curr :: nodes, m ≠ c.tail → 1 ≤ left m ∧ left m ≤ c.topLevel + 1)
    {rounds : Nat} (hrounds : nodes.length ≤ rounds) :
    ∃ s', visitLoop c l (destroyNode c) rounds s curr = some s' ∧
      Destroying c s₀ s' fun m => if m ∈ curr :: nodes then left m - 1 else left m := by
  induction nodes generalizing curr s left rounds with
  | nil =>
    have hend : some curr = some c.tail := hchain.last
    exact absurd (Option.some.inj hend) hcurr
  | cons succ nodes ih =>
    obtain ⟨rounds, rfl⟩ : ∃ r, rounds = r + 1 := by
      refine Nat.exists_eq_succ_of_ne_zero ?_
      rw [List.length_cons] at hrounds
      omega
    obtain ⟨hnext, -⟩ := List.isChain_cons_cons.mp hchain.links
    have hself := hadded curr List.mem_cons_self hcurr
    obtain ⟨hpos, hle⟩ := hleft curr List.mem_cons_self hcurr
    obtain ⟨s₁, hvisit, h₁⟩ := h.visit hself hpos hle (s.next curr l).2
    have hnot : curr ∉ s.handed := fun hmem => by
      have hzero := ((h.handed curr).mp hmem).2
      omega
    have hsucc : (s.next curr l).1 = some succ := by
      rw [h.next]
      exact hnext
    have hfresh := (List.nodup_cons.mp hchain.nodup).1
    have hrest : Chain (s₀.level l) succ c.tail (succ :: nodes) :=
      hchain.tail
    have hloop : visitLoop c l (destroyNode c) (rounds + 1) s curr =
        if succ = c.tail then some s₁
        else visitLoop c l (destroyNode c) rounds s₁ succ := by
      rw [visitLoop, if_neg hnot, hvisit, Option.bind_some, hsucc]
    have hkept (m : Node) (hm : m ∈ succ :: nodes) :
        update left curr (left curr - 1) m = left m :=
      update_of_ne (fun heq => hfresh (by rwa [heq] at hm)) _ _
    rw [hloop]
    rcases Classical.em (succ = c.tail) with rfl | htail
    · have hnil : nodes = [] := hrest.stop
      subst hnil
      rw [if_pos rfl]
      refine ⟨s₁, rfl, h₁.congr fun m hm => ?_⟩
      rcases Classical.em (m = curr) with rfl | hne
      · rw [update_self, if_pos List.mem_cons_self]
      · rw [update_of_ne hne, if_neg]
        rw [List.mem_cons, List.mem_singleton]
        exact fun hmem => hmem.elim hne hm.notTail
    · rw [if_neg htail]
      rw [List.length_cons] at hrounds
      obtain ⟨s', hrun, h'⟩ := ih hrest htail
        (fun m hm => hadded m (List.mem_cons_of_mem _ hm)) h₁
        (fun m hm hmt => by
          rw [hkept m hm]
          exact hleft m (List.mem_cons_of_mem _ hm) hmt)
        (Nat.le_of_succ_le_succ hrounds)
      refine ⟨s', hrun, h'.congr fun m _ => ?_⟩
      rcases Classical.em (m = curr) with rfl | hne
      · rw [if_neg hfresh, update_self, if_pos List.mem_cons_self]
      · rw [update_of_ne hne]
        have hmem : m ∈ curr :: succ :: nodes ↔ m ∈ succ :: nodes := by
          rw [List.mem_cons, or_iff_right hne]
        rw [if_congr hmem rfl rfl]

theorem visitLevel_spec (hs : Settled c s₀) (hl : l ≤ c.topLevel)
    (h : Destroying c s₀ s (s₀.levelsBelow (l + 1))) {nodes : List Node}
    (hchain : LevelChain c s₀ l nodes) {rounds : Nat} (hrounds : nodes.length ≤ rounds) :
    ∃ s', visitLevel c l (destroyNode c) rounds s = some s' ∧
      Destroying c s₀ s' (s₀.levelsBelow l) := by
  obtain ⟨hlinks, hmem⟩ := hchain
  obtain ⟨rest, rfl⟩ := hlinks.eq_cons
  have hheight : l < s.height c.head := by
    rw [h.height]
    exact hs.height c.head l (hs.ends l hl).1
  have hfresh := (List.nodup_cons.mp hlinks.nodup).1
  have hon (m : Node) (hm : m ∈ rest) : s₀.OnLevel l m := (hmem m).mp (List.mem_cons_of_mem _ hm)
  have hrest (m : Node) (hm : Added c s₀ m) : m ∈ rest ↔ s₀.OnLevel l m := by
    rw [State.OnLevel, ← hmem m, List.mem_cons, or_iff_right hm.notHead]
  cases rest with
  | nil =>
    have hend : some c.head = some c.tail := hlinks.last
    exact absurd (Option.some.inj hend) c.distinct
  | cons curr nodes =>
    obtain ⟨hnext, -⟩ := List.isChain_cons_cons.mp hlinks.links
    have hcurr : (s.next c.head l).1 = some curr := by
      rw [h.next]
      exact hnext
    have htail : Chain (s₀.level l) curr c.tail (curr :: nodes) :=
      hlinks.tail
    have hlevel : visitLevel c l (destroyNode c) rounds s =
        if curr = c.tail then some s
        else visitLoop c l (destroyNode c) rounds s curr := by
      rw [visitLevel, if_pos hheight, hcurr]
    rw [hlevel]
    rcases Classical.em (curr = c.tail) with rfl | hne
    · have hnil : nodes = [] := htail.stop
      subst hnil
      rw [if_pos rfl]
      refine ⟨s, rfl, h.congr fun m hm => ?_⟩
      rw [levelsBelow_succ, if_neg, Nat.add_zero]
      rw [← hrest m hm, List.mem_singleton]
      exact hm.notTail
    · rw [if_neg hne]
      have hadded (m : Node) (hm : m ∈ curr :: nodes) (hmt : m ≠ c.tail) : Added c s₀ m :=
        hs.added (hon m hm) (fun heq => hfresh (heq ▸ hm)) hmt
      have hlength : nodes.length ≤ rounds := by
        rw [List.length_cons, List.length_cons] at hrounds
        omega
      obtain ⟨s', hrun, h'⟩ := visitLoop_spec htail hne hadded h
        (fun m hm _ => by
          have hle := levelsBelow_le s₀ (l + 1) m
          have hsucc := levelsBelow_succ s₀ l m
          rw [if_pos (hon m hm)] at hsucc
          omega)
        hlength
      refine ⟨s', hrun, h'.congr fun m hm => ?_⟩
      rw [levelsBelow_succ, if_congr (hrest m hm) rfl rfl]
      split <;> rfl

theorem destroyLevels_spec (hs : Settled c s₀) {rounds : Nat}
    (hrounds : ∀ l ≤ c.topLevel, ∃ nodes, LevelChain c s₀ l nodes ∧ nodes.length ≤ rounds)
    (hl : l ≤ c.topLevel) (h : Destroying c s₀ s (s₀.levelsBelow (l + 1))) :
    ∃ s', destroyLevels c rounds l s = some s' ∧ Destroying c s₀ s' fun _ => 0 := by
  induction l generalizing s with
  | zero =>
    obtain ⟨nodes, hchain, hle⟩ := hrounds 0 hl
    obtain ⟨s', hrun, h'⟩ := visitLevel_spec hs hl h hchain hle
    exact ⟨s', hrun, h'⟩
  | succ l ih =>
    obtain ⟨nodes, hchain, hle⟩ := hrounds (l + 1) hl
    obtain ⟨s₁, hrun, h₁⟩ := visitLevel_spec hs hl h hchain hle
    obtain ⟨s', hrest, h'⟩ := ih (Nat.le_of_succ_le hl) h₁
    exact ⟨s', by rw [destroyLevels, hrun, Option.bind_some, hrest], h'⟩

/-- Whatever interleaving of calls has come before, `vskiplist_destroy` returns without an access
to a node that it or an earlier call has handed over, and calls `fun_retire` once for each node
that was added and not handed over before. -/
theorem skiplist_destroy [DecidableEq Tid]
    {past : List (State Tid Node Key × Act Tid Node Key)} (run : (machine Tid c).Run past s)
    (hquiet : Quiet s) :
    ∃ rounds s' retired, vskiplistDestroy c rounds s = some s' ∧
      s'.handed = retired ++ s.handed ∧ retired.Nodup ∧
      ∀ n, n ∈ retired ↔ Added c s n ∧ n ∉ s.handed := by
  have hs := run_settled run hquiet
  obtain ⟨rounds, hrounds⟩ := hs.rounds
  obtain ⟨s', hrun, h'⟩ := destroyLevels_spec hs hrounds (Nat.le_refl _) hs.destroying
  obtain ⟨retired, hgrown⟩ := h'.grown
  have honce := h'.once
  rw [hgrown] at honce
  obtain ⟨hretired, -, hdisjoint⟩ := List.nodup_append'.mp honce
  refine ⟨rounds, s', retired, hrun, hgrown, hretired, fun n => ?_⟩
  have hhanded := h'.handed n
  rw [hgrown, List.mem_append, and_iff_left rfl] at hhanded
  constructor
  · intro hmem
    exact ⟨hhanded.mp (.inl hmem), fun hold => hdisjoint hmem hold⟩
  · rintro ⟨hadded, hnot⟩
    exact (hhanded.mpr hadded).resolve_right hnot

/-- Node 5 is added, and removed before it has been linked at the second level, where it then
stays. -/
def removedOnTheWay : List (Act Bool Nat Nat) :=
  List.flatten [
    .add false 5 5 2 :: List.replicate 8 (.step false),
    .remove true 5 :: List.replicate 17 (.step true),
    List.replicate 3 (.step false)]

theorem skiplist_destroy_removed :
    ∃ past s rounds s', (machine Bool twoLevels).Run past s ∧ s.OnLevel 1 5 ∧
      s.snipped 5 0 = true ∧ vskiplistDestroy twoLevels rounds s = some s' ∧
      s'.handed.count 5 = 1 := by
  let M := machine Bool twoLevels
  have hend : (M.exec (vskiplistInit twoLevels) removedOnTheWay).map
      (fun s => (decide (Quiet s), decide (s.OnLevel 1 5), s.snipped 5 0, s.linked 5 0,
        s.handed)) = some (true, true, true, true, []) := by
    decide +kernel
  obtain ⟨s, hexec, hs⟩ := Option.map_eq_some_iff.mp hend
  simp only [Prod.mk.injEq, decide_eq_true_iff] at hs
  obtain ⟨hquiet, hon, hsnipped, hlinked, hhanded⟩ := hs
  obtain ⟨past, run⟩ : ∃ past, M.Run past s := ⟨_, (Machine.Run.start rfl).exec hexec⟩
  obtain ⟨rounds, s', retired, hrun, hgrown, honce, hall⟩ := skiplist_destroy run hquiet
  refine ⟨past, s, rounds, s', run, hon, hsnipped, hrun, ?_⟩
  rw [hgrown, hhanded, List.append_nil]
  refine List.count_eq_one_of_mem honce ((hall 5).mpr ⟨⟨?_, ?_, hlinked⟩, ?_⟩)
  · decide
  · decide
  · rw [hhanded]
    exact List.not_mem_nil

end Visits

end Libvsync.Map.Skiplist
