import Libvsync.Core.SortedList
import Libvsync.Map.SkiplistOrder
import Libvsync.Map.SkiplistQuiet
import Mathlib.Order.UpperLower.Principal

/-!
The keys of the skiplist are those of its unmarked nodes. The bottom level visits them in order, so
that a walk along it that steps over marked nodes stops at the first key outside of what it has
left behind.
-/

namespace Libvsync.Map.Skiplist

open Libvsync.Core

variable {Tid Node Key : Type} {c : Config Node Key} {s s' : State Tid Node Key}
variable {l : Nat} {p curr succ m n : Node}

/-- A node from which a level can be walked. -/
structure Clear (c : Config Node Key) (s : State Tid Node Key) (l : Nat) (p : Node) : Prop where
  on : s.OnLevel l p
  unmarked : (s.next p l).2 = false
  notTail : p ≠ c.tail

/-- A node of the map. -/
structure Present (c : Config Node Key) (s : State Tid Node Key) (n : Node) : Prop where
  notHead : n ≠ c.head
  notTail : n ≠ c.tail
  linked : s.linked n 0 = true
  unmarked : ¬ s.isMarked n 0

/-- The same nodes are linked and marked. -/
structure Alike (s s' : State Tid Node Key) : Prop where
  linked : s'.linked = s.linked
  height : s'.height = s.height
  marks : ∀ n l, (s'.next n l).2 = (s.next n l).2

/-- The node of least key among those with `q`, or none when there is no such node. -/
def Least {K : Type} [LE K] (keyOf : Node → K) (q : Node → Prop) : Option Node → Prop
  | some n => q n ∧ ∀ m, q m → keyOf n ≤ keyOf m
  | none => ∀ m, ¬ q m

theorem Least.congr {K : Type} [LE K] {keyOf : Node → K} {q q' : Node → Prop} {r : Option Node}
    (h : Least keyOf q r) (hsame : ∀ n, q n ↔ q' n) : Least keyOf q' r := by
  have heq : q = q' := funext fun n => propext (hsame n)
  rwa [← heq]

section Levels

theorem LinksInv.head_clear (h : LinksInv c s) (hl : l ≤ c.topLevel) : Clear c s l c.head :=
  ⟨h.head_on hl, (h.sentinels l).1, c.distinct⟩

/-- The pointer of a clear node. -/
theorem Clear.next (hp : Clear c s l p) (h : LinksInv c s) (hl : l ≤ c.topLevel) :
    ∃ n, s.next p l = (some n, false) ∧ s.OnLevel l n ∧ n ≠ c.head := by
  obtain ⟨n, hn, hon, hhead⟩ := h.next_on hl hp.on hp.notTail
  exact ⟨n, Prod.ext hn hp.unmarked, hon, hhead⟩

theorem Clear.down (hp : Clear c s (l + 1) p) (h : LinksInv c s) (d : DutyInv s) :
    Clear c s l p := by
  have hlinked := h.down p (l + 1) l hp.on.1 (Nat.le_succ l)
  have hunmarked : (s.next p l).2 = false := by
    refine Bool.eq_false_of_not_eq_true fun hmarked => ?_
    have hup := d.down p l (l + 1) hmarked (Nat.le_succ l) (h.height p (l + 1) hp.on.1)
    exact State.not_isMarked hp.unmarked hup
  exact ⟨h.on_of_unmarked hlinked hunmarked, hunmarked, hp.notTail⟩

theorem Alike.refl (s : State Tid Node Key) : Alike s s := ⟨rfl, rfl, fun _ _ => rfl⟩

theorem Alike.trans {s'' : State Tid Node Key} (h : Alike s s') (h' : Alike s' s'') :
    Alike s s'' :=
  ⟨h'.linked.trans h.linked, h'.height.trans h.height,
    fun n l => (h'.marks n l).trans (h.marks n l)⟩

theorem Alike.clear (ha : Alike s s') (h : LinksInv c s') (hp : Clear c s l p) :
    Clear c s' l p := by
  have hunmarked := (ha.marks p l).trans hp.unmarked
  have hlinked : s'.linked p l = true := by
    rw [ha.linked]
    exact hp.on.1
  exact ⟨h.on_of_unmarked hlinked hunmarked, hunmarked, hp.notTail⟩

theorem Alike.present (ha : Alike s s') (n : Node) : Present c s' n ↔ Present c s n := by
  have hmarked : s'.isMarked n 0 ↔ s.isMarked n 0 := by
    rw [State.isMarked, State.isMarked, ha.marks]
  constructor
  · rintro ⟨hhead, htail, hlinked, hunmarked⟩
    exact ⟨hhead, htail, by rwa [ha.linked] at hlinked, fun hm => hunmarked (hmarked.mpr hm)⟩
  · rintro ⟨hhead, htail, hlinked, hunmarked⟩
    exact ⟨hhead, htail, by rwa [ha.linked], fun hm => hunmarked (hmarked.mp hm)⟩

theorem Present.on (hn : Present c s n) (h : LinksInv c s) : s.OnLevel 0 n :=
  h.on_of_unmarked hn.linked (Bool.eq_false_of_not_eq_true hn.unmarked)

/-- A node of the map is on all its levels, and an unmarked node of a level is in the map. -/
theorem Settled.present_reaches (h : Settled c s) (hn : Present c s n) (hl : l ≤ c.topLevel) :
    Reaches (s.level l) c.head n ↔ l < s.height n := by
  rw [h.reaches_iff hl]
  constructor
  · exact fun hon => h.height n l hon.1
  · intro hlt
    refine h.on_of_unmarked (h.full n l hn.linked hlt) ?_
    exact Bool.eq_false_of_not_eq_true fun hmarked =>
      hn.unmarked (h.uniform n l 0 hmarked (h.height n 0 hn.linked))

theorem Settled.reaches_present (h : Settled c s) (hl : l ≤ c.topLevel)
    (hreach : Reaches (s.level l) c.head n) (hunmarked : ¬ s.isMarked n l)
    (hhead : n ≠ c.head) (htail : n ≠ c.tail) : Present c s n := by
  have hon := (h.reaches_iff hl).mp hreach
  exact ⟨hhead, htail, h.bottom hon.1,
    fun hmarked => hunmarked (h.uniform n 0 l hmarked (h.height n l hon.1))⟩

end Levels

section Order

variable [DecidableEq Node] [LinearOrder Key] {keyOf : Node → Key}

theorem Good.bottom (h : Good c keyOf s) : SortedList (c.rank keyOf) c.head c.tail (s.level 0)
    (s.linked · 0) (s.snipped · 0) where
  chain := h.inv.heap.chain 0 (Nat.zero_le _)
  closed n hn hne := by
    obtain ⟨m, hm, hlinked, -⟩ := h.inv.heap.closed n 0 hn hne
    exact ⟨m, hm, hlinked, (h.sort n 0 m hn hm).2 rfl⟩
  last := h.inv.heap.level_tail 0

omit [LinearOrder Key] in
theorem Present.rank_eq (hn : Present c s n) : c.rank keyOf n = keyRank (keyOf n) :=
  sentinelRank_of_ne hn.notHead hn.notTail

theorem Good.unique (h : Good c keyOf s) (hm : Present c s m) (hn : Present c s n)
    (heq : keyOf m = keyOf n) : m = n :=
  h.bottom.rank_inj (hm.on h.inv.heap.toLinksInv) (hn.on h.inv.heap.toLinksInv)
    (by rw [hm.rank_eq, hn.rank_eq, heq])

theorem Good.level_sorted (h : Good c keyOf s) (hl : l ≤ c.topLevel) :
    ∃ nodes, Chain (s.level l) c.head c.tail nodes ∧
      nodes.Pairwise (fun a b => c.rank keyOf a ≤ c.rank keyOf b) := by
  obtain ⟨nodes, hchain, hmem⟩ := h.inv.heap.chain l hl
  refine ⟨nodes, hchain, List.isChain_iff_pairwise.mp ?_⟩
  refine hchain.links.imp_of_mem_imp fun a b ha _ hab => ?_
  exact (h.sort a l b ((hmem a).mp ha).1 hab).1

/-- The unmarked nodes of the bottom level before `curr` have their ranks in `low`. -/
def Gap (c : Config Node Key) (keyOf : Node → Key) (s : State Tid Node Key)
    (low : LowerSet (WithBot (WithTop Key))) (curr : Node) : Prop :=
  ∀ m, s.OnLevel 0 m → ¬ s.isMarked m 0 →
    c.rank keyOf m ∈ low ∨ c.rank keyOf curr ≤ c.rank keyOf m

variable {low : LowerSet (WithBot (WithTop Key))}

theorem Gap.start (h : Good c keyOf s) (hp : s.OnLevel 0 p) (hlow : c.rank keyOf p ∈ low)
    (hnext : s.level 0 p = some curr) : Gap c keyOf s low curr :=
  fun _ hm _ => (h.bottom.gap hp hnext hm).imp_left fun hle => low.lower hle hlow

/-- A marked node is stepped over. -/
theorem Gap.skip (hgap : Gap c keyOf s low curr) (h : Good c keyOf s) (hcurr : s.OnLevel 0 curr)
    (hmarked : s.isMarked curr 0) (hnext : s.level 0 curr = some succ) :
    Gap c keyOf s low succ := by
  intro m hm hunmarked
  rcases hgap m hm hunmarked with hlow | hle
  · exact .inl hlow
  · rcases h.bottom.gap hcurr hnext hm with hge | hsucc
    · have heq := h.bottom.rank_inj hm hcurr (le_antisymm hge hle)
      rw [heq] at hunmarked
      exact absurd hmarked hunmarked
    · exact .inr hsucc

/-- A walk along the bottom level has stopped at the first node that is not marked and not in
`low`. -/
structure Found (c : Config Node Key) (keyOf : Node → Key) (s : State Tid Node Key)
    (low : LowerSet (WithBot (WithTop Key))) (curr : Node) : Prop where
  on : s.OnLevel 0 curr
  unmarked : ¬ s.isMarked curr 0
  notHead : curr ≠ c.head
  above : c.rank keyOf curr ∉ low
  gap : Gap c keyOf s low curr

theorem Found.present (hf : Found c keyOf s low curr) (htail : curr ≠ c.tail) :
    Present c s curr :=
  ⟨hf.notHead, htail, hf.on.1, hf.unmarked⟩

theorem Found.rank_le (hf : Found c keyOf s low curr) (h : LinksInv c s) (hm : Present c s m)
    (hout : c.rank keyOf m ∉ low) : c.rank keyOf curr ≤ c.rank keyOf m :=
  (hf.gap m (hm.on h) hm.unmarked).resolve_left hout

/-- When the walk stops at tail there is no such node. -/
theorem Found.at_tail (hf : Found c keyOf s low c.tail) (h : LinksInv c s) (hm : Present c s m) :
    c.rank keyOf m ∈ low := by
  by_contra hout
  have hle := hf.rank_le h hm hout
  rw [hm.rank_eq] at hle
  exact absurd (key_lt_last c.distinct) (not_lt.mpr hle)

theorem Found.least (hf : Found c keyOf s low curr) (h : LinksInv c s) :
    Least keyOf (fun m => Present c s m ∧ c.rank keyOf m ∉ low)
      (if curr = c.tail then none else some curr) := by
  rcases Classical.em (curr = c.tail) with rfl | htail
  · rw [if_pos rfl]
    exact fun m hm => hm.2 (hf.at_tail h hm.1)
  · rw [if_neg htail]
    have hcurr := hf.present htail
    refine ⟨⟨hcurr, hf.above⟩, fun m hm => ?_⟩
    have hle := hf.rank_le h hm.1 hm.2
    rwa [hcurr.rank_eq, hm.1.rank_eq, keyRank_le] at hle

theorem Found.least_key {k : Key} (hf : Found c keyOf s (LowerSet.Iio (keyRank k)) curr)
    (h : LinksInv c s) : Least keyOf (fun m => Present c s m ∧ keyOf m = k)
      (if curr ≠ c.tail ∧ keyOf curr = k then some curr else none) := by
  split
  · rename_i hcurr
    exact ⟨⟨hf.present hcurr.1, hcurr.2⟩, fun m hm => (hcurr.2.trans hm.2.symm).le⟩
  · rename_i hcurr
    rintro m ⟨hm, hk⟩
    have hout : c.rank keyOf m ∉ LowerSet.Iio (keyRank k) := by
      rw [LowerSet.mem_Iio_iff, hm.rank_eq, hk]
      exact lt_irrefl _
    have htail : curr ≠ c.tail := by
      rintro rfl
      exact hout (hf.at_tail h hm)
    have hle := hf.rank_le h hm hout
    have hge : keyRank k ≤ c.rank keyOf curr := not_lt.mp fun hlt =>
      hf.above (LowerSet.mem_Iio_iff.mpr hlt)
    rw [(hf.present htail).rank_eq, hm.rank_eq, keyRank_le] at hle
    rw [(hf.present htail).rank_eq, keyRank_le] at hge
    exact hcurr ⟨htail, le_antisymm (hk ▸ hle) hge⟩

end Order

end Libvsync.Map.Skiplist
