import Libvsync.Map.SkiplistDestroy

/-!
`vskiplist_cleanup`. It sweeps the levels from the top down and snips the marked nodes that it
meets. As in `_vskiplist_find`, the node at which a level ends is where the next one begins.
Loops are given a number of rounds.
-/

namespace Libvsync.Map.Skiplist

open Libvsync.Core

variable {Tid Node Key : Type}

/-- A sweep ends at a node, or goes back to `RETRY`. -/
inductive Swept (Tid Node Key : Type) where
  | done (s : State Tid Node Key) (pred : Node)
  | retry (s : State Tid Node Key)

section Source

variable [DecidableEq Node]

/-- What `vskiplist_cleanup` does with a node that its compare-and-exchange takes out. -/
def snipNode (c : Config Node Key) (s : State Tid Node Key) (level : Nat) (pred curr : Node)
    (succ : Option Node) : Option (State Tid Node Key) :=
  let oNonSnipLvl := s.nonSnippedLevel curr
  let s := { s with
    next := set2 s.next pred level (succ, false)
    snipped := set2 s.snipped curr level true
    nonSnippedLevel := Function.update s.nonSnippedLevel curr (wsub 64 oNonSnipLvl 1)
    counted := set2 s.counted curr level true }
  if oNonSnipLvl = 0 then
    none
  else if oNonSnipLvl = 1 then
    if curr = c.head ∨ curr = c.tail then none else some { s with handed := curr :: s.handed }
  else
    some s

/-- The loops of `vskiplist_cleanup` on a level; `curr` has been read from `pred`. -/
def cleanupLoop (c : Config Node Key) (level : Nat) :
    Nat → State Tid Node Key → Node → Node → Option (Swept Tid Node Key)
  | 0, _, _, _ => none
  | rounds + 1, s, pred, curr =>
    match s.next curr level with
    | (succ, true) =>
      if s.next pred level = (some curr, false) then
        (snipNode c s level pred curr succ).bind fun s' =>
          match (s'.next pred level).1 with
          | some curr' => cleanupLoop c level rounds s' pred curr'
          | none => none
      else
        some (.retry s)
    | (succ, false) =>
      if curr = c.head then
        none
      else if curr = c.tail then
        some (.done s pred)
      else
        match succ with
        | some succ =>
          if succ = c.tail then some (.done s curr)
          else cleanupLoop c level rounds s curr succ
        | none => none

/-- A level of `vskiplist_cleanup`. -/
def cleanupLevel (c : Config Node Key) (level rounds : Nat) (s : State Tid Node Key)
    (pred : Node) : Option (Swept Tid Node Key) :=
  if level < s.height pred then
    match (s.next pred level).1 with
    | none => none
    | some curr =>
      if curr = c.tail then some (.done s pred) else cleanupLoop c level rounds s pred curr
  else
    none

/-- The levels of `vskiplist_cleanup`. -/
def cleanupLevels (c : Config Node Key) (rounds : Nat) :
    Nat → State Tid Node Key → Node → Option (Swept Tid Node Key)
  | 0, s, pred => cleanupLevel c 0 rounds s pred
  | level + 1, s, pred =>
    (cleanupLevel c (level + 1) rounds s pred).bind fun
      | .done s' pred' => cleanupLevels c rounds level s' pred'
      | .retry s' => some (.retry s')

/-- `vskiplist_cleanup` from `RETRY` on, with a number of tries. -/
def cleanupRetry (c : Config Node Key) (rounds : Nat) :
    Nat → State Tid Node Key → Option (State Tid Node Key)
  | 0, _ => none
  | tries + 1, s =>
    if s.height c.head = 0 then
      none
    else
      (cleanupLevels c rounds c.topLevel s c.head).bind fun
        | .done s' _ => some s'
        | .retry s' => cleanupRetry c rounds tries s'

/-- `vskiplist_cleanup` -/
def vskiplistCleanup (c : Config Node Key) (rounds : Nat) (s : State Tid Node Key) :
    Option (State Tid Node Key) :=
  cleanupRetry c rounds rounds s

end Source

/-- The last node of a level that is not marked, tail apart. -/
structure LastUnmarked (c : Config Node Key) (s : State Tid Node Key) (l : Nat) (p : Node) :
    Prop where
  on : s.OnLevel l p
  unmarked : (s.next p l).2 = false
  notTail : p ≠ c.tail
  behind : ∀ n, Reaches (s.level l) p n → n = p ∨ n = c.tail ∨ s.isMarked n l

/-- What `vskiplist_cleanup` is for. -/
structure CleansUp (c : Config Node Key) (s s' : State Tid Node Key) : Prop where
  clean : ∀ l ≤ c.topLevel, ∀ n, Reaches (s'.level l) c.head n → ¬ s'.isMarked n l
  kept : ∀ n, s.linked n 0 = true → ¬ s.isMarked n 0 → ∀ l < s.height n,
    Reaches (s'.level l) c.head n ∧ ¬ s'.isMarked n l
  retired : ∃ retired, s'.handed = retired ++ s.handed ∧ retired.Nodup ∧
    ∀ n, n ∈ retired ↔ (∃ l ≤ c.topLevel, Reaches (s.level l) c.head n) ∧
      ∀ l ≤ c.topLevel, ¬ Reaches (s'.level l) c.head n

/-- `s'` comes from `s` by snips of marked nodes. -/
structure Tidied (c : Config Node Key) (s s' : State Tid Node Key) : Prop where
  settled : Settled c s'
  linked : s'.linked = s.linked
  height : s'.height = s.height
  marks : ∀ n k, (s'.next n k).2 = (s.next n k).2
  grown : ∃ retired, s'.handed = retired ++ s.handed

/-- The snips are at level `l`. -/
structure Snips (c : Config Node Key) (l : Nat) (s s' : State Tid Node Key) : Prop
    extends Tidied c s s' where
  others : ∀ n k, k ≠ l → s'.next n k = s.next n k ∧ s'.snipped n k = s.snipped n k

variable {c : Config Node Key} {s s' s₀ s₁ : State Tid Node Key} {l : Nat}
variable {p q pred curr succ n : Node} {before after nodes : List Node}

theorem Tidied.refl (h : Settled c s) : Tidied c s s :=
  ⟨h, rfl, rfl, fun _ _ => rfl, [], rfl⟩

theorem Tidied.trans (h : Tidied c s s₁) (h' : Tidied c s₁ s') : Tidied c s s' where
  settled := h'.settled
  linked := h'.linked.trans h.linked
  height := h'.height.trans h.height
  marks n k := (h'.marks n k).trans (h.marks n k)
  grown := by
    obtain ⟨first, hfirst⟩ := h.grown
    obtain ⟨second, hsecond⟩ := h'.grown
    exact ⟨second ++ first, by rw [hsecond, hfirst, List.append_assoc]⟩

theorem Tidied.isMarked (h : Tidied c s s') (n : Node) (k : Nat) :
    s'.isMarked n k ↔ s.isMarked n k := by
  rw [State.isMarked, State.isMarked, h.marks]

theorem Snips.trans (h : Snips c l s s₁) (h' : Snips c l s₁ s') : Snips c l s s' where
  toTidied := h.toTidied.trans h'.toTidied
  others n k hk :=
    ⟨(h'.others n k hk).1.trans (h.others n k hk).1,
      (h'.others n k hk).2.trans (h.others n k hk).2⟩

/-- The levels of a node that have not been snipped. -/
def State.rest (s : State Tid Node Key) (n : Node) : Finset Nat :=
  (Finset.range (s.height n)).filter (s.snipped n · = false)

theorem mem_rest {k : Nat} : k ∈ s.rest n ↔ k < s.height n ∧ s.snipped n k = false := by
  rw [State.rest, Finset.mem_filter, Finset.mem_range]

/-- What a node of a chain reaches. -/
theorem LinksInv.reaches_behind (h : LinksInv c s)
    (hchain : LevelChain c s l (before ++ p :: after)) :
    Reaches (s.level l) p n ↔ n ∈ p :: after :=
  ⟨fun hreach => hchain.1.behind.reaches_mem (h.level_tail l) hreach,
    fun hmem => hchain.1.behind.mem_reaches hmem⟩

theorem LastUnmarked.unique (h : LinksInv c s) (hl : l ≤ c.topLevel)
    (hp : LastUnmarked c s l p) (hq : LastUnmarked c s l q) : p = q := by
  have hlast {p q : Node} (hp : LastUnmarked c s l p) (hq : LastUnmarked c s l q)
      (hreach : Reaches (s.level l) p q) : q = p := by
    rcases hp.behind q hreach with heq | heq | hmarked
    · exact heq
    · exact absurd heq hq.notTail
    · have hunmarked := hq.unmarked
      rw [hmarked] at hunmarked
      cases hunmarked
  obtain ⟨nodes, hchain, hmem⟩ := h.chain l hl
  rcases hchain.total ((hmem p).mpr hp.on) ((hmem q).mpr hq.on) with hpq | hqp
  · exact (hlast hp hq hpq).symm
  · exact hlast hq hp hqp

theorem LastUnmarked.of_split (h : LinksInv c s) (hchain : LevelChain c s l (before ++ p :: after))
    (hunmarked : (s.next p l).2 = false) (htail : p ≠ c.tail)
    (hafter : ∀ n ∈ after, n = c.tail ∨ s.isMarked n l) : LastUnmarked c s l p where
  on := (hchain.2 p).mp (List.mem_append_right _ List.mem_cons_self)
  unmarked := hunmarked
  notTail := htail
  behind n hreach := by
    rcases List.mem_cons.mp ((h.reaches_behind hchain).mp hreach) with rfl | hn
    · exact .inl rfl
    · exact .inr (hafter n hn)

/-- A node that is not marked on one of its levels is not marked on any. -/
theorem Settled.unmarked_at (h : Settled c s) {k : Nat} (hn : (s.next n l).2 = false)
    (hlt : l < s.height n) : (s.next n k).2 = false := by
  refine Bool.eq_false_of_not_eq_true fun hmarked => ?_
  exact State.not_isMarked hn (h.uniform n k l hmarked hlt)

/-- An unmarked node of a level and the marked one behind it. -/
structure Snippable (c : Config Node Key) (s : State Tid Node Key) (l : Nat)
    (pred curr succ : Node) : Prop where
  predOn : s.OnLevel l pred
  currOn : s.OnLevel l curr
  old : s.next pred l = (some curr, false)
  marked : s.next curr l = (some succ, true)

theorem Snippable.in_rest (h : LinksInv c s) (hsnip : Snippable c s l pred curr succ) :
    l ∈ s.rest curr :=
  mem_rest.mpr ⟨h.height curr l hsnip.currOn.1, hsnip.currOn.2⟩

/-- From the unmarked `pred` the level has been swept up to its end, and `p` is where it ends. -/
structure LevelSwept (c : Config Node Key) (l : Nat) (s s' : State Tid Node Key) (pred : Node)
    (behind : List Node) (p : Node) : Prop where
  snips : Snips c l s s'
  onLevel : ∀ n, s'.OnLevel l n ↔ s.OnLevel l n ∧ (n ∈ behind → ¬ s.isMarked n l)
  last : ∃ before after, pred :: behind = before ++ p :: after ∧ (s.next p l).2 = false ∧
    p ≠ c.tail ∧ ∀ n ∈ after, n = c.tail ∨ s.isMarked n l

/-- Nothing is left to sweep behind `p`. -/
theorem LevelSwept.stop (h : Settled c s) (hp : (s.next p l).2 = false) (htail : p ≠ c.tail) :
    LevelSwept c l s s p [c.tail] p where
  snips := { Tidied.refl h with others := fun _ _ _ => ⟨rfl, rfl⟩ }
  onLevel n := by
    refine (and_iff_left fun hn => ?_).symm
    rw [List.mem_singleton.mp hn]
    exact h.tail_unmarked l
  last := ⟨[], [c.tail], rfl, hp, htail, fun n hn => .inl (List.mem_singleton.mp hn)⟩

theorem LevelSwept.walk (hswept : LevelSwept c l s s' curr after p)
    (hcurr : (s.next curr l).2 = false) : LevelSwept c l s s' pred (curr :: after) p where
  snips := hswept.snips
  onLevel n := by
    rw [hswept.onLevel n, List.mem_cons]
    refine and_congr_right fun _ => ⟨fun hn hmem => ?_, fun hn hmem => hn (.inr hmem)⟩
    rcases hmem with rfl | hmem
    · exact State.not_isMarked hcurr
    · exact hn hmem
  last := by
    obtain ⟨before, rest, hsplit, hp⟩ := hswept.last
    exact ⟨pred :: before, rest, by rw [hsplit, List.cons_append], hp⟩

/-- The loop goes on behind a node that it has snipped. -/
theorem LevelSwept.past (hsnips : Snips c l s s₁) (hswept : LevelSwept c l s₁ s' pred after p)
    (hcurr : s.isMarked curr l)
    (hon : ∀ n, s₁.OnLevel l n ↔ s.OnLevel l n ∧ n ≠ curr) :
    LevelSwept c l s s' pred (curr :: after) p where
  snips := hsnips.trans hswept.snips
  onLevel n := by
    rw [hswept.onLevel n, hon n, hsnips.isMarked, List.mem_cons]
    constructor
    · rintro ⟨⟨hn, hne⟩, hall⟩
      exact ⟨hn, fun hmem => hall (hmem.resolve_left hne)⟩
    · rintro ⟨hn, hall⟩
      refine ⟨⟨hn, ?_⟩, fun hmem => hall (.inr hmem)⟩
      rintro rfl
      exact hall (.inl rfl) hcurr
  last := by
    obtain ⟨before, rest, hsplit, hp, htail, hall⟩ := hswept.last
    rw [hsnips.marks] at hp
    have hall' (n : Node) (hn : n ∈ rest) : n = c.tail ∨ s.isMarked n l :=
      (hall n hn).imp_right (hsnips.isMarked n l).mp
    cases before with
    | nil =>
      obtain ⟨rfl, rfl⟩ := List.cons.inj hsplit
      refine ⟨[], curr :: after, rfl, hp, htail, fun n hn => ?_⟩
      rcases List.mem_cons.mp hn with rfl | hn
      · exact .inr hcurr
      · exact hall' n hn
    | cons b before =>
      obtain ⟨rfl, hafter⟩ := List.cons.inj hsplit
      exact ⟨pred :: curr :: before, rest, by rw [hafter]; rfl, hp, htail, hall'⟩

/-- The node at which a level is entered. -/
inductive Entry (c : Config Node Key) (s : State Tid Node Key) : Nat → Node → Prop
  | top : Entry c s c.topLevel c.head
  | below {l : Nat} {p : Node} : l < c.topLevel → LastUnmarked c s (l + 1) p → Entry c s l p

/-- A cleanup of `s₀` that has come to level `l`, and has swept it and those above. -/
structure Cleaning (c : Config Node Key) (s₀ s : State Tid Node Key) (l : Nat) : Prop
    extends Tidied c s₀ s where
  below : ∀ n k, k < l → s.next n k = s₀.next n k ∧ s.snipped n k = s₀.snipped n k
  swept : ∀ k, l ≤ k → k ≤ c.topLevel → ∃ p, Entry c s₀ k p ∧ ∀ n, s.OnLevel k n ↔
    s₀.OnLevel k n ∧ (Reaches (s₀.level k) p n → ¬ s₀.isMarked n k)

theorem Entry.le (he : Entry c s l p) : l ≤ c.topLevel := by
  cases he with
  | top => exact Nat.le_refl _
  | below hl _ => exact hl.le

theorem Entry.on (h : Settled c s) (he : Entry c s l p) :
    s.OnLevel l p ∧ (s.next p l).2 = false ∧ p ≠ c.tail := by
  cases he with
  | top => exact ⟨h.head_on (Nat.le_refl _), (h.sentinels _).1, c.distinct⟩
  | below hl hp =>
    have hunmarked : (s.next p l).2 = false :=
      h.unmarked_at hp.unmarked (h.height p _ hp.on.1)
    have hlinked := h.down p _ l hp.on.1 (Nat.le_succ l)
    exact ⟨h.on_of_unmarked hlinked hunmarked, hunmarked, hp.notTail⟩

/-- Where a cleanup of `s` has left level `l` clean. -/
def ClearAbove (c : Config Node Key) (s : State Tid Node Key) (l : Nat) : Prop :=
  ∀ p, LastUnmarked c s (l + 1) p → ∀ n, s.OnLevel l n → s.isMarked n l →
    Reaches (s.level l) p n

theorem Cleaning.clean_iff (h₀ : Settled c s₀) (h : Cleaning c s₀ s 0) :
    (∀ l ≤ c.topLevel, ∀ n, Reaches (s.level l) c.head n → ¬ s.isMarked n l) ↔
      ∀ l < c.topLevel, ClearAbove c s₀ l := by
  constructor
  · intro hclean l hl p hp n hon hmarked
    obtain ⟨q, hq, hswept⟩ := h.swept l (Nat.zero_le l) hl.le
    by_contra hnot
    have heq : q = p := by
      cases hq with
      | top => exact absurd hl (Nat.lt_irrefl _)
      | below _ hlast => exact hlast.unique h₀.toLinksInv hl hp
    rw [← heq] at hnot
    have hleft := (hswept n).mpr ⟨hon, fun hreach => absurd hreach hnot⟩
    exact hclean l hl.le n ((h.settled.reaches_iff hl.le).mpr hleft) ((h.isMarked n l).mpr hmarked)
  · intro hclear l hl n hreach hmarked
    obtain ⟨q, hq, hswept⟩ := h.swept l (Nat.zero_le l) hl
    obtain ⟨hon, hall⟩ := (hswept n).mp ((h.settled.reaches_iff hl).mp hreach)
    have hmarked₀ := (h.isMarked n l).mp hmarked
    refine hall ?_ hmarked₀
    cases hq with
    | top => exact (h₀.reaches_iff (Nat.le_refl _)).mpr hon
    | below hlt hlast => exact hclear l hlt q hlast n hon hmarked₀

theorem Cleaning.kept (h₀ : Settled c s₀) (h : Cleaning c s₀ s 0) (hn : s₀.linked n 0 = true)
    (hunmarked : ¬ s₀.isMarked n 0) (hl : l < s₀.height n) :
    Reaches (s.level l) c.head n ∧ ¬ s.isMarked n l := by
  have htop : l ≤ c.topLevel := Nat.le_of_lt_succ (hl.trans_le (h₀.bound n))
  have hpos : 0 < s₀.height n := h₀.height n 0 hn
  have hclear : ¬ s.isMarked n l := fun hmarked =>
    hunmarked (h₀.uniform n l 0 ((h.isMarked n l).mp hmarked) hpos)
  have hlinked : s.linked n l = true := by
    rw [h.linked]
    exact h₀.full n l hn hl
  refine ⟨(h.settled.reaches_iff htop).mpr ?_, hclear⟩
  exact h.settled.on_of_unmarked hlinked (Bool.eq_false_of_not_eq_true hclear)

/-- A node that was added is handed over when it is on no level. -/
theorem Settled.handed_iff (h : Settled c s) (hn : s.linked n 0 = true) :
    n ∈ s.handed ↔ ∀ l ≤ c.topLevel, ¬ Reaches (s.level l) c.head n := by
  rw [h.handed n, and_iff_right hn]
  constructor
  · intro hall l hl hreach
    obtain ⟨hlinked, hsnipped⟩ := (h.reaches_iff hl).mp hreach
    rw [hall l (h.height n l hlinked)] at hsnipped
    cases hsnipped
  · intro hoff l hl
    have htop : l ≤ c.topLevel := Nat.le_of_lt_succ (hl.trans_le (h.bound n))
    refine Bool.eq_true_of_not_eq_false fun hsnipped => hoff l htop ?_
    exact (h.reaches_iff htop).mpr ⟨h.full n l hn hl, hsnipped⟩

theorem Tidied.retired (h₀ : Settled c s₀) (h : Tidied c s₀ s) :
    ∃ retired, s.handed = retired ++ s₀.handed ∧ retired.Nodup ∧
      ∀ n, n ∈ retired ↔ (∃ l ≤ c.topLevel, Reaches (s₀.level l) c.head n) ∧
        ∀ l ≤ c.topLevel, ¬ Reaches (s.level l) c.head n := by
  obtain ⟨retired, hgrown⟩ := h.grown
  have honce := h.settled.once
  rw [hgrown] at honce
  obtain ⟨hretired, -, hdisjoint⟩ := List.nodup_append'.mp honce
  refine ⟨retired, hgrown, hretired, fun n => ?_⟩
  constructor
  · intro hn
    have hmem : n ∈ s.handed := by
      rw [hgrown]
      exact List.mem_append_left _ hn
    have hlinked := ((h.settled.handed n).mp hmem).1
    have hlinked₀ : s₀.linked n 0 = true := by rwa [h.linked] at hlinked
    refine ⟨?_, (h.settled.handed_iff hlinked).mp hmem⟩
    by_contra hnone
    push Not at hnone
    exact hdisjoint hn ((h₀.handed_iff hlinked₀).mpr hnone)
  · rintro ⟨⟨l, hl, hreach⟩, hoff⟩
    have hlinked₀ := h₀.bottom ((h₀.reaches_iff hl).mp hreach).1
    have hlinked : s.linked n 0 = true := by rwa [h.linked]
    have hmem := (h.settled.handed_iff hlinked).mpr hoff
    rw [hgrown, List.mem_append] at hmem
    exact hmem.resolve_right fun hold => (h₀.handed_iff hlinked₀).mp hold l hl hreach

section Sweep

variable [DecidableEq Node]

/-- A snip, with the calls of `fun_retire` that it leaves. -/
def State.snip (s : State Tid Node Key) (l : Nat) (pred curr succ : Node) (handed : List Node) :
    State Tid Node Key :=
  { s with
    next := set2 s.next pred l (some succ, false)
    snipped := set2 s.snipped curr l true
    nonSnippedLevel := Function.update s.nonSnippedLevel curr (s.nonSnippedLevel curr - 1)
    counted := set2 s.counted curr l true
    handed := handed }

theorem Snippable.marks (hsnip : Snippable c s l pred curr succ) (handed : List Node) (n : Node)
    (k : Nat) : ((s.snip l pred curr succ handed).next n k).2 = (s.next n k).2 := by
  have hnext : (s.snip l pred curr succ handed).next = set2 s.next pred l (some succ, false) := rfl
  rw [hnext]
  rcases Classical.em (n = pred ∧ k = l) with ⟨rfl, rfl⟩ | hne
  · rw [set2_self, hsnip.old]
  · rw [set2_of_ne s.next _ (by tauto)]

theorem Snippable.rest (hsnip : Snippable c s l pred curr succ) (handed : List Node) :
    (s.snip l pred curr succ handed).rest curr = (s.rest curr).erase l := by
  ext k
  rw [Finset.mem_erase, mem_rest, mem_rest]
  have hsnipped : (s.snip l pred curr succ handed).snipped = set2 s.snipped curr l true := rfl
  rw [hsnipped]
  rcases Classical.em (k = l) with rfl | hk
  · rw [set2_self]
    tauto
  · rw [set2_of_ne s.snipped true (.inr hk)]
    tauto

theorem snip_onLevel (s : State Tid Node Key) (l : Nat) (pred curr succ : Node)
    (handed : List Node) (n : Node) :
    (s.snip l pred curr succ handed).OnLevel l n ↔ s.OnLevel l n ∧ n ≠ curr := by
  have hon : (s.snip l pred curr succ handed).OnLevel l n ↔
      s.linked n l = true ∧ set2 s.snipped curr l true n l = false := Iff.rfl
  rw [hon]
  rcases Classical.em (n = curr) with rfl | hne
  · rw [set2_self]
    exact ⟨fun hn => absurd hn.2 Bool.true_eq_false.mp, fun hn => absurd rfl hn.2⟩
  · rw [set2_of_ne s.snipped true (.inl hne), and_iff_left hne]
    rfl

theorem Settled.snip (h : Settled c s) (hsnip : Snippable c s l pred curr succ)
    {handed : List Node}
    (hhanded : ∀ n, n ∈ handed ↔ s.linked n 0 = true ∧
      ∀ k < s.height n, (s.snip l pred curr succ handed).snipped n k = true)
    (honce : handed.Nodup) : Settled c (s.snip l pred curr succ handed) := by
  have hlinks := h.toLinksInv.snip hsnip.predOn.1
    (h.ne_tail (congrArg Prod.fst hsnip.old)) hsnip.currOn.1 hsnip.old hsnip.marked
  have hmarked (n : Node) (k : Nat) :
      (s.snip l pred curr succ handed).isMarked n k ↔ s.isMarked n k := by
    rw [State.isMarked, State.isMarked, hsnip.marks]
  exact {
    chain := hlinks.chain
    height := hlinks.height
    bound := hlinks.bound
    ends := hlinks.ends
    down := hlinks.down
    frozen := hlinks.frozen
    closed := hlinks.closed
    sentinels := hlinks.sentinels
    known := hlinks.known
    full := h.full
    uniform := fun n k j hk hj => (hmarked n j).mpr (h.uniform n k j ((hmarked n k).mp hk) hj)
    count := fun n hn => by
      have hcount := h.count n hn
      rcases Classical.em (n = curr) with rfl | hne
      · have hrest := congrArg Finset.card (hsnip.rest handed)
        rw [Finset.card_erase_of_mem (hsnip.in_rest h.toLinksInv), State.rest, State.rest,
          ← hcount] at hrest
        exact (Function.update_self n _ s.nonSnippedLevel).trans hrest.symm
      · refine (Function.update_of_ne hne _ s.nonSnippedLevel).trans (hcount.trans ?_)
        refine congrArg Finset.card (Finset.filter_congr fun k _ => ?_)
        have hsnipped : (s.snip l pred curr succ handed).snipped n k = s.snipped n k :=
          set2_of_ne s.snipped true (.inl hne)
        rw [hsnipped]
    handed := hhanded
    once := honce }

/-- What a snip leaves of the level. -/
theorem LevelChain.snip (handed : List Node)
    (hchain : LevelChain c s l (before ++ pred :: curr :: succ :: after)) :
    LevelChain c (s.snip l pred curr succ handed) l (before ++ pred :: succ :: after) := by
  obtain ⟨hlinks, hmem⟩ := hchain
  have hperm : (before ++ pred :: curr :: succ :: after).Perm
      (curr :: (before ++ pred :: succ :: after)) := by
    have hmiddle : (before ++ [pred] ++ curr :: (succ :: after)).Perm
        (curr :: (before ++ [pred] ++ (succ :: after))) := List.perm_middle
    simpa using hmiddle
  have hnot := (List.nodup_cons.mp (hperm.nodup_iff.mp hlinks.nodup)).1
  refine ⟨hlinks.snip ?_ fun m hm => ?_, fun n => ?_⟩
  · exact congrArg Prod.fst (set2_self s.next pred l (some succ, false))
  · exact congrArg Prod.fst (set2_of_ne s.next (some succ, false) (.inl hm))
  · have hon := snip_onLevel s l pred curr succ handed n
    rw [State.OnLevel, State.OnLevel, ← hmem n, hperm.mem_iff, List.mem_cons] at hon
    rw [hon]
    constructor
    · exact fun hn => ⟨.inr hn, fun heq => hnot (heq ▸ hn)⟩
    · rintro ⟨hn, hne⟩
      exact hn.resolve_left hne

theorem snipNode_spec (h : Settled c s)
    (hchain : LevelChain c s l (before ++ pred :: curr :: succ :: after))
    (hpred : (s.next pred l).2 = false) (hcurr : s.isMarked curr l) :
    ∃ s', snipNode c s l pred curr (some succ) = some s' ∧ Snips c l s s' ∧
      (∀ n, s'.OnLevel l n ↔ s.OnLevel l n ∧ n ≠ curr) ∧
      LevelChain c s' l (before ++ pred :: succ :: after) := by
  obtain ⟨-, hlink, hrest⟩ := List.isChain_append_cons_cons.mp hchain.1.links
  obtain ⟨hnext, -⟩ := List.isChain_cons_cons.mp hrest
  have hsnip : Snippable c s l pred curr succ := {
    predOn := (hchain.2 pred).mp (by simp)
    currOn := (hchain.2 curr).mp (by simp)
    old := Prod.ext hlink hpred
    marked := Prod.ext hnext hcurr }
  have hnotHead : curr ≠ c.head := fun heq => h.head_unmarked l (heq ▸ hcurr)
  have hnotTail : curr ≠ c.tail := fun heq => h.tail_unmarked l (heq ▸ hcurr)
  have hcount : s.nonSnippedLevel curr = (s.rest curr).card :=
    h.count curr (h.bottom hsnip.currOn.1)
  have hin := hsnip.in_rest h.toLinksInv
  have hpos := Finset.card_pos.mpr ⟨l, hin⟩
  have hle : (s.rest curr).card ≤ 255 := by
    have hrange := Finset.card_filter_le (Finset.range (s.height curr)) (s.snipped curr · = false)
    rw [Finset.card_range] at hrange
    exact hrange.trans ((h.bound curr).trans c.fits)
  have hsub : wsub 64 (s.nonSnippedLevel curr) 1 = s.nonSnippedLevel curr - 1 := by
    rw [wsub]
    omega
  have hnew : curr ∉ s.handed := fun hmem => by
    have hall := ((h.handed curr).mp hmem).2 l (h.height curr l hsnip.currOn.1)
    rw [hsnip.currOn.2] at hall
    cases hall
  have hothers (handed : List Node) (n : Node) (hne : n ≠ curr) : n ∈ s.handed ↔
      s.linked n 0 = true ∧
        ∀ k < s.height n, (s.snip l pred curr succ handed).snipped n k = true := by
    rw [h.handed n]
    refine and_congr_right fun _ => forall₂_congr fun k _ => ?_
    have hsnipped : (s.snip l pred curr succ handed).snipped n k = s.snipped n k :=
      set2_of_ne s.snipped true (.inl hne)
    rw [hsnipped]
  have hself (handed : List Node) :
      (∀ k < s.height curr, (s.snip l pred curr succ handed).snipped curr k = true) ↔
        s.nonSnippedLevel curr = 1 := by
    have hall : (∀ k < s.height curr, (s.snip l pred curr succ handed).snipped curr k = true) ↔
        (s.snip l pred curr succ handed).rest curr = ∅ := by
      rw [State.rest, Finset.filter_eq_empty_iff]
      refine forall_congr' fun k => ?_
      rw [Finset.mem_range, Bool.not_eq_false]
      exact Iff.rfl
    rw [hall, ← Finset.card_eq_zero, hsnip.rest, Finset.card_erase_of_mem hin, hcount]
    omega
  have hsnips {handed : List Node}
      (hhanded : ∀ n, n ∈ handed ↔ s.linked n 0 = true ∧
        ∀ k < s.height n, (s.snip l pred curr succ handed).snipped n k = true)
      (honce : handed.Nodup) (hgrown : ∃ retired, handed = retired ++ s.handed) :
      Snips c l s (s.snip l pred curr succ handed) :=
    { settled := h.snip hsnip hhanded honce
      linked := rfl
      height := rfl
      marks := hsnip.marks handed
      grown := hgrown
      others := fun n k hk =>
        ⟨set2_of_ne s.next _ (.inr hk), set2_of_ne s.snipped true (.inr hk)⟩ }
  rcases Classical.em (s.nonSnippedLevel curr = 1) with hone | hmore
  · refine ⟨s.snip l pred curr succ (curr :: s.handed), ?_,
      hsnips (fun n => ?_) (List.nodup_cons.mpr ⟨hnew, h.once⟩) ⟨[curr], rfl⟩,
      snip_onLevel s l pred curr succ _, hchain.snip _⟩
    · simp only [snipNode, hsub]
      rw [if_neg (by omega), if_pos hone, if_neg (not_or.mpr ⟨hnotHead, hnotTail⟩)]
      rfl
    · rcases Classical.em (n = curr) with rfl | hne
      · rw [hself]
        exact ⟨fun _ => ⟨h.bottom hsnip.currOn.1, hone⟩, fun _ => List.mem_cons_self⟩
      · rw [List.mem_cons, or_iff_right hne]
        exact hothers _ n hne
  · refine ⟨s.snip l pred curr succ s.handed, ?_, hsnips (fun n => ?_) h.once ⟨[], rfl⟩,
      snip_onLevel s l pred curr succ _, hchain.snip _⟩
    · simp only [snipNode, hsub]
      rw [if_neg (by omega), if_neg hmore]
      rfl
    · rcases Classical.em (n = curr) with rfl | hne
      · rw [hself]
        exact ⟨fun hmem => absurd hmem hnew, fun hn => absurd hn.2 hmore⟩
      · exact hothers _ n hne

theorem cleanupLoop_spec (h : Settled c s)
    (hchain : LevelChain c s l (before ++ pred :: curr :: after))
    (hpred : (s.next pred l).2 = false) {rounds : Nat} (hrounds : after.length < rounds) :
    ∃ s' p, cleanupLoop c l rounds s pred curr = some (.done s' p) ∧
      LevelSwept c l s s' pred (curr :: after) p := by
  induction after generalizing s before pred curr rounds with
  | nil =>
    obtain ⟨rounds, rfl⟩ := Nat.exists_eq_succ_of_ne_zero (Nat.ne_zero_of_lt hrounds)
    obtain ⟨-, hlink, -⟩ := List.isChain_append_cons_cons.mp hchain.1.links
    have hcurr : curr = c.tail := by simpa using hchain.1.last
    subst hcurr
    refine ⟨s, pred, ?_, .stop h hpred (h.ne_tail hlink)⟩
    simp only [cleanupLoop, (h.sentinels l).2]
    rw [if_neg c.distinct.symm, if_pos trivial]
  | cons succ rest ih =>
    obtain ⟨rounds, rfl⟩ := Nat.exists_eq_succ_of_ne_zero (Nat.ne_zero_of_lt hrounds)
    obtain ⟨-, hlink, hrest⟩ := List.isChain_append_cons_cons.mp hchain.1.links
    have hnext : s.level l curr = some succ := (List.isChain_cons_cons.mp hrest).1
    have hold : s.next pred l = (some curr, false) := Prod.ext hlink hpred
    have hlength : rest.length < rounds := Nat.lt_of_succ_lt_succ hrounds
    rcases Bool.eq_false_or_eq_true (s.next curr l).2 with hmarked | hunmarked
    · obtain ⟨s₁, hsnip, hsnips, hon, hchain₁⟩ := snipNode_spec h hchain hpred hmarked
      have hlink₁ : (s₁.next pred l).1 = some succ :=
        (List.isChain_append_cons_cons.mp hchain₁.1.links).2.1
      obtain ⟨s', p, hrun, hswept⟩ := ih hsnips.settled hchain₁
        ((hsnips.marks pred l).trans hpred) hlength
      refine ⟨s', p, ?_, hswept.past hsnips hmarked hon⟩
      have hread : s.next curr l = (some succ, true) := Prod.ext hnext hmarked
      simp only [cleanupLoop, hread]
      rw [if_pos hold, hsnip, Option.bind_some, hlink₁]
      exact hrun
    · have hread : s.next curr l = (some succ, false) := Prod.ext hnext hunmarked
      have hpredOn : s.OnLevel l pred := (hchain.2 pred).mp (by simp)
      have hhead : curr ≠ c.head := h.ne_head hpredOn.1 hlink
      have htail : curr ≠ c.tail := h.ne_tail hnext
      rcases Classical.em (succ = c.tail) with rfl | hsucc
      · have hnil : rest = [] := hchain.1.behind.tail.tail.stop
        subst hnil
        refine ⟨s, curr, ?_, (LevelSwept.stop h hunmarked htail).walk hunmarked⟩
        simp only [cleanupLoop, hread]
        rw [if_neg hhead, if_neg htail, if_pos trivial]
      · have hchain' : LevelChain c s l ((before ++ [pred]) ++ curr :: succ :: rest) := by
          rw [List.append_assoc]
          exact hchain
        obtain ⟨s', p, hrun, hswept⟩ := ih h hchain' hunmarked hlength
        refine ⟨s', p, ?_, hswept.walk hunmarked⟩
        simp only [cleanupLoop, hread]
        rw [if_neg hhead, if_neg htail, if_neg hsucc]
        exact hrun

theorem cleanupLevel_spec (h : Settled c s) (hpred : s.OnLevel l pred)
    (hunmarked : (s.next pred l).2 = false) (htail : pred ≠ c.tail)
    (hchain : LevelChain c s l nodes) {rounds : Nat} (hrounds : nodes.length ≤ rounds) :
    ∃ s' p, cleanupLevel c l rounds s pred = some (.done s' p) ∧ Snips c l s s' ∧
      LastUnmarked c s l p ∧
      ∀ n, s'.OnLevel l n ↔
        s.OnLevel l n ∧ (Reaches (s.level l) pred n → ¬ s.isMarked n l) := by
  obtain ⟨curr, before, after, rfl, hnext⟩ := hchain.1.split ((hchain.2 pred).mpr hpred) htail
  have hread : (s.next pred l).1 = some curr := hnext
  have hspec : ∃ s' p, cleanupLevel c l rounds s pred = some (.done s' p) ∧
      LevelSwept c l s s' pred (curr :: after) p := by
    rcases Classical.em (curr = c.tail) with rfl | hcurr
    · have hnil : after = [] := hchain.1.behind.tail.stop
      subst hnil
      refine ⟨s, pred, ?_, .stop h hunmarked htail⟩
      simp only [cleanupLevel, hread]
      rw [if_pos (h.height pred l hpred.1), if_pos trivial]
    · have hlength : after.length < rounds := by
        rw [List.length_append, List.length_cons, List.length_cons] at hrounds
        omega
      obtain ⟨s', p, hrun, hswept⟩ := cleanupLoop_spec h hchain hunmarked hlength
      refine ⟨s', p, ?_, hswept⟩
      simp only [cleanupLevel, hread]
      rw [if_pos (h.height pred l hpred.1), if_neg hcurr]
      exact hrun
  obtain ⟨s', p, hrun, hswept⟩ := hspec
  obtain ⟨first, last, hsplit, hp, hpt, hall⟩ := hswept.last
  have hchain' : LevelChain c s l ((before ++ first) ++ p :: last) := by
    rw [List.append_assoc, ← hsplit]
    exact hchain
  refine ⟨s', p, hrun, hswept.snips, .of_split h.toLinksInv hchain' hp hpt hall, fun n => ?_⟩
  rw [hswept.onLevel n, h.reaches_behind hchain]
  refine and_congr_right fun _ => ⟨fun hn hmem => ?_, fun hn hmem => hn (.tail _ hmem)⟩
  rcases List.mem_cons.mp hmem with rfl | hmem
  · exact State.not_isMarked hunmarked
  · exact hn hmem

theorem Cleaning.level (h₀ : Settled c s₀) (h : Cleaning c s₀ s (l + 1))
    (he : Entry c s₀ l pred) (hchain : LevelChain c s₀ l nodes) {rounds : Nat}
    (hrounds : nodes.length ≤ rounds) :
    ∃ s' p, cleanupLevel c l rounds s pred = some (.done s' p) ∧ Cleaning c s₀ s' l ∧
      LastUnmarked c s₀ l p := by
  have hbelow (n : Node) := h.below n l (Nat.lt_succ_self l)
  have hlevel : s.level l = s₀.level l := funext fun n => congrArg Prod.fst (hbelow n).1
  have hon (n : Node) : s.OnLevel l n ↔ s₀.OnLevel l n := by
    rw [State.OnLevel, State.OnLevel, h.linked, (hbelow n).2]
  have hchain' : LevelChain c s l nodes :=
    ⟨by rw [hlevel]; exact hchain.1, fun n => (hchain.2 n).trans (hon n).symm⟩
  obtain ⟨hpred, hunmarked, htail⟩ := he.on h₀
  obtain ⟨s', p, hrun, hsnips, hlast, hswept⟩ := cleanupLevel_spec h.settled
    ((hon pred).mpr hpred) ((h.marks pred l).trans hunmarked) htail hchain' hrounds
  refine ⟨s', p, hrun, ⟨h.toTidied.trans hsnips.toTidied, fun n k hk => ?_, fun k hk htop => ?_⟩,
    (hon p).mp hlast.on, (h.marks p l).symm.trans hlast.unmarked, hlast.notTail, fun n hn => ?_⟩
  · obtain ⟨hnext, hsnipped⟩ := hsnips.others n k hk.ne
    obtain ⟨hnext₀, hsnipped₀⟩ := h.below n k (Nat.lt_succ_of_lt hk)
    exact ⟨hnext.trans hnext₀, hsnipped.trans hsnipped₀⟩
  · rcases Nat.lt_or_eq_of_le hk with hlt | rfl
    · obtain ⟨q, hq, hqon⟩ := h.swept k hlt htop
      refine ⟨q, hq, fun n => ?_⟩
      rw [← hqon n, State.OnLevel, State.OnLevel, hsnips.linked,
        (hsnips.others n k hlt.ne').2]
    · exact ⟨pred, he, fun n => by rw [hswept n, hon n, hlevel, h.isMarked]⟩
  · rw [← hlevel] at hn
    exact (hlast.behind n hn).imp_right (Or.imp_right (h.isMarked n l).mp)

theorem cleanupLevels_spec (h₀ : Settled c s₀) {rounds : Nat}
    (hrounds : ∀ l ≤ c.topLevel, ∃ nodes, LevelChain c s₀ l nodes ∧ nodes.length ≤ rounds)
    (h : Cleaning c s₀ s (l + 1)) (he : Entry c s₀ l pred) :
    ∃ s' p, cleanupLevels c rounds l s pred = some (.done s' p) ∧ Cleaning c s₀ s' 0 := by
  obtain ⟨nodes, hchain, hle⟩ := hrounds l he.le
  induction l generalizing s pred nodes with
  | zero =>
    obtain ⟨s', p, hrun, hdone, -⟩ := h.level h₀ he hchain hle
    exact ⟨s', p, hrun, hdone⟩
  | succ l ih =>
    obtain ⟨s₁, p, hrun, hdone, hlast⟩ := h.level h₀ he hchain hle
    obtain ⟨nodes', hchain', hle'⟩ := hrounds l (Nat.le_of_succ_le he.le)
    obtain ⟨s', q, hrest, hend⟩ := ih hdone (.below he.le hlast) nodes' hchain' hle'
    exact ⟨s', q, by rw [cleanupLevels, hrun, Option.bind_some]; exact hrest, hend⟩

theorem Settled.cleanup (h : Settled c s) :
    ∃ rounds s', vskiplistCleanup c rounds s = some s' ∧ Cleaning c s s' 0 := by
  obtain ⟨rounds, hrounds⟩ := h.rounds
  have hstart : Cleaning c s s (c.topLevel + 1) :=
    { Tidied.refl h with
      below := fun _ _ _ => ⟨rfl, rfl⟩
      swept := fun k hk htop => absurd htop (Nat.not_le_of_lt hk) }
  obtain ⟨s', p, hrun, hdone⟩ := cleanupLevels_spec h hrounds hstart .top
  obtain ⟨nodes, hchain, hle⟩ := hrounds 0 (Nat.zero_le _)
  obtain ⟨rest, rfl⟩ := hchain.1.eq_cons
  obtain ⟨rounds, rfl⟩ := Nat.exists_eq_succ_of_ne_zero (Nat.ne_zero_of_lt hle)
  refine ⟨rounds + 1, s', ?_, hdone⟩
  have hheight : s.height c.head ≠ 0 :=
    Nat.ne_zero_of_lt (h.height c.head 0 (h.head_on (Nat.zero_le _)).1)
  rw [vskiplistCleanup, cleanupRetry, if_neg hheight, hrun, Option.bind_some]

/-- Whatever interleaving of calls has come before, `vskiplist_cleanup` returns. It does what it
is for where no marked node of a level stands before the last unmarked node of the level above. -/
theorem skiplist_cleanup [DecidableEq Tid]
    {past : List (State Tid Node Key × Act Tid Node Key)} (run : (machine Tid c).Run past s)
    (hquiet : Quiet s) :
    ∃ rounds s', vskiplistCleanup c rounds s = some s' ∧
      (CleansUp c s s' ↔ ∀ l < c.topLevel, ClearAbove c s l) := by
  have hs := run_settled run hquiet
  obtain ⟨rounds, s', hrun, hdone⟩ := hs.cleanup
  refine ⟨rounds, s', hrun, ?_⟩
  rw [← hdone.clean_iff hs]
  constructor
  · exact fun h => h.clean
  · intro hclean
    exact ⟨hclean, fun n hn hunmarked l hl => hdone.kept hs hn hunmarked hl,
      hdone.toTidied.retired hs⟩

/-- The leftover of node 5 is at the top level, where a cleanup comes by. -/
theorem skiplist_cleanup_top :
    ∃ past s rounds s', (machine Bool twoLevels).Run past s ∧ s.OnLevel 1 5 ∧ s.isMarked 5 1 ∧
      vskiplistCleanup twoLevels rounds s = some s' ∧ CleansUp twoLevels s s' := by
  let M := machine Bool twoLevels
  have hend : (M.exec (vskiplistInit twoLevels) removedOnTheWay).map
      (fun s => (decide (Quiet s), decide (s.OnLevel 1 5), (s.next 5 1).2, s.next 0 0)) =
        some (true, true, true, (some 1, false)) := by
    decide +kernel
  obtain ⟨s, hexec, hs⟩ := Option.map_eq_some_iff.mp hend
  simp only [Prod.mk.injEq, decide_eq_true_iff] at hs
  obtain ⟨hquiet, hon, hmarked, hnext⟩ := hs
  obtain ⟨past, run⟩ : ∃ past, M.Run past s := ⟨_, (Machine.Run.start rfl).exec hexec⟩
  have h := run_settled run hquiet
  obtain ⟨rounds, s', hrun, hcleans⟩ := skiplist_cleanup run hquiet
  refine ⟨past, s, rounds, s', run, hon, hmarked, hrun, hcleans.mpr fun l hl p _ n hn hm => ?_⟩
  -- level 0 goes from head to tail
  obtain rfl : l = 0 := Nat.lt_one_iff.mp hl
  have hreach := (h.reaches_iff (Nat.zero_le _)).mpr hn
  rcases hreach.cases_head with rfl | ⟨m, hm₁, hrest⟩
  · exact absurd hm (h.head_unmarked 0)
  · obtain rfl : m = 1 := Option.some.inj (hm₁.symm.trans (congrArg Prod.fst hnext))
    rcases hrest.cases_head with rfl | ⟨m, hm₂, -⟩
    · exact absurd hm (h.tail_unmarked 0)
    · have hend : none = some m := (h.level_tail 0).symm.trans hm₂
      cases hend

def fourLevels : Config Nat Nat where
  head := 0
  tail := 1
  distinct := twoLevels.distinct
  funCmp n k := (n : Int) - k
  topLevel := 3
  fits := by decide

/-- Node 5 is added on three levels, then node 2 on two; node 2 is removed before it has been
linked at its upper level. -/
def removedBefore : List (Act Bool Nat Nat) :=
  List.flatten [
    .add false 5 5 3 :: List.replicate 18 (.step false),
    .add false 2 2 2 :: List.replicate 12 (.step false),
    .remove true 2 :: List.replicate 25 (.step true),
    List.replicate 3 (.step false)]

/-- Node 2 stays: level 1 is entered at node 5, behind it. -/
theorem skiplist_cleanup_stays :
    ∃ past s rounds s', (machine Bool fourLevels).Run past s ∧ Quiet s ∧
      vskiplistCleanup fourLevels rounds s = some s' ∧ ¬ CleansUp fourLevels s s' := by
  let M := machine Bool fourLevels
  have hend : (M.exec (vskiplistInit fourLevels) removedBefore).map
      (fun s => (decide (Quiet s), (vskiplistCleanup fourLevels 5 s).map
        fun s' => (s'.next 0 1, (s'.next 2 1).2))) =
        some (true, some ((some 2, false), true)) := by
    decide +kernel
  obtain ⟨s, hexec, hs⟩ := Option.map_eq_some_iff.mp hend
  obtain ⟨hquiet, hrun⟩ := Prod.mk.inj hs
  obtain ⟨s', hrun, hs'⟩ := Option.map_eq_some_iff.mp hrun
  obtain ⟨hnext, hmarked⟩ := Prod.mk.inj hs'
  obtain ⟨past, run⟩ : ∃ past, M.Run past s := ⟨_, (Machine.Run.start rfl).exec hexec⟩
  refine ⟨past, s, 5, s', run, decide_eq_true_iff.mp hquiet, hrun, fun hcleans => ?_⟩
  have hreach : Reaches (s'.level 1) fourLevels.head 2 := .single (congrArg Prod.fst hnext)
  exact hcleans.clean 1 (by decide) 2 hreach hmarked

end Sweep

end Libvsync.Map.Skiplist
