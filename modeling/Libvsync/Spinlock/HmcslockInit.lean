import Libvsync.Spinlock.HmcslockTree
import Mathlib.Algebra.BigOperators.Group.List.Basic
import Mathlib.Data.Finset.Card

/-!
`hmcslock_init` with the array it is given, and `hmcslock_which_lock`. The sizes that they check
are counted by loops of their own, in words of 64 bits, apart from the recursion that fills the
array; so the three have to agree.
-/

namespace Libvsync.Spinlock.Hmcslock

open Libvsync.Core

/-- The product that `_hmcslock_count_nodes` and `hmcslock_which_lock` compute over the first
levels. -/
def nodesProduct (specs : List LevelSpec) (numLevels : Nat) : Nat :=
  (specs.take numLevels).foldl (fun nodes spec => nodes * spec.numNodesPerParent % 2 ^ 64) 1

/-- `_hmcslock_count_nodes` -/
def countNodes (specs : List LevelSpec) : Nat → Nat
  | 0 => 0
  | numLevels + 1 => (nodesProduct specs (numLevels + 1) + countNodes specs numLevels) % 2 ^ 64

/-- The writes to `locks[*idx]`; `none` is an access behind the array. -/
def writeLock (locksLen : Nat) (info : LockInfo) (locks : List LockInfo) :
    Option (List LockInfo) :=
  if locks.length < locksLen then some (locks ++ [info]) else none

/-- `_hmcslock_init_level` on an array of `locksLen` locks. -/
def initLevelIn (locksLen : Nat) (parent : Option Nat) :
    List LevelSpec → List LockInfo → Option (List LockInfo)
  | [], locks => some locks
  | spec :: specs, locks =>
    (fun built : Option (List LockInfo) => built.bind fun locks =>
      (writeLock locksLen ⟨parent, spec.threshold.toNat, specs.isEmpty⟩ locks).bind
        (initLevelIn locksLen (some locks.length) specs))^[spec.numNodesPerParent] (some locks)

/-- `hmcslock_init`; `none` is a failed assertion or an access behind the array. -/
def hmcslockInit (locksLen : Nat) (specs : List LevelSpec) : Option (List LockInfo) :=
  if locksLen > 0 ∧ specs.length > 0 ∧ specs.head?.map LevelSpec.numNodesPerParent = some 1 ∧
      locksLen ≥ countNodes specs specs.length then
    (initLevelIn locksLen none specs []).bind fun locks =>
      if locks.length = locksLen then some locks else none
  else none

/-- The loop of `hmcslock_which_lock` over the locks, from `i` on; `none` is a failed assertion. -/
def leafNodes (leafNodeCount : Nat) : List LockInfo → Nat → List Nat → Option (List Nat)
  | [], _, leaves => some leaves
  | info :: locks, i, leaves =>
    if leaves.length < leafNodeCount then
      leafNodes leafNodeCount locks (i + 1) (if info.isLeaf then leaves ++ [i] else leaves)
    else none

/-- `hmcslock_which_lock`; `none` is a failed assertion, a division by zero or a read of an entry
that was not written. -/
def hmcslockWhichLock (maxThreads : Nat) (locks : List LockInfo) (specs : List LevelSpec)
    (coresPerNode coreId : Nat) : Option Nat :=
  let leafNodeCount := nodesProduct specs specs.length
  if leafNodeCount ≤ maxThreads ∧ 0 < coresPerNode ∧ 0 < leafNodeCount then
    (leafNodes leafNodeCount locks 0 []).bind fun leaves =>
      leaves[coreId / coresPerNode % leafNodeCount]?
  else none

/-- The number of locks of the trees below one parent. -/
def forestSize : List LevelSpec → Nat
  | [] => 0
  | spec :: specs => spec.numNodesPerParent * (1 + forestSize specs)

/-- The number of leaves of the trees below one parent. -/
def leavesBelow : List LevelSpec → Nat
  | [] => 1
  | spec :: specs => spec.numNodesPerParent * leavesBelow specs

/-- From `start` on the array holds the trees below `parent` in depth-first order: each lock, and
behind it the trees below it. -/
def Forest (locks : List LockInfo) (parent : Option Nat) : List LevelSpec → Nat → Prop
  | [], _ => True
  | spec :: specs, start => ∀ p, p < spec.numNodesPerParent →
      locks[start + p * (1 + forestSize specs)]? =
          some ⟨parent, spec.threshold.toNat, specs.isEmpty⟩ ∧
        Forest locks (some (start + p * (1 + forestSize specs))) specs
          (start + p * (1 + forestSize specs) + 1)

variable {locks locks' built next : List LockInfo} {specs : List LevelSpec} {spec : LevelSpec}
  {parent : Option Nat} {start i n : Nat}

theorem Forest.mono (h : Forest locks parent specs start) (hle : locks <+: locks') :
    Forest locks' parent specs start := by
  induction specs generalizing parent start with
  | nil => trivial
  | cons spec specs ih =>
    intro p hp
    exact ⟨getElem?_mono hle (h p hp).1, ih (h p hp).2⟩

/-- What the recursion has built, by the loop over the locks of a level. -/
structure Built (locks built : List LockInfo) (parent : Option Nat) (specs : List LevelSpec) :
    Prop where
  grows : locks <+: built
  length : built.length = locks.length + forestSize specs
  forest : Forest built parent specs locks.length
  leaves : built.countP LockInfo.isLeaf + (if specs = [] then 1 else 0) =
    locks.countP LockInfo.isLeaf + leavesBelow specs

/-- What `n` rounds of that loop have built. -/
structure Rounds (locks built : List LockInfo) (parent : Option Nat) (spec : LevelSpec)
    (specs : List LevelSpec) (n : Nat) : Prop where
  grows : locks <+: built
  length : built.length = locks.length + n * (1 + forestSize specs)
  forest : Forest built parent ({ spec with numNodesPerParent := n } :: specs) locks.length
  leaves : built.countP LockInfo.isLeaf = locks.countP LockInfo.isLeaf + n * leavesBelow specs

theorem Rounds.succ (h : Rounds locks built parent spec specs n)
    (hnext : Built (built ++ [⟨parent, spec.threshold.toNat, specs.isEmpty⟩]) next
      (some built.length) specs) : Rounds locks next parent spec specs (n + 1) := by
  have hwritten : built <+: built ++ [⟨parent, spec.threshold.toNat, specs.isEmpty⟩] :=
    List.prefix_append ..
  refine ⟨h.grows.trans (hwritten.trans hnext.grows), ?_, fun p hp => ?_, ?_⟩
  · rw [hnext.length, List.length_append, List.length_singleton, h.length, Nat.succ_mul]
    omega
  · rcases Nat.lt_or_eq_of_le (Nat.le_of_lt_succ hp) with hp | rfl
    · obtain ⟨hat, hbelow⟩ := h.forest p hp
      exact ⟨getElem?_mono (hwritten.trans hnext.grows) hat,
        hbelow.mono (hwritten.trans hnext.grows)⟩
    · rw [← h.length]
      refine ⟨getElem?_mono hnext.grows List.getElem?_concat_length, ?_⟩
      have hforest := hnext.forest
      rw [List.length_append, List.length_singleton] at hforest
      exact hforest
  · have hleaves := hnext.leaves
    rw [List.countP_append, h.leaves, List.countP_singleton] at hleaves
    rw [Nat.succ_mul]
    cases specs with
    | nil =>
      simp only [List.isEmpty_nil, if_true] at hleaves
      omega
    | cons spec' specs =>
      simp only [List.isEmpty_cons, reduceCtorEq, Bool.false_eq_true, if_false] at hleaves
      omega

theorem initLevel_built (parent : Option Nat) (specs : List LevelSpec) (locks : List LockInfo) :
    Built locks (initLevel parent specs locks) parent specs := by
  induction specs generalizing parent locks with
  | nil => exact ⟨List.prefix_rfl, rfl, trivial, rfl⟩
  | cons spec specs ih =>
    have hrounds : ∀ n, Rounds locks ((fun locks => initLevel (some locks.length) specs
        (locks ++ [⟨parent, spec.threshold.toNat, specs.isEmpty⟩]))^[n] locks)
        parent spec specs n := by
      intro n
      induction n with
      | zero =>
        refine ⟨List.prefix_rfl, ?_, fun p hp => absurd hp (Nat.not_lt_zero p), ?_⟩
        · rw [Nat.zero_mul]
          rfl
        · rw [Nat.zero_mul]
          rfl
      | succ n ihn =>
        rw [Function.iterate_succ_apply']
        exact ihn.succ (ih ..)
    have h := hrounds spec.numNodesPerParent
    rw [initLevel]
    exact ⟨h.grows, h.length, h.forest, h.leaves⟩

/-- A write and the recursion behind it. -/
theorem writeLock_bind {locksLen : Nat} {info : LockInfo} {below : Option Nat}
    (ih : ∀ locks, locks.length ≤ locksLen → initLevelIn locksLen below specs locks =
      if (initLevel below specs locks).length ≤ locksLen then some (initLevel below specs locks)
      else none)
    (locks : List LockInfo) :
    (writeLock locksLen info locks).bind (initLevelIn locksLen below specs) =
      if (initLevel below specs (locks ++ [info])).length ≤ locksLen then
        some (initLevel below specs (locks ++ [info]))
      else none := by
  have hgrows := (initLevel_grows below specs (locks ++ [info])).length_le
  rw [writeLock]
  split
  · refine ih _ ?_
    rw [List.length_append, List.length_singleton]
    omega
  · rw [List.length_append, List.length_singleton] at hgrows
    rw [if_neg (by omega)]
    rfl

/-- The recursion stays inside the array exactly when all it builds fits. -/
theorem initLevelIn_eq (locksLen : Nat) (parent : Option Nat) (specs : List LevelSpec)
    (locks : List LockInfo) (hlocks : locks.length ≤ locksLen) :
    initLevelIn locksLen parent specs locks =
      if (initLevel parent specs locks).length ≤ locksLen then some (initLevel parent specs locks)
      else none := by
  induction specs generalizing parent locks with
  | nil => exact (if_pos hlocks).symm
  | cons spec specs ih =>
    rw [initLevelIn, initLevel]
    generalize spec.numNodesPerParent = n
    induction n with
    | zero => exact (if_pos hlocks).symm
    | succ n ihn =>
      rw [Function.iterate_succ_apply', Function.iterate_succ_apply', ihn]
      generalize (fun locks => initLevel (some locks.length) specs
        (locks ++ [⟨parent, spec.threshold.toNat, specs.isEmpty⟩]))^[n] locks = built
      by_cases hfits : built.length ≤ locksLen
      · rw [if_pos hfits, Option.bind_some, writeLock_bind (ih (some built.length))]
      · have hgrows := (initLevel_grows (some built.length) specs
          (built ++ [⟨parent, spec.threshold.toNat, specs.isEmpty⟩])).length_le
        rw [List.length_append, List.length_singleton] at hgrows
        rw [if_neg hfits, if_neg (by omega)]
        rfl

/-- The sum that `countNodes` computes, without the overflow. -/
def nodesSum (specs : List LevelSpec) : Nat → Nat
  | 0 => 0
  | n + 1 => ((specs.take (n + 1)).map LevelSpec.numNodesPerParent).prod + nodesSum specs n

theorem nodesProduct_eq (specs : List LevelSpec) (n : Nat) :
    nodesProduct specs n =
      ((specs.take n).map LevelSpec.numNodesPerParent).prod % 2 ^ 64 := by
  rw [nodesProduct]
  induction specs.take n using List.reverseRecOn with
  | nil => rfl
  | append_singleton specs spec ih =>
    rw [List.foldl_append, List.foldl_cons, List.foldl_nil, ih, List.map_append, List.map_cons,
      List.map_nil, List.prod_append, List.prod_singleton, Nat.mod_mul_mod]

theorem countNodes_eq (specs : List LevelSpec) (n : Nat) :
    countNodes specs n = nodesSum specs n % 2 ^ 64 := by
  induction n with
  | zero => rfl
  | succ n ih => rw [countNodes, nodesSum, nodesProduct_eq, ih, ← Nat.add_mod]

theorem nodesSum_cons (spec : LevelSpec) (specs : List LevelSpec) (n : Nat) :
    nodesSum (spec :: specs) (n + 1) = spec.numNodesPerParent * (1 + nodesSum specs n) := by
  induction n with
  | zero => simp [nodesSum]
  | succ n ih =>
    rw [nodesSum, ih, List.take_succ_cons, List.map_cons, List.prod_cons, nodesSum]
    ring

/-- The loops count the locks of the array. -/
theorem nodesSum_eq (specs : List LevelSpec) : nodesSum specs specs.length = forestSize specs := by
  induction specs with
  | nil => rfl
  | cons spec specs ih => rw [List.length_cons, nodesSum_cons, ih, forestSize]

theorem leavesBelow_eq (specs : List LevelSpec) :
    leavesBelow specs = (specs.map LevelSpec.numNodesPerParent).prod := by
  induction specs with
  | nil => rfl
  | cons spec specs ih => rw [leavesBelow, ih, List.map_cons, List.prod_cons]

theorem leavesBelow_le (specs : List LevelSpec) (hne : specs ≠ []) :
    leavesBelow specs ≤ forestSize specs := by
  induction specs with
  | nil => exact absurd rfl hne
  | cons spec specs ih =>
    refine Nat.mul_le_mul_left _ ?_
    cases specs with
    | nil => exact Nat.le_refl 1
    | cons spec' specs => exact (ih (List.cons_ne_nil _ _)).trans (Nat.le_add_left ..)

/-- What `hmcslock_init` is meant to build. -/
structure DepthFirst (specs : List LevelSpec) (locks : List LockInfo) : Prop where
  length : locks.length = forestSize specs
  order : Forest locks none specs 0
  level : ∀ i, i < locks.length → ∃ l, l < specs.length ∧ Level locks i l
  children : ∀ i l, Level locks i l →
    ((Finset.range locks.length).filter fun j => (treeOf locks).parent j = some i).card =
      ((specs[l + 1]?).map LevelSpec.numNodesPerParent).getD 0
  leaf : ∀ i l, Level locks i l → ((treeOf locks).isLeaf i = true ↔ l + 1 = specs.length)

variable {j k l p size : Nat}

/-- A place among `n` trees is the top of a tree, or below one. -/
theorem tree_or_below (hlow : start ≤ j) (hhigh : j < start + n * (1 + size)) :
    ∃ p, p < n ∧ (j = start + p * (1 + size) ∨
      start + p * (1 + size) + 1 ≤ j ∧ j < start + p * (1 + size) + 1 + size) := by
  refine ⟨(j - start) / (1 + size), ?_, ?_⟩
  · refine Nat.div_lt_of_lt_mul ?_
    rw [Nat.mul_comm]
    omega
  · have hdiv := Nat.div_add_mod (j - start) (1 + size)
    have hmod := Nat.mod_lt (j - start) (show 0 < 1 + size by omega)
    rw [Nat.mul_comm] at hdiv
    omega

theorem ParentAt.level_of (h : ParentAt locks parent k) {info : LockInfo}
    (hat : locks[j]? = some info) (hparent : info.parent = parent) : Level locks j k := by
  cases parent with
  | none =>
    rw [show k = 0 from h]
    exact .root hat hparent
  | some q =>
    obtain ⟨k', rfl, hq⟩ := h
    exact .child hat hparent hq

/-- Every lock of the trees has a level, and the trees below it behind it. -/
theorem Forest.locate (h : Forest locks parent specs start) (hparent : ParentAt locks parent k)
    (hlow : start ≤ j) (hhigh : j < start + forestSize specs) :
    ∃ m, m < specs.length ∧ Level locks j (k + m) ∧
      Forest locks (some j) (specs.drop (m + 1)) (j + 1) := by
  induction specs generalizing parent start k with
  | nil =>
    rw [forestSize] at hhigh
    omega
  | cons spec specs ih =>
    obtain ⟨p, hp, hplace⟩ := tree_or_below hlow hhigh
    obtain ⟨hat, hbelow⟩ := h p hp
    have hlevel := hparent.level_of hat rfl
    rcases hplace with rfl | ⟨hlow, hhigh⟩
    · exact ⟨0, Nat.succ_pos _, hlevel, hbelow⟩
    · obtain ⟨m, hm, hat, hforest⟩ := ih hbelow ⟨k, rfl, hlevel⟩ hlow hhigh
      refine ⟨m + 1, Nat.succ_lt_succ hm, ?_, hforest⟩
      rw [← Nat.add_assoc, Nat.add_right_comm]
      exact hat

/-- Every lock of the trees is the top of one, or one of the children of its parent, in their
places. -/
theorem Forest.top_or_child (h : Forest locks parent specs start)
    (hparent : ParentAt locks parent k) (hlow : start ≤ j)
    (hhigh : j < start + forestSize specs) :
    ((treeOf locks).parent j = parent ∧ ∃ spec rest p, specs = spec :: rest ∧
        p < spec.numNodesPerParent ∧ j = start + p * (1 + forestSize rest)) ∨
      ∃ i m spec rest p, (treeOf locks).parent j = some i ∧ Level locks i (k + m) ∧
        specs.drop (m + 1) = spec :: rest ∧ p < spec.numNodesPerParent ∧
        j = i + 1 + p * (1 + forestSize rest) := by
  induction specs generalizing parent start k with
  | nil =>
    rw [forestSize] at hhigh
    omega
  | cons spec specs ih =>
    obtain ⟨p, hp, hplace⟩ := tree_or_below hlow hhigh
    obtain ⟨hat, hbelow⟩ := h p hp
    rcases hplace with rfl | ⟨hlow, hhigh⟩
    · refine Or.inl ⟨?_, spec, specs, p, rfl, hp, rfl⟩
      change locks[_]?.bind LockInfo.parent = parent
      rw [hat]
      rfl
    · right
      have hlevel := hparent.level_of hat rfl
      rcases ih hbelow ⟨k, rfl, hlevel⟩ hlow hhigh with
        ⟨htop, spec', rest, p', hspecs, hp', hj⟩ | ⟨i, m, spec', rest, p', hi, hl, hdrop, hrest⟩
      · exact ⟨_, 0, spec', rest, p', htop, hlevel, hspecs, hp', hj⟩
      · refine ⟨i, m + 1, spec', rest, p', hi, ?_, hdrop, hrest⟩
        rw [← Nat.add_assoc, Nat.add_right_comm]
        exact hl

/-- The children of a lock of level `l` are the tops of the trees behind it. -/
theorem DepthFirst.children_of (hlength : locks.length = forestSize specs)
    (hforest : Forest locks none specs 0) {l : Nat} (hi : Level locks i l) :
    ((Finset.range locks.length).filter fun j => (treeOf locks).parent j = some i) =
      match specs.drop (l + 1) with
      | [] => ∅
      | spec :: rest => (Finset.range spec.numNodesPerParent).image
          fun p => i + 1 + p * (1 + forestSize rest) := by
  obtain ⟨info, hat⟩ := hi.valid
  have hinside := (List.getElem?_eq_some_iff.mp hat).1
  obtain ⟨m, hm, hlevel, hbelow⟩ := hforest.locate rfl (Nat.zero_le i) (by omega)
  rw [Nat.zero_add] at hlevel
  obtain rfl := hlevel.unique hi
  have hchild {j : Nat} (hj : j < locks.length) (hparent : (treeOf locks).parent j = some i) :
      ∃ spec rest p, specs.drop (m + 1) = spec :: rest ∧ p < spec.numNodesPerParent ∧
        j = i + 1 + p * (1 + forestSize rest) := by
    rcases hforest.top_or_child rfl (Nat.zero_le j) (by omega) with
      ⟨htop, -⟩ | ⟨i', m', spec, rest, p, hi', hl', hdrop, hp, hj⟩
    · rw [htop] at hparent
      cases hparent
    · rw [hparent] at hi'
      obtain rfl := Option.some.inj hi'
      rw [Nat.zero_add] at hl'
      rw [hl'.unique hlevel] at hdrop
      exact ⟨spec, rest, p, hdrop, hp, hj⟩
  ext j
  rw [Finset.mem_filter, Finset.mem_range]
  split
  · rename_i hdrop
    constructor
    · rintro ⟨hj, hparent⟩
      obtain ⟨spec, rest, p, hcons, -⟩ := hchild hj hparent
      rw [hdrop] at hcons
      cases hcons
    · intro hj
      cases hj
  · rename_i spec rest hdrop
    rw [Finset.mem_image]
    constructor
    · rintro ⟨hj, hparent⟩
      obtain ⟨spec', rest', p, hcons, hp, hj⟩ := hchild hj hparent
      rw [hdrop] at hcons
      cases hcons
      exact ⟨p, Finset.mem_range.mpr hp, hj.symm⟩
    · rintro ⟨p, hp, rfl⟩
      rw [hdrop] at hbelow
      have hat := (hbelow p (Finset.mem_range.mp hp)).1
      refine ⟨(List.getElem?_eq_some_iff.mp hat).1, ?_⟩
      change locks[_]?.bind LockInfo.parent = some i
      rw [hat]
      rfl

theorem init_depthFirst (specs : List LevelSpec) : DepthFirst specs (init specs) := by
  have hbuilt := initLevel_built none specs []
  have hlength : (init specs).length = forestSize specs := by
    rw [init, hbuilt.length]
    exact Nat.zero_add _
  have hforest : Forest (init specs) none specs 0 := hbuilt.forest
  have hlevelled := init_levelled specs
  generalize init specs = locks at *
  refine ⟨hlength, hforest, fun i hi => ?_, fun i l hi => ?_, fun i l hi => ?_⟩
  · obtain ⟨l, hl, hlevel, -⟩ := hforest.locate rfl (Nat.zero_le i) (by omega)
    rw [Nat.zero_add] at hlevel
    exact ⟨l, hl, hlevel⟩
  · rw [DepthFirst.children_of hlength hforest hi, ← List.head?_drop]
    cases specs.drop (l + 1) with
    | nil => rfl
    | cons spec rest =>
      dsimp only
      rw [Finset.card_image_of_injective, Finset.card_range]
      · rfl
      · intro p q heq
        exact Nat.eq_of_mul_eq_mul_right (by omega : 0 < 1 + forestSize rest)
          (Nat.add_left_cancel heq)
  · obtain ⟨info, hat⟩ := hi.valid
    obtain ⟨k, spec', hk, -, -, hleaf⟩ := hlevelled i info hat
    rw [hi.unique hk, ← hleaf]
    change (locks[i]?.map LockInfo.isLeaf).getD false = true ↔ _
    rw [hat]
    rfl

/-- The leaves in the order of the array. -/
def leafIndices (locks : List LockInfo) : List Nat :=
  (List.range locks.length).filter (treeOf locks).isLeaf

/-- Behind the last leaf there is no lock, so the bound on the leaves is never passed. -/
theorem leafNodes_eq {leafNodeCount : Nat} {before rest : List LockInfo} {leaves : List Nat}
    (hlast : ∀ info, rest.getLast? = some info → info.isLeaf = true)
    (hcount : leaves.length + rest.countP LockInfo.isLeaf ≤ leafNodeCount) :
    leafNodes leafNodeCount rest before.length leaves = some (leaves ++
      (List.range' before.length rest.length).filter (treeOf (before ++ rest)).isLeaf) := by
  induction rest generalizing before leaves with
  | nil => simp [leafNodes]
  | cons info rest ih =>
    have hhere : (treeOf (before ++ info :: rest)).isLeaf before.length = info.isLeaf := by
      change ((before ++ info :: rest)[before.length]?.map LockInfo.isLeaf).getD false = _
      rw [List.getElem?_append_right (Nat.le_refl _), Nat.sub_self]
      rfl
    have hlast' (found : LockInfo) (hfound : rest.getLast? = some found) :
        found.isLeaf = true := by
      refine hlast found ?_
      rw [List.getLast?_cons, hfound]
      rfl
    have hbound : leaves.length < leafNodeCount := by
      have hpos : 0 < (info :: rest).countP LockInfo.isLeaf := by
        rw [List.countP_pos_iff]
        refine ⟨_, List.getLast_mem (List.cons_ne_nil info rest), ?_⟩
        exact hlast _ (List.getLast?_eq_some_getLast _)
      omega
    have hrest := @ih (before ++ [info])
      (if info.isLeaf then leaves ++ [before.length] else leaves) hlast' (by
        rw [List.countP_cons] at hcount
        split
        · rename_i hleaf
          rw [if_pos hleaf] at hcount
          rw [List.length_append, List.length_singleton]
          omega
        · rename_i hleaf
          rw [if_neg hleaf] at hcount
          exact hcount)
    rw [List.length_append, List.length_singleton, List.append_assoc] at hrest
    rw [leafNodes, if_pos hbound, hrest, List.length_cons, List.range'_succ, List.filter_cons,
      hhere]
    cases info.isLeaf with
    | true => simp
    | false => simp

theorem leafNodes_length {leafNodeCount i : Nat} {leaves found : List Nat}
    (h : leafNodes leafNodeCount locks i leaves = some found) :
    found.length = leaves.length + locks.countP LockInfo.isLeaf := by
  induction locks generalizing i leaves with
  | nil =>
    cases h
    rfl
  | cons info locks ih =>
    obtain ⟨-, h⟩ := Option.ite_none_right_eq_some.mp h
    rw [ih h, List.countP_cons]
    split
    · rw [List.length_append, List.length_singleton]
      omega
    · rfl

theorem leafNodes_all {leafNodeCount : Nat}
    (hlast : ∀ info, locks.getLast? = some info → info.isLeaf = true)
    (hcount : locks.countP LockInfo.isLeaf ≤ leafNodeCount) :
    leafNodes leafNodeCount locks 0 [] = some (leafIndices locks) := by
  have h := @leafNodes_eq leafNodeCount [] locks [] hlast (by rw [List.length_nil]; omega)
  rw [leafIndices, List.range_eq_range']
  exact h

/-- The last lock of the array has no lock below it. -/
theorem DepthFirst.last_leaf (h : DepthFirst specs locks)
    (hpos : ∀ spec ∈ specs, 1 ≤ spec.numNodesPerParent) {info : LockInfo}
    (hlast : locks.getLast? = some info) : info.isLeaf = true := by
  rw [List.getLast?_eq_getElem?] at hlast
  have hlt := (List.getElem?_eq_some_iff.mp hlast).1
  obtain ⟨m, hm, hlevel, hbelow⟩ := h.order.locate rfl (Nat.zero_le (locks.length - 1))
    (by rw [Nat.zero_add, ← h.length]; exact hlt)
  rw [Nat.zero_add] at hlevel
  have hend : m + 1 = specs.length := by
    by_contra hne
    obtain ⟨spec, rest, hdrop⟩ := List.exists_cons_of_ne_nil
      (show specs.drop (m + 1) ≠ [] by
        rw [ne_eq, List.drop_eq_nil_iff]
        omega)
    rw [hdrop] at hbelow
    have hspec : spec ∈ specs := List.mem_of_mem_drop (hdrop ▸ List.mem_cons_self)
    have hnext := (hbelow 0 (hpos spec hspec)).1
    have hinside := (List.getElem?_eq_some_iff.mp hnext).1
    omega
  have hleaf : (locks[locks.length - 1]?.map LockInfo.isLeaf).getD false = true :=
    (h.leaf _ m hlevel).mpr hend
  rw [hlast] at hleaf
  exact hleaf

theorem leavesBelow_pos (hpos : ∀ spec ∈ specs, 1 ≤ spec.numNodesPerParent) :
    0 < leavesBelow specs := by
  induction specs with
  | nil => exact Nat.one_pos
  | cons spec specs ih =>
    rw [List.forall_mem_cons] at hpos
    exact Nat.mul_pos hpos.1 (ih hpos.2)

/-- What `hmcslock_init` and `hmcslock_which_lock` do with an array of the size that
`_hmcslock_count_nodes` counts. -/
def Builds (specs : List LevelSpec) : Prop :=
  ∃ locks, hmcslockInit (countNodes specs specs.length) specs = some locks ∧
    DepthFirst specs locks ∧
    ∀ maxThreads coresPerNode coreId, leavesBelow specs ≤ maxThreads → 1 ≤ coresPerNode →
      ∃ i, hmcslockWhichLock maxThreads locks specs coresPerNode coreId = some i ∧
        (leafIndices locks)[coreId / coresPerNode % leavesBelow specs]? = some i

theorem countNodes_forestSize (specs : List LevelSpec) :
    countNodes specs specs.length = forestSize specs % 2 ^ 64 := by
  rw [countNodes_eq, nodesSum_eq]

theorem Builds.fits (h : Builds specs) : forestSize specs < 2 ^ 64 := by
  obtain ⟨locks, hinit, hbuilt, -⟩ := h
  obtain ⟨-, hinit⟩ := Option.ite_none_right_eq_some.mp hinit
  obtain ⟨built, -, hinit⟩ := Option.bind_eq_some_iff.mp hinit
  obtain ⟨hlength, heq⟩ := Option.ite_none_right_eq_some.mp hinit
  rw [Option.some.inj heq, hbuilt.length, countNodes_forestSize] at hlength
  rw [hlength]
  exact Nat.mod_lt _ (Nat.two_pow_pos 64)

theorem hmcslockWhichLock_eq (hne : specs ≠ [])
    (hpos : ∀ spec ∈ specs, 1 ≤ spec.numNodesPerParent) (hfits : forestSize specs < 2 ^ 64)
    {maxThreads coresPerNode : Nat} (coreId : Nat) (hmax : leavesBelow specs ≤ maxThreads)
    (hcores : 1 ≤ coresPerNode) :
    ∃ i, hmcslockWhichLock maxThreads (init specs) specs coresPerNode coreId = some i ∧
      (leafIndices (init specs))[coreId / coresPerNode % leavesBelow specs]? = some i := by
  have hbuilt := init_depthFirst specs
  have hproduct : nodesProduct specs specs.length = leavesBelow specs := by
    rw [nodesProduct_eq, List.take_length, ← leavesBelow_eq,
      Nat.mod_eq_of_lt ((leavesBelow_le specs hne).trans_lt hfits)]
  have hleaves : (init specs).countP LockInfo.isLeaf = leavesBelow specs := by
    have hcount := (initLevel_built none specs []).leaves
    rw [if_neg hne, List.countP_nil, Nat.add_zero, Nat.zero_add] at hcount
    exact hcount
  have hnodes := leafNodes_all (fun info => hbuilt.last_leaf hpos) hleaves.le
  have hlength : (leafIndices (init specs)).length = leavesBelow specs := by
    rw [leafNodes_length hnodes, hleaves]
    exact Nat.zero_add _
  have hindex : coreId / coresPerNode % leavesBelow specs < (leafIndices (init specs)).length := by
    rw [hlength]
    exact Nat.mod_lt _ (leavesBelow_pos hpos)
  refine ⟨_, ?_, List.getElem?_eq_getElem hindex⟩
  simp only [hmcslockWhichLock, hproduct]
  rw [if_pos ⟨hmax, hcores, leavesBelow_pos hpos⟩, hnodes]
  exact List.getElem?_eq_getElem hindex

/-- The array is built exactly when the locks can be counted in 64 bits. -/
theorem hmcslock_builds (hone : spec.numNodesPerParent = 1)
    (hpos : ∀ spec ∈ specs, 1 ≤ spec.numNodesPerParent) :
    Builds (spec :: specs) ↔ forestSize (spec :: specs) < 2 ^ 64 := by
  refine ⟨Builds.fits, fun hfits => ⟨init (spec :: specs), ?_, init_depthFirst _, ?_⟩⟩
  · have hlength := (init_depthFirst (spec :: specs)).length
    have hsize : 0 < forestSize (spec :: specs) := by
      rw [forestSize, hone]
      omega
    rw [hmcslockInit, countNodes_forestSize, Nat.mod_eq_of_lt hfits,
      if_pos ⟨hsize, Nat.succ_pos _, congrArg some hone, Nat.le_refl _⟩,
      initLevelIn_eq _ _ _ _ (Nat.zero_le _), ← init, if_pos hlength.le, Option.bind_some,
      if_pos hlength]
  · intro maxThreads coresPerNode coreId hmax hcores
    refine hmcslockWhichLock_eq (List.cons_ne_nil _ _) ?_ hfits coreId hmax hcores
    rw [List.forall_mem_cons]
    exact ⟨hone.ge, hpos⟩

/-- One machine, two nodes and two caches for each of them. -/
theorem hmcslock_builds_caches :
    Builds [⟨1, 10⟩, ⟨2, 10⟩, ⟨2, 10⟩] ↔ forestSize [⟨1, 10⟩, ⟨2, 10⟩, ⟨2, 10⟩] < 2 ^ 64 :=
  hmcslock_builds rfl (by decide)

/-- For this tree two locks are counted. -/
theorem hmcslock_builds_overflow :
    countNodes [⟨1, 10⟩, ⟨3, 10⟩, ⟨12297829382473034410, 10⟩] 3 = 2 ∧
      ¬ Builds [⟨1, 10⟩, ⟨3, 10⟩, ⟨12297829382473034410, 10⟩] := by
  refine ⟨by decide, fun h => ?_⟩
  have hfits := h.fits
  revert hfits
  decide

end Libvsync.Spinlock.Hmcslock
