import Libvsync.Core.Turns
import Libvsync.Core.Word

/-!
The tree of locks that `hmcslock_init` builds in an array. Every lock of a level has the same
number of locks below it, and the locks of the last level are the leaves; so all leaves have
the same number of locks above them.
-/

namespace Libvsync.Spinlock.Hmcslock

open Libvsync.Core

/-- `hmcslock_level_spec_t` -/
structure LevelSpec where
  numNodesPerParent : Nat
  threshold : UInt32

/-- The fields of `hmcslock_t` that do not change. A parent is given by its index. -/
structure LockInfo where
  parent : Option Nat
  threshold : Nat
  isLeaf : Bool

/-- `_hmcslock_init_level`: the locks that are initialized so far are `locks`, and `*idx` is
their number. -/
def initLevel (parent : Option Nat) : List LevelSpec → List LockInfo → List LockInfo
  | [], locks => locks
  | spec :: specs, locks =>
    (fun locks => initLevel (some locks.length) specs
      (locks ++ [⟨parent, spec.threshold.toNat, specs.isEmpty⟩]))^[spec.numNodesPerParent] locks

/-- `hmcslock_init` -/
def init (specs : List LevelSpec) : List LockInfo := initLevel none specs []

structure Tree (Lock : Type) where
  parent : Lock → Option Lock
  threshold : Lock → Nat
  isLeaf : Lock → Bool

def treeOf (locks : List LockInfo) : Tree Nat where
  parent i := locks[i]?.bind LockInfo.parent
  threshold i := (locks[i]?.map LockInfo.threshold).getD 0
  isLeaf i := (locks[i]?.map LockInfo.isLeaf).getD false

variable {Lock : Type}

/-- `lock` of the call number `k`. -/
def Tree.lockAt (T : Tree Lock) (leaf : Lock) : Nat → Lock
  | 0 => leaf
  | k + 1 => (T.parent (T.lockAt leaf k)).getD (T.lockAt leaf k)

/-- What acquire and release rely on: above each leaf there are `top` locks, a lock is met
at one distance from the leaves only, and the last one is the same for all leaves. -/
structure Tree.Uniform (T : Tree Lock) (top : Nat) : Prop where
  parent : ∀ a k, T.isLeaf a = true → k < top → T.parent (T.lockAt a k) ≠ none
  level : ∀ a b j k, T.isLeaf a = true → T.isLeaf b = true → j ≤ top → k ≤ top →
    T.lockAt a j = T.lockAt b k → j = k
  root : ∀ a b, T.isLeaf a = true → T.isLeaf b = true → T.lockAt a top = T.lockAt b top
  threshold : ∀ a k, T.isLeaf a = true → k ≤ top →
    1 ≤ T.threshold (T.lockAt a k) ∧ T.threshold (T.lockAt a k) < 2 ^ 32

/-- Lock `i` is at level `k`, where the root is at level 0. -/
inductive Level (locks : List LockInfo) : Nat → Nat → Prop
  | root {i : Nat} {info : LockInfo} : locks[i]? = some info → info.parent = none →
      Level locks i 0
  | child {i p k : Nat} {info : LockInfo} : locks[i]? = some info → info.parent = some p →
      Level locks p k → Level locks i (k + 1)

variable {locks locks' : List LockInfo} {specs all : List LevelSpec} {spec : LevelSpec}
  {parent : Option Nat} {i j k p : Nat} {info : LockInfo}

theorem Level.unique (hj : Level locks i j) (hk : Level locks i k) : j = k := by
  induction hj generalizing k with
  | root hat hnone =>
    cases hk with
    | root => rfl
    | child hat' hsome =>
      rw [Option.some.inj (hat'.symm.trans hat), hnone] at hsome
      cases hsome
  | child hat hsome _ ih =>
    cases hk with
    | root hat' hnone =>
      rw [Option.some.inj (hat'.symm.trans hat), hsome] at hnone
      cases hnone
    | child hat' hsome' hk =>
      rw [Option.some.inj (hat'.symm.trans hat), hsome] at hsome'
      obtain rfl := Option.some.inj hsome'
      rw [ih hk]

theorem Level.mono (h : Level locks i k) (hle : locks <+: locks') : Level locks' i k := by
  induction h with
  | root hat hnone => exact .root (getElem?_mono hle hat) hnone
  | child hat hsome _ ih => exact .child (getElem?_mono hle hat) hsome ih

/-- Every lock has a level, with the threshold of the level, and the leaves are the locks of
the last level. -/
def Levelled (all : List LevelSpec) (locks : List LockInfo) : Prop :=
  ∀ i info, locks[i]? = some info → ∃ k spec, Level locks i k ∧ all[k]? = some spec ∧
    info.threshold = spec.threshold.toNat ∧ (info.isLeaf = true ↔ k + 1 = all.length)

/-- The locks of level `k` are going to be initialized below `parent`. -/
def ParentAt (locks : List LockInfo) : Option Nat → Nat → Prop
  | none, k => k = 0
  | some p, k => ∃ j, k = j + 1 ∧ Level locks p j

theorem ParentAt.mono (h : ParentAt locks parent k) (hle : locks <+: locks') :
    ParentAt locks' parent k := by
  cases parent with
  | none => exact h
  | some p =>
    obtain ⟨j, hj, hlevel⟩ := h
    exact ⟨j, hj, hlevel.mono hle⟩

/-- A lock is initialized behind the others. -/
theorem ParentAt.level (h : ParentAt locks parent k) (info : LockInfo)
    (hparent : info.parent = parent) :
    Level (locks ++ [info]) locks.length k := by
  have hat : (locks ++ [info])[locks.length]? = some info := List.getElem?_concat_length
  cases parent with
  | none =>
    rw [show k = 0 from h]
    exact .root hat hparent
  | some p =>
    obtain ⟨j, rfl, hlevel⟩ := h
    exact .child hat hparent (hlevel.mono (List.prefix_append ..))

theorem Levelled.concat (h : Levelled all locks) (hlevel : Level (locks ++ [info]) locks.length k)
    (hspec : all[k]? = some spec) (hthreshold : info.threshold = spec.threshold.toNat)
    (hleaf : info.isLeaf = true ↔ k + 1 = all.length) : Levelled all (locks ++ [info]) := by
  intro i found hfound
  rw [List.getElem?_append] at hfound
  split at hfound
  · obtain ⟨k, spec, hk, hrest⟩ := h i found hfound
    exact ⟨k, spec, hk.mono (List.prefix_append ..), hrest⟩
  · rw [List.getElem?_singleton] at hfound
    split at hfound
    · obtain rfl := Option.some.inj hfound
      have hi : i = locks.length := by omega
      rw [hi]
      exact ⟨k, spec, hlevel, hspec, hthreshold, hleaf⟩
    · cases hfound

theorem initLevel_grows (parent : Option Nat) (specs : List LevelSpec) (locks : List LockInfo) :
    locks <+: initLevel parent specs locks := by
  induction specs generalizing parent locks with
  | nil => exact List.prefix_rfl
  | cons spec specs ih =>
    rw [initLevel]
    generalize spec.numNodesPerParent = n
    induction n with
    | zero => exact List.prefix_rfl
    | succ n ihn =>
      rw [Function.iterate_succ_apply']
      exact ihn.trans ((List.prefix_append ..).trans (ih ..))

/-- The recursion over the levels and the loop over the locks of a level. -/
theorem initLevel_levelled (before : List LevelSpec) (hall : all = before ++ specs)
    (h : Levelled all locks)
    (hparent : ParentAt locks parent before.length) :
    Levelled all (initLevel parent specs locks) := by
  induction specs generalizing before parent locks with
  | nil => exact h
  | cons spec specs ih =>
    rw [initLevel]
    have hleaf : specs.isEmpty = true ↔ before.length + 1 = all.length := by
      rw [hall, List.isEmpty_iff_length_eq_zero, List.length_append, List.length_cons]
      omega
    have hspec : all[before.length]? = some spec := by
      rw [hall, List.getElem?_append_right le_rfl, Nat.sub_self]
      rfl
    suffices hboth : ∀ n, let built := (fun locks => initLevel (some locks.length) specs
        (locks ++ [⟨parent, spec.threshold.toNat, specs.isEmpty⟩]))^[n] locks
        locks <+: built ∧ Levelled all built from (hboth _).2
    intro n
    induction n with
    | zero => exact ⟨List.prefix_rfl, h⟩
    | succ n ihn =>
      obtain ⟨hle, hlevelled⟩ := ihn
      rw [Function.iterate_succ_apply']
      generalize (fun locks => initLevel (some locks.length) specs
        (locks ++ [⟨parent, spec.threshold.toNat, specs.isEmpty⟩]))^[n] locks = built at *
      have hlevel := (hparent.mono hle).level ⟨parent, spec.threshold.toNat, specs.isEmpty⟩ rfl
      refine ⟨hle.trans ((List.prefix_append ..).trans (initLevel_grows ..)), ?_⟩
      refine ih (before ++ [spec]) ?_ (hlevelled.concat hlevel hspec rfl hleaf) ?_
      · rw [hall, List.append_assoc]
        rfl
      · exact ⟨before.length, by rw [List.length_append]; rfl, hlevel⟩

theorem initLevel_roots (hat : (initLevel (some p) specs locks)[i]? = some info)
    (hroot : info.parent = none) : i < locks.length := by
  induction specs generalizing p locks with
  | nil => exact (List.getElem?_eq_some_iff.mp hat).1
  | cons spec specs ih =>
    rw [initLevel] at hat
    revert hat
    generalize spec.numNodesPerParent = n
    induction n with
    | zero => exact fun hat => (List.getElem?_eq_some_iff.mp hat).1
    | succ n ihn =>
      rw [Function.iterate_succ_apply']
      intro hat
      refine ihn ?_
      generalize (fun locks => initLevel (some locks.length) specs
        (locks ++ [⟨some p, spec.threshold.toNat, specs.isEmpty⟩]))^[n] locks = built at *
      have hlt := ih hat
      have hsame := getElem?_mono (initLevel_grows (some built.length) specs _)
        (List.getElem?_eq_getElem hlt)
      rw [hat] at hsame
      have hfound := (List.getElem?_eq_getElem hlt).trans hsame.symm
      rw [List.getElem?_append] at hfound
      split at hfound
      · exact hfound
      · rw [List.getElem?_singleton] at hfound
        split at hfound
        · rw [← Option.some.inj hfound] at hroot
          cases hroot
        · cases hfound

theorem Level.parent_ne (h : Level locks i (k + 1)) : (treeOf locks).parent i ≠ none := by
  cases h with
  | child hat hsome =>
    change locks[i]?.bind LockInfo.parent ≠ none
    rw [hat, Option.bind_some, hsome]
    exact Option.some_ne_none _

theorem Level.up (h : Level locks i (k + 1)) :
    Level locks (((treeOf locks).parent i).getD i) k := by
  cases h with
  | child hat hsome hp =>
    change Level locks ((locks[i]?.bind LockInfo.parent).getD i) k
    rw [hat, Option.bind_some, hsome]
    exact hp

theorem Level.lockAt (h : Level locks i (j + k)) : Level locks ((treeOf locks).lockAt i k) j := by
  induction k generalizing j with
  | zero => exact h
  | succ k ih =>
    refine Level.up (ih (j := j + 1) ?_)
    rwa [Nat.add_right_comm]

theorem Level.root_parent (h : Level locks i 0) :
    ∃ info, locks[i]? = some info ∧ info.parent = none := by
  cases h with
  | root hat hnone => exact ⟨_, hat, hnone⟩

theorem Level.valid (h : Level locks i k) : ∃ info, locks[i]? = some info := by
  cases h with
  | root hat | child hat => exact ⟨_, hat⟩

theorem treeOf_leaf (h : Levelled all locks) (hleaf : (treeOf locks).isLeaf i = true) :
    Level locks i (all.length - 1) := by
  have hleaf : (locks[i]?.map LockInfo.isLeaf).getD false = true := hleaf
  cases hat : locks[i]? with
  | none =>
    rw [hat] at hleaf
    cases hleaf
  | some info =>
    rw [hat] at hleaf
    obtain ⟨k, spec, hlevel, -, -, hiff⟩ := h i info hat
    have hk := hiff.mp hleaf
    rw [show all.length - 1 = k by omega]
    exact hlevel

theorem init_levelled (specs : List LevelSpec) : Levelled specs (init specs) := by
  refine initLevel_levelled [] rfl (fun i info hat => ?_) rfl
  cases hat

theorem init_root (hone : spec.numNodesPerParent = 1) (hi : Level (init (spec :: specs)) i 0) :
    i = 0 := by
  obtain ⟨info, hat, hnone⟩ := hi.root_parent
  rw [init, initLevel, hone, Function.iterate_one] at hat
  have hlt := initLevel_roots hat hnone
  exact Nat.lt_one_iff.mp hlt

/-- The tree that `hmcslock_init` builds, with the number of locks at the top that it
asserts. -/
theorem init_uniform (hone : spec.numNodesPerParent = 1)
    (hthreshold : ∀ a ∈ spec :: specs, 1 ≤ a.threshold.toNat) :
    (treeOf (init (spec :: specs))).Uniform specs.length := by
  have hlevelled := init_levelled (spec :: specs)
  have hat (a k : Nat) (ha : (treeOf (init (spec :: specs))).isLeaf a = true)
      (hk : k ≤ specs.length) :
      Level (init (spec :: specs)) ((treeOf (init (spec :: specs))).lockAt a k)
        (specs.length - k) := by
    refine Level.lockAt ?_
    rw [Nat.sub_add_cancel hk]
    exact treeOf_leaf hlevelled ha
  refine ⟨fun a k ha hk => ?_, fun a b j k ha hb hj hk heq => ?_, fun a b ha hb => ?_,
    fun a k ha hk => ?_⟩
  · have hlevel := hat a k ha hk.le
    obtain ⟨d, hd⟩ := Nat.exists_eq_add_of_lt hk
    rw [show specs.length - k = d + 1 by omega] at hlevel
    exact hlevel.parent_ne
  · have hsame := hat a j ha hj
    rw [heq] at hsame
    have hdepth := hsame.unique (hat b k hb hk)
    omega
  · have ha' := hat a _ ha le_rfl
    have hb' := hat b _ hb le_rfl
    rw [Nat.sub_self] at ha' hb'
    rw [init_root hone ha', init_root hone hb']
  · obtain ⟨info, hinfo⟩ := (hat a k ha hk).valid
    obtain ⟨j, found, -, hfound, heq, -⟩ := hlevelled _ info hinfo
    have hval : (treeOf (init (spec :: specs))).threshold
        ((treeOf (init (spec :: specs))).lockAt a k) = found.threshold.toNat := by
      change ((init (spec :: specs))[_]?.map LockInfo.threshold).getD 0 = _
      rw [hinfo]
      exact heq
    rw [hval]
    exact ⟨hthreshold found (List.mem_of_getElem? hfound), found.threshold.toNat_lt⟩

end Libvsync.Spinlock.Hmcslock
