import Libvsync.Map.TreesetSet
import Mathlib.Algebra.Order.BigOperators.Group.List
import Mathlib.Data.Set.Card

/-!
The height of the trees that pass `_treeset_verify`. Whatever lies in the heap, when the test
passes it is a red-black tree, so that the recursive functions go down no further than twice the
logarithm of the number of keys.
-/

namespace Libvsync.Map.Treeset

open Libvsync.Core

variable {Id Key Value : Type} {h : Heap Id Key Value}

/-- The heap with values that may be missing: the test does not look at them. -/
def Heap.optional (h : Heap Id Key Value) : Heap Id Key (Option Value) := fun i =>
  { key := (h i).key, red := (h i).red, external := (h i).external, child := (h i).child
    value := some (h i).value }

/-- The node lies `d` edges below the root. -/
inductive LiesAt (h : Heap Id Key Value) (root : Id) : Nat → Id → Prop
  | root : LiesAt h root 0 root
  | child {d : Nat} {i j : Id} {b : Bool} : LiesAt h root d i → (h i).external = false →
      (h i).child b = some j → LiesAt h root (d + 1) j

/-- The keys that are stored below the sentinel: those of the external nodes. -/
def storedKeys (head : Id) (h : Heap Id Key Value) : Set Key :=
  {k | ∃ root d i, (h head).child false = some root ∧ LiesAt h root d i ∧
    (h i).external = true ∧ (h i).key = k}

section Paths

variable {root i j : Id} {d e : Nat} {t : Tree Id Key (Option Value)}

theorem LiesAt.trans (hi : LiesAt h root d i) (hj : LiesAt h i e j) :
    LiesAt h root (d + e) j := by
  induction hj with
  | root => exact hi
  | child _ hint hchild ih => exact ih.child hint hchild

/-- A path leads to a subtree. -/
theorem LiesAt.subtree (hi : LiesAt h t.id d i) (hr : Rep h.optional t) :
    ∃ sub : Tree Id Key (Option Value), sub.id = i ∧ Rep h.optional sub ∧
      d + sub.height ≤ t.height ∧ ∀ x ∈ sub.entries, x ∈ t.entries := by
  induction hi with
  | root => exact ⟨t, rfl, hr, (Nat.zero_add _).le, fun x hx => hx⟩
  | @child d i j b _ hint hchild ih =>
    obtain ⟨sub, rfl, hsub, hheight, hentries⟩ := ih
    cases sub with
    | ext i k v =>
      have hext : (h i).external = true := hsub.2.2.1
      rw [Tree.id, hext] at hint
      cases hint
    | node i red k l r =>
      obtain ⟨-, hl, hr', hrl, hrr⟩ := hsub
      rw [Core.Tree.height] at hheight
      cases b with
      | false =>
        have hj : l.id = j := Option.some.inj (hl.symm.trans hchild)
        refine ⟨l, hj, hrl, by omega, fun x hx => hentries x ?_⟩
        exact List.mem_append_left _ hx
      | true =>
        have hj : r.id = j := Option.some.inj (hr'.symm.trans hchild)
        refine ⟨r, hj, hrr, by omega, fun x hx => hentries x ?_⟩
        exact List.mem_append_right _ hx

theorem Rep.liesAt (hr : Rep h.optional t) {x : Key × Option Value} (hx : x ∈ t.entries) :
    ∃ d i, LiesAt h t.id d i ∧ (h i).external = true ∧ (h i).key = x.1 := by
  induction t with
  | ext i k v =>
    rw [List.mem_singleton.mp hx]
    exact ⟨0, i, .root, hr.2.2.1, hr.1⟩
  | node i red k l r ihl ihr =>
    obtain ⟨hcell, hl, hr', hrl, hrr⟩ := hr
    have hdown {j : Id} (b : Bool) (hj : (h i).child b = some j) : LiesAt h i 1 j :=
      LiesAt.root.child hcell.internal hj
    rcases List.mem_append.mp hx with hx | hx
    · obtain ⟨d, j, hj, hext, hkey⟩ := ihl hrl hx
      exact ⟨1 + d, j, (hdown false hl).trans hj, hext, hkey⟩
    · obtain ⟨d, j, hj, hext, hkey⟩ := ihr hrr hx
      exact ⟨1 + d, j, (hdown true hr').trans hj, hext, hkey⟩

end Paths

theorem Rep.storedKeys_eq {head : Id} {t : Tree Id Key (Option Value)}
    (hroot : (h head).child false = some t.id) (hr : Rep h.optional t) :
    storedKeys head h = {k | k ∈ t.entries.map Prod.fst} := by
  ext k
  constructor
  · rintro ⟨root, d, i, hroot', hi, hext, rfl⟩
    obtain rfl : t.id = root := Option.some.inj (hroot.symm.trans hroot')
    obtain ⟨sub, rfl, hsub, -, hentries⟩ := hi.subtree hr
    cases sub with
    | ext i k v =>
      have hkey : (h i).key = k := hsub.1
      refine List.mem_map.mpr ⟨(k, v), hentries _ (List.mem_singleton.mpr rfl), hkey.symm⟩
    | node i red k l r =>
      have hint : (h i).external = false := hsub.1.internal
      rw [Tree.id, hint] at hext
      cases hext
  · intro hk
    obtain ⟨x, hx, rfl⟩ := List.mem_map.mp hk
    obtain ⟨d, i, hi, hext, hkey⟩ := hr.liesAt hx
    exact ⟨t.id, d, i, hroot, hi, hext, hkey⟩

section Verify

variable [LinearOrder Key] {rounds n : Nat} {i : Id} {pr : Bool} {limitB limitE : Option Key}

theorem verifyRecursive_optional : verifyRecursive h.optional rounds i pr limitB limitE =
    verifyRecursive h rounds i pr limitB limitE := by
  induction rounds generalizing i pr limitB limitE with
  | zero => rfl
  | succ rounds ih =>
    rw [verifyRecursive, verifyRecursive]
    simp only [ih]
    rfl

theorem deref_eq_ok {p : Option Id} (hp : deref p = .ok i) : p = some i := by
  cases p with
  | none => cases hp
  | some j => exact congrArg some (Except.ok.inj hp)

/-- Where the test passes a red-black tree lies in the heap. -/
theorem verifyRecursive_tree (hok : verifyRecursive h rounds i pr limitB limitE = .ok n) :
    ∃ t : Tree Id Key (Option Value), t.id = i ∧ Rep h.optional t ∧ Sorted t ∧ Rb pr t n ∧
      Within limitB limitE t := by
  induction rounds generalizing i pr limitB limitE n with
  | zero => cases hok
  | succ rounds ih =>
    rw [verifyRecursive] at hok
    obtain ⟨_, hlow, hok⟩ := bind_eq_ok hok
    obtain ⟨_, hhigh, hok⟩ := bind_eq_ok hok
    have hlow := check_eq_ok hlow
    have hhigh := check_eq_ok hhigh
    split at hok
    · rename_i hext
      obtain ⟨_, hred, hok⟩ := bind_eq_ok hok
      cases hok
      refine ⟨.ext i (h i).key (h i).value, rfl, ⟨rfl, check_eq_ok hred, hext, rfl⟩,
        List.pairwise_singleton _ _, rfl, fun a ha => ?_⟩
      rw [List.mem_singleton.mp ha]
      exact ⟨hlow, hhigh⟩
    · rename_i hint
      obtain ⟨l, hl, hok⟩ := bind_eq_ok hok
      obtain ⟨r, hr, hok⟩ := bind_eq_ok hok
      obtain ⟨bhLe, hleft, hok⟩ := bind_eq_ok hok
      obtain ⟨bhRi, hright, hok⟩ := bind_eq_ok hok
      obtain ⟨_, hblack, hok⟩ := bind_eq_ok hok
      obtain ⟨_, hredred, hok⟩ := bind_eq_ok hok
      have hn : bhLe + (if (h i).red then 0 else 1) = n := Except.ok.inj hok
      have hredred := check_eq_ok hredred
      obtain rfl : bhLe = bhRi := check_eq_ok hblack
      obtain ⟨a, rfl, hra, hsa, hba, hwa⟩ := ih hleft
      obtain ⟨b, rfl, hrb, hsb, hbb, hwb⟩ := ih hright
      have hcell : NodeCell h.optional i (h i).red (h i).key :=
        ⟨rfl, rfl, Bool.eq_false_of_not_eq_true hint⟩
      refine ⟨.node i (h i).red (h i).key a b, rfl,
        ⟨hcell, deref_eq_ok hl, deref_eq_ok hr, hra, hrb⟩, ?_, ?_, ?_⟩
      · rw [Sorted, Tree.inorder, List.pairwise_append, List.pairwise_cons]
        refine ⟨hsa, ⟨fun y hy => ?_, hsb⟩, fun x hx y hy => Item.before_of_lt ?_⟩
        · cases y with
          | ext j key v => exact (hwb _ hy).1 _ rfl
          | sep j key =>
            -- an element between the two separators keeps them apart
            obtain ⟨x, hx, hlt⟩ := hsb.lt_sep hy
            obtain ⟨j', hx⟩ := Tree.mem_entries.mp hx
            exact ((hwb _ hx).1 _ rfl).trans_lt hlt
        · have hlt := (hwa x hx).2 _ rfl
          rcases List.mem_cons.mp hy with rfl | hy
          · exact hlt
          · exact hlt.trans_le ((hwb y hy).1 _ rfl)
      · cases hred : (h i).red with
        | true =>
          rw [hred] at hba hbb hn hredred
          exact ⟨hredred.resolve_right Bool.noConfusion, hn ▸ hba, hn ▸ hbb⟩
        | false =>
          rw [hred] at hba hbb hn
          exact ⟨bhLe, hn.symm, hba, hbb⟩
      · intro x hx
        rw [Tree.inorder, List.mem_append, List.mem_cons] at hx
        rcases hx with hx | rfl | hx
        · exact ⟨(hwa x hx).1, fun e he => ((hwa x hx).2 _ rfl).trans (hhigh e he)⟩
        · exact ⟨hlow, hhigh⟩
        · exact ⟨fun e he => (hlow e he).trans ((hwb x hx).1 _ rfl), (hwb x hx).2⟩

end Verify

section Recursion

variable {rounds : Nat} {t : Tree Id Key (Option Value)}

/-- The recursion of `_treeset_visit_recursive` goes down as far as the tree does. -/
theorem visitRecursive_spec (hr : Rep h.optional t) (hrounds : t.height < rounds) :
    visitRecursive h rounds t.id = .ok t.entries := by
  induction t generalizing rounds with
  | ext i k v =>
    obtain ⟨hkey, -, hext, hvalue⟩ := hr
    obtain ⟨rounds, rfl⟩ := Nat.exists_eq_succ_of_ne_zero (Nat.ne_zero_of_lt hrounds)
    have hext : (h i).external = true := hext
    have hkey : (h i).key = k := hkey
    have hvalue : (h i).value = v := Option.some.inj hvalue
    rw [Tree.id, visitRecursive, if_pos hext, hkey, hvalue]
    rfl
  | node i red k l r ihl ihr =>
    obtain ⟨hcell, hl, hr', hrl, hrr⟩ := hr
    obtain ⟨rounds, rfl⟩ := Nat.exists_eq_succ_of_ne_zero (Nat.ne_zero_of_lt hrounds)
    rw [Core.Tree.height] at hrounds
    have hint : (h i).external = false := hcell.internal
    have hl : (h i).child false = some l.id := hl
    have hr' : (h i).child true = some r.id := hr'
    have hleft : visitRecursive h rounds l.id = .ok l.entries := ihl hrl (by omega)
    have hright : visitRecursive h rounds r.id = .ok r.entries := ihr hrr (by omega)
    rw [Tree.id, visitRecursive, hint, if_neg Bool.false_ne_true, hl, hr', deref_some,
      deref_some, ok_bind, hleft, ok_bind, ok_bind, hright]
    rfl

/-- `_treeset_putall_recursive` goes down as far, and puts every node of the tree back. -/
theorem putallRecursive_spec [DecidableEq Id] {s : State Id Key Value}
    (hr : Rep (Heap.optional s.heap) t) (hrounds : t.height < rounds) :
    ∃ s', putallRecursive rounds s t.id = .ok s' ∧ s'.heap = s.heap ∧
      (s'.freed : Multiset Id) = t.ids + s.freed := by
  induction t generalizing rounds s with
  | ext i k v =>
    have hext : (s.heap i).external = true := hr.2.2.1
    obtain ⟨rounds, rfl⟩ := Nat.exists_eq_succ_of_ne_zero (Nat.ne_zero_of_lt hrounds)
    refine ⟨s.putNode i, ?_, rfl, ?_⟩
    · rw [Tree.id, putallRecursive, if_pos hext]
    · rw [Tree.ids, Multiset.singleton_add]
      rfl
  | node i red k l r ihl ihr =>
    obtain ⟨hcell, hl, hr', hrl, hrr⟩ := hr
    obtain ⟨rounds, rfl⟩ := Nat.exists_eq_succ_of_ne_zero (Nat.ne_zero_of_lt hrounds)
    rw [Core.Tree.height] at hrounds
    have hint : (s.heap i).external = false := hcell.internal
    have hl : (s.heap i).child false = some l.id := hl
    have hr' : (s.heap i).child true = some r.id := hr'
    have hleft' : l.height < rounds := by omega
    have hright' : r.height < rounds := by omega
    obtain ⟨s₁, hleft, hheap₁, hfreed₁⟩ := ihl hrl hleft'
    rw [← hheap₁] at hrr
    obtain ⟨s₂, hright, hheap₂, hfreed₂⟩ := ihr hrr hright'
    refine ⟨s₂.putNode i, ?_, hheap₂.trans hheap₁, ?_⟩
    · rw [Tree.id, putallRecursive, hint, if_neg Bool.false_ne_true, hl, deref_some, ok_bind,
        hleft, ok_bind, hheap₁, hr', deref_some, ok_bind, hright]
      rfl
    · have hput : ((s₂.putNode i).freed : Multiset Id) = i ::ₘ (s₂.freed : Multiset Id) := rfl
      rw [hput, hfreed₂, hfreed₁, Tree.ids, ← Multiset.singleton_add]
      abel

end Recursion

section Height

variable [DecidableEq Id] [LinearOrder Key] {c : Config Id} {s : State Id Key Value} {n : Nat}

/-- When `_treeset_verify` passes on a tree of `n` keys, every external node lies at most `2 * bh`
edges below the root, where `bh` is the black height that was found, and `2 ^ bh ≤ n`. The
recursive functions return within a depth that is logarithmic in `n`. -/
theorem treeset_height (hverify : treesetVerify c s = .ok ())
    (hn : (storedKeys c.head s.heap).ncard = n) (hpos : 1 ≤ n) :
    ∃ root bh, (s.heap c.head).child false = some root ∧
      verifyRecursive s.heap s.live.length root true none none = .ok bh ∧
      (∀ d i, LiesAt s.heap root d i → (s.heap i).external = true → d ≤ 2 * bh) ∧
      2 ^ bh ≤ n ∧
      ∀ rounds, 2 * Nat.log 2 n + 1 ≤ rounds →
        (∃ visited, visitRecursive s.heap rounds root = .ok visited ∧ visited.length = n) ∧
        (∃ s', putallRecursive rounds s root = .ok s') ∧
        verifyRecursive s.heap rounds root true none none = .ok bh := by
  cases hroot : (s.heap c.head).child false with
  | none =>
    have hempty : storedKeys c.head s.heap = ∅ := by
      refine Set.eq_empty_of_forall_notMem ?_
      rintro k ⟨root, d, i, hroot', -⟩
      rw [hroot] at hroot'
      cases hroot'
    rw [hempty, Set.ncard_empty] at hn
    omega
  | some root =>
    simp only [treesetVerify, hroot] at hverify
    obtain ⟨bh, hbh, -⟩ := bind_eq_ok hverify
    obtain ⟨t, rfl, hrep, hsorted, hrb, hwithin⟩ := verifyRecursive_tree hbh
    have hlength : t.entries.length = n := by
      rw [← hn, hrep.storedKeys_eq hroot, ← List.coe_toFinset, Set.ncard_coe_finset,
        List.toFinset_card_of_nodup hsorted.nodup_keys, List.length_map]
    have hheight : t.height ≤ 2 * bh := hrb.height_le
    refine ⟨t.id, bh, rfl, hbh, fun d i hi _ => ?_, hlength ▸ hrb.pow_le, fun rounds hrounds => ?_⟩
    · obtain ⟨sub, -, -, hdepth, -⟩ := hi.subtree hrep
      omega
    · have hlog := hrb.height_le_log
      rw [hlength] at hlog
      have hlt : t.height < rounds := by omega
      obtain ⟨s', hput, -⟩ := putallRecursive_spec hrep hlt
      refine ⟨⟨t.entries, visitRecursive_spec hrep hlt, hlength⟩, ⟨s', hput⟩, ?_⟩
      rw [← verifyRecursive_optional]
      exact verifyRecursive_spec rounds hrep hsorted hrb hwithin hlt

end Height

/-- Two keys below a black root. -/
def twoKeys : State Nat Nat Nat where
  heap
    | 0 => ⟨0, false, false, fun d => if d then none else some 1, none⟩
    | 1 => ⟨5, false, false, fun d => if d then some 3 else some 2, none⟩
    | 2 => ⟨3, false, true, fun _ => none, some 30⟩
    | _ => ⟨5, false, true, fun _ => none, some 50⟩
  live := [0, 1, 2, 3]
  freed := []

/-- An allocator that counts up. -/
def countUp : Config Nat where
  head := 0
  malloc live := live.sum + 1
  fresh _ hmem := Nat.not_succ_le_self _ (List.le_sum_of_mem hmem)

theorem treeset_height_two :
    ∃ root bh, (twoKeys.heap countUp.head).child false = some root ∧
      verifyRecursive twoKeys.heap twoKeys.live.length root true none none = .ok bh ∧
      (∀ d i, LiesAt twoKeys.heap root d i → (twoKeys.heap i).external = true → d ≤ 2 * bh) ∧
      2 ^ bh ≤ 2 ∧
      ∀ rounds, 2 * Nat.log 2 2 + 1 ≤ rounds →
        (∃ visited, visitRecursive twoKeys.heap rounds root = .ok visited ∧
          visited.length = 2) ∧
        (∃ s', putallRecursive rounds twoKeys root = .ok s') ∧
        verifyRecursive twoKeys.heap rounds root true none none = .ok bh := by
  refine treeset_height (c := countUp) rfl ?_ (by decide)
  have hrep : Rep (Heap.optional twoKeys.heap)
      (.node 1 false 5 (.ext 2 3 (some 30)) (.ext 3 5 (some 50))) :=
    ⟨⟨rfl, rfl, rfl⟩, rfl, rfl, ⟨rfl, rfl, rfl, rfl⟩, ⟨rfl, rfl, rfl, rfl⟩⟩
  rw [hrep.storedKeys_eq rfl, ← List.coe_toFinset, Set.ncard_coe_finset]
  rfl

end Libvsync.Map.Treeset
