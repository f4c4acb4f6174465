import Libvsync.Core.TreeHeight
import Libvsync.Map.TreesetAdd
import Libvsync.Map.TreesetRemove

/-!
The red-black tree set is a map: every sequence of calls from an initialised
tree returns, with the results of the map, and leaves a tree that passes
`_treeset_verify`. The nodes in use are those of the tree.
-/

namespace Libvsync.Map.Treeset

open Libvsync.Core Function

variable {Id Key Value : Type} [DecidableEq Id] [LinearOrder Key] {c : Config Id}
  {h : Heap Id Key Value} {p : Place Id Key Value} {t : Tree Id Key Value} {key : Key}
  {s : State Id Key Value} {m : Key → Option Value}

section

omit [DecidableEq Id]

/-- The loop of `treeset_contains` ends at the external node of the search. -/
theorem containsLoop_spec (rounds : Nat) (hs : Search c.head key h p t)
    (hrounds : t.size ≤ rounds) :
    ∃ p' i k v, containsLoop key rounds h t.id = .ok i ∧
      Search c.head key h p' (.ext i k v) ∧ plug p' (.ext i k v) = plug p t := by
  induction rounds generalizing p t with
  | zero => exact absurd hrounds (by cases t <;> simp [Tree.size])
  | succ rounds ih =>
    have hext := hs.shape.sub.external
    cases ht : t.external with
    | true =>
      rw [ht] at hext
      cases t with
      | ext i k v => exact ⟨p, i, k, v, by rw [containsLoop, if_pos hext]; rfl, hs, rfl⟩
      | node i red k a b => exact absurd ht (by simp [Tree.external])
    | false =>
      obtain ⟨i, red, k, a, b, rfl⟩ := Tree.exists_of_internal ht fun k => decide (k ≤ key)
      obtain ⟨hdown, htoward, hchild⟩ := hs.down
      obtain ⟨p', i', k', v, hrun, hs', hplug⟩ := ih hdown (by
        rw [Tree.dir_size] at hrounds
        omega)
      refine ⟨p', i', k', v, ?_, hs', hplug⟩
      rw [Tree.dir_id] at hext ⊢
      rw [containsLoop, if_neg (by simp [hext]), htoward, hchild]
      exact hrun

theorem treesetContains_spec (hs : Holds c s t) (hm : Stores t.inorder m) (key : Key) :
    treesetContains c s key = .ok ((m key).isSome, m key) := by
  have hsearch : Search c.head key s.heap [] t := ⟨hs.shape, Located.nil key, hs.sorted⟩
  obtain ⟨p', i, k, v, hrun, hs', hplug⟩ := containsLoop_spec s.live.length hsearch hs.size_le
  have hroot : (s.heap c.head).child false = some t.id := hs.shape.place
  obtain ⟨hk, -, -, hv⟩ := hs'.shape.sub
  rw [plug] at hplug
  rw [← hplug] at hm
  have hlookup := hm.lookup hs'.located
  simp only [treesetContains, hroot, hrun, ok_bind, hk, hv, hlookup]
  by_cases hkey : k = key <;> simp [hkey] <;> rfl

/-- The keys of a subtree lie between the limits of `_treeset_verify_recursive`. -/
def Within (limitB limitE : Option Key) (t : Tree Id Key Value) : Prop :=
  ∀ a ∈ t.inorder, (∀ b ∈ limitB, b ≤ a.key) ∧ ∀ e ∈ limitE, a.key < e

/-- The limits of the two sides of a node. -/
theorem Within.sides {limitB limitE : Option Key} {i : Id} {red : Bool} {k : Key}
    {a b : Tree Id Key Value} (hlimits : Within limitB limitE (.node i red k a b))
    (hsorted : Sorted (.node i red k a b)) :
    Sorted a ∧ Sorted b ∧ Within limitB (some k) a ∧ Within (some k) limitE b := by
  rw [Sorted, Tree.inorder, List.pairwise_append, List.pairwise_cons] at hsorted
  obtain ⟨hsa, ⟨hsb, hsb'⟩, hsa'⟩ := hsorted
  refine ⟨hsa, hsb', ?_, ?_⟩
  · intro x hx
    refine ⟨(hlimits x (by simp [Tree.inorder, hx])).1, ?_⟩
    rintro e ⟨⟩
    have hbefore := hsa' x hx (.sep i k) (by simp)
    cases x <;> exact hbefore
  · intro x hx
    refine ⟨?_, (hlimits x (by simp [Tree.inorder, hx])).2⟩
    rintro e ⟨⟩
    exact (hsb x hx).le

/-- A valid tree passes the test of `_treeset_verify_recursive`, which returns
its number of black nodes on every path. -/
theorem verifyRecursive_spec (rounds : Nat) {n : Nat} {pr : Bool} {limitB limitE : Option Key}
    (hr : Rep h t) (hsorted : Sorted t) (hrb : Rb pr t n) (hlimits : Within limitB limitE t)
    (hrounds : t.height < rounds) : verifyRecursive h rounds t.id pr limitB limitE = .ok n := by
  induction rounds generalizing t n pr limitB limitE with
  | zero => exact absurd hrounds (Nat.not_lt_zero _)
  | succ rounds ih =>
    cases t with
    | ext i k v =>
      obtain ⟨hk, hred, he, -⟩ := hr
      obtain rfl : n = 0 := hrb
      have hlim := hlimits (.ext i k v) (by simp [Tree.inorder])
      simp only [Item.key] at hlim
      change verifyRecursive h (rounds + 1) i pr limitB limitE = _
      simp only [verifyRecursive, hk, check_true hlim.1, check_true hlim.2, he,
        check_true hred, ok_bind, if_true]
      rfl
    | node i red k a b =>
      obtain ⟨hcell, ha, hb, hra, hrb'⟩ := hr
      have hlim := hlimits (.sep i k) (by simp [Tree.inorder])
      simp only [Item.key] at hlim
      obtain ⟨hsa, hsb', hleft, hright⟩ := hlimits.sides hsorted
      rw [Core.Tree.height] at hrounds
      obtain ⟨m, hma, hmb, hn, hcolour⟩ : ∃ m, Rb red a m ∧ Rb red b m ∧
          n = m + (if red then 0 else 1) ∧ (pr = false ∨ red = false) := by
        cases red with
        | true => exact ⟨n, hrb.2.1, hrb.2.2, rfl, .inl hrb.1⟩
        | false =>
          obtain ⟨m, rfl, hma, hmb⟩ := hrb
          exact ⟨m, hma, hmb, rfl, .inr rfl⟩
      have hruna := ih hra hsa hma hleft (by omega)
      have hrunb := ih hrb' hsb' hmb hright (by omega)
      change verifyRecursive h (rounds + 1) i pr limitB limitE = _
      simp only [verifyRecursive, hcell.key, check_true hlim.1, check_true hlim.2,
        hcell.internal, hcell.red, ha, hb, hruna, hrunb, deref_some, ok_bind,
        Bool.false_eq_true, if_false]
      rw [check_true trivial, check_true hcolour, hn]
      rfl

theorem treesetVerify_spec (hs : Holds c s t) : treesetVerify c s = .ok () := by
  obtain ⟨n, hn⟩ := hs.colours
  have hroot : (s.heap c.head).child false = some t.id := hs.shape.place
  have hlimits : Within none none t := fun _ _ => by simp
  have hrun := verifyRecursive_spec s.live.length hs.shape.sub hs.sorted hn hlimits
    (t.height_lt_size.trans_le hs.size_le)
  simp only [treesetVerify, hroot, hrun]
  rfl

end

/-- The nodes that can be reached from the sentinel. -/
inductive InTree (c : Config Id) (h : Heap Id Key Value) : Id → Prop
  | root {i : Id} : (h c.head).child false = some i → InTree c h i
  | child {i j : Id} {d : Bool} : InTree c h i → (h i).external = false →
      (h i).child d = some j → InTree c h j

omit [DecidableEq Id] [LinearOrder Key] in
theorem inTree_of_rep (hr : Rep h t) (hroot : InTree c h t.id) : ∀ i ∈ t.ids, InTree c h i := by
  induction t with
  | ext i k v =>
    intro j hj
    rw [Tree.ids, Multiset.mem_singleton] at hj
    rwa [hj]
  | node i red k a b iha ihb =>
    obtain ⟨hcell, ha, hb, hra, hrb⟩ := hr
    intro j hj
    simp only [Tree.ids, Multiset.mem_add, Multiset.mem_singleton] at hj
    rcases hj with rfl | hj | hj
    · exact hroot
    · exact iha hra (.child hroot hcell.internal ha) j hj
    · exact ihb hrb (.child hroot hcell.internal hb) j hj

omit [DecidableEq Id] in
theorem Holds.inTree_iff (hs : Holds c s t) (i : Id) : InTree c s.heap i ↔ i ∈ t.ids := by
  have hroot : (s.heap c.head).child false = some t.id := hs.shape.place
  constructor
  · intro hi
    induction hi with
    | root h =>
      rw [hroot] at h
      cases h
      exact t.id_mem_ids
    | child _ hint hchild ih => exact hs.shape.sub.closed ih hint hchild
  · exact inTree_of_rep hs.shape.sub (.root hroot) i

/-- The map that the calls are compared with; an operation returns whether it
succeeded and what it writes to `out_value`. -/
def setSpec (m : Key → Option Value) : Call Key Value → Result Value → (Key → Option Value) → Prop
  | .add k v, r, m' =>
    match m k with
    | some w => r = (false, some w) ∧ m' = m
    | none => r = (true, none) ∧ m' = update m k (some v)
  | .remove k, r, m' =>
    match m k with
    | some w => r = (true, some w) ∧ m' = update m k none
    | none => r = (false, none) ∧ m' = m
  | .contains k, r, m' => r = ((m k).isSome, m k) ∧ m' = m

/-- The tree of the state stores the map. -/
def Related (c : Config Id) (s : State Id Key Value) (m : Key → Option Value) : Prop :=
  s.live = [c.head] ∧ (s.heap c.head).child false = none ∧ (∀ k, m k = none) ∨
    ∃ t, Holds c s t ∧ Stores t.inorder m

omit [DecidableEq Id] [LinearOrder Key] in
/-- The map of a tree that is one external node. -/
theorem stores_single {i : Id} {k : Key} {v : Value} :
    Stores (Tree.ext i k v).inorder m ↔ ∀ k' w, m k' = some w ↔ k' = k ∧ w = v := by
  simp [Stores, Tree.inorder]

theorem add_step (hr : Related c s m) (key : Key) (value : Value) :
    ∃ s' r m', treesetAdd c s key value = .ok (s', r) ∧ setSpec m (.add key value) r m' ∧
      Related c s' m' := by
  rcases hr with ⟨hlive, hnull, hnone⟩ | ⟨t, hs, hm⟩
  · obtain ⟨s', i, hrun, hholds, -⟩ := treesetAdd_empty hlive hnull key value
    refine ⟨s', _, update m key (some value), hrun, ?_, .inr ⟨_, hholds, ?_⟩⟩
    · simp only [setSpec, hnone key]
      trivial
    · rw [stores_single]
      intro k' w
      by_cases hk : k' = key
      · simp [hk, eq_comm]
      · simp [hk, hnone k']
  · obtain ⟨s', t', hholds, -, hcase⟩ := treesetAdd_spec hs hm key value
    cases hkey : m key with
    | some v =>
      rw [hkey] at hcase
      exact ⟨s', _, m, hcase.1, by simp [setSpec, hkey], .inr ⟨t', hholds, hcase.2⟩⟩
    | none =>
      rw [hkey] at hcase
      exact ⟨s', _, _, hcase.1, by simp [setSpec, hkey], .inr ⟨t', hholds, hcase.2⟩⟩

/-- The nodes that a successful `treeset_remove` frees are those that leave the
tree: the external node of the key and its father, or the external root. -/
def Frees (c : Config Id) (key : Key) (s s' : State Id Key Value) : Prop :=
  ∃ gone, s'.freed = gone ++ s.freed ∧
    (∀ i, InTree c s.heap i ↔ InTree c s'.heap i ∨ i ∈ gone) ∧
    (∀ i ∈ gone, ¬ InTree c s'.heap i) ∧
    ∃ x, (s.heap x).external = true ∧ (s.heap x).key = key ∧
      (gone = [x] ∧ (s.heap c.head).child false = some x ∨
        ∃ f d, gone = [x, f] ∧ InTree c s.heap f ∧ (s.heap f).child d = some x)

section

omit [DecidableEq Id]

theorem frees_single {i : Id} {v : Value} {s' : State Id Key Value}
    (hs : Holds c s (.ext i key v)) (hnull : (s'.heap c.head).child false = none)
    (hfreed : s'.freed = i :: s.freed) : Frees c key s s' := by
  have hempty (j : Id) : ¬ InTree c s'.heap j := by
    intro hj
    induction hj with
    | root h =>
      rw [hnull] at h
      cases h
    | child _ _ _ ih => exact ih
  obtain ⟨hroot, ⟨hk, -, he, -⟩, -⟩ := hs.shape
  refine ⟨[i], hfreed, ?_, fun j _ => hempty j, i, he, hk, .inl ⟨rfl, hroot⟩⟩
  intro j
  rw [hs.inTree_iff, Tree.ids, Multiset.mem_singleton, List.mem_singleton, or_iff_right (hempty j)]

theorem frees_two {t' : Tree Id Key Value} {x f : Id} {d : Bool} {s' : State Id Key Value}
    (hs : Holds c s t) (hs' : Holds c s' t') (hfreed : s'.freed = x :: f :: s.freed)
    (hids : t.ids = {x} + ({f} + t'.ids)) (hxe : (s.heap x).external = true)
    (hxk : (s.heap x).key = key) (hf : (s.heap f).child d = some x) : Frees c key s s' := by
  have hapart := hs.shape.apart
  simp only [placeIds, zero_add, hids, Multiset.singleton_add, Multiset.nodup_cons,
    Multiset.mem_cons, not_or] at hapart
  refine ⟨[x, f], hfreed, ?_, ?_, x, hxe, hxk, .inr ⟨f, d, rfl, ?_, hf⟩⟩
  · intro i
    rw [hs.inTree_iff, hs'.inTree_iff, hids]
    simp only [Multiset.mem_add, Multiset.mem_singleton, List.mem_cons, List.not_mem_nil, or_false]
    rw [← or_assoc, or_comm]
  · intro i hi
    rw [hs'.inTree_iff]
    simp only [List.mem_cons, List.not_mem_nil, or_false] at hi
    rcases hi with rfl | rfl
    · exact hapart.2.1.2
    · exact hapart.2.2.1
  · rw [hs.inTree_iff, hids]
    simp

end

theorem remove_step (hr : Related c s m) (key : Key) :
    ∃ s' r m', treesetRemove c s key = .ok (s', r) ∧ setSpec m (.remove key) r m' ∧
      Related c s' m' ∧ (r.1 = true → Frees c key s s') := by
  rcases hr with ⟨hlive, hnull, hnone⟩ | ⟨t, hs, hm⟩
  · refine ⟨s, (false, none), m, ?_, by simp [setSpec, hnone key], .inl ⟨hlive, hnull, hnone⟩,
      by simp⟩
    simp only [treesetRemove, hnull]
    rfl
  · cases ht : t.external with
    | true =>
      cases t with
      | ext i k v =>
        have hcase := treesetRemove_single hs key
        have hm' := stores_single.mp hm
        by_cases hkey : k = key
        · subst hkey
          rw [if_pos rfl] at hcase
          obtain ⟨s', hrun, hlive, hnull, hfreed⟩ := hcase
          have hk : m k = some v := (hm' k v).mpr ⟨rfl, rfl⟩
          refine ⟨s', _, update m k none, hrun, by simp [setSpec, hk],
            .inl ⟨hlive, hnull, ?_⟩, ?_⟩
          · intro k'
            by_cases hk' : k' = k
            · simp [hk']
            · rw [update_of_ne hk', Option.eq_none_iff_forall_ne_some]
              intro w hw
              exact hk' ((hm' k' w).mp hw).1
          · exact fun _ => frees_single hs hnull hfreed
        · rw [if_neg hkey] at hcase
          have hk : m key = none := by
            rw [Option.eq_none_iff_forall_ne_some]
            intro w hw
            exact hkey ((hm' key w).mp hw).1.symm
          exact ⟨s, _, m, hcase, by simp [setSpec, hk], .inr ⟨_, hs, hm⟩, by simp⟩
      | node i red k a b => exact absurd ht (by simp [Tree.external])
    | false =>
      have hcase := treesetRemove_spec hs ht hm key
      cases hkey : m key with
      | some v =>
        rw [hkey] at hcase
        obtain ⟨s', t', x, f, d, hrun, hholds, hstores, hfreed, hids, hxe, hxk, hf⟩ := hcase
        exact ⟨s', _, _, hrun, by simp [setSpec, hkey], .inr ⟨t', hholds, hstores⟩,
          fun _ => frees_two hs hholds hfreed hids hxe hxk hf⟩
      | none =>
        rw [hkey] at hcase
        obtain ⟨s', t', hrun, hholds, hstores, -⟩ := hcase
        exact ⟨s', _, m, hrun, by simp [setSpec, hkey], .inr ⟨t', hholds, hstores⟩, by simp⟩

theorem object_step (hr : Related c s m) (call : Call Key Value) :
    ∃ s' r m', object c s call = .ok (s', r) ∧ setSpec m call r m' ∧ Related c s' m' := by
  cases call with
  | add key value => exact add_step hr key value
  | remove key =>
    obtain ⟨s', r, m', hrun, hspec, hr', -⟩ := remove_step hr key
    exact ⟨s', r, m', hrun, hspec, hr'⟩
  | contains key =>
    refine ⟨s, ((m key).isSome, m key), m, ?_, ⟨rfl, rfl⟩, hr⟩
    have hrun : treesetContains c s key = .ok ((m key).isSome, m key) := by
      rcases hr with ⟨-, hnull, hnone⟩ | ⟨t, hs, hm⟩
      · simp only [treesetContains, hnull, hnone key]
        rfl
      · exact treesetContains_spec hs hm key
    simp only [object, hrun]
    rfl

section

omit [DecidableEq Id]

theorem Related.verify (hr : Related c s m) : treesetVerify c s = .ok () := by
  rcases hr with ⟨-, hnull, -⟩ | ⟨t, hs, -⟩
  · simp only [treesetVerify, hnull]
    rfl
  · exact treesetVerify_spec hs

/-- No node is in use but the sentinel and those of the tree. -/
theorem Related.live (hr : Related c s m) (i : Id) :
    i ∈ s.live ↔ i = c.head ∨ InTree c s.heap i := by
  rcases hr with ⟨hlive, hnull, -⟩ | ⟨t, hs, -⟩
  · have hempty (j : Id) : ¬ InTree c s.heap j := by
      intro hj
      induction hj with
      | root h =>
        rw [hnull] at h
        cases h
      | child _ _ _ ih => exact ih
    rw [hlive, List.mem_singleton, or_iff_left (hempty i)]
  · rw [← Multiset.mem_coe, hs.live, Multiset.mem_add, Multiset.mem_singleton, hs.inTree_iff]

end

/-- Every sequence of calls from an initialised tree returns, without a failed
assertion, with the results of a map. The tree it leaves passes
`_treeset_verify`, and a successful `treeset_remove` frees exactly the nodes
that leave the tree. -/
theorem treeset_rb_refines_map (c : Config Id) (memory : Heap Id Key Value)
    (calls : List (Call Key Value)) :
    ∃ s results m, Object.run (object c) (treesetInit c memory) calls = .ok (s, results) ∧
      SpecRun setSpec (fun _ => none) calls results m ∧
      treesetVerify c s = .ok () ∧ (∀ i, i ∈ s.live ↔ i = c.head ∨ InTree c s.heap i) ∧
      ∀ key s' v, treesetRemove c s key = .ok (s', (true, v)) → Frees c key s s' := by
  have hinit : Related c (treesetInit c memory) fun _ => none :=
    .inl ⟨rfl, by simp [treesetInit], fun _ => rfl⟩
  have hstep (s : State Id Key Value) (m : Key → Option Value) (call : Call Key Value)
      (hr : Related c s m) (_ : True) := object_step hr call
  obtain ⟨s, results, m, hrun, hspec, hr⟩ :=
    Object.refines hstep hinit (Object.meets_true calls)
  refine ⟨s, results, m, hrun, hspec, hr.verify, hr.live, ?_⟩
  intro key s' v hremove
  obtain ⟨s'', r, m', hrun', -, -, hfrees⟩ := remove_step hr key
  rw [hremove] at hrun'
  cases hrun'
  exact hfrees rfl

end Libvsync.Map.Treeset
