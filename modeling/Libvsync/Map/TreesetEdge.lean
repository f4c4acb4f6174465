import Libvsync.Core.SearchPath
import Libvsync.Map.TreesetHeap

/-!
The tree sets with one lock per node. A thread that searches for a key stands
on an edge of the path of the key: it has locked the upper node and goes on to
the lower one. Edges are read off the heap, so they stay as long as nobody
writes the upper node and the node stays on the path. This module is about the
heap alone.
-/

namespace Libvsync.Map.Treeset

open Libvsync.Core

variable {Id Key Value : Type} {head : Id} {h h' : Heap Id Key Value}

/-- The nodes of the tree, which are those that can be reached from the
sentinel. -/
inductive Below (head : Id) (h : Heap Id Key Value) : Id → Prop
  | root {i : Id} : (h head).child false = some i → Below head h i
  | child {i j : Id} {d : Bool} : Below head h i → (h i).external = false →
      (h i).child d = some j → Below head h j

/-- The elements: the keys and values of the external nodes of the tree. -/
def contents (head : Id) (h : Heap Id Key Value) : Set (Key × Value) :=
  { e | ∃ i, Below head h i ∧ (h i).external = true ∧ (h i).key = e.1 ∧ (h i).value = some e.2 }

/-- The tree of the sentinel lies in the heap. -/
def Lies (head : Id) (h : Heap Id Key Value) : Option (Tree Id Key Value) → Prop
  | none => (h head).child false = none
  | some t => Shape head h [] t

theorem below_of_rep {t : Tree Id Key Value} (hr : Rep h t) (hroot : Below head h t.id) :
    ∀ i ∈ t.ids, Below head h i := by
  induction t with
  | ext i k v =>
    intro j hj
    rw [Tree.ids, Multiset.mem_singleton] at hj
    rwa [hj]
  | node i red k a b iha ihb =>
    obtain ⟨hcell, ha, hb, hra, hrb⟩ := hr
    intro j hj
    simp only [Tree.ids, Multiset.mem_add, Multiset.mem_singleton] at hj
    rcases hj with rfl | hj | hj
    · exact hroot
    · exact iha hra (.child hroot hcell.internal ha) j hj
    · exact ihb hrb (.child hroot hcell.internal hb) j hj

variable {o : Option (Tree Id Key Value)}

theorem Lies.below_iff (hl : Lies head h o) (i : Id) : Below head h i ↔ i ∈ idsOf o := by
  cases o with
  | none =>
    simp only [idsOf, Multiset.notMem_zero, iff_false]
    intro hi
    induction hi with
    | root hroot =>
      rw [show (h head).child false = none from hl] at hroot
      cases hroot
    | child _ _ _ ih => exact ih
  | some t =>
    have hroot : (h head).child false = some t.id := hl.place
    constructor
    · intro hi
      induction hi with
      | root hi =>
        rw [hroot] at hi
        cases hi
        exact t.id_mem_ids
      | child _ hint hchild ih => exact hl.sub.closed ih hint hchild
    · exact below_of_rep hl.sub (.root hroot) i

/-- The external nodes of a tree in the heap. -/
theorem Rep.mem_inorder_iff {t : Tree Id Key Value} (hr : Rep h t) (i : Id) (k : Key) (v : Value) :
    Item.ext i k v ∈ t.inorder ↔
      i ∈ t.ids ∧ (h i).external = true ∧ (h i).key = k ∧ (h i).value = some v := by
  induction t with
  | ext j s w =>
    obtain ⟨hk, -, he, hv⟩ := hr
    simp only [Tree.inorder, Tree.ids, List.mem_singleton, Multiset.mem_singleton,
      Item.ext.injEq]
    constructor
    · rintro ⟨rfl, rfl, rfl⟩
      exact ⟨rfl, he, hk, hv⟩
    · rintro ⟨rfl, -, rfl, hv'⟩
      rw [hv] at hv'
      cases hv'
      exact ⟨rfl, hk, rfl⟩
  | node j red s l r ihl ihr =>
    obtain ⟨hcell, -, -, hrl, hrr⟩ := hr
    simp only [Tree.inorder, Tree.ids, List.mem_append, List.mem_cons, Multiset.mem_add,
      Multiset.mem_singleton, ihl hrl, ihr hrr, reduceCtorEq, false_or]
    constructor
    · rintro (⟨hi, hrest⟩ | ⟨hi, hrest⟩)
      · exact ⟨.inr (.inl hi), hrest⟩
      · exact ⟨.inr (.inr hi), hrest⟩
    · rintro ⟨rfl | hi | hi, hrest⟩
      · rw [hcell.internal] at hrest
        cases hrest.1
      · exact .inl ⟨hi, hrest⟩
      · exact .inr ⟨hi, hrest⟩

theorem Lies.contents_eq (hl : Lies head h o) : contents head h = pairsOf o := by
  ext ⟨k, v⟩
  simp only [contents, Set.mem_ofPred_eq, hl.below_iff]
  cases o with
  | none => simp [idsOf, pairsOf]
  | some t => simp only [idsOf, pairsOf, Tree.pairs, Set.mem_ofPred_eq, hl.sub.mem_inorder_iff]

theorem Lies.head_apart (hl : Lies head h o) : head ∉ idsOf o := by
  cases o with
  | none => simp [idsOf]
  | some t =>
    have hnodup := Shape.apart hl
    simp only [placeIds, zero_add, Multiset.singleton_add, Multiset.nodup_cons] at hnodup
    exact hnodup.1

theorem Lies.congr (hl : Lies head h o) (hhead : (h' head).child = (h head).child)
    (hsame : ∀ i ∈ idsOf o, h' i = h i) : Lies head h' o := by
  cases o with
  | none => exact (congrFun hhead false).trans hl
  | some t => exact ⟨(congrFun hhead false).trans hl.place, hl.sub.congr hsame, Shape.apart hl⟩

section Edges

variable [DecidableEq Id] [LinearOrder Key] {key : Key} {f x : Id}

/-- The index of the child on the path; the sentinel has `child[0]` only. -/
def Heap.index (h : Heap Id Key Value) (head i : Id) (key : Key) : Bool :=
  (i ≠ head) && ((h i).key ≤ key)

/-- The edge from `f` to `x` is on the path of the key. -/
structure Edge (head : Id) (h : Heap Id Key Value) (o : Option (Tree Id Key Value)) (key : Key)
    (f x : Id) : Prop where
  onPath : f ∈ head :: pathOf key o
  internal : (h f).external = false
  child : (h f).child (h.index head f key) = some x

variable {p : Place Id Key Value}

theorem index_eq {i : Id} (hp : RepPlace head h p i) (hhead : head ∉ placeIds p)
    (hl : Located key p) : h.index head (top head p) key = topDir p := by
  cases p with
  | nil => simp [Heap.index, top, topDir]
  | cons fr p =>
    have hne : fr.id ≠ head := by
      intro heq
      apply hhead
      rw [← heq]
      simp [placeIds]
    have hdir := hl.dir
    simp only [Heap.index, top, topDir, hp.1.key]
    simp only [hne, ne_eq, not_false_eq_true, decide_true, Bool.true_and]
    exact hdir

omit [DecidableEq Id] [LinearOrder Key] in
theorem RepPlace.top_child {i : Id} (hp : RepPlace head h p i) :
    (h (top head p)).child (topDir p) = some i := by
  cases p with
  | nil => exact hp
  | cons fr p => exact hp.2.1

omit [DecidableEq Id] in
/-- A search that has come to an internal node of the path. -/
theorem Search.toNode {t : Tree Id Key Value} (hs : Search head key h p t) {z : Id}
    (hz : z ∈ t.path key) (hint : (h z).external = false) :
    ∃ fr p' a, fr.id = z ∧ Search head key h (fr :: p') a ∧ plug (fr :: p') a = plug p t := by
  induction t generalizing p with
  | ext i k v =>
    have hz : z = i := by simpa [Tree.path] using hz
    rw [hz, hs.shape.sub.2.2.1] at hint
    cases hint
  | node i red k l r ihl ihr =>
    by_cases hk : k ≤ key
    · have hs' : Search head key h p (.dir i red k (decide (k ≤ key)) r l) := by
        simpa [hk, Tree.dir] using hs
      have hplug : plug (⟨i, red, k, decide (k ≤ key), l⟩ :: p) r = plug p (.node i red k l r) := by
        simp [plug, hk, Tree.dir]
      rw [Tree.path, if_pos hk, List.mem_cons] at hz
      rcases hz with rfl | hz
      · exact ⟨_, p, r, rfl, hs'.down.1, hplug⟩
      · obtain ⟨fr, p', a, hfr, hs'', hplug'⟩ := ihr hs'.down.1 hz
        exact ⟨fr, p', a, hfr, hs'', hplug'.trans hplug⟩
    · have hs' : Search head key h p (.dir i red k (decide (k ≤ key)) l r) := by
        simpa [hk, Tree.dir] using hs
      have hplug : plug (⟨i, red, k, decide (k ≤ key), r⟩ :: p) l = plug p (.node i red k l r) := by
        simp [plug, hk, Tree.dir]
      rw [Tree.path, if_neg hk, List.mem_cons] at hz
      rcases hz with rfl | hz
      · exact ⟨_, p, l, rfl, hs'.down.1, hplug⟩
      · obtain ⟨fr, p', a, hfr, hs'', hplug'⟩ := ihl hs'.down.1 hz
        exact ⟨fr, p', a, hfr, hs'', hplug'.trans hplug⟩

variable {o : Option (Tree Id Key Value)}

theorem Edge.search (he : Edge head h o key f x) (hl : Lies head h o)
    (hsorted : ∀ t ∈ o, Sorted t) :
    ∃ p t, o = some (plug p t) ∧ top head p = f ∧ t.id = x ∧ Search head key h p t := by
  cases o with
  | none =>
    have hf : f = head := by simpa [pathOf] using he.onPath
    have hchild := he.child
    rw [hf, show h.index head head key = false by simp [Heap.index],
      show (h head).child false = none from hl] at hchild
    cases hchild
  | some t =>
    have hroot : Search head key h [] t := ⟨hl, Located.nil key, hsorted t rfl⟩
    obtain ⟨p, sub, hplug, htop, hs⟩ : ∃ p sub, plug p sub = t ∧ top head p = f ∧
        Search head key h p sub := by
      rcases List.mem_cons.mp he.onPath with hf | hf
      · exact ⟨[], t, rfl, hf.symm, hroot⟩
      · obtain ⟨fr, p, a, hfr, hs, hplug⟩ := hroot.toNode hf he.internal
        exact ⟨fr :: p, a, hplug, hfr, hs⟩
    refine ⟨p, sub, by rw [hplug], htop, ?_, hs⟩
    have hchild := he.child
    rw [← htop, index_eq hs.shape.place hs.shape.head_apart hs.located,
      hs.shape.place.top_child] at hchild
    cases hchild
    rfl

section InTree

variable {o : Option (Tree Id Key Value)} (he : Edge head h o key f x) (hl : Lies head h o)
  (hsorted : ∀ t ∈ o, Sorted t)

include he hl hsorted

theorem Edge.mem : x ∈ idsOf o := by
  obtain ⟨p, t, rfl, -, rfl, hs⟩ := he.search hl hsorted
  exact Tree.mem_ids_of_mem_path (mem_path_plug hs.located (t.id_mem_path key))

theorem Edge.ne : x ≠ f := by
  obtain ⟨p, t, rfl, rfl, rfl, hs⟩ := he.search hl hsorted
  obtain ⟨-, -, hout⟩ := hs.shape.split p t.ids rfl
  intro heq
  exact hout _ (top_mem head p) (heq ▸ t.id_mem_ids)

theorem Edge.ne_head : x ≠ head := by
  intro heq
  exact hl.head_apart (heq ▸ he.mem hl hsorted)

theorem Edge.brother (hf : f ≠ head) :
    ∃ y ∈ idsOf o, (h f).child (!h.toward f key) = some y := by
  obtain ⟨p, t, rfl, rfl, rfl, hs⟩ := he.search hl hsorted
  cases p with
  | nil => exact absurd rfl hf
  | cons fr p =>
    refine ⟨fr.sibling.id, ?_, ?_⟩
    · rw [idsOf, ids_plug, placeIds]
      simp [fr.sibling.id_mem_ids]
    · rw [top, toward_eq hs.shape.place.1.key hs.located]
      exact hs.shape.place.2.2.1

theorem Edge.search_external (hext : (h x).external = true) :
    ∃ p k v, o = some (plug p (.ext x k v)) ∧ top head p = f ∧
      Search head key h p (.ext x k v) := by
  obtain ⟨p, t, rfl, htop, rfl, hs⟩ := he.search hl hsorted
  cases t with
  | ext i k v => exact ⟨p, k, v, rfl, htop, hs⟩
  | node i red k l r =>
    change (h i).external = true at hext
    rw [hs.shape.sub.1.internal] at hext
    cases hext

/-- At an external node it is known what the key has. -/
theorem Edge.found (hext : (h x).external = true) :
    ∃ v, (h x).value = some v ∧ ∀ w, (key, w) ∈ contents head h ↔ (h x).key = key ∧ w = v := by
  rw [hl.contents_eq]
  obtain ⟨p, k, v, rfl, -, hs⟩ := he.search_external hl hsorted hext
  obtain ⟨hk, -, -, hv⟩ := hs.shape.sub
  refine ⟨v, hv, fun w => ?_⟩
  rw [pairsOf, pairs_lookup hs.located, hk, eq_comm]

end InTree

theorem Edge.down {y : Id} (he : Edge head h o key f x) (hl : Lies head h o)
    (hsorted : ∀ t ∈ o, Sorted t) (hint : (h x).external = false)
    (hchild : (h x).child (h.toward x key) = some y) : Edge head h o key x y := by
  obtain ⟨p, t, rfl, -, rfl, hs⟩ := he.search hl hsorted
  have hpath : t.id ∈ (plug p t).path key := mem_path_plug hs.located (t.id_mem_path key)
  refine ⟨List.mem_cons_of_mem _ hpath, hint, ?_⟩
  have hne : t.id ≠ head := by
    intro heq
    apply hl.head_apart
    rw [← heq]
    exact Tree.mem_ids_of_mem_path hpath
  rw [show h.index head t.id key = h.toward t.id key by simp [Heap.index, Heap.toward, hne]]
  exact hchild

theorem Edge.next (he : Edge head h o key f x) (hl : Lies head h o) (hsorted : ∀ t ∈ o, Sorted t)
    (hint : (h x).external = false) :
    ∃ y, (h x).child (h.toward x key) = some y ∧ Edge head h o key x y := by
  obtain ⟨p, t, ho, -, rfl, hs⟩ := he.search hl hsorted
  obtain ⟨y, hy⟩ : ∃ y, (h t.id).child (h.toward t.id key) = some y := by
    cases t with
    | ext i k v =>
      change (h i).external = false at hint
      rw [hs.shape.sub.2.2.1] at hint
      cases hint
    | node i red k l r =>
      obtain ⟨-, hleft, hright, -⟩ := hs.shape.sub
      change ∃ y, (h i).child (h.toward i key) = some y
      cases h.toward i key with
      | false => exact ⟨_, hleft⟩
      | true => exact ⟨_, hright⟩
  exact ⟨y, hy, he.down hl hsorted hint hy⟩

/-- The edge stays when its upper node is not written and stays on the path. -/
theorem Edge.congr {o' : Option (Tree Id Key Value)} (he : Edge head h o key f x)
    (hsame : h' f = h f) (hpath : f ∈ pathOf key o → f ∈ pathOf key o') :
    Edge head h' o' key f x := by
  refine ⟨?_, by rw [hsame]; exact he.internal, ?_⟩
  · rcases List.mem_cons.mp he.onPath with hf | hf
    · exact List.mem_cons.mpr (.inl hf)
    · exact List.mem_cons_of_mem _ (hpath hf)
  · rw [Heap.index, hsame]
    exact he.child

end Edges

end Libvsync.Map.Treeset
