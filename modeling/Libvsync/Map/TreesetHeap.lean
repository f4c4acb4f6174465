import Libvsync.Core.SearchTree
import Libvsync.Map.Treeset

/-!
Trees in the heap of the red-black tree set. A subtree and the frames above it
are read off the cells; distinct nodes have distinct addresses, so a write to
one node leaves the rest of the tree alone. Every restructuring of the source
rewrites the cells of a few nodes around the place where the operation is.
-/

namespace Libvsync.Map.Treeset

open Libvsync.Core Function

variable {Id Key Value : Type}

section Cells

variable [DecidableEq Id] (h : Heap Id Key Value) (i j : Id) (c e : Bool) (p : Option Id)

@[simp] theorem setChild_key : (h.setChild i c p j).key = (h j).key := by
  by_cases hj : j = i
  · subst hj
    simp [Heap.setChild]
  · simp [Heap.setChild, hj]

@[simp] theorem setChild_red : (h.setChild i c p j).red = (h j).red := by
  by_cases hj : j = i
  · subst hj
    simp [Heap.setChild]
  · simp [Heap.setChild, hj]

@[simp] theorem setChild_external : (h.setChild i c p j).external = (h j).external := by
  by_cases hj : j = i
  · subst hj
    simp [Heap.setChild]
  · simp [Heap.setChild, hj]

@[simp] theorem setChild_value : (h.setChild i c p j).value = (h j).value := by
  by_cases hj : j = i
  · subst hj
    simp [Heap.setChild]
  · simp [Heap.setChild, hj]

theorem setChild_child :
    (h.setChild i c p j).child e = if j = i ∧ e = c then p else (h j).child e := by
  by_cases hj : j = i
  · subst hj
    by_cases he : e = c
    · subst he
      simp [Heap.setChild]
    · simp [Heap.setChild, he]
  · simp [Heap.setChild, hj]

@[simp] theorem setChild_same : (h.setChild i c p i).child c = p := by
  simp [setChild_child]

@[simp] theorem setChild_other : (h.setChild i c p i).child (!c) = (h i).child (!c) := by
  simp [setChild_child]

variable (red : Bool)

@[simp] theorem setRed_key : (h.setRed i red j).key = (h j).key := by
  by_cases hj : j = i
  · subst hj
    simp [Heap.setRed]
  · simp [Heap.setRed, hj]

@[simp] theorem setRed_external : (h.setRed i red j).external = (h j).external := by
  by_cases hj : j = i
  · subst hj
    simp [Heap.setRed]
  · simp [Heap.setRed, hj]

@[simp] theorem setRed_child : (h.setRed i red j).child = (h j).child := by
  by_cases hj : j = i
  · subst hj
    simp [Heap.setRed]
  · simp [Heap.setRed, hj]

theorem setRed_red : (h.setRed i red j).red = if j = i then red else (h j).red := by
  by_cases hj : j = i
  · subst hj
    simp [Heap.setRed]
  · simp [Heap.setRed, hj]

@[simp] theorem setRed_same : (h.setRed i red i).red = red := by
  simp [setRed_red]

variable {h i j c p red}

theorem setChild_of_ne (hj : j ≠ i) : h.setChild i c p j = h j := by
  simp [Heap.setChild, hj]

theorem setRed_of_ne (hj : j ≠ i) : h.setRed i red j = h j := by
  simp [Heap.setRed, hj]

end Cells

/-- The cell of an internal node, without its pointers. -/
structure NodeCell (h : Heap Id Key Value) (i : Id) (red : Bool) (k : Key) : Prop where
  key : (h i).key = k
  red : (h i).red = red
  internal : (h i).external = false

/-- The tree lies in the heap. -/
def Rep (h : Heap Id Key Value) : Tree Id Key Value → Prop
  | .ext i k v =>
    (h i).key = k ∧ (h i).red = false ∧ (h i).external = true ∧ (h i).value = some v
  | .node i red k l r => NodeCell h i red k ∧ (h i).child false = some l.id ∧
      (h i).child true = some r.id ∧ Rep h l ∧ Rep h r

variable {h : Heap Id Key Value} {a b : Tree Id Key Value}

theorem rep_dir {i : Id} {red : Bool} {k : Key} {d : Bool} :
    Rep h (.dir i red k d a b) ↔ NodeCell h i red k ∧ (h i).child d = some a.id ∧
      (h i).child (!d) = some b.id ∧ Rep h a ∧ Rep h b := by
  cases d
  · rfl
  · simp only [Tree.dir, Rep, Bool.not_true]
    tauto

/-- The two children in the order of the array. -/
theorem Rep.children {i : Id} {red : Bool} {k : Key} {d : Bool} (hr : Rep h (.dir i red k d a b)) :
    (h i).child false = some (if d then b.id else a.id) ∧
      (h i).child true = some (if d then a.id else b.id) := by
  obtain ⟨-, ha, hb, -⟩ := rep_dir.mp hr
  cases d with
  | false => exact ⟨ha, hb⟩
  | true => exact ⟨hb, ha⟩

variable {t : Tree Id Key Value}

theorem Rep.red (hr : Rep h t) : (h t.id).red = t.red := by
  cases t with
  | ext i k v => exact hr.2.1
  | node i red k l r => exact hr.1.red

theorem Rep.external (hr : Rep h t) : (h t.id).external = t.external := by
  cases t with
  | ext i k v => exact hr.2.2.1
  | node i red k l r => exact hr.1.internal

theorem Rep.congr {h' : Heap Id Key Value} (hr : Rep h t) (hsame : ∀ i ∈ t.ids, h' i = h i) :
    Rep h' t := by
  induction t with
  | ext i k v =>
    have hi := hsame i (by simp [Tree.ids])
    simp only [Rep, hi]
    exact hr
  | node i red k l r ihl ihr =>
    have hi := hsame i (by simp [Tree.ids])
    obtain ⟨hcell, hl, hr', hrl, hrr⟩ := hr
    refine ⟨⟨?_, ?_, ?_⟩, ?_, ?_, ihl hrl ?_, ihr hrr ?_⟩
    · rw [hi, hcell.key]
    · rw [hi, hcell.red]
    · rw [hi, hcell.internal]
    · rw [hi, hl]
    · rw [hi, hr']
    · intro j hj
      exact hsame j (by simp [Tree.ids, hj])
    · intro j hj
      exact hsame j (by simp [Tree.ids, hj])

/-- The children of the nodes of a tree are nodes of it. -/
theorem Rep.closed (hr : Rep h t) {i j : Id} {d : Bool} (hi : i ∈ t.ids)
    (hint : (h i).external = false) (hj : (h i).child d = some j) : j ∈ t.ids := by
  induction t with
  | ext i' k v =>
    rw [Tree.ids, Multiset.mem_singleton] at hi
    subst hi
    rw [hr.2.2.1] at hint
    cases hint
  | node i' red k a b iha ihb =>
    obtain ⟨hcell, ha, hb, hra, hrb⟩ := hr
    simp only [Tree.ids, Multiset.mem_add, Multiset.mem_singleton] at hi ⊢
    rcases hi with rfl | hi | hi
    · cases d with
      | false =>
        rw [ha] at hj
        cases hj
        exact .inr (.inl a.id_mem_ids)
      | true =>
        rw [hb] at hj
        cases hj
        exact .inr (.inr b.id_mem_ids)
    · exact .inr (.inl (iha hra hi))
    · exact .inr (.inr (ihb hrb hi))

/-- The node above a place. -/
def top (head : Id) : Place Id Key Value → Id
  | [] => head
  | fr :: _ => fr.id

/-- The index of the pointer to a place. -/
def topDir : Place Id Key Value → Bool
  | [] => false
  | fr :: _ => fr.dir

theorem top_mem (head : Id) (p : Place Id Key Value) : top head p ∈ head ::ₘ placeIds p := by
  cases p <;> simp [top, placeIds]

/-- The frames of a place lie in the heap and lead to the node `i`. -/
def RepPlace (head : Id) (h : Heap Id Key Value) : Place Id Key Value → Id → Prop
  | [], i => (h head).child false = some i
  | fr :: p, i => NodeCell h fr.id fr.red fr.key ∧ (h fr.id).child fr.dir = some i ∧
      (h fr.id).child (!fr.dir) = some fr.sibling.id ∧ Rep h fr.sibling ∧
      RepPlace head h p fr.id

variable {p : Place Id Key Value}

theorem RepPlace.congr {head : Id} {h' : Heap Id Key Value} {i : Id} (hp : RepPlace head h p i)
    (hhead : h' head = h head) (hsame : ∀ j ∈ placeIds p, h' j = h j) : RepPlace head h' p i := by
  induction p generalizing i with
  | nil =>
    simp only [RepPlace, hhead]
    exact hp
  | cons fr p ih =>
    have hi := hsame fr.id (by simp [placeIds])
    obtain ⟨hcell, hdir, hother, hsibling, hup⟩ := hp
    refine ⟨⟨?_, ?_, ?_⟩, ?_, ?_, hsibling.congr ?_, ih hup ?_⟩
    · rw [hi, hcell.key]
    · rw [hi, hcell.red]
    · rw [hi, hcell.internal]
    · rw [hi, hdir]
    · rw [hi, hother]
    · intro j hj
      exact hsame j (by simp [placeIds, hj])
    · intro j hj
      exact hsame j (by simp [placeIds, hj])

/-- A place in the tree and the subtree below it lie in the heap, apart from
each other. -/
structure Shape (head : Id) (h : Heap Id Key Value) (p : Place Id Key Value)
    (t : Tree Id Key Value) : Prop where
  place : RepPlace head h p t.id
  sub : Rep h t
  apart : ({head} + (placeIds p + t.ids)).Nodup

theorem Shape.down {head : Id} {i : Id} {red : Bool} {k : Key} {d : Bool}
    (hs : Shape head h p (.dir i red k d a b)) : Shape head h (⟨i, red, k, d, b⟩ :: p) a := by
  obtain ⟨hplace, hsub, hapart⟩ := hs
  obtain ⟨hcell, ha, hb, hra, hrb⟩ := rep_dir.mp hsub
  rw [Tree.dir_id] at hplace
  refine ⟨⟨hcell, ha, hb, hrb, hplace⟩, hra, ?_⟩
  rw [Tree.dir_ids] at hapart
  convert hapart using 2
  simp only [placeIds]
  abel

theorem Shape.up {head : Id} {fr : Frame Id Key Value} (hs : Shape head h (fr :: p) t) :
    Shape head h p (.dir fr.id fr.red fr.key fr.dir t fr.sibling) := by
  obtain ⟨⟨hcell, hdir, hother, hsibling, hup⟩, hsub, hapart⟩ := hs
  refine ⟨?_, rep_dir.mpr ⟨hcell, hdir, hother, hsub, hsibling⟩, ?_⟩
  · rw [Tree.dir_id]
    exact hup
  · rw [Tree.dir_ids]
    convert hapart using 2
    simp only [placeIds]
    abel

theorem Shape.root {head : Id} (hs : Shape head h p t) : Shape head h [] (plug p t) := by
  induction p generalizing t with
  | nil => exact hs
  | cons fr p ih => exact ih hs.up

theorem Shape.head_apart {head : Id} (hs : Shape head h p t) : head ∉ placeIds p := by
  intro hmem
  have hapart := hs.apart
  simp [hmem] at hapart

theorem Shape.ne_head {head : Id} {fr : Frame Id Key Value} (hs : Shape head h (fr :: p) t) :
    fr.id ≠ head := by
  intro heq
  have hapart := hs.apart
  simp [placeIds, heq] at hapart

/-- From a subtree over to its sibling. -/
theorem shape_switch {head : Id} {i : Id} {red : Bool} {k : Key} {d : Bool} :
    Shape head h (⟨i, red, k, !d, b⟩ :: p) a ↔ Shape head h (⟨i, red, k, d, a⟩ :: p) b := by
  constructor <;> intro hs <;> apply Shape.down
  · rw [← Tree.dir_flip]
    exact hs.up
  · rw [Tree.dir_flip]
    exact hs.up

section Writes

variable [DecidableEq Id] {head : Id} {h h' : Heap Id Key Value} {p : Place Id Key Value}

/-- Only pointers and colours have been written. -/
def SameKeys (h h' : Heap Id Key Value) : Prop :=
  ∀ j, (h' j).key = (h j).key ∧ (h' j).external = (h j).external

omit [DecidableEq Id] in
theorem NodeCell.written {i : Id} {red red' : Bool} {k : Key} (hcell : NodeCell h i red k)
    (hkeys : SameKeys h h') (hred : (h' i).red = red') : NodeCell h' i red' k :=
  ⟨(hkeys i).1.trans hcell.key, hred, (hkeys i).2.trans hcell.internal⟩

theorem setChild_congr {i : Id} {d : Bool} {q : Option Id} (hsame : h' i = h i) :
    h'.setChild i d q i = h.setChild i d q i := by
  simp only [Heap.setChild, update_self, hsame]

/-- Only the nodes of the list have been written. -/
def Kept (written : List Id) (h h' : Heap Id Key Value) : Prop :=
  ∀ j, j ∉ written → h' j = h j

omit [DecidableEq Id] in
theorem Rep.kept {written : List Id} {t : Tree Id Key Value} (hr : Rep h t)
    (hkeep : Kept written h h') (hout : ∀ j ∈ written, j ∉ t.ids) : Rep h' t :=
  hr.congr fun j hj => hkeep j fun hw => hout j hw hj

/-- The top of a place comes to point to another node. -/
theorem RepPlace.redirect {i q : Id} {written : List Id} (hp : RepPlace head h p i)
    (hnodup : (head ::ₘ placeIds p).Nodup) (hkeep : Kept written h h')
    (hout : ∀ j ∈ written, j ∈ head ::ₘ placeIds p → j = top head p)
    (htop : h' (top head p) = h.setChild (top head p) (topDir p) (some q) (top head p)) :
    RepPlace head h' p q := by
  cases p with
  | nil =>
    simp only [top, topDir] at htop
    simp only [RepPlace, htop, setChild_same]
  | cons fr p =>
    obtain ⟨hc, _, ho, hsibling, hup⟩ := hp
    simp only [top, topDir] at hout htop
    simp only [placeIds, Multiset.singleton_add, Multiset.nodup_cons, Multiset.mem_cons,
      Multiset.mem_add, not_or] at hnodup hout
    obtain ⟨⟨hhead, -, -⟩, ⟨hns, hnp⟩, -⟩ := hnodup
    refine ⟨⟨?_, ?_, ?_⟩, ?_, ?_, hsibling.congr ?_, hup.congr ?_ ?_⟩
    · rw [htop, setChild_key, hc.key]
    · rw [htop, setChild_red, hc.red]
    · rw [htop, setChild_external, hc.internal]
    · rw [htop, setChild_same]
    · rw [htop, setChild_other, ho]
    · intro j hj
      apply hkeep j
      intro hw
      rw [hout j hw (by simp [hj])] at hj
      exact hns hj
    · apply hkeep head
      intro hw
      exact hhead (hout head hw (by simp))
    · intro j hj
      apply hkeep j
      intro hw
      rw [hout j hw (by simp [hj])] at hj
      exact hnp hj

omit [DecidableEq Id] in
/-- The nodes of the upper part of a place are apart from those below it. -/
theorem Shape.split {q : Place Id Key Value} {t : Tree Id Key Value} (hs : Shape head h q t)
    (p : Place Id Key Value) (r : Multiset Id) (hids : placeIds q + t.ids = placeIds p + r) :
    (head ::ₘ placeIds p).Nodup ∧ r.Nodup ∧ ∀ j ∈ head ::ₘ placeIds p, j ∉ r := by
  have hall : ((head ::ₘ placeIds p) + r).Nodup := by
    have hapart := hs.apart
    rw [hids] at hapart
    rwa [← Multiset.singleton_add, add_assoc]
  obtain ⟨h1, h2, hdisjoint⟩ := Multiset.nodup_add.mp hall
  exact ⟨h1, h2, fun j hj hr => Multiset.disjoint_left.mp hdisjoint hj hr⟩

end Writes

section Search

variable [LinearOrder Key] [DecidableEq Id] {c : Config Id} {h : Heap Id Key Value}
  {p : Place Id Key Value} {key : Key}

omit [DecidableEq Id] in
theorem toward_eq {fr : Frame Id Key Value} (hcell : (h fr.id).key = fr.key)
    (hl : Located key (fr :: p)) : h.toward fr.id key = fr.dir := by
  rw [Heap.toward, hcell]
  exact hl.dir

theorem towardFrom_eq {i : Id} (hp : RepPlace c.head h p i) (hhead : c.head ∉ placeIds p)
    (hl : Located key p) : h.towardFrom c (top c.head p) key = topDir p := by
  cases p with
  | nil => simp [Heap.towardFrom, top, topDir]
  | cons fr p =>
    have hne : fr.id ≠ c.head := by
      intro heq
      apply hhead
      rw [← heq]
      simp [placeIds]
    have hdir := hl.dir
    simp only [Heap.towardFrom, top, topDir, hp.1.key]
    simp only [hne, ne_eq, not_false_eq_true, decide_true, Bool.true_and]
    exact hdir

/-- A search for `key` has come to the subtree `t`. -/
structure Search (head : Id) (key : Key) (h : Heap Id Key Value) (p : Place Id Key Value)
    (t : Tree Id Key Value) : Prop where
  shape : Shape head h p t
  located : Located key p
  sorted : Sorted (plug p t)

variable {head : Id} {t : Tree Id Key Value}

section

omit [DecidableEq Id]

theorem Search.repaint (hs : Search head key h p t) {h' : Heap Id Key Value}
    {t' : Tree Id Key Value} (hs' : Shape head h' p t') (ht : t'.inorder = t.inorder) :
    Search head key h' p t' := by
  refine ⟨hs', hs.located, ?_⟩
  rw [Sorted, plug_inorder p ht]
  exact hs.sorted

theorem Search.alike (hs : Search head key h p t) {h' : Heap Id Key Value}
    {p' : Place Id Key Value} (hs' : Shape head h' p' t) (halike : Alike p p') :
    Search head key h' p' t := by
  refine ⟨hs', hs.located.alike halike, ?_⟩
  rw [Sorted, halike.inorder]
  exact hs.sorted

/-- The code goes down one step. -/
theorem Search.down {i : Id} {red : Bool} {k : Key} {a b : Tree Id Key Value}
    (hs : Search head key h p (.dir i red k (decide (k ≤ key)) a b)) :
    Search head key h (⟨i, red, k, decide (k ≤ key), b⟩ :: p) a ∧
      h.toward i key = decide (k ≤ key) ∧ (h i).child (decide (k ≤ key)) = some a.id := by
  obtain ⟨hcell, ha, -⟩ := rep_dir.mp hs.shape.sub
  refine ⟨⟨hs.shape.down, hs.located.down hs.sorted rfl, hs.sorted⟩, ?_, ha⟩
  rw [Heap.toward, hcell.key]

/-- The code finds the way down from the father again. -/
theorem Search.father {fr : Frame Id Key Value} (hs : Search head key h (fr :: p) t) :
    h.toward fr.id key = fr.dir ∧ (h fr.id).child fr.dir = some t.id :=
  ⟨toward_eq hs.shape.place.1.key hs.located, hs.shape.place.2.1⟩

end

end Search

section Contents

variable [LinearOrder Key] {c : Config Id}

/-- The state holds a valid tree, and no other node is in use. -/
structure Holds (c : Config Id) (s : State Id Key Value) (t : Tree Id Key Value) : Prop where
  shape : Shape c.head s.heap [] t
  sorted : Sorted t
  colours : ∃ n, Rb true t n
  live : (s.live : Multiset Id) = {c.head} + t.ids

theorem Holds.size_le {s : State Id Key Value} {t : Tree Id Key Value}
    (hs : Holds c s t) : t.size ≤ s.live.length := by
  have hcard := congrArg Multiset.card hs.live
  simp only [Multiset.coe_card, Multiset.card_add, Multiset.card_singleton, t.card_ids] at hcard
  omega

/-- The external nodes among the items are those of a map. -/
def Stores (items : List (Item Id Key Value)) (m : Key → Option Value) : Prop :=
  ∀ k v, m k = some v ↔ ∃ i, Item.ext i k v ∈ items

variable {items items' : List (Item Id Key Value)} {m : Key → Option Value} {key : Key}

/-- Where a search ends, it is known whether the key is there. -/
theorem Stores.lookup {p : Place Id Key Value} {i : Id} {k : Key} {v : Value}
    (hm : Stores (plug p (.ext i k v)).inorder m) (hl : Located key p) :
    m key = if k = key then some v else none := by
  split
  · rename_i heq
    rw [hm]
    exact ⟨i, by simp [inorder_plug, Tree.inorder, heq]⟩
  · rename_i hne
    rw [Option.eq_none_iff_forall_ne_some]
    intro w hw
    obtain ⟨j, hj⟩ := (hm key w).mp hw
    simp only [inorder_plug, Tree.inorder, List.mem_append, List.mem_singleton] at hj
    rcases hj with (hj | hj) | hj
    · exact lt_irrefl _ (hl.left _ hj)
    · cases hj
      exact hne rfl
    · exact lt_irrefl _ (hl.right _ hj)

theorem Stores.insert {i mid : Id} {km : Key} {value : Value} (hm : Stores items m)
    (hnone : m key = none)
    (hitems : ∀ a, a ∈ items' ↔ a = .ext i key value ∨ a = .sep mid km ∨ a ∈ items) :
    Stores items' (update m key (some value)) := by
  intro k v
  by_cases hk : k = key
  · subst hk
    rw [update_self]
    constructor
    · rintro ⟨⟩
      exact ⟨i, (hitems _).mpr (.inl rfl)⟩
    · rintro ⟨j, hj⟩
      rcases (hitems _).mp hj with heq | heq | hold
      · cases heq
        rfl
      · cases heq
      · have := (hm k v).mpr ⟨j, hold⟩
        rw [hnone] at this
        cases this
  · rw [update_of_ne hk, hm]
    constructor
    · rintro ⟨j, hj⟩
      exact ⟨j, (hitems _).mpr (.inr (.inr hj))⟩
    · rintro ⟨j, hj⟩
      rcases (hitems _).mp hj with heq | heq | hold
      · cases heq
        exact absurd rfl hk
      · cases heq
      · exact ⟨j, hold⟩

/-- Taking out the external node that a search has found. -/
theorem Stores.delete {fr : Frame Id Key Value} {p : Place Id Key Value} {i : Id} {v : Value}
    (hm : Stores (plug (fr :: p) (.ext i key v)).inorder m) (hl : Located key (fr :: p)) :
    Stores (plug p fr.sibling).inorder (update m key none) := by
  have hsides := mem_sides fr p
  intro k w
  by_cases hk : k = key
  · subst hk
    rw [update_self]
    constructor
    · rintro ⟨⟩
    · rintro ⟨j, hj⟩
      rcases (hsides _).mpr (.inr hj) with hj | hj
      · exact absurd (hl.left _ hj) (lt_irrefl _)
      · exact absurd (hl.right _ hj) (lt_irrefl _)
  · rw [update_of_ne hk, hm]
    constructor
    · rintro ⟨j, hj⟩
      rw [inorder_plug, List.mem_append, List.mem_append, Tree.inorder, List.mem_singleton] at hj
      refine ⟨j, ?_⟩
      have hside : Item.ext j k w ∈ leftOf (fr :: p) ∨ Item.ext j k w ∈ rightOf (fr :: p) := by
        rcases hj with (hj | heq) | hj
        · exact .inl hj
        · cases heq
          exact absurd rfl hk
        · exact .inr hj
      rcases (hsides _).mp hside with heq | hmem
      · cases heq
      · exact hmem
    · rintro ⟨j, hj⟩
      exact ⟨j, (inorder_cut fr p _).subset hj⟩

end Contents

section Rotations

variable [DecidableEq Id] {head : Id} {h : Heap Id Key Value} {p : Place Id Key Value}

theorem Shape.paint {i : Id} {red : Bool} {k : Key} {d : Bool} {a b : Tree Id Key Value}
    (hs : Shape head h p (.dir i red k d a b)) (red' : Bool) :
    Shape head (h.setRed i red') p (.dir i red' k d a b) := by
  obtain ⟨hnodup, hr, hout⟩ := hs.split p (i ::ₘ (a.ids + b.ids)) (by
    rw [Tree.dir_ids, Multiset.singleton_add])
  obtain ⟨hp, hsub, hapart⟩ := hs
  obtain ⟨hcell, ha, hb, hra, hrb⟩ := rep_dir.mp hsub
  simp only [Multiset.nodup_cons, Multiset.mem_add, not_or] at hr
  have hkeep : Kept [i] h (h.setRed i red') := by
    intro j hj
    exact setRed_of_ne (by simpa using hj)
  have hcell' : NodeCell (h.setRed i red') i red' k := hcell.written (fun j => by simp) (by simp)
  rw [Tree.dir_id] at hp
  refine ⟨?_, rep_dir.mpr ⟨hcell', by simpa using ha, by simpa using hb,
    hra.kept hkeep (by simpa using hr.1.1), hrb.kept hkeep (by simpa using hr.1.2)⟩, ?_⟩
  · rw [Tree.dir_id]
    apply hp.congr
    · apply hkeep
      intro hi
      exact hout head (by simp) (by simp_all)
    · intro j hj
      apply hkeep
      intro hi
      exact hout j (by simp [hj]) (by simp_all)
  · rw [Tree.dir_ids] at hapart ⊢
    exact hapart

/-- The pointers of a rotation: `f`, the child of `g` in direction `d`, rises
above `g`. -/
def rotateUp (h : Heap Id Key Value) (gg : Id) (cgg : Bool) (g f : Id) (d : Bool) :
    Heap Id Key Value :=
  ((h.setChild g d ((h f).child (!d))).setChild f (!d) (some g)).setChild gg cgg (some f)

theorem Shape.rotate {f g : Id} {rf rg : Bool} {kf kg : Key} {d : Bool}
    {x w u : Tree Id Key Value}
    (hs : Shape head h p (.dir g rg kg d (.dir f rf kf d x w) u)) :
    Shape head (rotateUp h (top head p) (topDir p) g f d) p
      (.dir f rf kf d x (.dir g rg kg d w u)) := by
  obtain ⟨hnodup, hr, hout⟩ := hs.split p (f ::ₘ g ::ₘ (x.ids + (w.ids + u.ids))) (by
    simp only [Tree.dir_ids, ← Multiset.singleton_add]
    abel)
  obtain ⟨hp, hsub, hapart⟩ := hs
  obtain ⟨hg, hgd, hgo, hsub, hu⟩ := rep_dir.mp hsub
  obtain ⟨hf, hfd, hfo, hx, hw⟩ := rep_dir.mp hsub
  rw [Tree.dir_id] at hp hgd
  have htop := hout _ (top_mem head p)
  simp only [Multiset.nodup_cons, Multiset.mem_cons, Multiset.mem_add, not_or] at hr htop
  generalize hh' : rotateUp h (top head p) (topDir p) g f d = h'
  rw [rotateUp] at hh'
  have hkeys : SameKeys h h' := fun j => by simp [← hh']
  have hkeep : Kept [g, f, top head p] h h' := by
    intro j hj
    simp only [List.mem_cons, List.not_mem_nil, or_false, not_or] at hj
    rw [← hh', setChild_of_ne hj.2.2, setChild_of_ne hj.2.1, setChild_of_ne hj.1]
  have hcells : NodeCell h' g rg kg ∧ NodeCell h' f rf kf :=
    ⟨hg.written hkeys (by simp [← hh', hg.red]), hf.written hkeys (by simp [← hh', hf.red])⟩
  have hfd' : (h' f).child d = some x.id := by
    simp only [← hh', setChild_child]; grind
  have hfo' : (h' f).child (!d) = some g := by
    simp only [← hh', setChild_child]; grind
  have hgd' : (h' g).child d = some w.id := by
    simp only [← hh', setChild_child]; grind
  have hgo' : (h' g).child (!d) = some u.id := by
    simp only [← hh', setChild_child]; grind
  have htop' : h' (top head p) =
      h.setChild (top head p) (topDir p) (some f) (top head p) := by
    rw [← hh']
    apply setChild_congr
    rw [setChild_of_ne (by grind), setChild_of_ne (by grind)]
  have hlower := rep_dir.mpr
    ⟨hcells.1, hgd', hgo', hw.kept hkeep (by grind), hu.kept hkeep (by grind)⟩
  refine ⟨?_, rep_dir.mpr ⟨hcells.2, hfd', by rw [Tree.dir_id]; exact hfo',
    hx.kept hkeep (by grind), hlower⟩, ?_⟩
  · rw [Tree.dir_id]
    apply hp.redirect hnodup hkeep _ htop'
    intro j hj hup
    have := hout j hup
    grind
  · convert hapart using 2
    simp only [Tree.dir_ids]
    abel

/-- A double rotation is two rotations, the first one below `g`. -/
theorem Shape.double {x f g : Id} {rx rf rg : Bool} {kx kf kg : Key} {d : Bool}
    {a b w u : Tree Id Key Value}
    (hs : Shape head h p (.dir g rg kg d (.dir f rf kf (!d) (.dir x rx kx d a b) w) u)) :
    Shape head (rotateUp (rotateUp h g d f x (!d)) (top head p) (topDir p) g x d) p
      (.dir x rx kx d (.dir f rf kf (!d) a w) (.dir g rg kg d b u)) := by
  have hbelow := hs.down
  rw [← Tree.dir_flip x rx kx d b a] at hbelow
  have hup := hbelow.rotate.up
  dsimp only [top, topDir] at hup
  rw [Tree.dir_flip x rx kx d b] at hup
  exact hup.rotate

end Rotations

end Libvsync.Map.Treeset
