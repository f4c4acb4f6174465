import Libvsync.Core.SearchTree

/-!
Paths of searches. The path of a key is the sequence of nodes that a search for
it visits. A change of a part of a tree that keeps the nodes of that part on
the paths they are on keeps all other nodes on theirs; so a search that has
come to a node goes on from there although the tree above it has changed. The
elements of a tree are a set of pairs, and what a search finds decides whether
the key is in it.
-/

namespace Libvsync.Core

variable {Id Key Value : Type} [LinearOrder Key]

namespace Tree

def path (k : Key) : Tree Id Key Value → List Id
  | .ext i _ _ => [i]
  | .node i _ s l r => i :: if s ≤ k then r.path k else l.path k

theorem path_dir (k : Key) (i : Id) (red : Bool) (s : Key) (d : Bool) (a b : Tree Id Key Value) :
    (dir i red s d a b).path k = i :: if decide (s ≤ k) = d then a.path k else b.path k := by
  cases d with
  | false => by_cases hs : s ≤ k <;> simp [dir, path, hs]
  | true => by_cases hs : s ≤ k <;> simp [dir, path, hs]

theorem id_mem_path (k : Key) (t : Tree Id Key Value) : t.id ∈ t.path k := by
  cases t <;> simp [id, path]

theorem mem_ids_of_mem_path {k : Key} {t : Tree Id Key Value} {z : Id} (hz : z ∈ t.path k) :
    z ∈ t.ids := by
  induction t with
  | ext i s v => simpa [path, ids] using hz
  | node i red s l r ihl ihr =>
    simp only [ids, Multiset.mem_add, Multiset.mem_singleton]
    rcases List.mem_cons.mp hz with rfl | hz
    · exact .inl rfl
    · split at hz
      · exact .inr (.inr (ihr hz))
      · exact .inr (.inl (ihl hz))

end Tree

/-- Nodes of a subtree are on the path of a key that leads to its place. -/
theorem mem_path_plug {k : Key} {p : Place Id Key Value} (hl : Located k p)
    {t : Tree Id Key Value} {z : Id} (hz : z ∈ t.path k) : z ∈ (plug p t).path k := by
  induction p generalizing t with
  | nil => exact hz
  | cons fr p ih =>
    apply ih hl.up
    rw [Tree.path_dir, if_pos hl.dir]
    exact List.mem_cons_of_mem _ hz

/-- Nodes that keep their paths in a part of the tree keep them in all of it. -/
theorem path_plug_mono {t t' : Tree Id Key Value} {kept : Id → Prop}
    (h : ∀ k z, kept z → z ∈ t.path k → z ∈ t'.path k) (p : Place Id Key Value) :
    ∀ k z, kept z → z ∈ (plug p t).path k → z ∈ (plug p t').path k := by
  induction p generalizing t t' with
  | nil => exact h
  | cons fr p ih =>
    apply ih
    intro k z hkept hz
    rw [Tree.path_dir, List.mem_cons] at hz ⊢
    rcases hz with rfl | hz
    · exact .inl rfl
    · split at hz
      · rename_i hd
        rw [if_pos hd]
        exact .inr (h k z hkept hz)
      · rename_i hd
        rw [if_neg hd]
        exact .inr hz

namespace Tree

def pairs (t : Tree Id Key Value) : Set (Key × Value) :=
  { e | ∃ i, Item.ext i e.1 e.2 ∈ t.inorder }

omit [LinearOrder Key] in
theorem pairs_ext (i : Id) (k : Key) (v : Value) :
    (Tree.ext i k v : Tree Id Key Value).pairs = {(k, v)} := by
  ext ⟨k', v'⟩
  simp [pairs, inorder]

end Tree

/-- Where a search ends, it is known what the key has. -/
theorem pairs_lookup {p : Place Id Key Value} {i : Id} {k key : Key} {v w : Value}
    (hl : Located key p) : (key, w) ∈ (plug p (.ext i k v)).pairs ↔ key = k ∧ w = v := by
  simp only [Tree.pairs, Set.mem_ofPred_eq, inorder_plug, Tree.inorder, List.mem_append,
    List.mem_singleton]
  constructor
  · rintro ⟨j, (hj | hj) | hj⟩
    · exact absurd (hl.left _ hj) (lt_irrefl _)
    · cases hj
      exact ⟨rfl, rfl⟩
    · exact absurd (hl.right _ hj) (lt_irrefl _)
  · rintro ⟨rfl, rfl⟩
    exact ⟨i, .inl (.inr rfl)⟩

omit [LinearOrder Key] in
theorem pairs_insert (p : Place Id Key Value) (i mid ext : Id) (k s key : Key) (v value : Value)
    (red d : Bool) :
    (plug p (.dir mid red s d (.ext ext key value) (.ext i k v))).pairs =
      insert (key, value) (plug p (.ext i k v)).pairs := by
  ext ⟨k', v'⟩
  have hitems (j : Id) : Item.ext j k' v' ∈
      (Tree.dir mid red s d (.ext ext key value) (.ext i k v)).inorder ↔
        (j = ext ∧ k' = key ∧ v' = value) ∨ Item.ext j k' v' ∈ (Tree.ext i k v).inorder := by
    cases d <;> simp [Tree.dir, Tree.inorder, or_comm]
  simp only [Tree.pairs, Set.mem_ofPred_eq, Set.mem_insert_iff, Prod.mk.injEq, inorder_plug,
    List.mem_append, hitems]
  constructor
  · rintro ⟨j, (hj | ⟨-, hk, hv⟩ | hj) | hj⟩
    · exact .inr ⟨j, .inl (.inl hj)⟩
    · exact .inl ⟨hk, hv⟩
    · exact .inr ⟨j, .inl (.inr hj)⟩
    · exact .inr ⟨j, .inr hj⟩
  · rintro (⟨hk, hv⟩ | ⟨j, (hj | hj) | hj⟩)
    · exact ⟨ext, .inl (.inr (.inl ⟨rfl, hk, hv⟩))⟩
    · exact ⟨j, .inl (.inl hj)⟩
    · exact ⟨j, .inl (.inr (.inr hj))⟩
    · exact ⟨j, .inr hj⟩

/-- Taking out the external node that a search has found. -/
theorem pairs_delete {fr : Frame Id Key Value} {p : Place Id Key Value} {i : Id} {key : Key}
    {v : Value} (hl : Located key (fr :: p)) :
    (plug p fr.sibling).pairs = (plug (fr :: p) (.ext i key v)).pairs \ {(key, v)} := by
  have hsides := mem_sides fr p
  ext ⟨k, w⟩
  simp only [Set.mem_sdiff, Set.mem_singleton_iff, Prod.mk.injEq]
  constructor
  · rintro ⟨j, hj⟩
    refine ⟨⟨j, (inorder_cut fr p _).subset hj⟩, ?_⟩
    rintro ⟨rfl, rfl⟩
    rcases (hsides _).mpr (.inr hj) with hj | hj
    · exact lt_irrefl _ (hl.left _ hj)
    · exact lt_irrefl _ (hl.right _ hj)
  · rintro ⟨⟨j, hj⟩, hne⟩
    refine ⟨j, ?_⟩
    simp only [inorder_plug, Tree.inorder, List.mem_append, List.mem_singleton] at hj
    have hside : Item.ext j k w ∈ leftOf (fr :: p) ∨ Item.ext j k w ∈ rightOf (fr :: p) := by
      rcases hj with (hj | heq) | hj
      · exact .inl hj
      · cases heq
        exact absurd ⟨rfl, rfl⟩ hne
      · exact .inr hj
    rcases (hsides _).mp hside with heq | hmem
    · cases heq
    · exact hmem

theorem Sorted.value_unique {t : Tree Id Key Value} (hs : Sorted t) {k : Key} {v w : Value}
    (hv : (k, v) ∈ t.pairs) (hw : (k, w) ∈ t.pairs) : v = w := by
  obtain ⟨i, hi⟩ := hv
  obtain ⟨j, hj⟩ := hw
  have hapart : ∀ a ∈ t.inorder, ∀ b ∈ t.inorder, a = b ∨ a.Before b ∨ b.Before a := by
    apply List.Pairwise.forall_of_forall_of_flip
    · intro a _
      exact .inl rfl
    · exact hs.imp fun h => .inr (.inl h)
    · exact hs.imp fun h => .inr (.inr h)
  rcases hapart _ hi _ hj with heq | hlt | hlt
  · cases heq
    rfl
  · exact absurd hlt (lt_irrefl k)
  · exact absurd hlt (lt_irrefl k)

def idsOf : Option (Tree Id Key Value) → Multiset Id
  | none => 0
  | some t => t.ids

def pathOf (k : Key) : Option (Tree Id Key Value) → List Id
  | none => []
  | some t => t.path k

def pairsOf : Option (Tree Id Key Value) → Set (Key × Value)
  | none => ∅
  | some t => t.pairs

theorem mem_idsOf_of_mem_pathOf {k : Key} {o : Option (Tree Id Key Value)} {z : Id}
    (hz : z ∈ pathOf k o) : z ∈ idsOf o := by
  cases o with
  | none => cases hz
  | some t => exact Tree.mem_ids_of_mem_path hz

end Libvsync.Core
