import Mathlib.Algebra.Order.Group.Multiset
import Mathlib.Tactic.Abel

/-!
External red-black search trees whose nodes have identities. The elements lie
in the external nodes; an internal node has a colour and separates the keys of
its two sides. A place in a tree is a list of frames, from the place up to the
root, and a subtree below it. The order of the keys is a property of the
sequence of items from left to right, which a rotation does not change.
Directions are booleans, so that mirrored cases are one case.
-/

namespace Libvsync.Core

variable {Id Key Value : Type}

inductive Tree (Id Key Value : Type) where
  | ext (id : Id) (key : Key) (value : Value)
  | node (id : Id) (red : Bool) (key : Key) (left right : Tree Id Key Value)

namespace Tree

/-- The identity of the topmost node. -/
def id : Tree Id Key Value → Id
  | .ext i _ _ | .node i _ _ _ _ => i

/-- The internal node with `a` in direction `d` and `b` in the other one. -/
def dir (i : Id) (red : Bool) (k : Key) (d : Bool) (a b : Tree Id Key Value) :
    Tree Id Key Value :=
  match d with
  | false => .node i red k a b
  | true => .node i red k b a

@[simp] theorem dir_id (i : Id) (red : Bool) (k : Key) (d : Bool) (a b : Tree Id Key Value) :
    (dir i red k d a b).id = i := by
  cases d <;> rfl

theorem dir_flip (i : Id) (red : Bool) (k : Key) (d : Bool) (a b : Tree Id Key Value) :
    dir i red k (!d) a b = dir i red k d b a := by
  cases d <;> rfl

/-- Every internal node can be seen from either side. -/
theorem exists_dir (i : Id) (red : Bool) (k : Key) (l r : Tree Id Key Value) (d : Bool) :
    ∃ a b, Tree.node i red k l r = dir i red k d a b := by
  cases d with
  | false => exact ⟨l, r, rfl⟩
  | true => exact ⟨r, l, rfl⟩

def red : Tree Id Key Value → Bool
  | .ext _ _ _ => false
  | .node _ red _ _ _ => red

def external : Tree Id Key Value → Bool
  | .ext _ _ _ => true
  | .node _ _ _ _ _ => false

@[simp] theorem dir_red (i : Id) (red : Bool) (k : Key) (d : Bool) (a b : Tree Id Key Value) :
    (dir i red k d a b).red = red := by
  cases d <;> rfl

@[simp] theorem dir_external (i : Id) (red : Bool) (k : Key) (d : Bool)
    (a b : Tree Id Key Value) : (dir i red k d a b).external = false := by
  cases d <;> rfl

theorem exists_of_internal {t : Tree Id Key Value} (h : t.external = false) (dir' : Key → Bool) :
    ∃ i red k a b, t = dir i red k (dir' k) a b := by
  cases t with
  | ext i k v => exact absurd h (by simp [external])
  | node i red k l r =>
    obtain ⟨a, b, heq⟩ := exists_dir i red k l r (dir' k)
    exact ⟨i, red, k, a, b, heq⟩

theorem external_of_red {t : Tree Id Key Value} (h : t.red = true) : t.external = false := by
  cases t with
  | ext i k v => exact absurd h (by simp [red])
  | node i r k l r => rfl

def ids : Tree Id Key Value → Multiset Id
  | .ext i _ _ => {i}
  | .node i _ _ l r => {i} + (l.ids + r.ids)

theorem dir_ids (i : Id) (red : Bool) (k : Key) (d : Bool) (a b : Tree Id Key Value) :
    (dir i red k d a b).ids = {i} + (a.ids + b.ids) := by
  cases d with
  | false => rfl
  | true => simp only [dir, ids, add_comm a.ids]

theorem id_mem_ids (t : Tree Id Key Value) : t.id ∈ t.ids := by
  cases t <;> simp [id, ids]

def size : Tree Id Key Value → Nat
  | .ext _ _ _ => 1
  | .node _ _ _ l r => l.size + r.size + 1

theorem dir_size (i : Id) (red : Bool) (k : Key) (d : Bool) (a b : Tree Id Key Value) :
    (dir i red k d a b).size = a.size + b.size + 1 := by
  cases d with
  | false => rfl
  | true => simp only [dir, size, Nat.add_comm a.size]

theorem card_ids (t : Tree Id Key Value) : Multiset.card t.ids = t.size := by
  induction t with
  | ext i k v => rfl
  | node i red k l r ihl ihr =>
    simp only [ids, size, Multiset.card_add, Multiset.card_singleton, ihl, ihr]
    omega

end Tree

/-- What a walk from left to right meets. -/
inductive Item (Id Key Value : Type) where
  | ext (id : Id) (key : Key) (value : Value)
  | sep (id : Id) (key : Key)

namespace Item

def id : Item Id Key Value → Id
  | .ext i _ _ | .sep i _ => i

def key : Item Id Key Value → Key
  | .ext _ k _ | .sep _ k => k

variable [LinearOrder Key]

/-- The item may stand to the left of the other. -/
def Before : Item Id Key Value → Item Id Key Value → Prop
  | .sep _ a, .ext _ b _ => a ≤ b
  | a, b => a.key < b.key

/-- The item stands to the left of the place of a key. -/
def Below (k : Key) : Item Id Key Value → Prop
  | .sep _ a => a ≤ k
  | .ext _ a _ => a < k

/-- The item stands to the right of the place of a key. -/
def Above (k : Key) (a : Item Id Key Value) : Prop := k < a.key

theorem Before.le {a b : Item Id Key Value} (h : a.Before b) : a.key ≤ b.key := by
  cases a <;> cases b <;> first | exact h | exact le_of_lt h

theorem Before.trans_below {a : Item Id Key Value} {i : Id} {s k : Key}
    (h : a.Before (.sep i s)) (hs : s ≤ k) : a.Below k := by
  have hlt : a.key < s := by cases a <;> exact h
  cases a with
  | ext i' k' v => exact lt_of_lt_of_le hlt hs
  | sep i' k' => exact le_of_lt (lt_of_lt_of_le hlt hs)

end Item

open Item

def Tree.inorder : Tree Id Key Value → List (Item Id Key Value)
  | .ext i k v => [.ext i k v]
  | .node i _ k l r => l.inorder ++ .sep i k :: r.inorder

theorem Tree.inorder_ids (t : Tree Id Key Value) :
    ((t.inorder.map Item.id : List Id) : Multiset Id) = t.ids := by
  induction t with
  | ext i k v => rfl
  | node i red k l r ihl ihr =>
    simp only [Tree.inorder, Tree.ids, ← ihl, ← ihr, List.map_append, List.map_cons]
    rw [← Multiset.coe_add, ← Multiset.cons_coe]
    simp only [Item.id, Multiset.add_cons, Multiset.singleton_add]

/-- The colours do not matter for the order. -/
theorem Tree.dir_inorder (i : Id) (red red' : Bool) (k : Key) (d : Bool)
    (a b a' b' : Tree Id Key Value) (ha : a'.inorder = a.inorder) (hb : b'.inorder = b.inorder) :
    (dir i red' k d a' b').inorder = (dir i red k d a b).inorder := by
  cases d <;> simp only [dir, inorder, ha, hb]

/-- A step from a node down to the place: the node and its other subtree. -/
structure Frame (Id Key Value : Type) where
  id : Id
  red : Bool
  key : Key
  dir : Bool
  sibling : Tree Id Key Value

abbrev Place (Id Key Value : Type) := List (Frame Id Key Value)

/-- The whole tree, with a subtree put in the place. -/
def plug : Place Id Key Value → Tree Id Key Value → Tree Id Key Value
  | [], t => t
  | fr :: p, t => plug p (.dir fr.id fr.red fr.key fr.dir t fr.sibling)

namespace Frame

/-- The items that a frame has to the left of the place. -/
def left (fr : Frame Id Key Value) : List (Item Id Key Value) :=
  match fr.dir with
  | false => []
  | true => fr.sibling.inorder ++ [.sep fr.id fr.key]

/-- The items that a frame has to the right of the place. -/
def right (fr : Frame Id Key Value) : List (Item Id Key Value) :=
  match fr.dir with
  | false => .sep fr.id fr.key :: fr.sibling.inorder
  | true => []

end Frame

def leftOf : Place Id Key Value → List (Item Id Key Value)
  | [] => []
  | fr :: p => leftOf p ++ fr.left

def rightOf : Place Id Key Value → List (Item Id Key Value)
  | [] => []
  | fr :: p => fr.right ++ rightOf p

theorem Frame.inorder_dir (fr : Frame Id Key Value) (t : Tree Id Key Value) :
    (Tree.dir fr.id fr.red fr.key fr.dir t fr.sibling).inorder =
      fr.left ++ t.inorder ++ fr.right := by
  obtain ⟨i, red, k, d, sibling⟩ := fr
  cases d <;> simp [Tree.dir, Tree.inorder, Frame.left, Frame.right]

theorem inorder_plug (p : Place Id Key Value) (t : Tree Id Key Value) :
    (plug p t).inorder = leftOf p ++ t.inorder ++ rightOf p := by
  induction p generalizing t with
  | nil => simp [plug, leftOf, rightOf]
  | cons fr p ih => simp only [plug, ih, fr.inorder_dir, leftOf, rightOf, List.append_assoc]

variable {t : Tree Id Key Value}

theorem plug_inorder {t' : Tree Id Key Value} (p : Place Id Key Value)
    (ht : t'.inorder = t.inorder) : (plug p t').inorder = (plug p t).inorder := by
  rw [inorder_plug, inorder_plug, ht]

def placeIds : Place Id Key Value → Multiset Id
  | [] => 0
  | fr :: p => {fr.id} + (fr.sibling.ids + placeIds p)

theorem ids_plug (p : Place Id Key Value) (t : Tree Id Key Value) :
    (plug p t).ids = placeIds p + t.ids := by
  induction p generalizing t with
  | nil => simp [plug, placeIds]
  | cons fr p ih =>
    simp only [plug, ih, Tree.dir_ids, placeIds]
    abel

/-- The items around a place are those of the tree without it, and the
separator above the place. -/
theorem mem_sides (fr : Frame Id Key Value) (p : Place Id Key Value) (a : Item Id Key Value) :
    a ∈ leftOf (fr :: p) ∨ a ∈ rightOf (fr :: p) ↔
      a = .sep fr.id fr.key ∨ a ∈ (plug p fr.sibling).inorder := by
  obtain ⟨i, red, k, d, sibling⟩ := fr
  simp only [inorder_plug, leftOf, rightOf, List.mem_append]
  cases d <;>
    simp only [Frame.left, Frame.right, List.not_mem_nil, List.mem_cons, List.mem_append,
      or_false, false_or] <;>
    grind

/-- Taking out a place and the separator above it leaves a part of the items. -/
theorem inorder_cut (fr : Frame Id Key Value) (p : Place Id Key Value) (t : Tree Id Key Value) :
    (plug p fr.sibling).inorder.Sublist (plug (fr :: p) t).inorder := by
  obtain ⟨i, red, k, d, sibling⟩ := fr
  rw [inorder_plug, inorder_plug]
  simp only [leftOf, rightOf, List.append_assoc]
  apply List.Sublist.append_left
  cases d with
  | false =>
    simp only [Frame.left, Frame.right, List.nil_append, List.cons_append]
    exact (List.sublist_cons_self _ _).trans (List.sublist_append_right _ _)
  | true =>
    simp only [Frame.left, Frame.right, List.nil_append, List.append_assoc, List.cons_append]
    apply List.Sublist.append_left
    exact (List.sublist_append_right _ _).trans (List.sublist_cons_self _ _)

/-- Two places with the same items on either side. -/
structure Alike (p p' : Place Id Key Value) : Prop where
  left : leftOf p' = leftOf p
  right : rightOf p' = rightOf p

variable {p : Place Id Key Value}

theorem Alike.inorder {p' : Place Id Key Value} (h : Alike p p') (t : Tree Id Key Value) :
    (plug p' t).inorder = (plug p t).inorder := by
  rw [inorder_plug, inorder_plug, h.left, h.right]

theorem Alike.ids {p' : Place Id Key Value} (h : Alike p p') : placeIds p' = placeIds p := by
  have hids (p : Place Id Key Value) :
      placeIds p = (((leftOf p ++ rightOf p).map Item.id : List Id) : Multiset Id) := by
    induction p with
    | nil => rfl
    | cons fr p ih =>
      obtain ⟨i, red, k, d, sibling⟩ := fr
      simp only [placeIds, ih, ← sibling.inorder_ids]
      cases d with
      | false =>
        simp only [leftOf, rightOf, Frame.left, Frame.right, List.append_nil, List.map_append,
          List.map_cons, ← Multiset.coe_add, ← Multiset.cons_coe, Item.id, List.cons_append,
          Multiset.add_cons, Multiset.singleton_add]
        congr 1
        abel
      | true =>
        simp only [leftOf, rightOf, Frame.left, Frame.right, List.nil_append, List.map_append,
          List.map_cons, List.map_nil, ← Multiset.coe_add, Item.id, Multiset.coe_singleton]
        abel
  rw [hids p', hids p, h.left, h.right]

section Order

variable [LinearOrder Key]

/-- The keys are in order. -/
def Sorted (t : Tree Id Key Value) : Prop := t.inorder.Pairwise Before

/-- The place of a key. -/
structure Located (k : Key) (p : Place Id Key Value) : Prop where
  left : ∀ a ∈ leftOf p, a.Below k
  right : ∀ a ∈ rightOf p, a.Above k

variable {p : Place Id Key Value}

theorem Located.alike {k : Key} {p' : Place Id Key Value} (h : Located k p) (halike : Alike p p') :
    Located k p' :=
  ⟨by rw [halike.left]; exact h.left, by rw [halike.right]; exact h.right⟩

theorem Located.nil (k : Key) : Located k ([] : Place Id Key Value) :=
  ⟨by simp [leftOf], by simp [rightOf]⟩

variable {fr : Frame Id Key Value}

theorem Located.up {k : Key} (h : Located k (fr :: p)) : Located k p := by
  constructor
  · intro a ha
    exact h.left a (List.mem_append_left _ ha)
  · intro a ha
    exact h.right a (List.mem_append_right _ ha)

/-- The direction of a frame is found again by comparing the keys. -/
theorem Located.dir {k : Key} (h : Located k (fr :: p)) : decide (fr.key ≤ k) = fr.dir := by
  cases hd : fr.dir with
  | false =>
    have hlt : k < fr.key :=
      h.right (.sep fr.id fr.key) (by simp [rightOf, Frame.right, hd])
    simpa using hlt
  | true =>
    have hle : fr.key ≤ k :=
      h.left (.sep fr.id fr.key) (by simp [leftOf, Frame.left, hd])
    simpa using hle

theorem Located.down {k : Key} (h : Located k p) {t : Tree Id Key Value}
    (hsorted : Sorted (plug (fr :: p) t)) (hdir : fr.dir = decide (fr.key ≤ k)) :
    Located k (fr :: p) := by
  rw [Sorted, inorder_plug, List.pairwise_append, List.pairwise_append] at hsorted
  obtain ⟨⟨hleft, -, -⟩, hright, -⟩ := hsorted
  obtain ⟨i, red, s, d, sibling⟩ := fr
  dsimp only at hdir
  cases d with
  | false =>
    have hlt : k < s := by simpa using hdir.symm
    constructor
    · simpa [leftOf, Frame.left] using h.left
    · intro a ha
      simp only [rightOf, Frame.right, List.cons_append, List.mem_cons, List.mem_append] at ha
      rcases ha with rfl | ha | ha
      · exact hlt
      · simp only [rightOf, Frame.right, List.cons_append, List.pairwise_cons] at hright
        have hle := (hright.1 a (List.mem_append_left _ ha)).le
        exact lt_of_lt_of_le hlt hle
      · exact h.right a ha
  | true =>
    have hle : s ≤ k := by simpa using hdir.symm
    constructor
    · intro a ha
      simp only [leftOf, Frame.left, List.mem_append, List.mem_singleton] at ha
      rcases ha with ha | ha | rfl
      · exact h.left a ha
      · simp only [leftOf, Frame.left, List.pairwise_append] at hleft
        have hbefore := hleft.2.1.2.2 a ha (.sep i s) (by simp)
        exact hbefore.trans_below hle
      · exact hle
    · simpa [rightOf, Frame.right] using h.right

/-- A new key next to the external node that a search for it has found. -/
theorem Sorted.insert {i : Id} {k key : Key} {v : Value} (ext mid : Id) (value : Value) (red : Bool)
    (hs : Sorted (plug p (.ext i k v))) (hl : Located key p) (hne : k ≠ key) :
    Sorted (plug p (.dir mid red (if k < key then key else k) (decide (k < key))
      (.ext ext key value) (.ext i k v))) := by
  rw [Sorted, inorder_plug, List.pairwise_append, List.pairwise_append] at hs ⊢
  obtain ⟨⟨hleft, -, hleft'⟩, hright, hright'⟩ := hs
  have hitems : ∀ a ∈ leftOf p, a.Before (.ext i k v) ∧ a.Below key := fun a ha =>
    ⟨hleft' a ha (.ext i k v) (by simp [Tree.inorder]), hl.left a ha⟩
  have hitems' : ∀ b ∈ rightOf p, Item.Before (.ext i k v) b ∧ b.Above key := fun b hb =>
    ⟨hright' (.ext i k v) (by simp [Tree.inorder]) b hb, hl.right b hb⟩
  have hcross : ∀ a ∈ leftOf p, ∀ b ∈ rightOf p, a.Before b := fun a ha b hb =>
    hright' a (List.mem_append_left _ ha) b hb
  -- the two items that are new, and the old one, in their order
  obtain ⟨e₁, e₂, m, horder, hnew⟩ : ∃ e₁ e₂ m : Item Id Key Value,
      (Tree.dir mid red (if k < key then key else k) (decide (k < key))
        (.ext ext key value) (.ext i k v)).inorder = [e₁, m, e₂] ∧
      (k < key ∧ e₁ = .ext i k v ∧ m = .sep mid key ∧ e₂ = .ext ext key value ∨
        key < k ∧ e₁ = .ext ext key value ∧ m = .sep mid k ∧ e₂ = .ext i k v) := by
    by_cases hlow : k < key
    · exact ⟨_, _, _, by simp [hlow, Tree.dir, Tree.inorder], .inl ⟨hlow, rfl, rfl, rfl⟩⟩
    · have hhigh : key < k := lt_of_le_of_ne (not_lt.mp hlow) hne.symm
      exact ⟨_, _, _, by simp [hlow, Tree.dir, Tree.inorder], .inr ⟨hhigh, rfl, rfl, rfl⟩⟩
  rw [horder]
  refine ⟨⟨hleft, ?_, ?_⟩, hright, ?_⟩
  · rcases hnew with ⟨hlt, rfl, rfl, rfl⟩ | ⟨hlt, rfl, rfl, rfl⟩ <;> simp [Before, Item.key, hlt]
  · intro a ha b hb
    have h := hitems a ha
    simp only [List.mem_cons, List.not_mem_nil, or_false] at hb
    rcases hnew with ⟨hlt, rfl, rfl, rfl⟩ | ⟨hlt, rfl, rfl, rfl⟩ <;>
      rcases hb with rfl | rfl | rfl <;> cases a <;>
        simp only [Before, Below, Item.key] at h ⊢ <;> grind
  · intro a ha b hb
    have h := hitems' b hb
    rcases List.mem_append.mp ha with ha | ha
    · exact hcross a ha b hb
    · simp only [List.mem_cons, List.not_mem_nil, or_false] at ha
      rcases hnew with ⟨hlt, rfl, rfl, rfl⟩ | ⟨hlt, rfl, rfl, rfl⟩ <;>
        rcases ha with rfl | rfl | rfl <;> cases b <;>
          simp only [Before, Above, Item.key] at h ⊢ <;> grind

end Order

/-- A valid subtree with `n` black nodes on every path, below a red node if
`pr` says so. -/
def Rb (pr : Bool) : Tree Id Key Value → Nat → Prop
  | .ext _ _ _, n => n = 0
  | .node _ true _ l r, n => pr = false ∧ Rb true l n ∧ Rb true r n
  | .node _ false _ l r, n => ∃ m, n = m + 1 ∧ Rb false l m ∧ Rb false r m

/-- A valid place for a subtree with `n` black nodes on every path. -/
def RbPlace : Place Id Key Value → Bool → Nat → Prop
  | [], pr, _ => pr = true
  | fr :: p, pr, n => pr = fr.red ∧ Rb fr.red fr.sibling n ∧
      match fr.red with
      | true => RbPlace p false n
      | false => ∃ pr', RbPlace p pr' (n + 1)

theorem Rb.weaken {n : Nat} (h : Rb true t n) (pr : Bool) : Rb pr t n := by
  cases t with
  | ext i k v => exact h
  | node i red k l r =>
    cases red with
    | true => exact absurd h.1 (by simp)
    | false => exact h

theorem Rb.of_black {n : Nat} {pr : Bool} (h : Rb pr t n) (hred : t.red = false) (pr' : Bool) :
    Rb pr' t n := by
  cases t with
  | ext i k v => exact h
  | node i red k l r =>
    obtain rfl : red = false := hred
    exact h

theorem Rb.black {n : Nat} (h : Rb true t n) : t.red = false := by
  cases t with
  | ext i k v => rfl
  | node i red k l r =>
    cases red with
    | true => exact absurd h.1 (by simp)
    | false => rfl

theorem rb_dir_red {pr : Bool} {i : Id} {k : Key} {d : Bool} {a b : Tree Id Key Value} {n : Nat} :
    Rb pr (.dir i true k d a b) n ↔ pr = false ∧ Rb true a n ∧ Rb true b n := by
  cases d
  · rfl
  · simp only [Tree.dir, Rb]
    tauto

theorem rb_dir_black {pr : Bool} {i : Id} {k : Key} {d : Bool} {a b : Tree Id Key Value}
    {n : Nat} :
    Rb pr (.dir i false k d a b) n ↔ ∃ m, n = m + 1 ∧ Rb false a m ∧ Rb false b m := by
  cases d
  · rfl
  · simp only [Tree.dir, Rb, and_comm (a := Rb false b _)]

theorem RbPlace.plug {pr : Bool} {n : Nat} (h : RbPlace p pr n) (ht : Rb pr t n) :
    ∃ m, Rb true (plug p t) m := by
  induction p generalizing pr n t with
  | nil =>
    rw [show pr = true from h] at ht
    exact ⟨n, ht⟩
  | cons fr p ih =>
    obtain ⟨i, red, k, d, sibling⟩ := fr
    obtain ⟨hpr, hsibling, hup⟩ := h
    dsimp only at hpr hsibling hup
    subst hpr
    cases pr with
    | true => exact ih hup (rb_dir_red.mpr ⟨rfl, ht, hsibling⟩)
    | false =>
      obtain ⟨pr', hup⟩ := hup
      exact ih hup (rb_dir_black.mpr ⟨n, rfl, ht, hsibling⟩)

/-- The colours around a place, for a subtree with `n` black nodes on a path. -/
theorem rbPlace_red_black {fr fr' : Frame Id Key Value} {n : Nat} {pr : Bool} (hred : fr.red = true)
    (hblack : fr'.red = false) (hs : Rb true fr.sibling n) (hs' : Rb false fr'.sibling n)
    (hp : RbPlace p pr (n + 1)) : RbPlace (fr :: fr' :: p) true n := by
  obtain ⟨i, red, k, d, s⟩ := fr
  obtain ⟨i', red', k', d', s'⟩ := fr'
  dsimp only at hred hblack hs hs'
  subst hred hblack
  exact ⟨rfl, hs, rfl, hs', pr, hp⟩

end Libvsync.Core
