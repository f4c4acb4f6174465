import Libvsync.Map.TreesetHeap

/-!
Removing a key from the red-black tree set. The loop keeps the father of the
current node red on its way down, so that the external node and its father can
be taken out at the bottom without changing the number of black nodes on any
path. Only a root without red children starts the loop as a black father.
-/

namespace Libvsync.Map.Treeset

open Libvsync.Core

variable {Id Key Value : Type} [DecidableEq Id] {h : Heap Id Key Value}
  {p : Place Id Key Value}

section Moves

variable [LinearOrder Key] {c : Config Id} {key : Key}

@[simp] theorem towardFrom_setChild (i j : Id) (d : Bool) (q : Option Id) :
    (h.setChild i d q).towardFrom c j key = h.towardFrom c j key := by
  simp [Heap.towardFrom]

omit [LinearOrder Key] in
theorem setChild_setChild (i : Id) (d : Bool) (q q' : Option Id) :
    (h.setChild i d q).setChild i d q' = h.setChild i d q' := by
  simp [Heap.setChild]

theorem rotateTop_eq (f x r : Id) (cx : Bool) :
    rotateTop c h f x r cx key =
      ((rotateUp h f (h.towardFrom c f key) x r (!cx)).setRed r false).setRed x true := by
  simp [rotateTop, rotateUp]

theorem rotateFar_eq (g f x b bb : Id) (cf : Bool) :
    rotateFar c h g f x b bb cf key =
      ((((rotateUp h g (h.towardFrom c g key) f b (!cf)).setRed f false).setRed x true).setRed b
        (g ≠ c.head)).setRed bb false := by
  simp [rotateFar, rotateUp]

theorem rotateNear_eq {g f x b bb : Id} {cf : Bool} (hf : bb ≠ f) :
    rotateNear c h g f x b bb cf key =
      (((rotateUp (rotateUp h f (!cf) b bb (!!cf)) g (h.towardFrom c g key) f bb (!cf)).setRed f
        false).setRed x true).setRed bb (g ≠ c.head) := by
  simp [rotateNear, rotateUp, setChild_setChild, setChild_of_ne hf]

end Moves

/-- A place and what the code makes of it keep the items, and the colours
around a subtree with `n` black nodes on every path are valid. -/
structure Moved (head : Id) (h' : Heap Id Key Value) (p p' : Place Id Key Value)
    (t : Tree Id Key Value) (n : Nat) : Prop where
  shape : Shape head h' p' t
  alike : Alike p p'
  colours : RbPlace p' true n

section Places

variable {head f x b bb s : Id} {kf kx kb kbb ks : Key} {cf cx dbb : Bool} {pr rf : Bool}
  {y z a w b₁ b₂ c₁ c₂ : Tree Id Key Value} {n : Nat}

/-- Case 2: the red child of `x` that is not on the path rises. -/
theorem Shape.rotateTop
    (hs : Shape head h p (.dir x false kx cx y (.dir s true ks cx b₁ b₂)))
    (hb₁ : Rb true b₁ n) (hb₂ : Rb true b₂ n) (hp : RbPlace p pr (n + 1)) :
    Moved head
      (((rotateUp h (top head p) (topDir p) x s (!cx)).setRed s false).setRed x true)
      (⟨x, false, kx, cx, .dir s true ks cx b₁ b₂⟩ :: p)
      (⟨x, true, kx, cx, b₁⟩ :: ⟨s, false, ks, cx, b₂⟩ :: p) y n := by
  refine ⟨?_, ?_, rbPlace_red_black rfl rfl hb₁ (hb₂.weaken false) hp⟩
  · rw [← Tree.dir_flip x, ← Tree.dir_flip s] at hs
    have hrotated := hs.rotate.paint false
    rw [Tree.dir_flip s, Tree.dir_flip x] at hrotated
    exact (hrotated.down.paint true).down
  · cases cx <;>
      constructor <;> simp [leftOf, rightOf, Frame.left, Frame.right, Tree.dir, Tree.inorder]

theorem Shape.recolour
    (hs : Shape head h (⟨f, rf, kf, cf, .dir b false kb cf b₁ b₂⟩ :: p)
      (.dir x false kx cx y z))
    (hz : Rb true z n) (hb₁ : Rb true b₁ n) (hb₂ : Rb true b₂ n) (hp : RbPlace p pr (n + 1)) :
    Moved head (recolour h f x b)
      (⟨x, false, kx, cx, z⟩ :: ⟨f, rf, kf, cf, .dir b false kb cf b₁ b₂⟩ :: p)
      (⟨x, true, kx, cx, z⟩ :: ⟨f, false, kf, cf, .dir b true kb cf b₁ b₂⟩ :: p) y n := by
  refine ⟨?_, ?_, rbPlace_red_black rfl rfl hz (rb_dir_red.mpr ⟨rfl, hb₁, hb₂⟩) hp⟩
  · have hx := (hs.up.paint false).down.paint true
    exact (shape_switch.mp ((shape_switch.mpr hx).paint true)).down
  · cases cf <;> cases cx <;>
      constructor <;> simp [leftOf, rightOf, Frame.left, Frame.right, Tree.dir, Tree.inorder]

/-- Case 4a: the brother rises, and its outer child becomes black. -/
theorem Shape.rotateFar {red : Bool}
    (hs : Shape head h
      (⟨f, rf, kf, cf, .dir b false kb cf b₁ (.dir bb true kbb dbb c₁ c₂)⟩ :: p)
      (.dir x false kx cx y z))
    (hz : Rb true z n) (hb₁ : Rb true b₁ n) (hc₁ : Rb true c₁ n) (hc₂ : Rb true c₂ n)
    (hp : ∀ t : Tree Id Key Value, Rb true t (n + 1) →
      RbPlace (⟨b, red, kb, cf, t⟩ :: p) red (n + 1)) :
    Moved head
      (((((rotateUp h (top head p) (topDir p) f b (!cf)).setRed f false).setRed x true).setRed b
        red).setRed bb false)
      (⟨x, false, kx, cx, z⟩ ::
        ⟨f, rf, kf, cf, .dir b false kb cf b₁ (.dir bb true kbb dbb c₁ c₂)⟩ :: p)
      (⟨x, true, kx, cx, z⟩ :: ⟨f, false, kf, cf, b₁⟩ ::
        ⟨b, red, kb, cf, .dir bb false kbb dbb c₁ c₂⟩ :: p) y n := by
  refine ⟨?_, ?_, rbPlace_red_black rfl rfl hz (hb₁.weaken false) (hp _ ?_)⟩
  · have hup := hs.up
    dsimp only at hup
    rw [← Tree.dir_flip f, ← Tree.dir_flip b] at hup
    have hrotated := hup.rotate
    rw [Tree.dir_flip b, Tree.dir_flip f] at hrotated
    have hx := (hrotated.down.paint false).down.paint true
    have hbb := shape_switch.mpr (hx.up.up.paint red).down
    exact (shape_switch.mp (hbb.paint false)).down.down
  · cases cf <;> cases cx <;> cases dbb <;>
      constructor <;> simp [leftOf, rightOf, Frame.left, Frame.right, Tree.dir, Tree.inorder]
  · exact rb_dir_black.mpr ⟨n, rfl, hc₁.weaken false, hc₂.weaken false⟩

/-- Case 4b: the inner child of the brother rises above both. -/
theorem Shape.rotateNear {red : Bool}
    (hs : Shape head h
      (⟨f, rf, kf, cf, .dir b false kb cf (.dir bb true kbb cf c₁ c₂) b₂⟩ :: p)
      (.dir x false kx cx y z))
    (hz : Rb true z n) (hc₁ : Rb true c₁ n) (hc₂ : Rb true c₂ n) (hb₂ : Rb false b₂ n)
    (hp : ∀ t : Tree Id Key Value, Rb true t (n + 1) →
      RbPlace (⟨bb, red, kbb, cf, t⟩ :: p) red (n + 1)) :
    Moved head
      ((((rotateUp (rotateUp h f (!cf) b bb (!!cf)) (top head p) (topDir p) f bb (!cf)).setRed f
        false).setRed x true).setRed bb red)
      (⟨x, false, kx, cx, z⟩ ::
        ⟨f, rf, kf, cf, .dir b false kb cf (.dir bb true kbb cf c₁ c₂) b₂⟩ :: p)
      (⟨x, true, kx, cx, z⟩ :: ⟨f, false, kf, cf, c₁⟩ ::
        ⟨bb, red, kbb, cf, .dir b false kb cf c₂ b₂⟩ :: p) y n := by
  refine ⟨?_, ?_, rbPlace_red_black rfl rfl hz (hc₁.weaken false) (hp _ ?_)⟩
  · have hup := hs.up
    dsimp only at hup
    rw [← Tree.dir_flip f, ← Tree.dir_flip bb] at hup
    rw [show Tree.dir b false kb cf (.dir bb true kbb (!cf) c₂ c₁) b₂ =
      .dir b false kb (!!cf) (.dir bb true kbb (!cf) c₂ c₁) b₂ by rw [Bool.not_not]] at hup
    have hrotated := hup.double
    rw [Tree.dir_flip bb, Tree.dir_flip f, Bool.not_not cf] at hrotated
    have hx := (hrotated.down.paint false).down.paint true
    rw [Bool.not_not]
    exact (hx.up.up.paint red).down.down.down
  · cases cf <;> cases cx <;>
      constructor <;> simp [leftOf, rightOf, Frame.left, Frame.right, Tree.dir, Tree.inorder]
  · exact rb_dir_black.mpr ⟨n, rfl, hc₂.weaken false, hb₂⟩

end Places

section Loop

variable [LinearOrder Key] {c : Config Id} {key : Key} {l : RemoveLocals Id}
  {t : Tree Id Key Value} {pr : Bool} {n : Nat} {h₀ : Heap Id Key Value}

/-- Some child of the node is red. -/
def redBelow : Tree Id Key Value → Bool
  | .ext _ _ _ => false
  | .node _ _ _ a b => a.red || b.red

omit [DecidableEq Id] [LinearOrder Key] in
theorem redBelow_dir (i : Id) (red : Bool) (k : Key) (d : Bool) (a b : Tree Id Key Value) :
    redBelow (.dir i red k d a b) = (a.red || b.red) := by
  cases d with
  | false => rfl
  | true => exact Bool.or_comm _ _

/-- The nodes above the place of `treeset_remove`, as its locals know them. -/
def RemoveAbove (head : Id) (l : RemoveLocals Id) (t : Tree Id Key Value) :
    Place Id Key Value → Nat → Prop
  | [], _ => redBelow t = true
  | fr :: rest, n => l.g = some (top head rest) ∧
      (fr.red = true ∨ rest = [] ∧ fr.red = false ∧ Rb true fr.sibling n)

/-- The invariant of the loop of `treeset_remove`; `h₀` is the heap at the call. -/
structure RemoveInv (head : Id) (key : Key) (h₀ h : Heap Id Key Value) (l : RemoveLocals Id)
    (p : Place Id Key Value) (t : Tree Id Key Value) (pr : Bool) (n : Nat) : Prop
    extends Search head key h p t where
  sub : Rb true t n
  place : RbPlace p pr n
  f : l.f = top head p
  x : l.x = t.id
  above : RemoveAbove head l t p n
  origin : Rep h₀ t
  link : p ≠ [] → ∃ d, (h₀ l.f).child d = some t.id

/-- The father of the current node, its brother, and how the father's place can
be coloured. -/
theorem RemoveInv.father {head : Id}
    (hinv : RemoveInv head key h₀ h l p t pr n) (hp : p ≠ []) :
    ∃ rf kf cf b rest, p = ⟨l.f, rf, kf, cf, b⟩ :: rest ∧ l.g = some (top head rest) ∧
      Rb true b n ∧ (∃ pr', RbPlace rest pr' n) ∧
      ∀ (i : Id) (k : Key) (u : Tree Id Key Value), Rb true u n →
        RbPlace (⟨i, decide (top head rest ≠ head), k, cf, u⟩ :: rest)
          (decide (top head rest ≠ head)) n := by
  obtain _ | ⟨⟨f, rf, kf, cf, b⟩, rest⟩ := p
  · exact absurd rfl hp
  obtain rfl : l.f = f := hinv.f
  obtain ⟨hg, hcase⟩ := hinv.above
  obtain ⟨hpr, hb, hrest⟩ := hinv.place
  dsimp only at hpr hb hrest hcase
  rcases hcase with hred | ⟨rfl, hblack, hb'⟩
  · subst hred
    have hne : top head rest ≠ head := by
      cases rest with
      | nil => exact absurd hrest (by simp [RbPlace])
      | cons fr rest => exact hinv.shape.up.ne_head
    refine ⟨true, kf, cf, b, rest, rfl, hg, hb, ⟨false, hrest⟩, ?_⟩
    intro i k u hu
    simp only [hne, ne_eq, not_false_eq_true, decide_true]
    exact ⟨rfl, hu, hrest⟩
  · refine ⟨rf, kf, cf, b, [], rfl, hg, hb', ⟨true, rfl⟩, ?_⟩
    intro i k u hu
    simp only [top, ne_eq, not_true_eq_false, decide_false]
    exact ⟨rfl, hu.weaken false, true, rfl⟩

omit [DecidableEq Id] in
/-- The next round, below a node that has become red. -/
theorem RemoveInv.next {head i g : Id} {k kg : Key} {d dg : Bool} {y z u : Tree Id Key Value}
    {rest : Place Id Key Value} {h' : Heap Id Key Value}
    (hs : Search head key h' (⟨i, true, k, d, z⟩ :: ⟨g, false, kg, dg, u⟩ :: rest) y)
    (hy : Rb true y n)
    (hp : RbPlace (⟨i, true, k, d, z⟩ :: ⟨g, false, kg, dg, u⟩ :: rest) true n)
    (horigin : Rep h₀ y) (hlink : ∃ d, (h₀ i).child d = some y.id) :
    RemoveInv head key h₀ h' ⟨some g, i, y.id⟩
      (⟨i, true, k, d, z⟩ :: ⟨g, false, kg, dg, u⟩ :: rest) y true n where
  toSearch := hs
  sub := hy
  place := hp
  f := rfl
  x := rfl
  above := ⟨rfl, .inl rfl⟩
  origin := horigin
  link := fun _ => hlink

/-- The last branch of the loop: the current node becomes red. -/
theorem twoNode_spec {i : Id} {k : Key} {y z : Tree Id Key Value}
    (hinv : RemoveInv c.head key h₀ h l p (.dir i false k (decide (k ≤ key)) y z) pr (n + 1))
    (hp : p ≠ []) (hz : Rb true z n) :
    ∃ h' kg dg u rest, twoNode c h l key = .ok h' ∧
      Moved c.head h' (⟨i, false, k, decide (k ≤ key), z⟩ :: p)
        (⟨i, true, k, decide (k ≤ key), z⟩ :: ⟨l.f, false, kg, dg, u⟩ :: rest) y n := by
  obtain ⟨rf, kf, cf, b, rest, rfl, hg, hb, ⟨pr', hrest⟩, hplace⟩ := hinv.father hp
  obtain ⟨ib, rb, kb, b₀, b₁, rfl⟩ : ∃ ib rb kb b₀ b₁, b = .dir ib rb kb cf b₀ b₁ := by
    apply Tree.exists_of_internal _ fun _ => cf
    cases b with
    | ext ib kb v => exact absurd hb (by simp [Rb])
    | node ib rb kb b₀ b₁ => rfl
  obtain rfl : rb = false := by simpa using hb.black
  obtain ⟨m, hm, hb₀, hb₁⟩ := rb_dir_black.mp hb
  obtain rfl : n = m := by omega
  have hx : l.x = i := by simpa using hinv.x
  have hne : l.f ≠ c.head := hinv.shape.ne_head
  obtain ⟨⟨hf, -, hbro, hrb, hprest⟩, -, -⟩ := hinv.shape
  obtain ⟨hc0, hc1⟩ := hrb.children
  obtain ⟨hbcell, -, -, hrb₀, hrb₁⟩ := rep_dir.mp hrb
  have hcf : h.toward l.f key = cf := toward_eq hf.key hinv.located
  have hcg : h.towardFrom c (top c.head rest) key = topDir rest :=
    towardFrom_eq hprest hinv.shape.up.head_apart hinv.located.up
  have hsome : l.g.isSome := by simp [hg]
  dsimp only at hbro
  rw [Tree.dir_id] at hbro
  have hnear : (if cf = true then (if cf then b₀.id else b₁.id) else
      (if cf then b₁.id else b₀.id)) = b₀.id := by cases cf <;> rfl
  have hfar : (if cf = true then (if cf then b₁.id else b₀.id) else
      (if cf then b₀.id else b₁.id)) = b₁.id := by cases cf <;> rfl
  have hblack : ((h (if cf then b₁.id else b₀.id)).red = false ∧
      (h (if cf then b₀.id else b₁.id)).red = false) ↔ b₀.red = false ∧ b₁.red = false := by
    rw [← hrb₀.red, ← hrb₁.red]
    cases cf
    · rfl
    · exact and_comm
  rw [twoNode, check_true hsome]
  simp only [hg, deref_some, ok_bind, check_true hne, hcf, hbro, check_true hbcell.internal,
    check_true hbcell.red, hc0, hc1, hblack, hnear, hfar, hrb₀.red]
  by_cases htwo : b₀.red = false ∧ b₁.red = false
  · -- case 3
    rw [if_pos htwo]
    have hmoved := hinv.shape.recolour hz (hb₀.of_black htwo.1 true) (hb₁.of_black htwo.2 true)
      hrest
    rw [← hx] at hmoved ⊢
    exact ⟨_, _, _, _, _, rfl, hmoved⟩
  · rw [if_neg htwo]
    cases hred : b₀.red with
    | true =>
      -- case 4b
      simp only [if_true]
      obtain ⟨ibb, rbb, kbb, c₁, c₂, rfl⟩ :=
        Tree.exists_of_internal (Tree.external_of_red hred) fun _ => cf
      rw [Tree.dir_red] at hred
      subst hred
      obtain ⟨-, hc₁, hc₂⟩ := rb_dir_red.mp hb₀
      have hmoved := hinv.shape.rotateNear hz hc₁ hc₂ hb₁ (hplace ibb kbb)
      have hapart : ibb ≠ l.f := by
        rintro rfl
        have hapart := hinv.shape.apart
        simp [placeIds, Tree.dir_ids] at hapart
      rw [Tree.dir_id, rotateNear_eq hapart, hcg, hx]
      exact ⟨_, _, _, _, _, rfl, hmoved⟩
    | false =>
      -- case 4a
      have hred' : b₁.red = true := by simpa [hred] using htwo
      have hint : b₁.external = false := Tree.external_of_red hred'
      simp only [check_true (show (h b₁.id).red = true by rw [hrb₁.red, hred']),
        check_true (show (h b₁.id).external = false by rw [hrb₁.external, hint]),
        Bool.false_eq_true, if_false, ok_bind]
      obtain ⟨ibb, rbb, kbb, c₁, c₂, rfl⟩ := Tree.exists_of_internal hint fun _ => false
      rw [Tree.dir_red] at hred'
      subst hred'
      obtain ⟨-, hc₁, hc₂⟩ := rb_dir_red.mp hb₁
      have hmoved := hinv.shape.rotateFar hz (hb₀.of_black hred true) hc₁ hc₂ (hplace ib kb)
      rw [Tree.dir_id, rotateFar_eq, hcg, hx]
      exact ⟨_, _, _, _, _, rfl, hmoved⟩

/-- What one round of the loop of `treeset_remove` does. -/
theorem removeLoop_round (hinv : RemoveInv c.head key h₀ h l p t pr n)
    (ht : t.external = false) (rounds : Nat) :
    ∃ h' l' p' t' n', removeLoop c key (rounds + 1) h l = removeLoop c key rounds h' l' ∧
      RemoveInv c.head key h₀ h' l' p' t' true n' ∧ p' ≠ [] ∧ t'.size < t.size ∧
      (plug p' t').inorder = (plug p t).inorder := by
  obtain ⟨i, red, k, a, b, rfl⟩ := Tree.exists_of_internal ht fun k => decide (k ≤ key)
  obtain rfl : red = false := by simpa using hinv.sub.black
  obtain ⟨m, rfl, ha, hb⟩ := rb_dir_black.mp hinv.sub
  have hrep := hinv.shape.sub
  obtain ⟨hc0, hc1⟩ := hrep.children
  obtain ⟨hcell, hca, -, hra, hrb⟩ := rep_dir.mp hrep
  obtain ⟨-, hca₀, -, hra₀, -⟩ := rep_dir.mp hinv.origin
  have hx : l.x = i := by simpa using hinv.x
  obtain ⟨hdown, htoward, -⟩ := hinv.toSearch.down
  have hnear : (if decide (k ≤ key) = true then (if decide (k ≤ key) then a.id else b.id) else
      (if decide (k ≤ key) then b.id else a.id)) = a.id := by cases decide (k ≤ key) <;> rfl
  have hfar : (if decide (k ≤ key) = true then (if decide (k ≤ key) then b.id else a.id) else
      (if decide (k ≤ key) then a.id else b.id)) = b.id := by cases decide (k ≤ key) <;> rfl
  rw [removeLoop, hx, if_neg (by simp [hcell.internal]), hc0, hc1]
  simp only [deref_some, ok_bind, check_true hcell.red, htoward, hnear, hfar, hra.red, hrb.red]
  by_cases hared : a.red = true
  · -- case 1
    rw [if_pos hared]
    obtain ⟨ia, ra, ka, a₀, a₁, rfl⟩ :=
      Tree.exists_of_internal (Tree.external_of_red hared) fun k => decide (k ≤ key)
    rw [Tree.dir_red] at hared
    subst hared
    obtain ⟨-, ha₀, ha₁⟩ := rb_dir_red.mp ha
    obtain ⟨hnext, htow, hchild⟩ := hdown.down
    obtain ⟨-, hchild₀, -, hra₀, -⟩ := rep_dir.mp hra₀
    simp only [Tree.dir_id, htow, hchild, deref_some, ok_bind]
    refine ⟨h, _, _, a₀, m, rfl, RemoveInv.next hnext ha₀ ?_ hra₀ ⟨_, hchild₀⟩, by simp, ?_, rfl⟩
    · exact rbPlace_red_black rfl rfl ha₁ hb hinv.place
    · simp only [Tree.dir_size]
      omega
  · have hablack : Rb true a m := ha.of_black (by simpa using hared) true
    have hsize : a.size < (Tree.dir i false k (decide (k ≤ key)) a b).size := by
      simp only [Tree.dir_size]
      omega
    rw [if_neg hared]
    by_cases hbred : b.red = true
    · -- case 2
      rw [if_pos hbred]
      obtain ⟨ib, rb, kb, b₀, b₁, rfl⟩ :=
        Tree.exists_of_internal (Tree.external_of_red hbred) fun _ => decide (k ≤ key)
      rw [Tree.dir_red] at hbred
      subst hbred
      obtain ⟨-, hb₀, hb₁⟩ := rb_dir_red.mp hb
      have hcf : h.towardFrom c l.f key = topDir p := by
        rw [hinv.f]
        exact towardFrom_eq hinv.shape.place hinv.shape.head_apart hinv.located
      have hmoved := hinv.shape.rotateTop hb₀ hb₁ hinv.place
      rw [Tree.dir_id, rotateTop_eq, hcf, hinv.f]
      generalize ((rotateUp h _ _ i ib _).setRed ib false).setRed i true = h' at hmoved ⊢
      have hnext := hdown.alike hmoved.shape hmoved.alike
      obtain ⟨htow, hchild⟩ := hnext.father
      dsimp only at htow hchild
      simp only [htow, hchild, deref_some, ok_bind]
      exact ⟨h', _, _, a, m, rfl,
        RemoveInv.next hnext hablack hmoved.colours hra₀ ⟨_, hca₀⟩, by simp, hsize,
        hmoved.alike.inorder a⟩
    · -- cases 3 and 4
      rw [if_neg hbred]
      have hp : p ≠ [] := by
        rintro rfl
        have hbelow : redBelow (Tree.dir i false k (decide (k ≤ key)) a b) = true := hinv.above
        simp [redBelow_dir, hared, hbred] at hbelow
      have hb' : Rb true b m := hb.of_black (by simpa using hbred) true
      obtain ⟨h', kg, dg, u, rest, hrun, hmoved⟩ := twoNode_spec hinv hp hb'
      have hnext := hdown.alike hmoved.shape hmoved.alike
      obtain ⟨htow, hchild⟩ := hnext.father
      dsimp only at htow hchild
      simp only [hrun, htow, hchild, deref_some, ok_bind]
      exact ⟨h', _, _, a, m, rfl,
        RemoveInv.next hnext hablack hmoved.colours hra₀ ⟨_, hca₀⟩, by simp, hsize,
        hmoved.alike.inorder a⟩

/-- The loop of `treeset_remove` ends at an external node, and the items of the
tree have not changed. -/
theorem removeLoop_spec (rounds : Nat) (hinv : RemoveInv c.head key h₀ h l p t pr n)
    (hp : p = [] → t.external = false) (hrounds : t.size ≤ rounds) :
    ∃ h' l' p' i k v pr' n', removeLoop c key rounds h l = .ok (h', l') ∧
      RemoveInv c.head key h₀ h' l' p' (.ext i k v) pr' n' ∧ p' ≠ [] ∧
      (plug p' (.ext i k v)).inorder = (plug p t).inorder := by
  induction rounds generalizing h l p t pr n with
  | zero => exact absurd hrounds (by cases t <;> simp [Tree.size])
  | succ rounds ih =>
    cases ht : t.external with
    | true =>
      have hp' : p ≠ [] := fun hnil => by simp [hp hnil] at ht
      cases t with
      | ext i k v =>
        refine ⟨h, l, p, i, k, v, pr, n, ?_, hinv, hp', rfl⟩
        have hext : (h l.x).external = true := by
          rw [hinv.x]
          exact hinv.shape.sub.external
        rw [removeLoop, if_pos hext]
      | node i red k a b => exact absurd ht (by simp [Tree.external])
    | false =>
      obtain ⟨h', l', p', t', n', hrun, hinv', hp', hsize, hin⟩ :=
        removeLoop_round hinv ht rounds
      rw [hrun, ← hin]
      exact ih hinv' (fun hnil => absurd hnil hp') (by omega)

end Loop

theorem Shape.cut {head : Id} {fr : Frame Id Key Value} {t : Tree Id Key Value}
    (hs : Shape head h (fr :: p) t) :
    Shape head (h.setChild (top head p) (topDir p) (some fr.sibling.id)) p fr.sibling := by
  obtain ⟨hnodup, hr, hout⟩ := hs.split p (fr.id ::ₘ (fr.sibling.ids + t.ids)) (by
    simp only [placeIds, ← Multiset.singleton_add]
    abel)
  obtain ⟨⟨-, -, -, hsibling, hp⟩, -, hapart⟩ := hs
  have hkeep : Kept [top head p] h (h.setChild (top head p) (topDir p) (some fr.sibling.id)) := by
    intro j hj
    exact setChild_of_ne (by simpa using hj)
  have htop := hout _ (top_mem head p)
  simp only [Multiset.mem_cons, Multiset.mem_add, not_or] at htop
  refine ⟨hp.redirect hnodup hkeep (by simp) rfl, hsibling.kept hkeep ?_, ?_⟩
  · simpa using htop.2.1
  · apply Multiset.nodup_of_le _ hapart
    rw [placeIds, Multiset.le_iff_exists_add]
    exact ⟨{fr.id} + t.ids, by abel⟩

section Whole

variable [LinearOrder Key] {c : Config Id} {key : Key} {l : RemoveLocals Id}
  {t : Tree Id Key Value} {s : State Id Key Value} {m : Key → Option Value}

omit [DecidableEq Id] in
/-- Where the loop has ended, the state holds the tree that was there. -/
theorem RemoveInv.holds {h₀ : Heap Id Key Value} {i : Id} {k : Key} {v : Value} {pr : Bool}
    {n : Nat} (hinv : RemoveInv c.head key h₀ s.heap l p (.ext i k v) pr n)
    (hlive : (s.live : Multiset Id) = {c.head} + (placeIds p + {i})) :
    Holds c s (plug p (.ext i k v)) where
  shape := hinv.shape.root
  sorted := hinv.sorted
  colours := hinv.place.plug (hinv.sub.weaken pr)
  live := by
    rw [ids_plug]
    exact hlive

/-- The end of `treeset_remove` when the key is there. -/
theorem unlink_spec {h₀ : Heap Id Key Value} {i : Id} {v : Value} {pr : Bool} {n : Nat}
    (hinv : RemoveInv c.head key h₀ s.heap l p (.ext i key v) pr n) (hp : p ≠ [])
    (hlive : (s.live : Multiset Id) = {c.head} + (placeIds p + {i}))
    (hm : Stores (plug p (.ext i key v)).inorder m) :
    ∃ s' t', unlink c s l key = .ok (s', (true, some v)) ∧ Holds c s' t' ∧
      Stores t'.inorder (Function.update m key none) ∧ s'.freed = i :: l.f :: s.freed ∧
      (plug p (.ext i key v)).ids = {i} + ({l.f} + t'.ids) := by
  obtain ⟨rf, kf, cf, b, rest, rfl, hg, hb, ⟨pr', hrest⟩, -⟩ := hinv.father hp
  have hx : l.x = i := hinv.x
  obtain ⟨⟨hf, -, hbro, hrb, hprest⟩, ⟨hk, -, -, hv⟩, -⟩ := hinv.shape
  have hcf : s.heap.toward l.f key = cf := toward_eq hf.key hinv.located
  have hcg : s.heap.towardFrom c (top c.head rest) key = topDir rest :=
    towardFrom_eq hprest hinv.shape.up.head_apart hinv.located.up
  have hids : (plug (⟨l.f, rf, kf, cf, b⟩ :: rest) (.ext i key v)).ids =
      {i} + ({l.f} + (plug rest b).ids) := by
    rw [ids_plug, ids_plug]
    simp only [placeIds, Tree.ids]
    abel
  have hlive' : ((s.live.erase l.f).erase i : Multiset Id) = {c.head} + (plug rest b).ids := by
    have hall : (s.live : Multiset Id) = l.f ::ₘ i ::ₘ ({c.head} + (plug rest b).ids) := by
      rw [hlive, ids_plug]
      simp only [placeIds, ← Multiset.singleton_add]
      abel
    rw [← Multiset.coe_erase, ← Multiset.coe_erase, hall, Multiset.erase_cons_head,
      Multiset.erase_cons_head]
  dsimp only at hbro
  refine ⟨⟨s.heap.setChild (top c.head rest) (topDir rest) (some b.id),
      (s.live.erase l.f).erase i, i :: l.f :: s.freed⟩, plug rest b, ?_,
    ⟨hinv.shape.cut.root, ?_, hrest.plug (hb.weaken pr'), hlive'⟩, hm.delete hinv.located, rfl,
    hids⟩
  · simp only [unlink, ok_bind, hg, deref_some, hx, hk, hv, hcg, hcf, hbro,
      State.putNode, ne_eq, not_true_eq_false, if_false]
    rfl
  · exact hinv.sorted.sublist (inorder_cut ⟨l.f, rf, kf, cf, b⟩ rest _)

omit [DecidableEq Id] in
/-- The locals before the loop: at the root, or below it if it is a 2-node. -/
theorem removeInv_start {i : Id} {k : Key} {a b : Tree Id Key Value}
    (hs : Holds c s (.dir i false k (decide (k ≤ key)) a b)) :
    ∃ l p t' pr n, (∀ {ρ : Type} (rest : RemoveLocals Id → Except Fault ρ),
        (if a.red = false ∧ b.red = false then do
          let y ← deref ((s.heap i).child (s.heap.toward i key))
          rest { g := some c.head, f := i, x := y }
        else
          rest { g := none, f := c.head, x := i }) = rest l) ∧
      RemoveInv c.head key s.heap s.heap l p t' pr n ∧ (p = [] → t'.external = false) ∧
      t'.size ≤ (Tree.dir i false k (decide (k ≤ key)) a b).size ∧
      plug p t' = .dir i false k (decide (k ≤ key)) a b := by
  obtain ⟨n, hn⟩ := hs.colours
  obtain ⟨m, rfl, ha, hb⟩ := rb_dir_black.mp hn
  have hsearch : Search c.head key s.heap [] _ := ⟨hs.shape, Located.nil key, hs.sorted⟩
  by_cases hcase : a.red = false ∧ b.red = false
  · simp only [if_pos hcase]
    obtain ⟨hdown, htoward, hchild⟩ := hsearch.down
    simp only [htoward, hchild, deref_some, ok_bind]
    refine ⟨⟨some c.head, i, a.id⟩, _, a, false, m, fun _ => rfl,
      ⟨hdown, ha.of_black hcase.1 true, ⟨rfl, hb, true, rfl⟩, rfl, rfl,
        ⟨rfl, .inr ⟨rfl, rfl, hb.of_black hcase.2 true⟩⟩, hdown.shape.sub,
        fun _ => ⟨_, hchild⟩⟩, by simp, ?_, rfl⟩
    simp only [Tree.dir_size]
    omega
  · refine ⟨⟨none, c.head, i⟩, [], _, true, m + 1, fun _ => if_neg hcase,
      ⟨hsearch, hn, rfl, rfl, (Tree.dir_id _ _ _ _ _ _).symm, ?_, hs.shape.sub,
        fun h => absurd rfl h⟩, ?_, le_refl _, rfl⟩
    · show redBelow _ = true
      rw [redBelow_dir, Bool.or_eq_true]
      by_cases hared : a.red = true
      · exact .inl hared
      · right
        simpa using fun hbred => hcase ⟨by simpa using hared, hbred⟩
    · intro _
      exact Tree.dir_external _ _ _ _ _ _

/-- `treeset_remove` on a tree with at least two keys. -/
theorem treesetRemove_spec (hs : Holds c s t) (ht : t.external = false)
    (hm : Stores t.inorder m) (key : Key) :
    match m key with
    | some v => ∃ s' t' x f d, treesetRemove c s key = .ok (s', (true, some v)) ∧
        Holds c s' t' ∧ Stores t'.inorder (Function.update m key none) ∧
        s'.freed = x :: f :: s.freed ∧ t.ids = {x} + ({f} + t'.ids) ∧
        (s.heap x).external = true ∧ (s.heap x).key = key ∧ (s.heap f).child d = some x
    | none => ∃ s' t', treesetRemove c s key = .ok (s', (false, none)) ∧
        Holds c s' t' ∧ Stores t'.inorder m ∧ s'.freed = s.freed ∧ t'.ids = t.ids := by
  obtain ⟨i, red, k, a, b, rfl⟩ := Tree.exists_of_internal ht fun k => decide (k ≤ key)
  obtain rfl : red = false := by
    obtain ⟨n, hn⟩ := hs.colours
    simpa using hn.black
  obtain ⟨hc0, hc1⟩ := hs.shape.sub.children
  obtain ⟨hcell, -, -, hra, hrb⟩ := rep_dir.mp hs.shape.sub
  have hroot : (s.heap c.head).child false = some i := by
    have hplace := hs.shape.place
    rwa [Tree.dir_id] at hplace
  have hblack : ((s.heap (if decide (k ≤ key) then b.id else a.id)).red = false ∧
      (s.heap (if decide (k ≤ key) then a.id else b.id)).red = false) ↔
        a.red = false ∧ b.red = false := by
    rw [← hra.red, ← hrb.red]
    cases decide (k ≤ key)
    · rfl
    · exact and_comm
  obtain ⟨l, p, t', pr, n, hstart, hinv, hp, hsize, hplug⟩ := removeInv_start hs
  obtain ⟨h', l', p', x, k', v, pr', n', hrun, hinv', hp', hin⟩ :=
    removeLoop_spec s.live.length hinv hp (hsize.trans hs.size_le)
  have hcall : treesetRemove c s key = unlink c { s with heap := h' } l' key := by
    simp only [treesetRemove, hroot, hcell.internal, hc0, hc1, hblack, deref_some, ok_bind,
      pure_bind, Bool.false_eq_true, if_false]
    rw [hstart fun l => removeLoop c key s.live.length s.heap l >>= _, hrun]
    rfl
  rw [hplug] at hin
  have hids : (plug p' (.ext x k' v)).ids =
      (Tree.dir i false k (decide (k ≤ key)) a b).ids := by
    rw [← Tree.inorder_ids, hin, Tree.inorder_ids]
  have hlive : (s.live : Multiset Id) = {c.head} + (placeIds p' + {x}) := by
    rw [hs.live, ← hids, ids_plug]
    rfl
  rw [← hin] at hm
  have hlookup := hm.lookup hinv'.located
  obtain ⟨hxk, -, hxe, -⟩ := hinv'.origin
  by_cases hkey : k' = key
  · subst hkey
    obtain ⟨d, hlink⟩ := hinv'.link hp'
    obtain ⟨s', t'', hunlink, hholds, hstores, hfreed, hids'⟩ :=
      unlink_spec (s := { s with heap := h' }) hinv' hp' hlive hm
    rw [if_pos rfl] at hlookup
    rw [hlookup]
    refine ⟨s', t'', x, l'.f, d, hcall.trans hunlink, hholds, hstores, hfreed, ?_, hxe, hxk, hlink⟩
    rw [← hids, hids']
  · rw [if_neg hkey] at hlookup
    rw [hlookup]
    refine ⟨{ s with heap := h' }, plug p' (.ext x k' v), hcall.trans ?_,
      hinv'.holds (s := { s with heap := h' }) hlive, hm, rfl, hids⟩
    obtain ⟨_, _, _, _, _, _, hg, -⟩ := hinv'.father hp'
    have hx : l'.x = x := hinv'.x
    have hk : (h' x).key = k' := hinv'.shape.sub.1
    simp only [unlink, hg, Option.isSome_some, check_true, ok_bind, deref_some, hx, hk, ne_eq,
      hkey, not_false_eq_true, if_true]
    rfl

/-- `treeset_remove` on a tree that is one external node. -/
theorem treesetRemove_single {i : Id} {k : Key} {v : Value} (hs : Holds c s (.ext i k v))
    (key : Key) :
    if k = key then ∃ s', treesetRemove c s key = .ok (s', (true, some v)) ∧
      s'.live = [c.head] ∧ (s'.heap c.head).child false = none ∧ s'.freed = i :: s.freed
    else treesetRemove c s key = .ok (s, (false, none)) := by
  obtain ⟨hroot, ⟨hk, -, he, hv⟩, -⟩ := hs.shape
  have hroot' : (s.heap c.head).child false = some i := hroot
  split
  · rename_i hkey
    refine ⟨⟨s.heap.setChild c.head false none, s.live.erase i, i :: s.freed⟩, ?_, ?_, ?_, rfl⟩
    · simp only [treesetRemove, hroot', he, hk, hkey, hv, if_true, ne_eq, not_true_eq_false,
        if_false, State.putNode]
      rfl
    · have hlive : (s.live : Multiset Id) = i ::ₘ {c.head} := by
        rw [hs.live, Tree.ids, add_comm, Multiset.singleton_add]
      have herase : ((s.live.erase i : List Id) : Multiset Id) = {c.head} := by
        rw [← Multiset.coe_erase, hlive, Multiset.erase_cons_head]
      exact List.perm_singleton.mp (Multiset.coe_eq_coe.mp herase)
    · exact setChild_same _ _ _ _
  · rename_i hkey
    simp only [treesetRemove, hroot', he, hk, hkey, if_true, ne_eq, not_false_eq_true]
    rfl

end Whole

end Libvsync.Map.Treeset
