import Libvsync.Map.TreesetHeap

/-!
Adding a key to the red-black tree set. The loop splits the 4-nodes on its way
down and rebalances where that makes two red nodes meet, so that the new nodes
can be put in at the bottom without going up again.
-/

namespace Libvsync.Map.Treeset

open Libvsync.Core Function

variable {Id Key Value : Type} [DecidableEq Id] [LinearOrder Key]
  {c : Config Id} {h : Heap Id Key Value} {p : Place Id Key Value} {key : Key}

section

omit [LinearOrder Key]

/-- The pointers that `_treeset_rebalance` writes in its second case. -/
theorem double_eq (gg : Id) (cgg : Bool) {g f x : Id} {d : Bool} (hxg : x ≠ g) (hxf : x ≠ f)
    (hfg : f ≠ g) :
    (((((h.setChild g d ((h x).child (!d))).setChild x (!d) (some g)).setChild f (!d)
      (((h.setChild g d ((h x).child (!d))).setChild x (!d) (some g) x).child d)).setChild x d
        (some f)).setChild gg cgg (some x)) =
      rotateUp (rotateUp h g d f x (!d)) gg cgg g x d := by
  funext j
  apply Cell.ext
  · simp [rotateUp]
  · simp [rotateUp]
  · simp [rotateUp]
  · funext e
    simp only [rotateUp, setChild_child]
    grind
  · simp [rotateUp]

/-- What `_treeset_rebalance` makes of a place below two red nodes. -/
theorem rebalance_place {x f g : Id} {kx kf kg : Key} {cx cf cg : Bool}
    {y z w u : Tree Id Key Value}
    (hs : Shape c.head h
      (⟨x, true, kx, cx, z⟩ :: ⟨f, true, kf, cf, w⟩ :: ⟨g, false, kg, cg, u⟩ :: p) y) :
    ∃ p', Shape c.head
        (if cg = cf then
          ((rotateUp h (top c.head p) (topDir p) g f cg).setRed f false).setRed g true
        else
          ((rotateUp (rotateUp h g cg f x (!cg)) (top c.head p) (topDir p) g x cg).setRed x
            false).setRed g true) p' y ∧
      Alike (⟨x, true, kx, cx, z⟩ :: ⟨f, true, kf, cf, w⟩ :: ⟨g, false, kg, cg, u⟩ :: p) p' ∧
      ∀ n pr, Rb true z n → Rb true w n → Rb true u n → RbPlace p pr (n + 1) →
        RbPlace p' true n := by
  by_cases hc : cg = cf
  · subst hc
    rw [if_pos rfl]
    refine ⟨⟨x, true, kx, cx, z⟩ :: ⟨f, false, kf, cg, .dir g true kg cg w u⟩ :: p, ?_, ?_, ?_⟩
    · have hrotated := (hs.up.up.up.rotate.paint false).down
      exact (shape_switch.mp ((shape_switch.mpr hrotated).paint true)).down
    · cases cg <;> cases cx <;>
        constructor <;>
          simp [leftOf, rightOf, Frame.left, Frame.right, Tree.dir, Tree.inorder]
    · intro n pr hz hw hu hp
      exact rbPlace_red_black rfl rfl hz (rb_dir_red.mpr ⟨rfl, hw, hu⟩) hp
  · obtain rfl : cf = !cg := by revert hc; cases cg <;> cases cf <;> simp
    rw [if_neg hc]
    have hup := hs.up.up.up
    dsimp only at hup
    by_cases hcx : cx = cg
    · subst hcx
      refine ⟨⟨f, true, kf, !cx, w⟩ :: ⟨x, false, kx, cx, .dir g true kg cx z u⟩ :: p,
        ?_, ?_, ?_⟩
      · have hrotated := (hup.double.paint false).down
        exact (shape_switch.mp ((shape_switch.mpr hrotated).paint true)).down
      · cases cx <;>
          constructor <;>
            simp [leftOf, rightOf, Frame.left, Frame.right, Tree.dir, Tree.inorder]
      · intro n pr hz hw hu hp
        exact rbPlace_red_black rfl rfl hw (rb_dir_red.mpr ⟨rfl, hz, hu⟩) hp
    · obtain rfl : cx = !cg := by revert hcx; cases cg <;> cases cx <;> simp
      refine ⟨⟨g, true, kg, cg, u⟩ :: ⟨x, false, kx, !cg, .dir f true kf (!cg) z w⟩ :: p,
        ?_, ?_, ?_⟩
      · rw [Tree.dir_flip x] at hup
        have hrotated := (hup.double.paint false).down
        exact ((shape_switch.mpr hrotated).paint true).down
      · cases cg <;>
          constructor <;>
            simp [leftOf, rightOf, Frame.left, Frame.right, Tree.dir, Tree.inorder]
      · intro n pr hz hw hu hp
        exact rbPlace_red_black rfl rfl hu (rb_dir_red.mpr ⟨rfl, hz, hw⟩) hp

end

/-- `_treeset_rebalance` moves the place to below one red node; it returns the
node there unless that is external. -/
theorem rebalance_spec {x f g : Id} {kx kf kg : Key} {cx cf cg : Bool}
    {y z w u : Tree Id Key Value}
    (hs : Shape c.head h
      (⟨x, true, kx, cx, z⟩ :: ⟨f, true, kf, cf, w⟩ :: ⟨g, false, kg, cg, u⟩ :: p) y)
    (hl : Located key
      (⟨x, true, kx, cx, z⟩ :: ⟨f, true, kf, cf, w⟩ :: ⟨g, false, kg, cg, u⟩ :: p)) :
    ∃ h' p', rebalance c h (top c.head p) g f x key =
        .ok (h', if (h y.id).external = false then some y.id else none) ∧
      Shape c.head h' p' y ∧
      Alike (⟨x, true, kx, cx, z⟩ :: ⟨f, true, kf, cf, w⟩ :: ⟨g, false, kg, cg, u⟩ :: p) p' ∧
      ∀ n pr, Rb true z n → Rb true w n → Rb true u n → RbPlace p pr (n + 1) →
        RbPlace p' true n := by
  obtain ⟨p', hs', halike, hrb⟩ := rebalance_place hs
  refine ⟨_, p', ?_, hs', halike, hrb⟩
  obtain ⟨⟨hx, hxd, -, -, hf, -, -, -, hg, -, -, -, hp⟩, -, hapart⟩ := hs
  simp only [placeIds, Multiset.singleton_add, Multiset.cons_add, Multiset.nodup_cons,
    Multiset.mem_cons, Multiset.mem_add, not_or] at hapart
  have hcx : h.toward x key = cx := toward_eq hx.key hl
  have hcf : h.toward f key = cf := toward_eq hf.key hl.up
  have hcg : h.toward g key = cg := toward_eq hg.key hl.up.up
  have hcgg : h.towardFrom c (top c.head p) key = topDir p :=
    towardFrom_eq hp (by grind) hl.up.up.up
  dsimp only at hxd
  simp only [rebalance, hcx, hcf, hcg, hcgg, hxd, deref]
  by_cases hc : cg = cf
  · subst hc
    simp only [rotateUp, if_pos, Except.bind, bind, setRed_external, setChild_external]
    split <;> rfl
  · have hdouble := double_eq (h := h) (top c.head p) (topDir p) (g := g) (f := f)
      (x := x) (d := cg)
      (by grind) (by grind) (by grind)
    simp only [if_neg hc, ← hdouble, Except.bind, bind, setRed_external, setChild_external]
    split <;> rfl

variable {a a' b b' : Tree Id Key Value}

omit [LinearOrder Key] in
/-- The children of a 4-node become black, and its top gets a colour. -/
theorem Shape.splitFour {head i ia ib : Id} {k ka kb : Key} {d da db : Bool} (hs : Shape head h p
      (.dir i false k d (.dir ia true ka da a a') (.dir ib true kb db b b'))) (red : Bool)
    (c0 c1 : Id) (hc0 : c0 = if d then ib else ia) (hc1 : c1 = if d then ia else ib) :
    Shape head (((h.setRed c0 false).setRed c1 false).setRed i red) p
      (.dir i red k d (.dir ia false ka da a a') (.dir ib false kb db b b')) := by
  subst hc0 hc1
  cases d with
  | false =>
    have hleft := hs.down.paint false
    have hright := (shape_switch (d := false)).mpr hleft
    exact (shape_switch.mp (hright.paint false)).up.paint red
  | true =>
    have hright := (shape_switch (d := true)).mpr hs.down
    have hleft := shape_switch.mp (hright.paint false)
    exact (hleft.paint false).up.paint red

/-- The nodes above the place of `treeset_add`, as its locals know them. -/
def AddAbove (head : Id) (l : AddLocals Id) : Place Id Key Value → Nat → Prop
  | [], _ => l.fRed = false
  | fr :: rest, n => l.fRed = fr.red ∧ (fr.red = true → ∃ fg p', rest = fg :: p' ∧
      fg.red = false ∧ Rb true fg.sibling n ∧ l.g = some fg.id ∧ l.gg = some (top head p'))

/-- The invariant of the loop of `treeset_add`. -/
structure AddInv (head : Id) (key : Key) (h : Heap Id Key Value) (l : AddLocals Id)
    (p : Place Id Key Value) (t : Tree Id Key Value) (pr : Bool) (n : Nat) : Prop
    extends Search head key h p t where
  sub : Rb true t n
  place : RbPlace p pr n
  f : l.f = top head p
  x : l.x = t.id
  above : AddAbove head l p n

variable {l : AddLocals Id} {t : Tree Id Key Value} {pr : Bool} {n : Nat}

section

omit [DecidableEq Id]

/-- A black node above the place. -/
theorem AddInv.below_black {head i : Id} {k : Key} {d : Bool}
    (hs : Search head key h (⟨i, false, k, d, b⟩ :: p) a) (ha : Rb true a n) (hb : Rb false b n)
    (hp : RbPlace p pr (n + 1)) (hf : l.f = i) (hx : l.x = a.id) (hred : l.fRed = false) :
    AddInv head key h l (⟨i, false, k, d, b⟩ :: p) a false n where
  toSearch := hs
  sub := ha
  place := ⟨rfl, hb, pr, hp⟩
  f := hf
  x := hx
  above := ⟨hred, by simp⟩

/-- A red father has a black father, and the locals know it. -/
theorem AddInv.below_red {head : Id} (hinv : AddInv head key h l p t pr n)
    (hred : l.fRed = true) :
    ∃ kf cf w g kg cg u p₀ pr', p = ⟨l.f, true, kf, cf, w⟩ :: ⟨g, false, kg, cg, u⟩ :: p₀ ∧
      l.g = some g ∧ l.gg = some (top head p₀) ∧ Rb true w n ∧ Rb true u n ∧
      RbPlace p₀ pr' (n + 1) := by
  cases p with
  | nil => exact absurd hinv.above (by simp [AddAbove, hred])
  | cons fr rest =>
    obtain ⟨hfr, habove⟩ := hinv.above
    obtain ⟨fg, p₀, rfl, hfg, hu, hg, hgg⟩ := habove (hfr.symm.trans hred)
    obtain ⟨f, rf, kf, cf, w⟩ := fr
    obtain ⟨g, rg, kg, cg, u⟩ := fg
    dsimp only at hfr hfg hu hg
    obtain rfl : rf = true := hfr.symm.trans hred
    subst hfg
    obtain ⟨-, hw, -, -, pr', hp⟩ := hinv.place
    obtain rfl : l.f = f := hinv.f
    exact ⟨kf, cf, w, g, kg, cg, u, p₀, pr', rfl, hg, hgg, hw, hu, hp⟩

theorem AddInv.f_ne_head {head : Id} (hinv : AddInv head key h l p t pr n)
    (hred : l.fRed = true) : l.f ≠ head := by
  obtain ⟨_, _, _, _, _, _, _, _, _, rfl, -⟩ := hinv.below_red hred
  exact hinv.shape.ne_head

end

theorem addInv_rebalance {i ia ib : Id} {k ka kb : Key} {d db : Bool}
    (hinv : AddInv c.head key h l p
      (.dir i false k d (.dir ia true ka (decide (ka ≤ key)) a a') (.dir ib true kb db b b')) pr n)
    (hd : d = decide (k ≤ key)) {h₁ : Heap Id Key Value} (hred : l.fRed = true)
    (hs : Shape c.head h₁ p
      (.dir i true k d (.dir ia false ka (decide (ka ≤ key)) a a') (.dir ib false kb db b b'))) :
    ∃ gg g h' p' m, l.gg = some gg ∧ l.g = some g ∧
      rebalance c h₁ gg g l.f i key = .ok (h', some ia) ∧
      h'.toward ia key = decide (ka ≤ key) ∧ (h' ia).child (decide (ka ≤ key)) = some a.id ∧
      AddInv c.head key h' { l with f := ia, x := a.id, fRed := false } p' a false m ∧
      (plug p' a).inorder = (plug p
        (.dir i true k d (.dir ia false ka (decide (ka ≤ key)) a a')
          (.dir ib false kb db b b'))).inorder := by
  subst hd
  obtain ⟨kf, cf, w, g, kg, cg, u, p₀, pr', rfl, hg, hgg, hw, hu, hp⟩ := hinv.below_red hred
  obtain ⟨m, rfl, ha, hb⟩ := rb_dir_black.mp hinv.sub
  obtain ⟨-, ha, ha'⟩ := rb_dir_red.mp ha
  obtain ⟨-, hb, hb'⟩ := rb_dir_red.mp hb
  have hsearch := hinv.toSearch.repaint hs
    (Tree.dir_inorder _ _ _ _ _ _ _ _ _ (Tree.dir_inorder _ _ _ _ _ _ _ _ _ rfl rfl)
      (Tree.dir_inorder _ _ _ _ _ _ _ _ _ rfl rfl))
  obtain ⟨hdown, -, -⟩ := hsearch.down
  obtain ⟨h', p', hrun, hs', halike, hrb⟩ := rebalance_spec hdown.shape hdown.located
  obtain ⟨hnext, htoward, hchild⟩ := (hdown.alike hs' halike).down
  have hint : (h₁ ia).external = false := by
    have hext := hdown.shape.sub.external
    rwa [Tree.dir_id, Tree.dir_external] at hext
  rw [Tree.dir_id, if_pos hint] at hrun
  have hplace : RbPlace p' true (m + 1) := by
    apply hrb (m + 1) pr' _ hw hu hp
    exact rb_dir_black.mpr ⟨m, rfl, hb.weaken false, hb'.weaken false⟩
  exact ⟨top c.head p₀, g, h', _, m, hgg, hg, hrun, htoward, hchild,
    AddInv.below_black hnext ha (ha'.weaken false) hplace rfl rfl rfl, halike.inorder _⟩

/-- Splitting a 4-node that is not below a red node. -/
theorem addInv_split {i ia ib : Id} {k ka kb : Key} {db : Bool} (hinv : AddInv c.head key h l p
      (.dir i false k (decide (k ≤ key)) (.dir ia true ka (decide (ka ≤ key)) a a')
        (.dir ib true kb db b b')) pr n) {h₁ : Heap Id Key Value} (hred : l.fRed = false)
    (hs : Search c.head key h₁ p
      (.dir i (decide (l.f ≠ c.head)) k (decide (k ≤ key))
        (.dir ia false ka (decide (ka ≤ key)) a a') (.dir ib false kb db b b'))) :
    ∃ p' m, h₁.toward i key = decide (k ≤ key) ∧
      (h₁ i).child (decide (k ≤ key)) = some ia ∧ h₁.toward ia key = decide (ka ≤ key) ∧
      (h₁ ia).child (decide (ka ≤ key)) = some a.id ∧
      AddInv c.head key h₁ { l with f := ia, x := a.id, fRed := false } p' a false m ∧
      plug p' a = plug p
        (.dir i (decide (l.f ≠ c.head)) k (decide (k ≤ key))
          (.dir ia false ka (decide (ka ≤ key)) a a') (.dir ib false kb db b b')) := by
  obtain ⟨hdown, htoward, hchild⟩ := hs.down
  obtain ⟨hnext, htoward', hchild'⟩ := hdown.down
  rw [Tree.dir_id] at hchild
  obtain ⟨m, rfl, ha, hb⟩ := rb_dir_black.mp hinv.sub
  obtain ⟨-, ha, ha'⟩ := rb_dir_red.mp ha
  obtain ⟨-, hb, hb'⟩ := rb_dir_red.mp hb
  have hsibling : Rb true (Tree.dir ib false kb db b b') (m + 1) :=
    rb_dir_black.mpr ⟨m, rfl, hb.weaken false, hb'.weaken false⟩
  -- the root stays black, and any other node becomes red below a black one
  have hplace : RbPlace (⟨i, decide (l.f ≠ c.head), k, decide (k ≤ key),
      .dir ib false kb db b b'⟩ :: p) (decide (l.f ≠ c.head)) (m + 1) := by
    have hp := hinv.place
    rw [hinv.f]
    cases p with
    | nil =>
      simp only [top, ne_eq, not_true_eq_false, decide_false]
      exact ⟨rfl, hsibling.weaken _, true, rfl⟩
    | cons fr rest =>
      have hne : fr.id ≠ c.head := hinv.shape.ne_head
      have hblack : fr.red = false := hinv.above.1.symm.trans hred
      have hpr : pr = false := hp.1.trans hblack
      rw [hpr] at hp
      simp only [top, hne, ne_eq, not_false_eq_true, decide_true]
      exact ⟨rfl, hsibling, hp⟩
  exact ⟨_, m, htoward, hchild, htoward', hchild',
    AddInv.below_black hnext ha (ha'.weaken false) hplace rfl rfl rfl, rfl⟩

/-- What one round of the loop of `treeset_add` does. -/
theorem addLoop_round (hinv : AddInv c.head key h l p t pr n) (ht : t.external = false)
    (rounds : Nat) : ∃ h' l' p' t' pr' n', addLoop c key (rounds + 1) h l =
    addLoop c key rounds h' l' ∧
      AddInv c.head key h' l' p' t' pr' n' ∧ t'.size < t.size ∧
      (plug p' t').inorder = (plug p t).inorder := by
  obtain ⟨i, red, k, a, b, rfl⟩ := Tree.exists_of_internal ht fun k => decide (k ≤ key)
  obtain rfl : red = false := by simpa using hinv.sub.black
  obtain ⟨m, rfl, ha, hb⟩ := rb_dir_black.mp hinv.sub
  have hrep := hinv.shape.sub
  obtain ⟨hc0, hc1⟩ := hrep.children
  obtain ⟨hcell, hca, -, hra, hrb⟩ := rep_dir.mp hrep
  have hx : l.x = i := by simpa using hinv.x
  obtain ⟨hdown, htoward, -⟩ := hinv.toSearch.down
  have hcolours : ((h (if decide (k ≤ key) then b.id else a.id)).red &&
      (h (if decide (k ≤ key) then a.id else b.id)).red) = (a.red && b.red) := by
    cases decide (k ≤ key) with
    | false => simp [hra.red, hrb.red]
    | true => simp [hra.red, hrb.red, Bool.and_comm]
  rw [addLoop, hx, if_neg (by simp [hcell.internal]), hc0, hc1]
  simp only [deref_some, ok_bind, check_true hcell.red, htoward, hca, hcolours, hra.red]
  by_cases hfour : a.red = true ∧ b.red = true
  · -- cases 3 and 4
    obtain ⟨hared, hbred⟩ := hfour
    rw [if_pos (by simp [hared, hbred])]
    obtain ⟨ia, ra, ka, a₀, a₁, rfl⟩ :=
      Tree.exists_of_internal (Tree.external_of_red hared) fun k => decide (k ≤ key)
    obtain ⟨ib, rb, kb, b₀, b₁, rfl⟩ :=
      Tree.exists_of_internal (Tree.external_of_red hbred) fun _ => false
    simp only [Tree.dir_red] at hared hbred
    subst hared hbred
    simp only [Tree.dir_id]
    have hs := hinv.shape.splitFour (decide (l.f ≠ c.head)) _ _ rfl rfl
    have horder := Tree.dir_inorder i false (decide (l.f ≠ c.head)) k (decide (k ≤ key)) _ _ _ _
      (Tree.dir_inorder ia true false ka (decide (ka ≤ key)) a₀ a₁ a₀ a₁ rfl rfl)
      (Tree.dir_inorder ib true false kb false b₀ b₁ b₀ b₁ rfl rfl)
    generalize ((h.setRed _ false).setRed _ false).setRed i _ = h₁ at hs ⊢
    have hsize : a₀.size < (Tree.dir i false k (decide (k ≤ key))
        (.dir ia true ka (decide (ka ≤ key)) a₀ a₁) (.dir ib true kb false b₀ b₁)).size := by
      simp only [Tree.dir_size]
      omega
    cases hfred : l.fRed with
    | true =>
      simp only [hinv.f_ne_head hfred, ne_eq, not_false_eq_true, decide_true] at hs horder
      obtain ⟨gg, g, h', p', m', hgg, hg, hrun, htow, hchild, hinv', hin⟩ :=
        addInv_rebalance hinv rfl hfred hs
      simp only [hgg, hg] at hinv'
      simp only [hgg, hg, deref_some, ok_bind, hrun, htow, hchild, if_true]
      exact ⟨_, _, _, _, _, _, rfl, hinv', hsize, hin.trans (plug_inorder p horder)⟩
    | false =>
      obtain ⟨p', m', htow, hchild, htow', hchild', hinv', hplug⟩ :=
        addInv_split hinv hfred (hinv.toSearch.repaint hs horder)
      simp only [htow, hchild, htow', hchild', deref_some, ok_bind, Bool.false_eq_true, if_false]
      refine ⟨_, _, _, _, _, _, rfl, hinv', hsize, ?_⟩
      rw [hplug]
      exact plug_inorder p horder
  · rw [if_neg (by simpa using hfour)]
    by_cases hared : a.red = true
    · -- case 2
      rw [if_pos hared]
      have hbred : b.red = false := by simpa using fun hb => hfour ⟨hared, hb⟩
      obtain ⟨ia, ra, ka, a₀, a₁, rfl⟩ :=
        Tree.exists_of_internal (Tree.external_of_red hared) fun k => decide (k ≤ key)
      rw [Tree.dir_red] at hared
      subst hared
      obtain ⟨-, ha₀, ha₁⟩ := rb_dir_red.mp ha
      obtain ⟨hnext, htow, hchild⟩ := hdown.down
      simp only [Tree.dir_id, htow, hchild, deref_some, ok_bind]
      refine ⟨h, _, _, a₀, true, m, rfl, ⟨hnext, ha₀, ?_, rfl, rfl, ?_⟩, ?_, rfl⟩
      · exact rbPlace_red_black rfl rfl ha₁ hb hinv.place
      · refine ⟨rfl, fun _ => ⟨_, _, rfl, rfl, hb.of_black hbred true, rfl, ?_⟩⟩
        rw [hinv.f]
      · simp only [Tree.dir_size]
        omega
    · -- case 1
      rw [if_neg hared]
      refine ⟨h, _, _, a, false, m, rfl, AddInv.below_black hdown ?_ hb hinv.place rfl rfl rfl,
        ?_, rfl⟩
      · exact ha.of_black (by simpa using hared) true
      · simp only [Tree.dir_size]
        omega

/-- The loop of `treeset_add` ends at an external node, and the items of the
tree have not changed. -/
theorem addLoop_spec (rounds : Nat) (hinv : AddInv c.head key h l p t pr n)
    (hrounds : t.size ≤ rounds) : ∃ h' l' p' i k v pr' n',
      addLoop c key rounds h l = .ok (h', l') ∧
      AddInv c.head key h' l' p' (.ext i k v) pr' n' ∧
      (plug p' (.ext i k v)).inorder = (plug p t).inorder := by
  induction rounds generalizing h l p t pr n with
  | zero => exact absurd hrounds (by cases t <;> simp [Tree.size])
  | succ rounds ih =>
    cases ht : t.external with
    | true =>
      cases t with
      | ext i k v =>
        refine ⟨h, l, p, i, k, v, pr, n, ?_, hinv, rfl⟩
        have hext : (h l.x).external = true := by
          rw [hinv.x]
          exact hinv.shape.sub.external
        rw [addLoop, if_pos hext]
      | node i red k a b => exact absurd ht (by simp [Tree.external])
    | false =>
      obtain ⟨h', l', p', t', pr', n', hrun, hinv', hsize, hin⟩ :=
        addLoop_round hinv ht rounds
      rw [hrun, ← hin]
      exact ih hinv' (by omega)

omit [LinearOrder Key] in
/-- Two new nodes are put in the place of an external node. -/
theorem Shape.insert {head i ext mid : Id} {k km : Key} {v : Value} {d red : Bool}
    {cell : Cell Id Key Value} (key : Key) (value : Value) (hs : Shape head h p (.ext i k v))
    (hext : ext ∉ {head} + (placeIds p + {i})) (hmid : mid ∉ ext ::ₘ ({head} + (placeIds p + {i})))
    (hcell : cell.key = km ∧ cell.red = red ∧ cell.external = false ∧
      cell.child d = some ext ∧ cell.child (!d) = some i) :
    Shape head (Heap.setChild (update (update h ext (extCell key value)) mid cell)
        (top head p) (topDir p) (some mid)) p
      (.dir mid red km d (.ext ext key value) (.ext i k v)) := by
  obtain ⟨hnodup, -, hout⟩ := hs.split p {i} rfl
  simp only [Multiset.mem_cons, Multiset.mem_add, Multiset.mem_singleton, not_or] at hext hmid
  have htop := hout _ (top_mem head p)
  rw [Multiset.mem_singleton] at htop
  have hnew : top head p ≠ ext ∧ top head p ≠ mid := by
    have hmem := top_mem head p
    simp only [Multiset.mem_cons] at hmem
    grind
  obtain ⟨hp, ⟨hk, hr, he, hv⟩, hapart⟩ := hs
  generalize hh' : Heap.setChild (update (update h ext (extCell key value)) mid
    cell) (top head p) (topDir p) (some mid) = h'
  have hkeep : Kept [ext, mid, top head p] h h' := by
    intro j hj
    simp only [List.mem_cons, List.not_mem_nil, or_false, not_or] at hj
    rw [← hh', setChild_of_ne hj.2.2, update_of_ne hj.2.1, update_of_ne hj.1]
  have hi : h' i = h i := hkeep i (by grind)
  have hmid' : h' mid = cell := by
    rw [← hh', setChild_of_ne hnew.2.symm, update_self]
  have hext' : h' ext = extCell key value := by
    rw [← hh', setChild_of_ne hnew.1.symm, update_of_ne (by grind), update_self]
  have htop' : h' (top head p) =
      h.setChild (top head p) (topDir p) (some mid) (top head p) := by
    rw [← hh']
    apply setChild_congr
    rw [update_of_ne hnew.2, update_of_ne hnew.1]
  refine ⟨?_, rep_dir.mpr ⟨?_, ?_, ?_, ?_, ?_⟩, ?_⟩
  · rw [Tree.dir_id]
    apply hp.redirect hnodup hkeep _ htop'
    intro j hj hup
    simp only [Multiset.mem_cons] at hup
    grind
  · exact ⟨by rw [hmid', hcell.1], by rw [hmid', hcell.2.1], by rw [hmid', hcell.2.2.1]⟩
  · rw [hmid', hcell.2.2.2.1]
    rfl
  · rw [hmid', hcell.2.2.2.2]
    rfl
  · simp [Rep, hext', extCell]
  · simp only [Rep, hi]
    exact ⟨hk, hr, he, hv⟩
  · have hids : {head} + (placeIds p + (Tree.dir mid red km d (.ext ext key value)
        (.ext i k v)).ids) = mid ::ₘ ext ::ₘ ({head} + (placeIds p + {i})) := by
      simp only [Tree.dir_ids, Tree.ids, ← Multiset.singleton_add]
      abel
    rw [hids]
    simp only [Multiset.nodup_cons, Multiset.mem_cons, Multiset.mem_add, Multiset.mem_singleton,
      not_or]
    exact ⟨hmid, hext, hapart⟩

variable {s : State Id Key Value}

theorem addNew_spec {i : Id} {k : Key} {v : Value} (value : Value)
    (hinv : AddInv c.head key s.heap l p (.ext i k v) pr n)
    (hlive : (s.live : Multiset Id) = {c.head} + (placeIds p + {i})) (hne : k ≠ key) :
    ∃ s' t' ext mid km, addNew c s l key value = .ok s' ∧ Holds c s' t' ∧ s'.freed = s.freed ∧
      ∀ a, a ∈ t'.inorder ↔ a = .ext ext key value ∨ a = .sep mid km ∨
        a ∈ (plug p (.ext i k v)).inorder := by
  have hmem (j : Id) : j ∈ s.live ↔ j ∈ {c.head} + (placeIds p + {i}) := by
    rw [← hlive, Multiset.mem_coe]
  have hx : l.x = i := hinv.x
  have hkey : (s.heap i).key = k := hinv.shape.sub.1
  generalize hext : c.malloc s.live = ext
  generalize hmid : c.malloc (ext :: s.live) = mid
  have hextnew : ext ∉ {c.head} + (placeIds p + {i}) := by
    rw [← hmem, ← hext]
    exact c.fresh _
  have hmidnew : mid ∉ ext ::ₘ ({c.head} + (placeIds p + {i})) := by
    have hfresh := c.fresh (ext :: s.live)
    rwa [hmid, List.mem_cons, hmem, ← Multiset.mem_cons] at hfresh
  have hiext : i ≠ ext := by
    rintro rfl
    simp at hextnew
  have hkm : decide (k < key) = decide ((if k < key then key else k) ≤ key) := by
    by_cases hlow : k < key
    · simp [hlow]
    · have hlt : key < k := lt_of_le_of_ne (not_lt.mp hlow) hne.symm
      simp [hlow, hlt]
  -- the heap with the new nodes
  generalize hcell : ({
    key := if k < key then key else k
    red := decide (l.f ≠ c.head)
    external := false
    child := fun b => if b = decide (k < key) then some ext else some i
    value := (update s.heap ext (extCell key value) mid).value } : Cell Id Key Value) = cell
  have hnewcell : cell.key = (if k < key then key else k) ∧ cell.red = decide (l.f ≠ c.head) ∧
      cell.external = false ∧ cell.child (decide (k < key)) = some ext ∧
      cell.child (!decide (k < key)) = some i := by
    simp [← hcell]
  have hs := hinv.shape.insert key value hextnew hmidnew hnewcell
  have hdir : Heap.towardFrom c (update (update s.heap ext
      (extCell key value)) mid cell) l.f key = topDir p := by
    rw [← towardFrom_eq hinv.shape.place hinv.shape.head_apart hinv.located, hinv.f,
      Heap.towardFrom, Heap.towardFrom, update_of_ne, update_of_ne]
    · intro heq
      rw [← heq] at hextnew
      exact hextnew (by simpa [or_assoc] using Or.inl (top_mem c.head p))
    · intro heq
      rw [← heq] at hmidnew
      exact hmidnew (by simpa [or_assoc] using Or.inr (Or.inl (top_mem c.head p)))
  have hsorted := hinv.sorted.insert ext mid value (decide (l.f ≠ c.head)) hinv.located hne
  have hsub : Rb false (Tree.dir mid true (if k < key then key else k) (decide (k < key))
      (.ext ext key value) (.ext i k v)) 0 := rb_dir_red.mpr ⟨rfl, rfl, rfl⟩
  obtain rfl : n = 0 := hinv.sub
  simp only [addNew, State.getNode, hext, hmid, hx]
  rw [update_of_ne hiext, hkey]
  simp only [hcell, hdir]
  rw [hinv.f] at hs hsorted ⊢
  generalize hh' : Heap.setChild (update (update s.heap ext
    (extCell key value)) mid cell) (top c.head p) (topDir p) (some mid) = h' at hs ⊢
  have hlive' (red : Bool) : ((mid :: ext :: s.live : List Id) : Multiset Id) = {c.head} +
      (plug p (.dir mid red (if k < key then key else k) (decide (k < key))
        (.ext ext key value) (.ext i k v))).ids := by
    rw [← Multiset.cons_coe, ← Multiset.cons_coe, hlive, ids_plug, Tree.dir_ids]
    simp only [Tree.ids, ← Multiset.singleton_add]
    abel
  have hitems (red : Bool) (a : Item Id Key Value) :
      a ∈ (plug p (.dir mid red (if k < key then key else k) (decide (k < key))
        (.ext ext key value) (.ext i k v))).inorder ↔ a = .ext ext key value ∨
          a = .sep mid (if k < key then key else k) ∨ a ∈ (plug p (.ext i k v)).inorder := by
    simp only [inorder_plug, List.mem_append]
    cases decide (k < key) <;> simp only [Tree.dir, Tree.inorder, List.mem_append, List.mem_cons,
      List.not_mem_nil, or_false] <;> grind
  cases hfred : l.fRed with
  | false =>
    simp only [Bool.false_eq_true, if_false]
    refine ⟨_, _, ext, mid, _, rfl, ⟨hs.root, hsorted, ?_, hlive' _⟩, rfl, hitems _⟩
    have habove := hinv.above
    have hp := hinv.place
    cases p with
    | nil =>
      refine ⟨1, ?_⟩
      simp only [top, ne_eq, not_true_eq_false, decide_false, plug]
      exact rb_dir_black.mpr ⟨0, rfl, rfl, rfl⟩
    | cons fr rest =>
      have hne' : fr.id ≠ c.head := hinv.shape.ne_head
      have hpr : pr = false := hp.1.trans (habove.1.symm.trans hfred)
      rw [hpr] at hp
      simp only [top, hne', ne_eq, not_false_eq_true, decide_true]
      exact hp.plug hsub
  | true =>
    have hnh := hinv.f_ne_head hfred
    obtain ⟨kf, cf, w, g, kg, cg, u, p₀, pr', rfl, hg, hgg, hw, hu, hp⟩ :=
      hinv.below_red hfred
    simp only [top, hnh, ne_eq, not_false_eq_true, decide_true] at hs hsorted
    have hsearch : Search c.head key h' _ _ := ⟨hs, hinv.located, hsorted⟩
    rw [hkm] at hsearch
    obtain ⟨hdown, -, -⟩ := hsearch.down
    obtain ⟨h₂, p', hrun, hs', halike, hrb⟩ := rebalance_spec hdown.shape hdown.located
    have hplace : RbPlace p' true 0 := hrb 0 pr' rfl hw hu hp
    have hin := halike.inorder (.ext ext key value)
    simp only [hgg, hg, deref_some, ok_bind, if_true, ← hinv.f, hrun]
    refine ⟨_, plug p' (.ext ext key value), ext, mid, if k < key then key else k, rfl,
      ⟨hs'.root, ?_, hplace.plug rfl, ?_⟩, rfl, ?_⟩
    · exact (hdown.alike hs' halike).sorted
    · rw [hlive' true, ids_plug p', halike.ids, ← ids_plug, hkm]
      rfl
    · rw [hin, ← hkm]
      exact hitems true

omit [DecidableEq Id] in
/-- The root of the tree, as the locals of `treeset_add` know it. -/
theorem addInv_root (key : Key) (hs : Holds c s t) :
    ∃ n, AddInv c.head key s.heap ⟨none, none, c.head, t.id, false⟩ [] t true n := by
  obtain ⟨n, hn⟩ := hs.colours
  exact ⟨n, ⟨⟨hs.shape, Located.nil key, hs.sorted⟩, hn, rfl, rfl, rfl, rfl⟩⟩

theorem treesetAdd_spec (hs : Holds c s t) {m : Key → Option Value} (hm : Stores t.inorder m)
    (key : Key) (value : Value) :
    ∃ s' t', Holds c s' t' ∧ s'.freed = s.freed ∧
      match m key with
      | some v => treesetAdd c s key value = .ok (s', (false, some v)) ∧ Stores t'.inorder m
      | none => treesetAdd c s key value = .ok (s', (true, none)) ∧
          Stores t'.inorder (update m key (some value)) := by
  obtain ⟨n₀, hroot⟩ := addInv_root key hs
  obtain ⟨h', l', p', i, k, v, pr', n', hrun, hinv, hin⟩ :=
    addLoop_spec s.live.length hroot hs.size_le
  rw [plug] at hin
  have hm' := hm
  rw [← hin] at hm'
  have hlookup := hm'.lookup hinv.located
  have hchild : (s.heap c.head).child false = some t.id := hs.shape.place
  have hx : l'.x = i := hinv.x
  obtain ⟨hk, -, -, hv⟩ := hinv.shape.sub
  have hlive : (s.live : Multiset Id) = {c.head} + (placeIds p' + {i}) := by
    have hids := congrArg (fun items => ((items.map Item.id : List Id) : Multiset Id)) hin
    simp only [Tree.inorder_ids] at hids
    rw [hs.live, ← hids, ids_plug]
    rfl
  by_cases hkey : k = key
  · rw [hlookup, if_pos hkey]
    refine ⟨{ s with heap := h' }, plug p' (.ext i k v), ⟨hinv.shape.root, hinv.sorted,
      hinv.place.plug (hinv.sub.weaken _), ?_⟩, rfl, ?_, hm'⟩
    · rw [ids_plug]
      exact hlive
    · simp only [treesetAdd, hchild, hrun, ok_bind, hx, hk, hkey, hv, if_true]
      rfl
  · rw [if_neg hkey] at hlookup
    rw [hlookup]
    obtain ⟨s', t', ext, mid, km, hadd, hholds, hfreed, hitems⟩ :=
      addNew_spec (s := { s with heap := h' }) value hinv hlive hkey
    refine ⟨s', t', hholds, hfreed, ?_, hm'.insert hlookup hitems⟩
    simp only [treesetAdd, hchild, hrun, ok_bind, hx, hk, hkey, if_false, hadd]
    rfl

theorem treesetAdd_empty (hlive : s.live = [c.head]) (hnull : (s.heap c.head).child false = none)
    (key : Key) (value : Value) :
    ∃ s' i, treesetAdd c s key value = .ok (s', (true, none)) ∧
      Holds c s' (.ext i key value) ∧ s'.freed = s.freed := by
  have hfresh := c.fresh s.live
  have hne : c.malloc s.live ≠ c.head := by
    intro heq
    rw [heq, hlive] at hfresh
    simp at hfresh
  have hrun : treesetAdd c s key value = .ok (⟨Heap.setChild (update s.heap
      (c.malloc s.live) (extCell key value)) c.head false (some (c.malloc s.live)),
      c.malloc s.live :: s.live, s.freed⟩, (true, none)) := by
    simp only [treesetAdd, hnull, State.getNode]
    rfl
  refine ⟨_, c.malloc s.live, hrun, ⟨⟨?_, ?_, ?_⟩, ?_, ⟨0, rfl⟩, ?_⟩, rfl⟩
  · simp [RepPlace, Tree.id]
  · simp [Rep, setChild_of_ne hne, extCell]
  · simpa [placeIds, Tree.ids] using hne.symm
  · simp [Sorted, Tree.inorder]
  · rw [hlive, Tree.ids, add_comm]
    rfl

end Libvsync.Map.Treeset
