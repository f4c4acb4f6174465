import Libvsync.Core.Locked
import Libvsync.Map.TreesetHeight
import Libvsync.Spinlock.Caslock
import Libvsync.Spinlock.RwlockPhase

/-!
The red-black tree set under one lock. The calls are those of the tree with
fine-grained locks, with the node locks left out; `treeset_contains` takes the
lock to read. The lock is a parameter, as the header leaves its choice to the
user; a lock that does not know readers lets one call in at a time.

A call goes round its loop one step at a time. `map` is not read by the code: it
is what the calls have made of the set.
-/

namespace Libvsync.Map.TreesetCoarse

open Libvsync.Core Libvsync.Map.Treeset

section Source

variable {Id Key Value : Type} [DecidableEq Id] [LinearOrder Key]

/-- One round of the loop of `treeset_add`. -/
def addRound (c : Config Id) (key : Key) (h : Heap Id Key Value) (l : AddLocals Id) :
    Except Fault (Heap Id Key Value × AddLocals Id) := do
  let c0 ← deref ((h l.x).child false)
  let c1 ← deref ((h l.x).child true)
  check ((h l.x).red = false) "!x->red"
  if (h c0).red && (h c1).red then
    let h := h.setRed c0 false
    let h := h.setRed c1 false
    let h := h.setRed l.x (l.f ≠ c.head)
    if l.fRed then
      let gg ← deref l.gg
      let g ← deref l.g
      let (h, x) ← rebalance c h gg g l.f l.x key
      let x ← deref x
      let y ← deref ((h x).child (h.toward x key))
      return (h, { l with f := x, x := y, fRed := false })
    else
      let x ← deref ((h l.x).child (h.toward l.x key))
      let y ← deref ((h x).child (h.toward x key))
      return (h, { l with f := x, x := y, fRed := false })
  else
    let y ← deref ((h l.x).child (h.toward l.x key))
    if (h y).red then
      let z ← deref ((h y).child (h.toward y key))
      return (h, { gg := some l.f, g := some l.x, f := y, x := z, fRed := true })
    else
      return (h, { l with f := l.x, x := y, fRed := false })

/-- What follows the loop of `treeset_add`. -/
def addEnd (c : Config Id) (s : State Id Key Value) (l : AddLocals Id) (key : Key)
    (value : Value) : Except Fault (State Id Key Value × Result Value) := do
  if (s.heap l.x).key = key then
    return (s, (false, (s.heap l.x).value))
  else
    let s ← addNew c s l key value
    return (s, (true, none))

/-- One round of the loop of `treeset_remove`. -/
def removeRound (c : Config Id) (key : Key) (h : Heap Id Key Value) (l : RemoveLocals Id) :
    Except Fault (Heap Id Key Value × RemoveLocals Id) := do
  let c0 ← deref ((h l.x).child false)
  let c1 ← deref ((h l.x).child true)
  check ((h l.x).red = false) "!x->red"
  let cx := h.toward l.x key
  let near := if cx then c1 else c0
  let far := if cx then c0 else c1
  if (h near).red then
    let y ← deref ((h near).child (h.toward near key))
    return (h, { g := some l.x, f := near, x := y })
  else if (h far).red then
    let h := rotateTop c h l.f l.x far cx key
    let y ← deref ((h l.x).child (h.toward l.x key))
    return (h, { g := some far, f := l.x, x := y })
  else
    let h ← twoNode c h l key
    let y ← deref ((h l.x).child (h.toward l.x key))
    return (h, { g := some l.f, f := l.x, x := y })

/-- What `treeset_remove` does ahead of its loop, where the root `x` is internal. -/
def removeStart (c : Config Id) (key : Key) (h : Heap Id Key Value) (x : Id) :
    Except Fault (RemoveLocals Id) := do
  let c0 ← deref ((h x).child false)
  let c1 ← deref ((h x).child true)
  if (h c0).red = false ∧ (h c1).red = false then do
    let y ← deref ((h x).child (h.toward x key))
    return { g := some c.head, f := x, x := y }
  else
    return { g := none, f := c.head, x := x }

/-- What follows the loop of `treeset_contains`. -/
def containsEnd (h : Heap Id Key Value) (x : Id) (key : Key) : Result Value :=
  if (h x).key ≠ key then (false, none) else (true, (h x).value)

/-- Where a call stands that has the lock, with its local variables. -/
inductive Loc (Id : Type) where
  | begin
  | adding (l : AddLocals Id)
  | removing (l : RemoveLocals Id)
  | descending (x : Id)

/-- A step of a call on the tree: it goes on or returns. -/
def treeStep (c : Config Id) (s : State Id Key Value) :
    Call Key Value → Loc Id → Except Fault (State Id Key Value × (Loc Id ⊕ Result Value))
  | .add key value, .begin =>
    match (s.heap c.head).child false with
    | none => do
        let (s, r) ← treesetAdd c s key value
        return (s, .inr r)
    | some x =>
      return (s, .inl (.adding { gg := none, g := none, f := c.head, x := x, fRed := false }))
  | .add key value, .adding l =>
    if (s.heap l.x).external then do
      let (s, r) ← addEnd c s l key value
      return (s, .inr r)
    else do
      let (h, l) ← addRound c key s.heap l
      return ({ s with heap := h }, .inl (.adding l))
  | .remove key, .begin =>
    match (s.heap c.head).child false with
    | none => return (s, .inr (false, none))
    | some x =>
      if (s.heap x).external then do
        let (s, r) ← treesetRemove c s key
        return (s, .inr r)
      else do
        let l ← removeStart c key s.heap x
        return (s, .inl (.removing l))
  | .remove key, .removing l =>
    if (s.heap l.x).external then do
      let (s, r) ← unlink c s l key
      return (s, .inr r)
    else do
      let (h, l) ← removeRound c key s.heap l
      return ({ s with heap := h }, .inl (.removing l))
  | .contains _, .begin =>
    match (s.heap c.head).child false with
    | none => return (s, .inr (false, none))
    | some x => return (s, .inl (.descending x))
  | .contains key, .descending x =>
    if (s.heap x).external then
      return (s, .inr (containsEnd s.heap x key))
    else do
      let y ← deref ((s.heap x).child (s.heap.toward x key))
      return (s, .inl (.descending y))
  | _, _ => .error .blocked

structure Mem (Id Key Value : Type) where
  tree : State Id Key Value
  map : Key → Option Value

def mapAfter (map : Key → Option Value) : Call Key Value → Result Value → Key → Option Value
  | .add key value, (true, _) => Function.update map key (some value)
  | .remove key, (true, _) => Function.update map key none
  | _, _ => map

/-- A fault stops the call. -/
def bodyStep (c : Config Id) (call : Call Key Value) (loc : Loc Id) (m : Mem Id Key Value)
    (_ : Unit) : Option (Mem Id Key Value × (Loc Id ⊕ Result Value)) :=
  match treeStep c m.tree call loc with
  | .error _ => none
  | .ok (s, .inl loc) => some ({ m with tree := s }, .inl loc)
  | .ok (s, .inr r) => some (⟨s, mapAfter m.map call r⟩, .inr r)

def reads : Call Key Value → Bool
  | .contains _ => true
  | .add _ _ | .remove _ => false

/-- The calls of the set between acquire and release of the coarse lock. -/
def body (Key Value : Type) [LinearOrder Key] (c : Config Id) :
    Body (Mem Id Key Value) (Call Key Value) (Result Value) (Loc Id) Unit where
  reads := reads
  again := fun _ => none
  enter := fun _ => .begin
  step := bodyStep c

/-- `treeset_init`, with whatever the memory holds. -/
structure Initial (c : Config Id) (m : Mem Id Key Value) : Prop where
  tree : ∃ memory, m.tree = treesetInit c memory
  map : m.map = fun _ => none

def machine {Tid : Type} [DecidableEq Tid] (L : Lock Tid) (Key Value : Type) [LinearOrder Key]
    (c : Config Id) :=
  Locked.machine L (body Key Value c) (Initial c)

/-- `treeset_visit`: what the visitor is called with. -/
def treesetVisit (c : Config Id) (rounds : Nat) (s : State Id Key Value) :
    Except Fault (List (Key × Option Value)) :=
  match (s.heap c.head).child false with
  | none => .ok []
  | some root => visitRecursive s.heap rounds root

/-- `_treeset_putall` -/
def putall (c : Config Id) (rounds : Nat) (s : State Id Key Value) :
    Except Fault (State Id Key Value) :=
  match (s.heap c.head).child false with
  | none => .ok s
  | some root => putallRecursive rounds s root

end Source

variable {Id Key Value : Type} [DecidableEq Id] [LinearOrder Key] {c : Config Id} {key : Key}
  {h : Heap Id Key Value} {s s' s₁ : State Id Key Value} {call : Call Key Value} {loc : Loc Id}
  {r : Result Value}

theorem addLoop_succ (rounds : Nat) (l : AddLocals Id) : addLoop c key (rounds + 1) h l =
    if (h l.x).external then .ok (h, l)
    else addRound c key h l >>= fun p => addLoop c key rounds p.1 p.2 := by
  rw [addLoop]
  split
  · rfl
  · simp only [addRound, bind_assoc]
    refine bind_congr fun c0 => bind_congr fun c1 => bind_congr fun _ => ?_
    split
    · split
      · simp only [bind_assoc, pure_bind]
      · simp only [bind_assoc, pure_bind]
    · simp only [bind_assoc]
      refine bind_congr fun y => ?_
      split
      · simp only [bind_assoc, pure_bind]
      · simp only [pure_bind]

theorem removeLoop_succ (rounds : Nat) (l : RemoveLocals Id) : removeLoop c key (rounds + 1) h l =
    if (h l.x).external then .ok (h, l)
    else removeRound c key h l >>= fun p => removeLoop c key rounds p.1 p.2 := by
  rw [removeLoop]
  split
  · rfl
  · simp only [removeRound, bind_assoc]
    refine bind_congr fun c0 => bind_congr fun c1 => bind_congr fun _ => ?_
    generalize (if h.toward l.x key = true then c1 else c0) = near
    generalize (if h.toward l.x key = true then c0 else c1) = far
    split
    · simp only [bind_assoc, pure_bind]
    · split
      · simp only [bind_assoc, pure_bind]
      · simp only [bind_assoc, pure_bind]

/-- The rest of a call, with its loop run to the end. -/
def finish (c : Config Id) (rounds : Nat) (s : State Id Key Value) :
    Call Key Value → Loc Id → Except Fault (State Id Key Value × Result Value)
  | call, .begin => object c s call
  | .add key value, .adding l =>
    addLoop c key rounds s.heap l >>= fun p => addEnd c { s with heap := p.1 } p.2 key value
  | .remove key, .removing l =>
    removeLoop c key rounds s.heap l >>= fun p => unlink c { s with heap := p.1 } p.2 key
  | .contains key, .descending x =>
    containsLoop key rounds s.heap x >>= fun y => .ok (s, containsEnd s.heap y key)
  | _, _ => .error .blocked

/-- What the rest of a call comes to is settled by its next step: the call returns
it, or goes on to where the rest is the same. -/
def Continues (c : Config Id) (s : State Id Key Value) (call : Call Key Value) (loc : Loc Id)
    (s' : State Id Key Value) (r : Result Value) : Prop :=
  treeStep c s call loc = .ok (s', .inr r) ∨
    ∃ s₁ loc₁ rounds, treeStep c s call loc = .ok (s₁, .inl loc₁) ∧
      finish c rounds s₁ call loc₁ = .ok (s', r)

omit [DecidableEq Id] [LinearOrder Key] in
theorem ok_of_bind {α β : Type} {x : Except Fault α} {f : α → Except Fault β} {b : β}
    (h : (x >>= f) = .ok b) : ∃ a, x = .ok a ∧ f a = .ok b := by
  cases x with
  | error fault => cases h
  | ok a => exact ⟨a, rfl, h⟩

theorem add_begins {value : Value} (h : treesetAdd c s key value = .ok (s', r)) :
    Continues c s (.add key value) .begin s' r := by
  cases hroot : (s.heap c.head).child false with
  | none =>
    left
    simp only [treeStep, hroot, h]
    rfl
  | some x =>
    refine .inr ⟨s, .adding ⟨none, none, c.head, x, false⟩, s.live.length, ?_, ?_⟩
    · simp only [treeStep, hroot]
      rfl
    · simp only [treesetAdd, hroot] at h
      exact h

theorem add_continues {value : Value} {rounds : Nat} {l : AddLocals Id}
    (h : finish c rounds s (.add key value) (.adding l) = .ok (s', r)) :
    Continues c s (.add key value) (.adding l) s' r := by
  obtain ⟨p, hloop, hend⟩ := ok_of_bind h
  cases rounds with
  | zero => cases hloop
  | succ rounds =>
    rw [addLoop_succ] at hloop
    split at hloop
    next hext =>
      cases hloop
      left
      have hsame : addEnd c s l key value = .ok (s', r) := hend
      simp only [treeStep, if_pos hext, hsame]
      rfl
    next hint =>
      obtain ⟨q, hround, hrest⟩ := ok_of_bind hloop
      refine .inr ⟨{ s with heap := q.1 }, .adding q.2, rounds, ?_, ?_⟩
      · simp only [treeStep, if_neg hint, hround]
        rfl
      · simp only [finish, hrest]
        exact hend

theorem remove_begins (h : treesetRemove c s key = .ok (s', r)) :
    Continues c s (.remove key) .begin s' r := by
  cases hroot : (s.heap c.head).child false with
  | none =>
    simp only [treesetRemove, hroot] at h
    cases h
    left
    simp only [treeStep, hroot]
    rfl
  | some x =>
    rcases Bool.eq_false_or_eq_true (s.heap x).external with hext | hint
    · left
      simp only [treeStep, hroot, if_pos hext, h]
      rfl
    · have hstart : treesetRemove c s key = removeStart c key s.heap x >>= fun l =>
          removeLoop c key s.live.length s.heap l >>= fun p =>
            unlink c { s with heap := p.1 } p.2 key := by
        simp only [treesetRemove, hroot, hint, removeStart, bind_assoc]
        refine bind_congr fun c0 => bind_congr fun c1 => ?_
        split
        · simp only [bind_assoc, pure_bind]
        · simp only [pure_bind]
      rw [hstart] at h
      obtain ⟨l, hl, hrest⟩ := ok_of_bind h
      refine .inr ⟨s, .removing l, s.live.length, ?_, hrest⟩
      simp only [treeStep, hroot, hint, hl]
      rfl

theorem remove_continues {rounds : Nat} {l : RemoveLocals Id}
    (h : finish c rounds s (.remove key : Call Key Value) (.removing l) = .ok (s', r)) :
    Continues c s (.remove key) (.removing l) s' r := by
  obtain ⟨p, hloop, hend⟩ := ok_of_bind h
  cases rounds with
  | zero => cases hloop
  | succ rounds =>
    rw [removeLoop_succ] at hloop
    split at hloop
    next hext =>
      cases hloop
      left
      have hsame : unlink c s l key = .ok (s', r) := hend
      simp only [treeStep, if_pos hext, hsame]
      rfl
    next hint =>
      obtain ⟨q, hround, hrest⟩ := ok_of_bind hloop
      refine .inr ⟨{ s with heap := q.1 }, .removing q.2, rounds, ?_, ?_⟩
      · simp only [treeStep, if_neg hint, hround]
        rfl
      · simp only [finish, hrest]
        exact hend

theorem contains_begins (h : object c s (.contains key) = .ok (s', r)) :
    Continues c s (.contains key) .begin s' r := by
  cases hroot : (s.heap c.head).child false with
  | none =>
    simp only [object, treesetContains, hroot] at h
    cases h
    left
    simp only [treeStep, hroot]
    rfl
  | some x =>
    refine .inr ⟨s, .descending x, s.live.length, ?_, ?_⟩
    · simp only [treeStep, hroot]
      rfl
    · simp only [object, treesetContains, hroot, bind_assoc] at h
      obtain ⟨y, hy, hrest⟩ := ok_of_bind h
      simp only [finish, hy]
      change Except.ok (s, containsEnd s.heap y key) = _
      rw [containsEnd]
      split at hrest
      next hne =>
        rw [if_pos hne]
        exact hrest
      next heq =>
        rw [if_neg heq]
        exact hrest

theorem contains_continues {rounds : Nat} {x : Id}
    (h : finish c rounds s (.contains key) (.descending x) = .ok (s', r)) :
    Continues c s (.contains key) (.descending x) s' r := by
  obtain ⟨y, hloop, hend⟩ := ok_of_bind h
  cases rounds with
  | zero => cases hloop
  | succ rounds =>
    rw [containsLoop] at hloop
    split at hloop
    next hext =>
      cases hloop
      cases hend
      left
      simp only [treeStep, if_pos hext]
      rfl
    next hint =>
      obtain ⟨z, hz, hrest⟩ := ok_of_bind hloop
      refine .inr ⟨s, .descending z, rounds, ?_, ?_⟩
      · simp only [treeStep, if_neg hint, hz]
        rfl
      · simp only [finish, hrest]
        exact hend

theorem finish_continues {rounds : Nat} (h : finish c rounds s call loc = .ok (s', r)) :
    Continues c s call loc s' r := by
  cases loc with
  | begin =>
    cases call with
    | add key value => exact add_begins h
    | remove key => exact remove_begins h
    | contains key => exact contains_begins h
  | adding l =>
    cases call with
    | add key value => exact add_continues h
    | remove key => cases h
    | contains key => cases h
  | removing l =>
    cases call with
    | add key value => cases h
    | remove key => exact remove_continues h
    | contains key => cases h
  | descending x =>
    cases call with
    | add key value => cases h
    | remove key => cases h
    | contains key => exact contains_continues h

/-- `treeset_contains` writes nothing. -/
theorem contains_keeps {x : Loc Id ⊕ Result Value}
    (h : treeStep c s (.contains key) loc = .ok (s₁, x)) : s₁ = s := by
  cases loc with
  | begin =>
    simp only [treeStep] at h
    split at h <;> cases h <;> rfl
  | adding l => cases h
  | removing l => cases h
  | descending x =>
    simp only [treeStep] at h
    split at h
    · cases h
      rfl
    · obtain ⟨y, -, hy⟩ := ok_of_bind h
      cases hy
      rfl

/-- What follows the map by a call is settled by the result. -/
theorem setSpec_mapAfter {map map' : Key → Option Value} (h : Treeset.setSpec map call r map') :
    map' = mapAfter map call r := by
  cases call with
  | add key value | remove key =>
    simp only [Treeset.setSpec] at h
    split at h <;> obtain ⟨rfl, rfl⟩ := h <;> rfl
  | contains key => exact h.2

variable {m m₀ m' : Mem Id Key Value} {loc' : Loc Id}

/-- What a call that took the lock in memory `m₀` will leave behind, from `loc` on. -/
structure LocOk (c : Config Id) (call : Call Key Value) (m₀ m : Mem Id Key Value)
    (loc : Loc Id) : Prop where
  map : m.map = m₀.map
  finish : ∃ rounds s' r map', finish c rounds m.tree call loc = .ok (s', r) ∧
    setSpec m₀.map call r map' ∧ Related c s' map'

theorem LocOk.enter (hsound : Related c m₀.tree m₀.map) : LocOk c call m₀ m₀ .begin := by
  obtain ⟨s', r, map', hrun, hspec, hrel⟩ := object_step hsound call
  exact ⟨rfl, 0, s', r, map', hrun, hspec, hrel⟩

theorem LocOk.step (h : LocOk c call m₀ m loc)
    (hstep : bodyStep c call loc m () = some (m', .inl loc')) : LocOk c call m₀ m' loc' := by
  obtain ⟨rounds, s', r, map', hfinish, hspec⟩ := h.finish
  rcases finish_continues hfinish with hret | ⟨s₁, loc₁, rounds₁, hgo, hfinish₁⟩
  · simp only [bodyStep, hret] at hstep
    cases hstep
  · simp only [bodyStep, hgo] at hstep
    cases hstep
    exact ⟨h.map, rounds₁, s', r, map', hfinish₁, hspec⟩

theorem LocOk.returns (h : LocOk c call m₀ m loc)
    (hstep : bodyStep c call loc m () = some (m', .inr r)) :
    Related c m'.tree m'.map ∧ setSpec m₀.map call r m'.map := by
  obtain ⟨rounds, s', r', map', hfinish, hspec, hrel⟩ := h.finish
  rcases finish_continues hfinish with hret | ⟨s₁, loc₁, rounds₁, hgo, -⟩
  · simp only [bodyStep, hret] at hstep
    cases hstep
    rw [h.map]
    obtain rfl := setSpec_mapAfter hspec
    exact ⟨hrel, hspec⟩
  · simp only [bodyStep, hgo] at hstep
    cases hstep

theorem LocOk.goesOn (h : LocOk c call m₀ m loc) : (bodyStep c call loc m ()).isSome := by
  obtain ⟨rounds, s', r, map', hfinish, -⟩ := h.finish
  rcases finish_continues hfinish with hret | ⟨s₁, loc₁, rounds₁, hgo, -⟩
  · simp only [bodyStep, hret]
    rfl
  · simp only [bodyStep, hgo]
    rfl

theorem body_reaches (hsound : Related c m₀.tree m₀.map)
    (h : (body Key Value c).Reaches call m₀ m loc) :
    LocOk c call m₀ m loc := by
  induction h with
  | enter => exact .enter hsound
  | step prior hstep ih => exact ih.step hstep

def Sound (c : Config Id) (m : Mem Id Key Value) : Prop := Related c m.tree m.map

theorem body_meets (c : Config Id) :
    (body Key Value c).Meets (Sound c) (fun _ _ => True) (fun _ _ => True)
      Mem.map setSpec := by
  constructor
  · intro call m m₁ loc b m' x _ _ hreads _ hstep
    cases call with
    | add key value => cases hreads
    | remove key => cases hreads
    | contains key =>
      simp only [body, bodyStep] at hstep
      split at hstep
      · cases hstep
      · next hgo =>
          cases hstep
          rw [contains_keeps hgo]
      · next hret =>
          cases hstep
          rw [contains_keeps hret]
          rfl
  · rintro call m m' r hsound - ⟨m₁, loc, b, hreach, hstep⟩
    exact (body_reaches hsound hreach).returns hstep
  · intros
    trivial
  · intro call m r _ hagain
    cases hagain

theorem body_goesOn (c : Config Id) :
    (body Key Value c).GoesOn (Sound c) (fun _ => True) (fun _ _ => True) := by
  intro call m m₁ loc hsound _ _ hreach
  exact ⟨(), (body_reaches hsound hreach).goesOn⟩

omit [DecidableEq Id] [LinearOrder Key] in
/-- A tree of values is one of the values that its nodes have. -/
theorem rep_optional {t : Tree Id Key Value} (hr : Rep h t) :
    ∃ t' : Tree Id Key (Option Value), Rep h.optional t' ∧ t'.id = t.id ∧ t'.ids = t.ids ∧
      t'.entries = t.entries.map fun x => (x.1, some x.2) := by
  induction t with
  | ext i k v =>
    obtain ⟨hkey, hred, hext, hvalue⟩ := hr
    exact ⟨.ext i k (some v), ⟨hkey, hred, hext, congrArg some hvalue⟩, rfl, rfl, rfl⟩
  | node i red k a b iha ihb =>
    obtain ⟨hcell, ha, hb, hra, hrb⟩ := hr
    obtain ⟨a', hra', ha', hidsa, hentriesa⟩ := iha hra
    obtain ⟨b', hrb', hb', hidsb, hentriesb⟩ := ihb hrb
    refine ⟨.node i red k a' b', ⟨⟨hcell.key, hcell.red, hcell.internal⟩, ?_, ?_, hra', hrb'⟩,
      rfl, ?_, ?_⟩
    · rw [ha']
      exact ha
    · rw [hb']
      exact hb
    · rw [Tree.ids, hidsa, hidsb, Tree.ids]
    · rw [Tree.entries, hentriesa, hentriesb, Tree.entries, List.map_append]

/-- A visit comes to each element of the map once, in the order of the keys. -/
def Visits (c : Config Id) (s : State Id Key Value) (map : Key → Option Value) : Prop :=
  ∃ visited : List (Key × Value),
    (∃ bound, ∀ rounds, bound < rounds →
      treesetVisit c rounds s = .ok (visited.map fun x => (x.1, some x.2))) ∧
    visited.Pairwise (fun x y => x.1 < y.1) ∧ ∀ k v, (k, v) ∈ visited ↔ map k = some v

/-- Every node that is in use is put back once, other than the sentinel. -/
def Destroys (c : Config Id) (s : State Id Key Value) : Prop :=
  ∃ nodes : Multiset Id, nodes.Nodup ∧ (s.live : Multiset Id) = {c.head} + nodes ∧
    ∃ bound, ∀ rounds, bound < rounds → ∃ s', putall c rounds s = .ok s' ∧
      (s'.freed : Multiset Id) = nodes + s.freed

theorem visit_spec {map : Key → Option Value} (hr : Related c s map) :
    Visits c s map ∧ Destroys c s := by
  rcases hr with ⟨hlive, hnull, hnone⟩ | ⟨t, hs, hm⟩
  · constructor
    · refine ⟨[], ⟨0, fun rounds _ => ?_⟩, .nil, fun k v => ?_⟩
      · simp only [treesetVisit, hnull]
        rfl
      · simp [hnone k]
    · refine ⟨0, Multiset.nodup_zero, by simp [hlive], 0, fun rounds _ => ⟨s, ?_, by simp⟩⟩
      simp only [putall, hnull]
  · obtain ⟨t', hrep, hid, hids, hentries⟩ := rep_optional hs.shape.sub
    have hroot : (s.heap c.head).child false = some t'.id := by
      rw [hid]
      exact hs.shape.place
    constructor
    · refine ⟨t.entries, ⟨t'.height, fun rounds hrounds => ?_⟩, hs.sorted.entries_lt, ?_⟩
      · simp only [treesetVisit, hroot]
        rw [visitRecursive_spec hrep hrounds, hentries]
      · intro k v
        rw [hm, Tree.mem_entries]
    · refine ⟨t.ids, ?_, hs.live, t'.height, fun rounds hrounds => ?_⟩
      · have hapart := hs.shape.apart
        simp only [placeIds, zero_add] at hapart
        exact (Multiset.nodup_cons.mp hapart).2
      · obtain ⟨s', hrun, -, hfreed⟩ := putallRecursive_spec hrep hrounds
        refine ⟨s', ?_, ?_⟩
        · simp only [putall, hroot]
          exact hrun
        · rw [hfreed, hids]

variable {Tid : Type} [DecidableEq Tid] {L : Lock Tid}

structure Safe (L : Lock Tid) (c : Config Id)
    (past : List (Locked.State L (Mem Id Key Value) (Call Key Value) (Result Value) (Loc Id) ×
      Locked.Act Tid (Call Key Value) Unit))
    (s : Locked.State L (Mem Id Key Value) (Call Key Value) (Result Value) (Loc Id)) : Prop where
  /-- The calls are atomic operations of a map. -/
  atomic : Linear (machine L Key Value c) Locked.Act.thread (Locked.view L Mem.map) setSpec past s
  /-- Beside a call that writes nobody is in the tree. -/
  alone : ∀ t u i j loc loc', s.pc t = .inside i loc → reads i = false →
    s.pc u = .inside j loc' → u = t
  inside : ∀ t i loc, s.pc t = .inside i loc →
    ∃ s', (machine L Key Value c).step s (.body t ()) = some s'
  goesOn : ∀ t, s.pc t ≠ .idle →
    ∃ a s', s.pc (Locked.Act.thread a) ≠ .idle ∧ (machine L Key Value c).step s a = some s'
  verify : treesetVerify c s.base.tree = .ok ()
  quiet : (∀ t, s.pc t = .idle) → treesetVerify c s.mem.tree = .ok () ∧
    Visits c s.mem.tree s.base.map ∧ Destroys c s.mem.tree

theorem treeset_coarse_safe
    {past : List (Locked.State L (Mem Id Key Value) (Call Key Value) (Result Value) (Loc Id) ×
      Locked.Act Tid (Call Key Value) Unit)}
    {s : Locked.State L (Mem Id Key Value) (Call Key Value) (Result Value) (Loc Id)}
    (run : (machine L Key Value c).Run past s) : Safe L c past s := by
  have hinit : ∀ m : Mem Id Key Value, Initial c m → Sound c m := by
    rintro m ⟨⟨memory, htree⟩, hmap⟩
    rw [Sound, htree, hmap]
    exact .inl ⟨rfl, by simp [treesetInit], fun _ => rfl⟩
  have hcalls : AllSteps (Locked.Allowed (fun _ _ => True) (fun _ _ => True)) past := by
    rintro ⟨s, a⟩ -
    cases a with
    | call t i => exact ⟨trivial, fun _ _ _ => ⟨trivial, trivial⟩⟩
    | lock t => trivial
    | body t b => trivial
    | ret t => trivial
  have h := Locked.run_inv (body_meets c) hinit run hcalls
  have hsound : Related c s.base.tree s.base.map := h.sound
  constructor
  · exact Locked.linear (body_meets c) hinit run hcalls
  · intro t u i j loc loc' ht hreads hu
    exact h.alone (h.exclusive ht hreads) hu
  · intro t i loc ht
    obtain ⟨_, hs⟩ := h.bodyGoesOn (body_goesOn c) trivial ht
    exact hs
  · intro t ht
    exact h.goesOn (body_goesOn c) trivial ht
  · exact hsound.verify
  · intro hidle
    rw [h.idle hidle]
    exact ⟨hsound.verify, visit_spec hsound⟩

/-- The lock of the tree lets two readers in. -/
def readers : Lock Bool := Spinlock.rwlock Bool 2 (by decide) (by decide)

def emptyTree : Mem Nat Nat Nat where
  tree := treesetInit countUp fun _ => ⟨0, false, false, fun _ => none, none⟩
  map := fun _ => none

def empty : Locked.State readers (Mem Nat Nat Nat) (Call Nat Nat) (Result Nat) (Loc Nat) where
  lock := Spinlock.Rwlock.freeLock
  mem := emptyTree
  base := emptyTree
  pc := fun _ => .idle

/-- A key is added, and two threads are in the tree together to look for keys. -/
def addThenLook : List (Locked.Act Bool (Call Nat Nat) Unit) := [
  .call true (.add 7 70), .lock true, .lock true, .body true (), .lock true, .lock true,
  .ret true, .call true (.contains 7), .call false (.contains 8), .lock true, .lock true,
  .lock false, .lock false, .body true (), .body false (), .body true (), .body false ()]

theorem treeset_coarse_safe_readers :
    ∃ past s, (machine readers Nat Nat countUp).Run past s ∧ Safe readers countUp past s ∧
      s.pc true = .leaves (.contains 7) (true, some 70) ∧
      s.pc false = .leaves (.contains 8) (false, none) := by
  have hexec : ((machine readers Nat Nat countUp).exec empty addThenLook).map
      (fun s => (s.pc true, s.pc false)) =
        some (.leaves (.contains 7) (true, some 70), .leaves (.contains 8) (false, none)) := by
    rfl
  obtain ⟨s, hs, hpcs⟩ := Option.map_eq_some_iff.mp hexec
  obtain ⟨hfound, hmissed⟩ := Prod.mk.inj hpcs
  have hstart : (machine readers Nat Nat countUp).start empty :=
    ⟨⟨rfl, rfl, rfl⟩, ⟨⟨_, rfl⟩, rfl⟩, rfl, rfl⟩
  have run := (Machine.Run.start hstart).exec hs
  exact ⟨_, s, run, treeset_coarse_safe run, hfound, hmissed⟩

end Libvsync.Map.TreesetCoarse
