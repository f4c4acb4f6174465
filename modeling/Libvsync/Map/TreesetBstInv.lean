import Libvsync.Map.TreesetAdd
import Libvsync.Map.TreesetBst
import Libvsync.Map.TreesetRemove

/-!
The invariant of the tree set with one lock per node. A tree lies in the heap; a
thread that goes on to a node has locked its father, and both are on the path of
its key. A thread writes only nodes that it has locked or that nobody else
knows. So the nodes that other threads have locked keep their cells, and they
stay on the paths they are on.
-/

namespace Libvsync.Map.TreesetBst

open Libvsync.Core Function
open Libvsync.Map.Treeset

variable {Tid Id Key Value : Type} [DecidableEq Tid] [DecidableEq Id] [LinearOrder Key] {head : Id}

/-- What is read on the way out is in a node that is still locked. -/
def Exits : List (Release Id) → Prop
  | [] => True
  | r :: todo => (∀ i, r.read = some i →
      i ∈ todo.map Release.node ∧ todo.findSome? Release.read = none) ∧ Exits todo

omit [DecidableEq Id] in
theorem Exits.reads {todo : List (Release Id)} (h : Exits todo) {i : Id}
    (hread : i ∈ todo.filterMap Release.read) : i ∈ todo.map Release.node := by
  induction todo with
  | nil => cases hread
  | cons r todo ih =>
    rw [List.map_cons, List.mem_cons]
    obtain ⟨r', hr', hi⟩ := List.mem_filterMap.mp hread
    rcases List.mem_cons.mp hr' with rfl | hr'
    · exact .inr (h.1 i hi).1
    · exact .inr (ih h.2 (List.mem_filterMap.mpr ⟨r', hr', hi⟩))

/-- The edges that a thread stands on. Only `treeset_remove` has a grandfather,
except at the root. -/
structure Window (head : Id) (h : Heap Id Key Value) (o : Option (Tree Id Key Value))
    (call : Call Key Value) (g : Option Id) (f x : Id) : Prop where
  edge : Edge head h o (key call) f x
  above : ∀ i, g = some i → Edge head h o (key call) i f
  first : ∀ k, call = .remove k → g = none → f = head
  only : (∀ k, call ≠ .remove k) → g = none

/-- Where a thread stands. -/
def Stands (head : Id) (h : Heap Id Key Value) (o : Option (Tree Id Key Value)) :
    Pc Id Key Value → Prop
  | .idle | .lockHead _ | .ret _ _ => True
  | .lock call g f x => Window head h o call g f x
  | .unlock call g f x => Window head h o call g f x ∧
      (reading call = false → (h x).external = false) ∧ ∀ k, call = .remove k → g ≠ none
  | .lockMid key value f x ext mid => Edge head h o key f x ∧ (h x).external = true ∧
      (h x).key ≠ key ∧ h ext = extCell key value ∧ (h mid).external = false
  | .lockBrother key g f x y => Edge head h o key g f ∧ Edge head h o key f x ∧
      (h x).external = true ∧ (h x).key = key ∧ (h f).child (!h.toward f key) = some y
  | .exit _ todo _ _ _ => todo ≠ [] ∧ Exits todo
  | .crashed => False

structure Inv (head : Id) (s : State Tid Id Key Value) (o : Option (Tree Id Key Value)) :
    Prop where
  lies : Lies head s.heap o
  sorted : ∀ t ∈ o, Sorted t
  sentinel : (s.heap head).external = false
  held : Held s.locks (fun t => (s.pc t).reading) (fun t => (s.pc t).holds)
  nodup : s.live.Nodup
  live : ∀ i, i = head ∨ i ∈ idsOf o → i ∈ s.live
  own : ∀ t, ∀ i ∈ (s.pc t).own, i ∈ s.live ∧ i ≠ head ∧ i ∉ idsOf o
  once : ∀ t, (s.pc t).own.Nodup
  apart : ∀ t u, t ≠ u → ∀ i ∈ (s.pc t).own, i ∉ (s.pc u).own
  holds : ∀ t, ∀ i ∈ (s.pc t).holds, i = head ∨ i ∈ idsOf o ∨ i ∈ (s.pc t).own
  stands : ∀ t, Stands head s.heap o (s.pc t)

variable {s s' : State Tid Id Key Value} {o o' : Option (Tree Id Key Value)} {u : Tid}

/-- The nodes that thread `u` may write in a step from `s` to `s'`. -/
def May (s s' : State Tid Id Key Value) (u : Tid) (i : Id) : Prop :=
  (s.pc u).reading = false ∧ i ∈ (s.pc u).holds ∨
    (s'.pc u).reading = false ∧ i ∈ (s'.pc u).holds ∨ i ∈ (s.pc u).own ∨ i ∉ s.live

/-- A step of thread `u` that leaves alone what it may not write. -/
structure Local (head : Id) (s s' : State Tid Id Key Value) (o o' : Option (Tree Id Key Value))
    (u : Tid) : Prop where
  pc : ∀ t, t ≠ u → s'.pc t = s.pc t
  known : ∀ i ∈ (s'.pc u).holds, i = head ∨ i ∈ idsOf o ∨ i ∈ (s.pc u).own
  heap : ∀ i, ¬ May s s' u i → s'.heap i = s.heap i
  path : ∀ i, ¬ May s s' u i → ∀ k, i ∈ pathOf k o → i ∈ pathOf k o'
  ids : ∀ i, ¬ May s s' u i → (i ∈ idsOf o' ↔ i ∈ idsOf o)
  live : ∀ i, ¬ May s s' u i → i ∈ s.live → i ∈ s'.live

section Frame

variable (hi : Inv head s o) (hl : Local head s s' o o' u)
  (hheld : Held s'.locks (fun t => (s'.pc t).reading) (fun t => (s'.pc t).holds))

include hi hl hheld

section

omit [DecidableEq Tid]

/-- Nodes of other threads are not written. -/
theorem Local.not_may {t : Tid} (ht : t ≠ u) {i : Id}
    (hmem : i ∈ (s.pc t).holds ∨ i ∈ (s.pc t).own) : ¬ May s s' u i := by
  have hnew (hmay : i = head ∨ i ∈ idsOf o ∨ i ∈ (s.pc u).own) : i ∉ (s.pc t).own := by
    intro hown
    obtain ⟨-, hne, hout⟩ := hi.own t i hown
    rcases hmay with heq | hin | hmine
    · exact hne heq
    · exact hout hin
    · exact hi.apart u t ht.symm i hmine hown
  rintro (⟨hw, hmay⟩ | ⟨hw, hmay⟩ | hmay | hmay)
  · rcases hmem with hmem | hmem
    · exact hi.held.apart hw hmay ht hmem
    · exact hnew (hi.holds u i hmay) hmem
  · rcases hmem with hmem | hmem
    · apply hheld.apart hw hmay ht
      rw [hl.pc t ht]
      exact hmem
    · exact hnew (hl.known i hmay) hmem
  · rcases hmem with hmem | hmem
    · obtain ⟨-, hne, hout⟩ := hi.own u i hmay
      rcases hi.holds t i hmem with heq | hin | hown
      · exact hne heq
      · exact hout hin
      · exact hi.apart u t ht.symm i hmay hown
    · exact hi.apart u t ht.symm i hmay hmem
  · apply hmay
    rcases hmem with hmem | hmem
    · rcases hi.holds t i hmem with heq | hin | hown
      · exact hi.live i (.inl heq)
      · exact hi.live i (.inr hin)
      · exact (hi.own t i hown).1
    · exact (hi.own t i hmem).1

theorem Local.edge {t : Tid} (ht : t ≠ u) {k : Key} {f x : Id} (hf : f ∈ (s.pc t).holds)
    (he : Edge head s.heap o k f x) : Edge head s'.heap o' k f x := by
  have hnot := Local.not_may hi hl hheld ht (.inl hf)
  exact he.congr (hl.heap f hnot) (hl.path f hnot k)

theorem Local.window {t : Tid} (ht : t ≠ u) {call : Call Key Value} {g : Option Id} {f x : Id}
    (hg : ∀ i, g = some i → i ∈ (s.pc t).holds) (hf : f ∈ (s.pc t).holds)
    (hw : Window head s.heap o call g f x) : Window head s'.heap o' call g f x :=
  ⟨Local.edge hi hl hheld ht hf hw.edge,
    fun i hgi => Local.edge hi hl hheld ht (hg i hgi) (hw.above i hgi), hw.first, hw.only⟩

theorem Local.stands {t : Tid} (ht : t ≠ u) : Stands head s'.heap o' (s'.pc t) := by
  have hcell (i : Id) (hmem : i ∈ (s.pc t).holds ∨ i ∈ (s.pc t).own) : s'.heap i = s.heap i :=
    hl.heap i (Local.not_may hi hl hheld ht hmem)
  have hst := hi.stands t
  rw [hl.pc t ht]
  cases hpc : s.pc t with
  | idle | lockHead call | ret call result => trivial
  | crashed =>
    rw [hpc] at hst
    exact hst
  | exit call todo gone ok out =>
    rw [hpc] at hst
    exact hst
  | lock call g f x =>
    rw [hpc] at hst
    apply Local.window hi hl hheld ht _ _ hst
    · rintro i rfl
      simp [hpc, Pc.holds]
    · simp [hpc, Pc.holds]
  | unlock call g f x =>
    rw [hpc] at hst
    obtain ⟨hw, hint, hg⟩ := hst
    refine ⟨Local.window hi hl hheld ht ?_ ?_ hw, ?_, hg⟩
    · rintro i rfl
      simp [hpc, Pc.holds]
    · simp [hpc, Pc.holds]
    · rw [hcell x (by simp [hpc, Pc.holds])]
      exact hint
  | lockMid key value f x ext mid =>
    rw [hpc] at hst
    obtain ⟨he, hx, hk, hext, hmid⟩ := hst
    refine ⟨Local.edge hi hl hheld ht (by simp [hpc, Pc.holds]) he, ?_⟩
    rw [hcell x (by simp [hpc, Pc.holds]), hcell ext (by simp [hpc, Pc.own]),
      hcell mid (by simp [hpc, Pc.own])]
    exact ⟨hx, hk, hext, hmid⟩
  | lockBrother key g f x y =>
    rw [hpc] at hst
    obtain ⟨hg, hf, hx, hk, hy⟩ := hst
    refine ⟨Local.edge hi hl hheld ht (by simp [hpc, Pc.holds]) hg,
      Local.edge hi hl hheld ht (by simp [hpc, Pc.holds]) hf, ?_⟩
    rw [Heap.toward, hcell x (by simp [hpc, Pc.holds]), hcell f (by simp [hpc, Pc.holds])]
    exact ⟨hx, hk, hy⟩

theorem Local.settled {t : Tid} (ht : t ≠ u) :
    (s'.pc t).settled s'.heap = (s.pc t).settled s.heap := by
  have hst := hi.stands t
  rw [hl.pc t ht]
  cases hpc : s.pc t with
  | exit call todo gone ok out =>
    rw [hpc] at hst
    simp only [Pc.settled]
    cases hread : todo.findSome? Release.read with
    | none => rfl
    | some i =>
      have hmem : i ∈ (s.pc t).holds := by
        rw [hpc]
        apply hst.2.reads
        obtain ⟨r, hr, hread⟩ := List.exists_of_findSome?_eq_some hread
        exact List.mem_filterMap.mpr ⟨r, hr, hread⟩
      simp only [hl.heap i (Local.not_may hi hl hheld ht (.inl hmem))]
  | _ => rfl

end

end Frame

/-- What is left to show of a step, for the thread that takes it. -/
structure After (head : Id) (s s' : State Tid Id Key Value) (o' : Option (Tree Id Key Value))
    (u : Tid) : Prop where
  lies : Lies head s'.heap o'
  sorted : ∀ t ∈ o', Sorted t
  sentinel : (s'.heap head).external = false
  nodup : s'.live.Nodup
  live : ∀ i, i = head ∨ i ∈ idsOf o' → i ∈ s'.live
  own : ∀ i ∈ (s'.pc u).own, May s s' u i ∧ i ∈ s'.live ∧ i ≠ head ∧ i ∉ idsOf o'
  once : (s'.pc u).own.Nodup
  holds : ∀ i ∈ (s'.pc u).holds, i = head ∨ i ∈ idsOf o' ∨ i ∈ (s'.pc u).own
  stands : Stands head s'.heap o' (s'.pc u)

omit [DecidableEq Tid] in
/-- The frame rule. -/
theorem Inv.step (hi : Inv head s o) (hl : Local head s s' o o' u)
    (hheld : Held s'.locks (fun t => (s'.pc t).reading) (fun t => (s'.pc t).holds))
    (ha : After head s s' o' u) : Inv head s' o' := by
  have hnot {t : Tid} (ht : t ≠ u) {i : Id} (hmem : i ∈ (s.pc t).holds ∨ i ∈ (s.pc t).own) :=
    Local.not_may hi hl hheld ht hmem
  refine ⟨ha.lies, ha.sorted, ha.sentinel, hheld, ha.nodup, ha.live, ?_, ?_, ?_, ?_, ?_⟩
  · intro t i hown
    by_cases ht : t = u
    · rw [ht] at hown
      exact (ha.own i hown).2
    · rw [hl.pc t ht] at hown
      obtain ⟨hlive, hne, hout⟩ := hi.own t i hown
      have hn := hnot ht (.inr hown)
      exact ⟨hl.live i hn hlive, hne, fun hin => hout ((hl.ids i hn).mp hin)⟩
  · intro t
    by_cases ht : t = u
    · rw [ht]
      exact ha.once
    · rw [hl.pc t ht]
      exact hi.once t
  · intro t t' hne i hown hown'
    by_cases ht : t = u
    · have ht' : t' ≠ u := fun heq => hne (ht.trans heq.symm)
      rw [ht] at hown
      rw [hl.pc t' ht'] at hown'
      exact hnot ht' (.inr hown') (ha.own i hown).1
    · rw [hl.pc t ht] at hown
      by_cases ht' : t' = u
      · rw [ht'] at hown'
        exact hnot ht (.inr hown) (ha.own i hown').1
      · rw [hl.pc t' ht'] at hown'
        exact hi.apart t t' hne i hown hown'
  · intro t i hmem
    by_cases ht : t = u
    · rw [ht] at hmem ⊢
      exact ha.holds i hmem
    · rw [hl.pc t ht] at hmem ⊢
      rcases hi.holds t i hmem with heq | hin | hown
      · exact .inl heq
      · exact .inr (.inl ((hl.ids i (hnot ht (.inl hmem))).mpr hin))
      · exact .inr (.inr hown)
  · intro t
    by_cases ht : t = u
    · rw [ht]
      exact ha.stands
    · exact Local.stands hi hl hheld ht

/-- A step keeps the invariant and settles no call but that of its thread. -/
def Goes (head : Id) (past : List (State Tid Id Key Value × Act Tid Id Key Value))
    (s s' : State Tid Id Key Value) (u : Tid) : Prop :=
  ∃ o', Inv head s' o' ∧ Moves (view head) setSpec u past s s'

variable {past : List (State Tid Id Key Value × Act Tid Id Key Value)}

omit [DecidableEq Tid] in
theorem Inv.goes (hi : Inv head s o) (hl : Local head s s' o o' u)
    (hheld : Held s'.locks (fun t => (s'.pc t).reading) (fun t => (s'.pc t).holds))
    (ha : After head s s' o' u) (hmove : Move (view head) setSpec u past s s') :
    Goes head past s s' u :=
  ⟨o', hi.step hl hheld ha, hmove, fun _ ht => Local.settled hi hl hheld ht⟩

variable {locks : Locks Id Tid} {pc : Pc Id Key Value}

/-- A step that changes only where the thread stands and its locks. -/
theorem Inv.quiet (hi : Inv head s o) (hheld : Held locks (fun t => (update s.pc u pc t).reading)
      (fun t => (update s.pc u pc t).holds)) (hown : pc.own = (s.pc u).own)
    (hknown : ∀ i ∈ pc.holds, i = head ∨ i ∈ idsOf o ∨ i ∈ (s.pc u).own)
    (hstands : Stands head s.heap o pc)
    (hmove : Move (view head) setSpec u past s ({ s with locks := locks }.goto u pc)) :
    Goes head past s ({ s with locks := locks }.goto u pc) u := by
  have hl : Local head s ({ s with locks := locks }.goto u pc) o o u :=
    ⟨fun t ht => update_of_ne ht _ _, by simpa [State.goto] using hknown,
      fun _ _ => rfl, fun _ _ _ h => h, fun _ _ => Iff.rfl, fun _ _ h => h⟩
  refine hi.goes hl hheld ⟨hi.lies, hi.sorted, hi.sentinel, hi.nodup, hi.live, ?_, ?_, ?_, ?_⟩ hmove
  · intro i hmem
    simp only [State.goto, update_self, hown] at hmem
    exact ⟨.inr (.inr (.inl hmem)), hi.own u i hmem⟩
  · simpa [State.goto, hown] using hi.once u
  · simpa [State.goto, hown] using hknown
  · simpa [State.goto] using hstands

omit [DecidableEq Tid] [DecidableEq Id] [LinearOrder Key] in
@[simp] theorem view_settled (s : State Tid Id Key Value) (t : Tid) :
    (view head).settled t s = (s.pc t).settled s.heap := rfl

section

omit [DecidableEq Id] [LinearOrder Key]

/-- A step that leaves the heap alone and does not settle the call. -/
theorem walk_of (h : pc.settled s.heap = (s.pc u).settled s.heap) :
    Move (view head) setSpec u past s ({ s with locks := locks }.goto u pc) := by
  refine .walk rfl ?_
  simp only [view_settled, State.goto, update_self]
  exact h

/-- A step that leaves the heap alone and settles the call. -/
theorem settle_of (call : Call Key Value) (r : Result Value)
    (hbefore : (s.pc u).settled s.heap = none) (hafter : pc.settled s.heap = some (call, r))
    (hspec : setSpec (contents head s.heap) call r (contents head s.heap)) :
    Move (view head) setSpec u past s ({ s with locks := locks }.goto u pc) := by
  refine .settle call r hbefore ?_ hspec
  simp only [view_settled, State.goto, update_self]
  exact hafter

end

theorem Inv.acquired (hi : Inv head s o) (pc : Pc Id Key Value) {call : Call Key Value} {i : Id}
    (hacquire : s.locks.acquire (reading call) u i = some locks)
    (hbefore : (s.pc u).call = some call) (hafter : pc.call = some call)
    (hnew : reading call = true → i ∉ (s.pc u).holds)
    (hholds : pc.holds.Perm (i :: (s.pc u).holds)) :
    Held locks (fun t => (update s.pc u pc t).reading)
      (fun t => (update s.pc u pc t).holds) := by
  have hmode : (update s.pc u pc u).reading = reading call := by
    simp [Pc.reading, hafter]
  have hold : (s.pc u).reading = reading call := by
    simp [Pc.reading, hbefore]
  refine Held.acquire (fun t ht => ?_) (fun t ht => ?_) hi.held (i := i) (t := u) ?_ ?_ ?_ ?_
  · rw [update_of_ne ht]
  · rw [update_of_ne ht]
  · rw [hmode]
    exact hacquire
  · intro _
    rw [hmode, hold]
  · rw [hmode]
    exact hnew
  · rw [update_self]
    exact hholds

theorem Inv.released (hi : Inv head s o) {call : Call Key Value} {i : Id}
    (hbefore : (s.pc u).call = some call) (hafter : pc.call = some call)
    (hholds : (s.pc u).holds.Perm (i :: pc.holds)) :
    Held (s.locks.release (reading call) u i)
      (fun t => (update s.pc u pc t).reading)
      (fun t => (update s.pc u pc t).holds) := by
  have hmode : (update s.pc u pc u).reading = reading call := by
    simp [Pc.reading, hafter]
  have hold : (s.pc u).reading = reading call := by
    simp [Pc.reading, hbefore]
  rw [← hold]
  refine Held.release (fun t ht => ?_) (fun t ht => ?_) hi.held (i := i) (t := u) ?_ ?_
  · rw [update_of_ne ht]
  · rw [update_of_ne ht]
  · rw [hmode, hold]
  · rw [update_self]
    exact hholds

theorem Inv.lockless (hi : Inv head s o) (hbefore : (s.pc u).holds = []) (hafter : pc.holds = []) :
    Held s.locks (fun t => (update s.pc u pc t).reading)
      (fun t => (update s.pc u pc t).holds) := by
  apply hi.held.congr
  · intro t ht
    by_cases htu : t = u
    · subst htu
      rw [update_self] at ht
      exact absurd hafter ht
    · rw [update_of_ne htu]
  · intro t
    by_cases htu : t = u
    · subst htu
      rw [update_self, hafter, hbefore]
    · rw [update_of_ne htu]

omit [DecidableEq Tid] in
/-- The nodes in use are known from where the threads stand. -/
theorem Inv.known_live (hi : Inv head s o) {t : Tid} {i : Id}
    (h : i = head ∨ i ∈ idsOf o ∨ i ∈ (s.pc t).own) : i ∈ s.live := by
  rcases h with heq | hin | hown
  · exact hi.live i (.inl heq)
  · exact hi.live i (.inr hin)
  · exact (hi.own t i hown).1

end Libvsync.Map.TreesetBst
