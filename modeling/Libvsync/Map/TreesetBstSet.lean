import Libvsync.Map.TreesetBstInv
import Libvsync.Map.TreesetSet

/-!
The steps of the tree set with one lock per node. Most of them change only where
a thread stands. The tree changes where `treeset_add` links in its new nodes and
where `treeset_remove` takes out the node of its key; there the call is settled,
and where an operation finds that it fails, or what it has looked for.
-/

namespace Libvsync.Map.TreesetBst

open Libvsync.Core Function
open Libvsync.Map.Treeset

variable {Tid Id Key Value : Type} [DecidableEq Tid] [DecidableEq Id] [LinearOrder Key] {head : Id}
  {s s' : State Tid Id Key Value} {o : Option (Tree Id Key Value)} {t : Tid}
  {past : List (State Tid Id Key Value × Act Tid Id Key Value)} {locks : Locks Id Tid}

theorem call_goes (hi : Inv head s o) (hpc : s.pc t = .idle) (call : Call Key Value) :
    Goes head past s (s.goto t (.lockHead call)) t := by
  refine hi.quiet (hi.lockless (by simp [hpc, Pc.holds]) rfl) (by simp [hpc, Pc.own])
    (by simp [Pc.holds]) trivial (walk_of ?_)
  simp [hpc, Pc.settled]

variable {call : Call Key Value}

theorem ret_goes (hi : Inv head s o) {r : Result Value} (hpc : s.pc t = .ret call r) :
    Goes head past s (s.goto t .idle) t := by
  refine hi.quiet (hi.lockless (by simp [hpc, Pc.holds]) rfl) (by simp [hpc, Pc.own])
    (by simp [Pc.holds]) trivial (.leave rfl ?_)
  simp [view, State.goto]

theorem head_goes (hi : Inv head s o) (hpc : s.pc t = .lockHead call)
    (hlock : s.locks.acquire (reading call) t head = some locks) {x : Id}
    (hx : (s.heap head).child false = some x) :
    Goes head past s ({ s with locks := locks }.goto t (.lock call none head x)) t := by
  have hedge : Edge head s.heap o (key call) head x :=
    ⟨List.mem_cons_self, hi.sentinel, by simpa [Heap.index] using hx⟩
  refine hi.quiet (hi.acquired _ hlock (by simp [hpc, Pc.call]) rfl (by simp [hpc, Pc.holds])
    (by simp [hpc, Pc.holds])) (by simp [hpc, Pc.own]) (by simp [Pc.holds])
    ⟨hedge, by simp, fun _ _ _ => rfl, fun _ => rfl⟩ (walk_of ?_)
  simp [hpc, Pc.settled]

omit [DecidableEq Tid] in
theorem Inv.empty (hi : Inv head s o) (hnull : (s.heap head).child false = none) : o = none := by
  cases o with
  | none => rfl
  | some t =>
    have hroot : (s.heap head).child false = some t.id := hi.lies.place
    rw [hnull] at hroot
    cases hroot

theorem head_fails (hi : Inv head s o) (hpc : s.pc t = .lockHead call)
    (hlock : s.locks.acquire (reading call) t head = some locks)
    (hnull : (s.heap head).child false = none) (hcall : ∀ k v, call ≠ .add k v) :
    Goes head past s
      ({ s with locks := locks }.goto t (.exit call [⟨head, none⟩] [] false none)) t := by
  have hempty : contents head s.heap = ∅ := by
    rw [hi.lies.contents_eq, hi.empty hnull]
    rfl
  refine hi.quiet (hi.acquired _ hlock (by simp [hpc, Pc.call]) rfl (by simp [hpc, Pc.holds])
    (by simp [hpc, Pc.holds])) (by simp [hpc, Pc.own]) (by simp [Pc.holds])
    ⟨by simp, by simp [Exits]⟩
    (settle_of call (false, none) (by simp [hpc, Pc.settled]) rfl ?_)
  rw [hempty]
  cases call with
  | add k v => exact absurd rfl (hcall k v)
  | remove k => exact ⟨fun _ h => h, rfl⟩
  | contains k => exact ⟨fun _ h => h, rfl⟩

section AtNode

variable {call : Call Key Value} {g : Option Id} {f x : Id} (hi : Inv head s o)
  (hpc : s.pc t = .lock call g f x) (hlock : s.locks.acquire (reading call) t x = some locks)

include hi hpc

section

omit [DecidableEq Tid]

theorem Inv.window : Window head s.heap o call g f x := by
  have hst := hi.stands t
  rw [hpc] at hst
  exact hst

theorem Inv.at_known {i : Id} (h : i ∈ g.toList ++ [f, x]) :
    i = head ∨ i ∈ idsOf o ∨ i ∈ (s.pc t).own := by
  have hw := hi.window hpc
  rw [show g.toList ++ [f, x] = g.toList ++ [f] ++ [x] by simp, List.mem_append] at h
  rcases h with h | h
  · apply hi.holds t
    rw [hpc]
    exact h
  · rw [List.mem_singleton] at h
    rw [h]
    exact .inr (.inl (hw.edge.mem hi.lies hi.sorted))

theorem Inv.at_new (hread : reading call = true) : x ∉ (s.pc t).holds := by
  have hw := hi.window hpc
  have hg : g = none := by
    apply hw.only
    rintro k rfl
    cases hread
  simpa [hpc, Pc.holds, hg] using hw.edge.ne hi.lies hi.sorted

end

include hlock

/-- The thread stays at `x`, and has now locked it. -/
theorem at_goes {pc : Pc Id Key Value} (hcall : pc.call = some call) (hown : pc.own = [])
    (hholds : pc.holds = g.toList ++ [f, x]) (hstands : Stands head s.heap o pc)
    (hmove : Move (view head) setSpec t past s ({ s with locks := locks }.goto t pc)) :
    Goes head past s ({ s with locks := locks }.goto t pc) t := by
  refine hi.quiet (hi.acquired _ hlock (by simp [hpc, Pc.call]) hcall (hi.at_new hpc) ?_)
    (hown.trans (by simp [hpc, Pc.own])) ?_ hstands hmove
  · rw [hholds, hpc, show g.toList ++ [f, x] = g.toList ++ [f] ++ [x] by simp]
    exact List.perm_append_singleton x _
  · intro i hmem
    rw [hholds] at hmem
    exact hi.at_known hpc hmem

omit hlock [DecidableEq Tid] in
theorem Inv.at_external (hext : (s.heap x).external = true) :
    ∃ v, (s.heap x).value = some v ∧
      ∀ w, (key call, w) ∈ contents head s.heap ↔ (s.heap x).key = key call ∧ w = v :=
  (hi.window hpc).edge.found hi.lies hi.sorted hext

end AtNode

section Add

variable {k : Key} {v : Value} {g : Option Id} {f x ext mid : Id} (hi : Inv head s o)
  (hpc : s.pc t = .lock (.add k v) g f x)
  (hlock : s.locks.acquire (reading (.add k v)) t x = some locks)

include hi hpc

omit [DecidableEq Tid] in
theorem Inv.add_window : Window head s.heap o (.add k v) none f x ∧ g = none := by
  have hw := hi.window hpc
  have hg : g = none := hw.only (by simp)
  rw [hg] at hw
  exact ⟨hw, hg⟩

include hlock

/-- Both new nodes are initialised; nobody else knows them yet. -/
theorem add_new (hext : (s.heap x).external = true) (hne : (s.heap x).key ≠ k)
    (hnew : ext ∉ s.live) (hnew' : mid ∉ ext :: s.live) (cell : Cell Id Key Value)
    (hcell : cell.external = false) :
    Goes head past s (((({ s with locks := locks } : State Tid Id Key Value).newNode ext
      (extCell k v)).newNode mid cell).goto t (.lockMid k v f x ext mid)) t := by
  obtain ⟨hw, rfl⟩ := hi.add_window hpc
  rw [List.mem_cons, not_or] at hnew'
  obtain ⟨hmidext, hmid⟩ := hnew'
  have hxlive : x ∈ s.live := hi.known_live (hi.at_known hpc (by simp))
  have hflive : f ∈ s.live := hi.known_live (hi.at_known hpc (by simp))
  have hcells (i : Id) (h : i ∈ s.live) :
      update (update s.heap ext (extCell k v)) mid cell i = s.heap i := by
    have himid : i ≠ mid := fun heq => hmid (heq ▸ h)
    have hiext : i ≠ ext := fun heq => hnew (heq ▸ h)
    rw [update_of_ne himid, update_of_ne hiext]
  generalize hs' : ((({ s with locks := locks } : State Tid Id Key Value).newNode ext
    (extCell k v)).newNode mid cell).goto t (.lockMid k v f x ext mid) = s'
  have hheap : s'.heap = update (update s.heap ext (extCell k v)) mid cell := by
    rw [← hs']
    rfl
  have hlive : s'.live = mid :: ext :: s.live := by
    rw [← hs']
    rfl
  have hpc' : s'.pc = update s.pc t (.lockMid k v f x ext mid) := by
    rw [← hs']
    rfl
  have hlies : Lies head s'.heap o := by
    apply hi.lies.congr
    · rw [hheap, hcells head (hi.live head (.inl rfl))]
    · intro i hmem
      rw [hheap, hcells i (hi.live i (.inr hmem))]
  have hholds : ∀ i ∈ (s'.pc t).holds, i = head ∨ i ∈ idsOf o ∨ i ∈ (s.pc t).own := by
    intro i hmem
    rw [hpc', update_self] at hmem
    exact hi.at_known hpc hmem
  have hl : Local head s s' o o t := by
    refine ⟨?_, hholds, ?_, fun _ _ _ h => h, fun _ _ => Iff.rfl, ?_⟩
    · intro u hu
      rw [hpc', update_of_ne hu]
    · intro i hmay
      have hmem : i ∈ s.live := by
        by_contra hout
        exact hmay (.inr (.inr (.inr hout)))
      rw [hheap, hcells i hmem]
    · intro i _ hmem
      rw [hlive]
      exact List.mem_cons_of_mem _ (List.mem_cons_of_mem _ hmem)
  have hheld : Held s'.locks (fun u => (s'.pc u).reading) (fun u => (s'.pc u).holds) := by
    have hacquired := hi.acquired (.lockMid k v f x ext mid) hlock
      (by simp [hpc, Pc.call]) rfl (hi.at_new hpc) (by
        rw [hpc]
        exact List.Perm.swap x f [])
    have hnobody (i : Id) (hi' : i ∉ s.live) (u : Tid) :
        i ∉ (update s.pc t (.lockMid k v f x ext mid) u).holds := by
      intro hmem
      apply hi'
      by_cases hu : u = t
      · rw [hu, update_self] at hmem
        exact hi.known_live (hi.at_known hpc hmem)
      · rw [update_of_ne hu] at hmem
        exact hi.known_live (hi.holds u i hmem)
    rw [hpc', ← hs']
    exact (hacquired.init (hnobody ext hnew)).init (hnobody mid hmid)
  have hfresh (i : Id) (hout : i ∉ s.live) : i ≠ head ∧ i ∉ idsOf o :=
    ⟨fun heq => hout (hi.live i (.inl heq)), fun hin => hout (hi.live i (.inr hin))⟩
  refine hi.goes hl hheld ⟨hlies, hi.sorted, ?_, ?_, ?_, ?_, ?_, ?_, ?_⟩ (.walk ?_ ?_)
  · rw [hheap, hcells head (hi.live head (.inl rfl))]
    exact hi.sentinel
  · rw [hlive]
    exact List.nodup_cons.mpr ⟨by simp [hmidext, hmid], List.nodup_cons.mpr ⟨hnew, hi.nodup⟩⟩
  · intro i hmem
    rw [hlive]
    exact List.mem_cons_of_mem _ (List.mem_cons_of_mem _ (hi.live i hmem))
  · intro i hmem
    rw [hpc', update_self] at hmem
    simp only [Pc.own, List.mem_cons, List.not_mem_nil, or_false] at hmem
    rcases hmem with rfl | rfl
    · exact ⟨.inr (.inr (.inr hnew)), by simp [hlive], hfresh i hnew⟩
    · exact ⟨.inr (.inr (.inr hmid)), by simp [hlive], hfresh i hmid⟩
  · rw [hpc', update_self]
    simpa [Pc.own] using Ne.symm hmidext
  · intro i hmem
    rcases hholds i hmem with heq | hin | hown
    · exact .inl heq
    · exact .inr (.inl hin)
    · rw [hpc] at hown
      cases hown
  · rw [hpc', update_self]
    refine ⟨hw.edge.congr ?_ id, ?_, ?_, ?_, ?_⟩
    · rw [hheap, hcells f hflive]
    · rw [hheap, hcells x hxlive]
      exact hext
    · rw [hheap, hcells x hxlive]
      exact hne
    · rw [hheap, update_of_ne (Ne.symm hmidext), update_self]
    · rw [hheap, update_self]
      exact hcell
  · exact hlies.contents_eq.trans hi.lies.contents_eq.symm
  · simp [hpc', hpc, Pc.settled]

theorem add_goes (hs : addAt { s with locks := locks } t ext mid k v f x = some s') :
    Goes head past s s' t := by
  obtain ⟨hw, rfl⟩ := hi.add_window hpc
  unfold addAt at hs
  split at hs
  · rename_i hint
    cases hs
    refine at_goes hi hpc hlock rfl rfl rfl ⟨hw, fun _ => hint, by simp⟩ (walk_of ?_)
    simp [hpc, Pc.settled]
  · rename_i hext
    rw [Bool.not_eq_false] at hext
    obtain ⟨w, hw', hfound⟩ := hi.at_external hpc hext
    split at hs
    · rename_i hk
      cases hs
      refine at_goes hi hpc hlock rfl rfl rfl ⟨by simp, by simp [Exits]⟩
        (settle_of (.add k v) (false, some w) (by simp [hpc, Pc.settled]) ?_ ?_)
      · simp [Pc.settled, List.findSome?, hw']
      · exact ⟨(hfound w).mpr ⟨hk, rfl⟩, rfl⟩
    · rename_i hk
      split at hs
      · rename_i hnew
        cases hs
        exact add_new hi hpc hlock hext hk hnew.1 hnew.2 _ rfl
      · cases hs

end Add

section Move

variable {call : Call Key Value} {g : Option Id} {f x : Id} (hi : Inv head s o)
  (hpc : s.pc t = .unlock call g f x)

include hi hpc

omit [DecidableEq Tid] in
theorem Inv.moving : Window head s.heap o call g f x ∧
    (reading call = false → (s.heap x).external = false) ∧ ∀ k, call = .remove k → g ≠ none := by
  have hst := hi.stands t
  rw [hpc] at hst
  exact hst

theorem release_goes {i : Id} {pc : Pc Id Key Value} (hcall : pc.call = some call)
    (hown : pc.own = []) (hholds : (g.toList ++ [f, x]).Perm (i :: pc.holds))
    (hstands : Stands head s.heap o pc)
    (hmove : Move (view head) setSpec t past s ((s.release call t i).goto t pc)) :
    Goes head past s ((s.release call t i).goto t pc) t := by
  refine hi.quiet (hi.released (by simp [hpc, Pc.call]) hcall (by rw [hpc]; exact hholds))
    (hown.trans (by simp [hpc, Pc.own])) ?_ hstands hmove
  intro j hmem
  apply hi.holds t
  rw [hpc]
  exact hholds.mem_iff.mpr (List.mem_cons_of_mem _ hmem)

theorem move_goes : Goes head past s (moveOn s t call g f x) t := by
  obtain ⟨hw, hint, hg⟩ := hi.moving hpc
  cases call with
  | add k v =>
    obtain rfl : g = none := hw.only (by simp)
    obtain ⟨y, hy, hedge⟩ := hw.edge.next hi.lies hi.sorted (hint rfl)
    simp only [moveOn, key] at hy ⊢
    rw [hy, follow]
    refine release_goes hi hpc rfl rfl (List.Perm.refl _)
      ⟨hedge, by simp, by simp, fun _ => rfl⟩ (walk_of ?_)
    simp [hpc, Pc.settled]
  | remove k =>
    obtain ⟨g, rfl⟩ := Option.ne_none_iff_exists'.mp (hg k rfl)
    obtain ⟨y, hy, hedge⟩ := hw.edge.next hi.lies hi.sorted (hint rfl)
    simp only [moveOn, key] at hy ⊢
    rw [hy, follow]
    refine release_goes hi hpc rfl rfl (List.Perm.refl _)
      ⟨hedge, ?_, by simp, fun h => absurd rfl (h k)⟩ (walk_of ?_)
    · rintro i ⟨⟩
      exact hw.edge
    · simp [hpc, Pc.settled]
  | contains k =>
    obtain rfl : g = none := hw.only (by simp)
    simp only [moveOn]
    by_cases hext : (s.heap x).external = false
    · obtain ⟨y, hy, hedge⟩ := hw.edge.next hi.lies hi.sorted hext
      rw [if_pos (by exact hext), hy, follow]
      refine release_goes hi hpc rfl rfl (List.Perm.refl _)
        ⟨hedge, by simp, by simp, fun _ => rfl⟩ (walk_of ?_)
      simp [hpc, Pc.settled]
    · rw [if_neg (by exact hext)]
      obtain ⟨w, hw', hfound⟩ := hw.edge.found hi.lies hi.sorted (by simpa using hext)
      by_cases hk : (s.heap x).key = k
      · rw [if_neg (by simpa [State.release] using hk)]
        refine release_goes hi hpc rfl rfl (List.Perm.refl _) ⟨by simp, by simp [Exits]⟩
          (settle_of (.contains k) (true, some w) (by simp [hpc, Pc.settled]) ?_ ?_)
        · simp [Pc.settled, State.release, hw']
        · exact ⟨(hfound w).mpr ⟨hk, rfl⟩, rfl⟩
      · rw [if_pos (by simpa [State.release] using hk)]
        refine release_goes hi hpc rfl rfl (List.Perm.refl _) ⟨by simp, by simp [Exits]⟩
          (settle_of (.contains k) (false, none) (by simp [hpc, Pc.settled]) rfl ?_)
        exact ⟨fun v hv => hk ((hfound v).mp hv).1, rfl⟩

end Move

section Exit

variable {call : Call Key Value} {todo : List (Release Id)} {gone : List Id} {ok : Bool}
  {out : Option Value}

omit [DecidableEq Tid] [LinearOrder Key] in
theorem foldl_putNode (gone : List Id) (s : State Tid Id Key Value) :
    gone.foldl State.putNode s = { s with live := gone.foldl List.erase s.live } := by
  induction gone generalizing s with
  | nil => rfl
  | cons i gone ih =>
    rw [List.foldl_cons, List.foldl_cons, ih]
    rfl

theorem foldl_erase (gone live : List Id) (hnodup : live.Nodup) :
    (gone.foldl List.erase live).Nodup ∧
      ∀ i, i ∈ gone.foldl List.erase live ↔ i ∈ live ∧ i ∉ gone := by
  induction gone generalizing live with
  | nil => exact ⟨hnodup, by simp⟩
  | cons j gone ih =>
    obtain ⟨hnodup', hmem⟩ := ih (live.erase j) (hnodup.erase j)
    refine ⟨hnodup', fun i => ?_⟩
    rw [List.foldl_cons, hmem, hnodup.mem_erase_iff, List.mem_cons]
    tauto

/-- The last lock is released, and nodes are freed that nobody knows. -/
theorem last_goes (hi : Inv head s o) {r : Release Id}
    (hpc : s.pc t = .exit call [r] gone ok out) :
    Goes head past s ((gone.foldl State.putNode (s.release call t r.node)).goto t
      (.ret call (ok, s.readOut r.read out))) t := by
  have hst := hi.stands t
  rw [hpc] at hst
  have hread : r.read = none := by
    rw [Option.eq_none_iff_forall_ne_some]
    intro i hr
    cases (hst.2.1 i hr).1
  obtain ⟨hnodup, hmem⟩ := foldl_erase gone s.live hi.nodup
  have hown (i : Id) (hin : i ∈ gone) : i ∈ (s.pc t).own := by
    rw [hpc]
    exact hin
  rw [foldl_putNode]
  generalize hs' : State.goto _ t (.ret call (ok, s.readOut r.read out)) = s'
  have hheap : s'.heap = s.heap := by
    rw [← hs']
    rfl
  have hlive : s'.live = gone.foldl List.erase s.live := by
    rw [← hs']
    rfl
  have hpc' : s'.pc = update s.pc t (.ret call (ok, s.readOut r.read out)) := by
    rw [← hs']
    rfl
  have hl : Local head s s' o o t := by
    refine ⟨?_, by simp [hpc', Pc.holds], fun _ _ => by rw [hheap], fun _ _ _ h => h,
      fun _ _ => Iff.rfl, ?_⟩
    · intro u hu
      rw [hpc', update_of_ne hu]
    · intro i hmay hin
      rw [hlive, hmem]
      exact ⟨hin, fun hg => hmay (.inr (.inr (.inl (hown i hg))))⟩
  have hheld : Held s'.locks (fun u => (s'.pc u).reading) (fun u => (s'.pc u).holds) := by
    rw [hpc', ← hs']
    apply hi.released
    · simp [hpc, Pc.call]
    · rfl
    · rw [hpc]
      exact List.Perm.refl _
  refine hi.goes hl hheld ⟨?_, hi.sorted, ?_, ?_, ?_, ?_, ?_, ?_, ?_⟩ (.walk ?_ ?_)
  · rw [hheap]
    exact hi.lies
  · rw [hheap]
    exact hi.sentinel
  · rw [hlive]
    exact hnodup
  · intro i hin
    rw [hlive, hmem]
    refine ⟨hi.live i hin, fun hg => ?_⟩
    obtain ⟨-, hne, hout⟩ := hi.own t i (hown i hg)
    rcases hin with heq | hin
    · exact hne heq
    · exact hout hin
  · simp [hpc', Pc.own]
  · simp [hpc', Pc.own]
  · simp [hpc', Pc.holds]
  · rw [hpc', update_self]
    trivial
  · exact congrArg (contents head) hheap
  · simp [hpc', hpc, Pc.settled, hread, State.readOut]

theorem exit_goes (hi : Inv head s o) (hpc : s.pc t = .exit call todo gone ok out) :
    Goes head past s (exitStep s t call todo gone ok out) t := by
  have hst := hi.stands t
  rw [hpc] at hst
  obtain ⟨hne, hexits⟩ := hst
  match todo with
  | [] => exact absurd rfl hne
  | [r] => exact last_goes hi hpc
  | r :: r' :: todo =>
    refine hi.quiet (hi.released (by simp [hpc, Pc.call]) rfl ?_) (by simp [hpc, Pc.own]) ?_
      ⟨by simp, hexits.2⟩ (walk_of ?_)
    · rw [hpc]
      exact List.Perm.refl _
    · intro i hmem
      apply hi.holds t
      rw [hpc]
      exact List.mem_cons_of_mem _ hmem
    · rw [hpc]
      simp only [Pc.settled, State.readOut]
      cases hr : r.read with
      | none => simp only [List.findSome?_cons, hr]
      | some i =>
        rw [(hexits.1 i hr).2]
        simp only [List.findSome?_cons, hr]

end Exit

theorem write_goes (hi : Inv head s o) {h' : Heap Id Key Value} {live : List Id}
    {pc : Pc Id Key Value} (o' : Option (Tree Id Key Value))
    (hmode : (s.pc t).reading = false ∧ pc.reading = false)
    (hheld : Held locks (fun u => (update s.pc t pc u).reading)
      (fun u => (update s.pc t pc u).holds))
    (hknown : ∀ i ∈ pc.holds, i = head ∨ i ∈ idsOf o ∨ i ∈ (s.pc t).own)
    (hrest : ∀ i ∈ s.live, i ∉ (s.pc t).holds → i ∉ pc.holds → i ∉ (s.pc t).own →
      h' i = s.heap i ∧ (∀ k, i ∈ pathOf k o → i ∈ pathOf k o') ∧
        (i ∈ idsOf o' ↔ i ∈ idsOf o) ∧ i ∈ live)
    (ha : After head s ⟨h', locks, live, update s.pc t pc⟩ o' t)
    (hmove : Move (view head) setSpec t past s ⟨h', locks, live, update s.pc t pc⟩) :
    Goes head past s ⟨h', locks, live, update s.pc t pc⟩ t := by
  have hfree (i : Id) (hmay : ¬ May s ⟨h', locks, live, update s.pc t pc⟩ t i) :=
    hrest i (by
      by_contra hout
      exact hmay (.inr (.inr (.inr hout))))
      (fun h => hmay (.inl ⟨hmode.1, h⟩))
      (fun h => hmay (.inr (.inl (by simpa using ⟨hmode.2, h⟩))))
      (fun h => hmay (.inr (.inr (.inl h))))
  refine hi.goes ⟨?_, ?_, ?_, ?_, ?_, ?_⟩ hheld ha hmove
  · intro u hu
    exact update_of_ne hu _ _
  · simpa using hknown
  · exact fun i hmay => (hfree i hmay).1
  · exact fun i hmay => (hfree i hmay).2.1
  · exact fun i hmay => (hfree i hmay).2.2.1
  · exact fun i hmay _ => (hfree i hmay).2.2.2

theorem head_inserts (hi : Inv head s o) {k : Key} {v : Value} {ext : Id}
    (hpc : s.pc t = .lockHead (.add k v))
    (hlock : s.locks.acquire (reading (.add k v)) t head = some locks)
    (hnull : (s.heap head).child false = none) (hnew : ext ∉ s.live) :
    Goes head past s ⟨Heap.setChild (update s.heap ext (extCell k v)) head false (some ext),
      update locks ext Locks.free, ext :: s.live,
      update s.pc t (.exit (.add k v) [⟨head, none⟩] [] true none)⟩ t := by
  obtain rfl := hi.empty hnull
  have hne : ext ≠ head := fun heq => hnew (hi.live ext (.inl heq))
  have hlies : Lies head
      (Heap.setChild (update s.heap ext (extCell k v)) head false (some ext))
      (some (.ext ext k v)) := by
    refine ⟨?_, ?_, ?_⟩
    · simp [RepPlace, Tree.id]
    · simp [Treeset.Rep, setChild_of_ne hne, extCell]
    · simpa [placeIds, Tree.ids] using hne.symm
  have hheld := hi.acquired (.exit (.add k v) [⟨head, none⟩] [] true none) hlock
    (by simp [hpc, Pc.call]) rfl (by simp [hpc, Pc.holds]) (by simp [hpc, Pc.holds])
  have hempty : contents head s.heap = ∅ := hi.lies.contents_eq
  refine write_goes hi (some (.ext ext k v)) ⟨by simp [hpc, Pc.reading, Pc.call, reading], rfl⟩
    (hheld.init fun u hmem => hnew ?_) (by simp [Pc.holds]) ?_ ?_ (.settle (.add k v) (true, none)
      (by simp [hpc, Pc.settled]) (by simp [Pc.settled]) ?_)
  · by_cases hu : u = t
    · rw [hu, update_self] at hmem
      rw [show ext = head by simpa [Pc.holds] using hmem]
      exact hi.live head (.inl rfl)
    · rw [update_of_ne hu] at hmem
      exact hi.known_live (hi.holds u ext hmem)
  · intro i hin _ hout _
    have hi1 : i ≠ head := by simpa [Pc.holds] using hout
    have hi2 : i ≠ ext := fun heq => hnew (heq ▸ hin)
    refine ⟨?_, ?_, ?_, List.mem_cons_of_mem _ hin⟩
    · rw [setChild_of_ne hi1, update_of_ne hi2]
    · intro k' hp
      cases hp
    · simp [idsOf, Tree.ids, hi2]
  · refine ⟨hlies, ?_, ?_, List.nodup_cons.mpr ⟨hnew, hi.nodup⟩, ?_, ?_, ?_, ?_, ?_⟩
    · rintro _ ⟨⟩
      simp [Sorted, Tree.inorder]
    · rw [setChild_external, update_of_ne hne.symm]
      exact hi.sentinel
    · intro i hin
      rcases hin with rfl | hin
      · exact List.mem_cons_of_mem _ (hi.live _ (.inl rfl))
      · rw [show i = ext by simpa [idsOf, Tree.ids] using hin]
        exact List.mem_cons_self
    · simp [Pc.own]
    · simp [Pc.own]
    · simp [Pc.holds]
    · dsimp only
      rw [update_self]
      exact ⟨by simp, by simp [Exits]⟩
  · change setSpec (contents head s.heap) _ _ (contents head _)
    rw [hlies.contents_eq, hempty, pairsOf, Tree.pairs_ext]
    exact ⟨fun _ h => h, by simp⟩

/-- What a change of the heap does to the tree: nodes come and go, and those that
are not locked stay on their paths. -/
structure Becomes (head : Id) (h' : Heap Id Key Value) (o o' : Option (Tree Id Key Value))
    (new gone locked : List Id) : Prop where
  lies : Lies head h' o'
  sorted : ∀ t ∈ o', Sorted t
  ids : ∀ i, i ∈ idsOf o' ↔ i ∈ new ∨ i ∈ idsOf o ∧ i ∉ gone
  path : ∀ i, i ∉ locked → ∀ k, i ∈ pathOf k o → i ∈ pathOf k o'

/-- The tree is changed, and the thread is on its way out. -/
theorem tree_goes (hi : Inv head s o) {h' : Heap Id Key Value} {todo : List (Release Id)}
    {new gone locked : List Id} {ok : Bool} {o' : Option (Tree Id Key Value)}
    (hb : Becomes head h' o o' new gone locked)
    (hmode : (s.pc t).reading = false ∧ reading call = false) (hheld : Held locks
      (fun u => (update s.pc t (.exit call todo gone ok none) u).reading)
      (fun u => (update s.pc t (.exit call todo gone ok none) u).holds))
    (hnew : ∀ i, i ∈ (s.pc t).own ↔ i ∈ new)
    (hgone : gone.Nodup ∧ ∀ i ∈ gone, i ∈ idsOf o ∧ i ∈ todo.map Release.node)
    (hlocked : ∀ i ∈ locked, i ∈ todo.map Release.node)
    (hheap : ∀ i, i ∉ new → i ∉ todo.map Release.node → h' i = s.heap i)
    (hhead : (h' head).external = (s.heap head).external)
    (hknown : ∀ i ∈ todo.map Release.node, i = head ∨ i ∈ idsOf o ∨ i ∈ new)
    (hexits : todo ≠ [] ∧ Exits todo) (hmove : Move (view head) setSpec t past s
      ⟨h', locks, s.live, update s.pc t (.exit call todo gone ok none)⟩) :
    Goes head past s
      ⟨h', locks, s.live, update s.pc t (.exit call todo gone ok none)⟩ t := by
  have hmode' : (Pc.exit call todo gone ok none : Pc Id Key Value).reading = false := by
    simpa [Pc.reading, Pc.call] using hmode.2
  have hnotnew (i : Id) (hi' : i ∈ idsOf o) : i ∉ new := fun h =>
    (hi.own t i ((hnew i).mpr h)).2.2 hi'
  refine write_goes hi o' ⟨hmode.1, hmode'⟩ hheld ?_ ?_
    ⟨hb.lies, hb.sorted, hhead.trans hi.sentinel, hi.nodup, ?_, ?_, ?_, ?_, ?_⟩ hmove
  · intro i hmem
    rw [hnew]
    exact hknown i hmem
  · intro i hin _ hout hown
    rw [hnew] at hown
    refine ⟨hheap i hown hout, hb.path i fun h => hout (hlocked i h), ?_, hin⟩
    rw [hb.ids, or_iff_right hown]
    exact and_iff_left fun h => hout (hgone.2 i h).2
  · intro i hin
    rcases hin with rfl | hin
    · exact hi.live _ (.inl rfl)
    · rcases (hb.ids i).mp hin with h | h
      · exact (hi.own t i ((hnew i).mpr h)).1
      · exact hi.live i (.inr h.1)
  · intro i hmem
    simp only [update_self, Pc.own] at hmem
    obtain ⟨hin, hheld'⟩ := hgone.2 i hmem
    refine ⟨.inr (.inl (by simpa using ⟨hmode', hheld'⟩)), hi.live i (.inr hin), ?_, ?_⟩
    · rintro rfl
      exact hi.lies.head_apart hin
    · rw [hb.ids, not_or]
      exact ⟨hnotnew i hin, fun h => h.2 hmem⟩
  · simpa [Pc.own] using hgone.1
  · intro i hmem
    simp only [update_self, Pc.holds, Pc.own] at hmem ⊢
    rw [hb.ids]
    rcases hknown i hmem with h | h | h
    · exact .inl h
    · by_cases hg : i ∈ gone
      · exact .inr (.inr hg)
      · exact .inr (.inl (.inr ⟨h, hg⟩))
    · exact .inr (.inl (.inl h))
  · dsimp only
    rw [update_self]
    exact hexits

variable {h : Heap Id Key Value}

theorem link_becomes {k : Key} {v : Value} {f x ext mid : Id} (he : Edge head h o k f x)
    (hl : Lies head h o) (hsorted : ∀ t ∈ o, Sorted t) (hext : (h x).external = true)
    (hne : (h x).key ≠ k) (hextcell : h ext = extCell k v) (hmidcell : (h mid).external = false)
    (hnew : ext ≠ head ∧ ext ∉ idsOf o) (hnew' : mid ≠ head ∧ mid ∉ idsOf o) (hmidext : ext ≠ mid) :
    ∃ o', Becomes head (linkHeap head h k f x ext mid) o o' [mid, ext] [] [x] ∧
      pairsOf o' = insert (k, v) (pairsOf o) := by
  obtain ⟨p, kx, vx, rfl, rfl, hs⟩ := he.search_external hl hsorted hext
  have hkx : (h x).key = kx := hs.shape.sub.1
  rw [hkx] at hne
  have hall (i : Id) (hin : i ∈ head ::ₘ (placeIds p + {x})) :
      i = head ∨ i ∈ idsOf (some (plug p (.ext x kx vx))) := by
    rw [idsOf, ids_plug]
    simpa [Tree.ids] using hin
  have hfmid : top head p ≠ mid := by
    intro heq
    have hmem : top head p ∈ head ::ₘ (placeIds p + {x}) := by
      have htop := top_mem head p
      rw [Multiset.mem_cons] at htop ⊢
      rcases htop with h | h
      · exact .inl h
      · exact .inr (Multiset.mem_add.mpr (.inl h))
    exact (hall _ hmem).elim (fun h => hnew'.1 (heq ▸ h)) fun h => hnew'.2 (heq ▸ h)
  -- the cell of `mid`, and the heap with it
  generalize hcell : ({
    h mid with
    key := if kx < k then k else kx
    child := fun b => if b = decide (kx < k) then some ext else some x } : Cell Id Key Value) = cell
  have hnewcell : cell.key = (if kx < k then k else kx) ∧ cell.red = cell.red ∧
      cell.external = false ∧ cell.child (decide (kx < k)) = some ext ∧
      cell.child (!decide (kx < k)) = some x := by
    simp [← hcell, hmidcell]
  have hextout : ext ∉ {head} + (placeIds p + {x}) := fun hin => (hall ext hin).elim hnew.1 hnew.2
  have hmidout : mid ∉ ext ::ₘ ({head} + (placeIds p + {x})) := fun hin =>
    (Multiset.mem_cons.mp hin).elim hmidext.symm fun hin => (hall mid hin).elim hnew'.1 hnew'.2
  have hshape := hs.shape.insert k v hextout hmidout hnewcell
  rw [← hextcell, update_eq_self] at hshape
  have hheap : linkHeap head h k (top head p) x ext mid =
      Heap.setChild (update h mid cell) (top head p) (topDir p) (some mid) := by
    have hindex : Heap.index (update h mid cell) head (top head p) k = topDir p := by
      rw [Heap.index, update_of_ne hfmid]
      exact index_eq hs.shape.place hs.shape.head_apart hs.located
    simp only [linkHeap, hkx, hcell, hindex]
  rw [hheap]
  refine ⟨some _, ⟨hshape.root, ?_, ?_, ?_⟩, pairs_insert p x mid ext kx _ k vx v cell.red _⟩
  · rintro _ ⟨⟩
    exact hs.sorted.insert ext mid v cell.red hs.located hne
  · intro i
    simp only [idsOf, ids_plug, Tree.dir_ids, Tree.ids, Multiset.mem_add, Multiset.mem_singleton,
      List.mem_cons, List.not_mem_nil, or_false, not_false_eq_true, and_true]
    tauto
  · intro i hi
    have hkept : ∀ k' z, z ≠ x → z ∈ (Tree.ext x kx vx).path k' → z ∈ (Tree.dir mid cell.red
        (if kx < k then k else kx) (decide (kx < k)) (.ext ext k v) (.ext x kx vx)).path k' := by
      intro k' z hz hzp
      exact absurd (by simpa [Tree.path] using hzp) hz
    exact fun k' => path_plug_mono hkept p k' i (by simpa using hi)

theorem unlink_becomes {k : Key} {g f x y : Id} (hg : Edge head h o k g f)
    (he : Edge head h o k f x) (hl : Lies head h o) (hsorted : ∀ t ∈ o, Sorted t)
    (hext : (h x).external = true) (hk : (h x).key = k)
    (hy : (h f).child (!h.toward f k) = some y) :
    ∃ o' v, Becomes head (h.setChild g (h.index head g k) (some y)) o o' [] [f, x] [f, x] ∧
      (h x).value = some v ∧ (k, v) ∈ pairsOf o ∧ pairsOf o' = pairsOf o \ {(k, v)} := by
  have hfhead : f ≠ head := hg.ne_head hl hsorted
  obtain ⟨p, T, rfl, rfl, hT, hs⟩ := hg.search hl hsorted
  have hint : T.external = false := by
    rw [← hs.shape.sub.external, hT]
    exact he.internal
  obtain ⟨i, red, kf, a, b, rfl⟩ := Tree.exists_of_internal hint fun k' => decide (k' ≤ k)
  rw [Tree.dir_id] at hT
  subst hT
  obtain ⟨hdown, htoward, hchild⟩ := hs.down
  -- the two children are `x` and `y`
  have hax : a.id = x := by
    have hx := he.child
    rw [Heap.index, show decide (i ≠ head) = true by simpa using hfhead, Bool.true_and,
      ← Heap.toward, htoward, hchild] at hx
    cases hx
    rfl
  have hby : b.id = y := by
    rw [htoward, show (h i).child (!decide (kf ≤ k)) = some b.id from hdown.shape.place.2.2.1] at hy
    cases hy
    rfl
  obtain ⟨v, rfl⟩ : ∃ v, a = .ext x k v := by
    cases a with
    | ext j ka v =>
      obtain rfl : j = x := hax
      have hka : (h j).key = ka := hdown.shape.sub.1
      exact ⟨v, by rw [← hka, hk]⟩
    | node j red ka l r =>
      obtain rfl : j = x := hax
      rw [hdown.shape.sub.1.internal] at hext
      cases hext
  subst hby
  have hshape := hdown.shape.cut
  obtain ⟨-, hnodup, hout⟩ := hs.shape.split p (i ::ₘ x ::ₘ b.ids) (by
    rw [Tree.dir_ids, Tree.ids, Multiset.singleton_add, Multiset.singleton_add])
  simp only [Multiset.nodup_cons, Multiset.mem_cons, not_or] at hnodup
  rw [index_eq hs.shape.place hs.shape.head_apart hs.located]
  refine ⟨some (plug p b), v, ⟨hshape.root, ?_, ?_, ?_⟩, hdown.shape.sub.2.2.2, ?_, ?_⟩
  · rintro _ ⟨⟩
    exact hdown.sorted.sublist (inorder_cut ⟨i, red, kf, decide (kf ≤ k), b⟩ p _)
  · intro j
    simp only [idsOf, ids_plug, Tree.dir_ids, Tree.ids, Multiset.mem_add, Multiset.mem_singleton,
      List.mem_cons, List.not_mem_nil, or_false, false_or, not_or]
    constructor
    · rintro (hj | hj)
      · have hj' := hout j (Multiset.mem_cons_of_mem hj)
        simp only [Multiset.mem_cons, not_or] at hj'
        exact ⟨.inl hj, hj'.1, hj'.2.1⟩
      · refine ⟨.inr (.inr (.inr hj)), ?_, ?_⟩
        · rintro rfl
          exact hnodup.1.2 hj
        · rintro rfl
          exact hnodup.2.1 hj
    · rintro ⟨hj | hj | hj | hj, hji, hjx⟩
      · exact .inl hj
      · exact absurd hj hji
      · exact absurd hj hjx
      · exact .inr hj
  · intro j hj
    have hkept : ∀ k' z, z ≠ i ∧ z ≠ x →
        z ∈ (Tree.dir i red kf (decide (kf ≤ k)) (.ext x k v) b).path k' → z ∈ b.path k' := by
      intro k' z hz hzp
      rw [Tree.path_dir, List.mem_cons] at hzp
      rcases hzp with hzp | hzp
      · exact absurd hzp hz.1
      · split at hzp
        · exact absurd (by simpa [Tree.path] using hzp) hz.2
        · exact hzp
    exact fun k' => path_plug_mono hkept p k' j (by simpa using hj)
  · exact (pairs_lookup hdown.located).mpr ⟨rfl, rfl⟩
  · exact pairs_delete hdown.located

theorem link_goes (hi : Inv head s o) {k : Key} {v : Value} {f x ext mid : Id}
    (hpc : s.pc t = .lockMid k v f x ext mid)
    (hlock : s.locks.acquire (reading (.add k v)) t mid = some locks) :
    Goes head past s (linkMid head { s with locks := locks } t k v f x ext mid) t := by
  have hst := hi.stands t
  rw [hpc] at hst
  obtain ⟨hedge, hext, hne, hextcell, hmidcell⟩ := hst
  obtain ⟨w, -, hfound⟩ := hedge.found hi.lies hi.sorted hext
  have hextnew := (hi.own t ext (by simp [hpc, Pc.own])).2
  have hmidnew := (hi.own t mid (by simp [hpc, Pc.own])).2
  have hmidext : ext ≠ mid := by simpa [hpc, Pc.own] using hi.once t
  obtain ⟨o', hb, hpairs⟩ := link_becomes hedge hi.lies hi.sorted hext hne hextcell hmidcell
    hextnew hmidnew hmidext
  have hheld := hi.acquired (.exit (.add k v) [⟨f, none⟩, ⟨mid, none⟩, ⟨x, none⟩] [] true none)
    hlock (by simp [hpc, Pc.call]) rfl (by simp [reading]) (by
      rw [hpc]
      exact List.Perm.swap mid _ _)
  refine tree_goes hi hb ⟨by simp [hpc, Pc.reading, Pc.call, reading], rfl⟩ hheld ?_ (by simp)
    (by simp) ?_ ?_ ?_ ⟨by simp, by simp [Exits]⟩
    (.settle (.add k v) (true, none) (by simp [hpc, Pc.settled])
      (by simp [Pc.settled, List.findSome?]) ?_)
  · intro i
    simp [hpc, Pc.own, or_comm]
  · intro i hnew hout
    simp only [List.map_cons, List.map_nil, List.mem_cons, List.not_mem_nil, or_false,
      not_or] at hout hnew
    simp only [linkHeap]
    rw [setChild_of_ne hout.1, update_of_ne hnew.1]
  · simp only [linkHeap]
    rw [setChild_external, update_of_ne hmidnew.1.symm]
  · intro i hmem
    simp only [List.map_cons, List.map_nil, List.mem_cons, List.not_mem_nil, or_false] at hmem
    rcases hmem with rfl | rfl | rfl
    · rcases List.mem_cons.mp hedge.onPath with h | h
      · exact .inl h
      · exact .inr (.inl (mem_idsOf_of_mem_pathOf h))
    · exact .inr (.inr (by simp))
    · exact .inr (.inl (hedge.mem hi.lies hi.sorted))
  · change setSpec (contents head s.heap) _ _ (contents head _)
    refine ⟨fun w hw => hne ((hfound w).mp hw).1, ?_⟩
    rw [hb.lies.contents_eq, hi.lies.contents_eq, hpairs]

theorem unlink_goes (hi : Inv head s o) {k : Key} {g f x y : Id}
    (hpc : s.pc t = .lockBrother k g f x y)
    (hlock : s.locks.acquire (reading (.remove k : Call Key Value)) t y = some locks) :
    Goes head past s (unlinkFather head { s with locks := locks } t k g f x y) t := by
  have hst := hi.stands t
  rw [hpc] at hst
  obtain ⟨hg, hf, hext, hk, hy⟩ := hst
  have hgknown : g = head ∨ g ∈ idsOf o := by
    rcases List.mem_cons.mp hg.onPath with h | h
    · exact .inl h
    · exact .inr (mem_idsOf_of_mem_pathOf h)
  have hfmem := hg.mem hi.lies hi.sorted
  have hxmem := hf.mem hi.lies hi.sorted
  have hxf := hf.ne hi.lies hi.sorted
  have hymem : y ∈ idsOf o := by
    obtain ⟨y', hy', hchild⟩ := hf.brother hi.lies hi.sorted (hg.ne_head hi.lies hi.sorted)
    rw [hchild] at hy
    cases hy
    exact hy'
  obtain ⟨o', v, hb, hv, hin, hpairs⟩ := unlink_becomes hg hf hi.lies hi.sorted hext hk hy
  have hheld := hi.acquired
    (.exit (.remove k) [⟨g, none⟩, ⟨y, none⟩, ⟨f, some x⟩, ⟨x, none⟩] [f, x] true none) hlock
    (by simp [hpc, Pc.call]) rfl (by simp [reading]) (by
      rw [hpc]
      exact List.Perm.swap y _ _)
  refine tree_goes hi hb ⟨by simp [hpc, Pc.reading, Pc.call, reading], rfl⟩ hheld ?_ ?_ (by simp)
    ?_ (setChild_external ..) ?_ ⟨by simp, by simp [Exits]⟩
    (.settle (.remove k) (true, some v) (by simp [hpc, Pc.settled])
      (by simp [Pc.settled, List.findSome?, hv]) ?_)
  · simp [hpc, Pc.own]
  · refine ⟨by simpa using hxf.symm, ?_⟩
    intro i hmem
    simp only [List.mem_cons, List.not_mem_nil, or_false] at hmem
    rcases hmem with rfl | rfl
    · exact ⟨hfmem, by simp⟩
    · exact ⟨hxmem, by simp⟩
  · intro i _ hout
    simp only [List.map_cons, List.mem_cons, not_or] at hout
    exact setChild_of_ne hout.1
  · intro i hmem
    simp only [List.map_cons, List.map_nil, List.mem_cons, List.not_mem_nil, or_false] at hmem ⊢
    rcases hmem with rfl | rfl | rfl | rfl
    · exact hgknown
    · exact .inr hymem
    · exact .inr hfmem
    · exact .inr hxmem
  · change setSpec (contents head s.heap) _ _ (contents head _)
    rw [hb.lies.contents_eq, hi.lies.contents_eq]
    exact ⟨hin, hpairs⟩

theorem last_removes (hi : Inv head s o) {k : Key} {f x : Id}
    (hpc : s.pc t = .lock (.remove k) none f x)
    (hlock : s.locks.acquire (reading (.remove k : Call Key Value)) t x = some locks)
    (hext : (s.heap x).external = true) (hk : (s.heap x).key = k) :
    Goes head past s ⟨s.heap.setChild f false none, locks, s.live,
      update s.pc t (.exit (.remove k) [⟨f, some x⟩, ⟨x, none⟩] [x] true none)⟩ t := by
  have hw := hi.window hpc
  obtain rfl : f = head := hw.first k rfl rfl
  obtain ⟨p, kx, v, rfl, htop, hs⟩ := hw.edge.search_external hi.lies hi.sorted hext
  obtain rfl : p = [] := by
    cases p with
    | nil => rfl
    | cons fr p => exact absurd htop hs.shape.ne_head
  obtain ⟨hkx, -, -, hv⟩ := hs.shape.sub
  obtain rfl : kx = k := hkx.symm.trans hk
  have hb : Becomes f (s.heap.setChild f false none) (some (plug [] (.ext x kx v))) none
      [] [x] [x] := by
    refine ⟨by simp [Lies], by simp, ?_, ?_⟩
    · simp [idsOf, plug, Tree.ids]
    · intro i hne k' hp
      exact absurd (by simpa [pathOf, plug, Tree.path] using hp) hne
  have hheld := hi.acquired (.exit (.remove kx) [⟨f, some x⟩, ⟨x, none⟩] [x] true none) hlock
    (by simp [hpc, Pc.call]) rfl (hi.at_new hpc) (by
      rw [hpc]
      exact List.Perm.swap x f [])
  refine tree_goes hi hb ⟨by simp [hpc, Pc.reading, Pc.call, reading], rfl⟩ hheld ?_ ?_ (by simp)
    ?_ (setChild_external ..) ?_ ⟨by simp, by simp [Exits]⟩
    (.settle (.remove kx) (true, some v) (by simp [hpc, Pc.settled])
      (by simp [Pc.settled, List.findSome?, hv]) ?_)
  · simp [hpc, Pc.own]
  · simp [idsOf, plug, Tree.ids]
  · intro i _ hout
    simp only [List.map_cons, List.mem_cons, not_or] at hout
    exact setChild_of_ne hout.1
  · simp [idsOf, plug, Tree.ids]
  · change setSpec (contents f s.heap) _ _ (contents f _)
    rw [hb.lies.contents_eq, hi.lies.contents_eq]
    simp [pairsOf, plug, Tree.pairs_ext, setSpec]

theorem remove_goes (hi : Inv head s o) {k : Key} {g : Option Id} {f x : Id}
    (hpc : s.pc t = .lock (.remove k) g f x)
    (hlock : s.locks.acquire (reading (.remove k : Call Key Value)) t x = some locks) :
    Goes head past s (removeAt { s with locks := locks } t k g f x) t := by
  have hw := hi.window hpc
  have hnone : (s.pc t).settled s.heap = none := by
    simp [hpc, Pc.settled]
  cases hext : (s.heap x).external with
  | false =>
    obtain ⟨y, hy, hedge⟩ := hw.edge.next hi.lies hi.sorted hext
    cases g with
    | none =>
      simp only [removeAt, hext]
      rw [show (s.heap x).child (s.heap.toward x k) = some y from hy, follow]
      refine at_goes hi hpc hlock rfl rfl rfl
        ⟨hedge, ?_, by simp, fun h => absurd rfl (h k)⟩ (walk_of (by rw [hnone]; rfl))
      rintro i ⟨⟩
      exact hw.edge
    | some g =>
      simp only [removeAt, hext]
      exact at_goes hi hpc hlock rfl rfl rfl ⟨hw, fun _ => hext, by simp⟩
        (walk_of (by rw [hnone]; rfl))
  | true =>
    obtain ⟨v, hv, hfound⟩ := hi.at_external hpc hext
    by_cases hk : (s.heap x).key = k
    · cases g with
      | none =>
        simp only [removeAt, hext]
        rw [if_neg (by simpa using hk)]
        exact last_removes hi hpc hlock hext hk
      | some g =>
        have hg := hw.above g rfl
        obtain ⟨y, -, hy⟩ := hw.edge.brother hi.lies hi.sorted (hg.ne_head hi.lies hi.sorted)
        simp only [removeAt, hext]
        rw [if_neg (by simpa using hk), show (s.heap f).child (!s.heap.toward f k) = some y
          from hy, follow]
        exact at_goes hi hpc hlock rfl rfl rfl ⟨hg, hw.edge, hext, hk, hy⟩
          (walk_of (by rw [hnone]; rfl))
    · have habsent : setSpec (contents head s.heap) (.remove k) (false, none)
          (contents head s.heap) := ⟨fun w hw => hk ((hfound w).mp hw).1, rfl⟩
      cases g with
      | none | some g =>
        simp only [removeAt, hext]
        rw [if_pos (by simpa using hk)]
        exact at_goes hi hpc hlock rfl rfl rfl ⟨by simp, by simp [Exits]⟩
          (settle_of (.remove k) (false, none) hnone rfl habsent)

theorem step_goes (hi : Inv head s o) {a : Act Tid Id Key Value} (hs : step head s a = some s') :
    Goes head past s s' a.thread := by
  cases a with
  | call t call =>
    simp only [step] at hs
    split at hs
    · rename_i hpc
      cases hs
      exact call_goes hi hpc call
    · cases hs
  | step t ext mid =>
    simp only [step, nextStep] at hs
    split at hs
    · cases hs
    · cases hs
    · rename_i call hpc
      simp only [State.acquire, Option.bind_eq_some_iff, Option.map_eq_some_iff] at hs
      obtain ⟨-, ⟨locks, hlock, rfl⟩, hs⟩ := hs
      cases hx : (s.heap head).child false with
      | some x =>
        simp only [atHead, hx] at hs
        cases hs
        exact head_goes hi hpc hlock hx
      | none =>
        cases call with
        | add k v =>
          simp only [atHead, hx] at hs
          split at hs
          · rename_i hnew
            cases hs
            exact head_inserts hi hpc hlock hx hnew
          · cases hs
        | remove k | contains k =>
          simp only [atHead, hx] at hs
          cases hs
          exact head_fails hi hpc hlock hx (by simp)
    · rename_i call g f x hpc
      simp only [State.acquire, Option.bind_eq_some_iff, Option.map_eq_some_iff] at hs
      obtain ⟨-, ⟨locks, hlock, rfl⟩, hs⟩ := hs
      cases call with
      | add k v => exact add_goes hi hpc hlock hs
      | remove k =>
        simp only [atNode] at hs
        cases hs
        exact remove_goes hi hpc hlock
      | contains k =>
        simp only [atNode] at hs
        cases hs
        have hw := hi.window hpc
        obtain rfl : g = none := hw.only (by simp)
        exact at_goes hi hpc hlock rfl rfl rfl ⟨hw, by simp [reading], by simp⟩
          (walk_of (by simp [hpc, Pc.settled]))
    · rename_i call g f x hpc
      cases hs
      exact move_goes hi hpc
    · rename_i k v f x ext mid hpc
      simp only [State.acquire, Option.map_eq_some_iff] at hs
      obtain ⟨-, ⟨locks, hlock, rfl⟩, rfl⟩ := hs
      exact link_goes hi hpc hlock
    · rename_i k g f x y hpc
      simp only [State.acquire, Option.map_eq_some_iff] at hs
      obtain ⟨-, ⟨locks, hlock, rfl⟩, rfl⟩ := hs
      exact unlink_goes hi hpc hlock
    · rename_i call todo gone ok out hpc
      cases hs
      exact exit_goes hi hpc
    · rename_i call r hpc
      cases hs
      exact ret_goes hi hpc

omit [DecidableEq Tid] in
theorem inv_init (memory : Heap Id Key Value) :
    Inv head (treesetInit head memory : State Tid Id Key Value) none := by
  refine ⟨?_, by simp, ?_, ?_, ?_, ?_, ?_, ?_, ?_, ?_, ?_⟩
  · simp [Lies, treesetInit]
  · simp [treesetInit]
  · constructor <;> simp [treesetInit, Locks.free, Pc.holds]
  · simp [treesetInit]
  · simp [treesetInit, idsOf]
  all_goals simp [treesetInit, Pc.own, Pc.holds, Stands]

theorem run_inv (run : (machine Tid Key Value head).Run past s) :
    ∃ o : Option (Tree Id Key Value), Inv head s o := by
  apply run.invariant (I := fun s => ∃ o, Inv head s o)
  · rintro s ⟨memory, rfl⟩
    exact ⟨none, inv_init memory⟩
  · rintro s a s' ⟨o, hi⟩ hs
    have hgoes : Goes head [] s s' a.thread := step_goes hi hs
    obtain ⟨o', hi', -⟩ := hgoes
    exact ⟨o', hi'⟩

omit [DecidableEq Tid] [DecidableEq Id] in
theorem verifyRecursive_spec {T : Tree Id Key Value} (rounds : Nat) {limitB limitE : Option Key}
    (hr : Rep h T) (hsorted : Sorted T) (hlimits : Within limitB limitE T)
    (hrounds : T.size ≤ rounds) : verifyRecursive h rounds T.id limitB limitE = .ok () := by
  induction rounds generalizing T limitB limitE with
  | zero => exact absurd hrounds (by cases T <;> simp [Tree.size])
  | succ rounds ih =>
    cases T with
    | ext i k v =>
      obtain ⟨hk, -, he, -⟩ := hr
      have hlim := hlimits (.ext i k v) (by simp [Tree.inorder])
      simp only [Item.key] at hlim
      change verifyRecursive h (rounds + 1) i limitB limitE = _
      simp only [verifyRecursive, hk, check_true hlim.1, check_true hlim.2, he, ok_bind]
      rfl
    | node i red k a b =>
      obtain ⟨hcell, ha, hb, hra, hrb⟩ := hr
      have hlim := hlimits (.sep i k) (by simp [Tree.inorder])
      simp only [Item.key] at hlim
      obtain ⟨hsa, hsb, hleft, hright⟩ := hlimits.sides hsorted
      rw [Tree.size] at hrounds
      have hruna := ih hra hsa hleft (by omega)
      have hrunb := ih hrb hsb hright (by omega)
      change verifyRecursive h (rounds + 1) i limitB limitE = _
      simp only [verifyRecursive, hcell.key, check_true hlim.1, check_true hlim.2,
        hcell.internal, ha, hb, hruna, hrunb, deref_some, ok_bind, if_true]

section

omit [DecidableEq Tid]

theorem Inv.verify (hi : Inv head s o) : treesetVerify head s = .ok () := by
  cases o with
  | none =>
    have hnull : (s.heap head).child false = none := hi.lies
    simp only [treesetVerify, hnull]
    rfl
  | some T =>
    have hroot : (s.heap head).child false = some T.id := hi.lies.place
    have hnodup : T.ids.Nodup := by
      have hapart := Shape.apart hi.lies
      simp only [placeIds, zero_add, Multiset.singleton_add, Multiset.nodup_cons] at hapart
      exact hapart.2
    have hsize : T.size ≤ s.live.length := by
      rw [← T.card_ids, ← Multiset.coe_card]
      apply Multiset.card_le_card
      rw [Multiset.le_iff_subset hnodup]
      intro i hmem
      exact hi.live i (.inr hmem)
    simp only [treesetVerify, hroot]
    exact verifyRecursive_spec _ hi.lies.sub (hi.sorted T rfl) (fun _ _ => by simp) hsize

theorem Inv.nodes_live (hi : Inv head s o) {i : Id} (hmem : i ∈ (s.pc t).nodes head) :
    i ∈ s.live := by
  have hst := hi.stands t
  have hheld (j : Id) (hj : j ∈ (s.pc t).holds) : j ∈ s.live := hi.known_live (hi.holds t j hj)
  have hown (j : Id) (hj : j ∈ (s.pc t).own) : j ∈ s.live := (hi.own t j hj).1
  cases hpc : s.pc t with
  | idle | crashed | ret call r =>
    rw [hpc] at hmem
    cases hmem
  | lockHead call =>
    rw [hpc] at hmem
    rw [List.mem_singleton.mp hmem]
    exact hi.live head (.inl rfl)
  | lock call g f x =>
    rw [hpc] at hmem
    exact hi.known_live (hi.at_known hpc hmem)
  | unlock call g f x =>
    rw [hpc] at hmem hheld
    exact hheld i hmem
  | lockMid k v f x ext mid =>
    rw [hpc] at hmem hheld hown
    simp only [Pc.nodes, Pc.holds, Pc.own, List.mem_cons, List.not_mem_nil, or_false] at *
    rcases hmem with h | h | h | h
    · exact hheld i (.inl h)
    · exact hheld i (.inr h)
    · exact hown i (.inl h)
    · exact hown i (.inr h)
  | lockBrother k g f x y =>
    rw [hpc] at hmem hheld hst
    obtain ⟨hg, hf, -, -, hy⟩ := hst
    simp only [Pc.nodes, Pc.holds, List.mem_cons, List.not_mem_nil, or_false] at hmem hheld
    rcases hmem with h | h | h | rfl
    · exact hheld i (.inl h)
    · exact hheld i (.inr (.inl h))
    · exact hheld i (.inr (.inr h))
    · obtain ⟨y', hy', hchild⟩ := hf.brother hi.lies hi.sorted (hg.ne_head hi.lies hi.sorted)
      rw [hchild] at hy
      cases hy
      exact hi.live _ (.inr hy')
  | exit call todo gone ok out =>
    rw [hpc] at hmem hheld hst hown
    simp only [Pc.nodes, Pc.holds, Pc.own, List.mem_append] at hmem hheld hown
    rcases hmem with (h | h) | h
    · exact hheld i h
    · exact hheld i (hst.2.reads h)
    · exact hown i h

end

/-- The keys are in order, no thread works on a node that was freed, and every
result is that of an atomic operation on a set of keys with values. -/
structure Safe (head : Id) (past : List (State Tid Id Key Value × Act Tid Id Key Value))
    (s : State Tid Id Key Value) : Prop where
  ordered : treesetVerify head s = .ok ()
  unfreed : ∀ t, ∀ i ∈ (s.pc t).nodes head, i ∈ s.live
  single : ∀ k v w, (k, v) ∈ contents head s.heap → (k, w) ∈ contents head s.heap → v = w
  atomic : Linear (machine Tid Key Value head) Act.thread (view head) setSpec past s
  noCrash : ∀ t, s.pc t ≠ .crashed

theorem treeset_bst_fine_safe (run : (machine Tid Key Value head).Run past s) :
    Safe head past s := by
  obtain ⟨o, hi⟩ := run_inv run
  refine ⟨hi.verify, fun t i hmem => hi.nodes_live hmem, ?_, ?_, ?_⟩
  · intro k v w hv hw
    rw [hi.lies.contents_eq] at hv hw
    cases o with
    | none => cases hv
    | some T => exact (hi.sorted T rfl).value_unique hv hw
  · apply run.linear_always
    · rintro s ⟨memory, rfl⟩ t
      rfl
    · intro past s a s' run hs
      obtain ⟨o, hi⟩ := run_inv run
      have hgoes : Goes head past s s' a.thread := step_goes hi hs
      obtain ⟨-, -, hmoves⟩ := hgoes
      exact hmoves
  · intro t hpc
    have hst := hi.stands t
    rw [hpc] at hst
    exact hst

/-- Two keys are added and one is taken out again; its nodes are not freed yet
when another thread comes to the node that has taken their place. -/
def addRemove : List (Act Bool Nat Nat Nat) :=
  List.flatten [
    .call true (.add 5 50) :: List.replicate 3 (.step true 1 2),
    .call true (.add 7 70) :: List.replicate 7 (.step true 2 3),
    .call true (.remove 5) :: List.replicate 5 (.step true 0 0),
    [.call false (.contains 7), .step false 0 0]]

theorem treeset_bst_fine_safe_removed :
    ∃ past s, (machine Bool Nat Nat (0 : Nat)).Run past s ∧ (s.pc false).nodes 0 = [0, 2] ∧
      (s.pc true).own = [3, 1] ∧ Safe 0 past s := by
  have hexec : ((machine Bool Nat Nat (0 : Nat)).exec (treesetInit 0 fun _ => extCell 0 0)
      addRemove).map (fun s => ((s.pc false).nodes 0, (s.pc true).own)) =
        some ([0, 2], [3, 1]) := by
    decide +kernel
  obtain ⟨s, hs, heq⟩ := Option.map_eq_some_iff.mp hexec
  obtain ⟨hnodes, hown⟩ := Prod.mk.inj heq
  have run := (Machine.Run.start (M := machine Bool Nat Nat (0 : Nat)) ⟨_, rfl⟩).exec hs
  exact ⟨_, s, run, hnodes, hown, treeset_bst_fine_safe run⟩

end Libvsync.Map.TreesetBst
