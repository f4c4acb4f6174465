import Libvsync.Stack.EliminationInv

/-!
A meeting in a slot hands a node from a push to a pop when the two sides differ,
and nothing otherwise. With that every step keeps the account of the nodes, and
the results are read off it: nodes are neither lost nor duplicated, a push
returns when its node is on the core stack or with a pop, and NULL is returned
only by a call that found the core stack empty.
-/

namespace Libvsync.Stack.Elimination

open Libvsync.Core Function
open Libvsync.Utils

variable {Tid Node : Type} [DecidableEq Tid] [DecidableEq Node]
variable {c : Config} {s s' : State Tid Node} {nodes nodes' : List Node} {t : Tid}

/-- Thread `t` moves in a slot, and goes on to `goal`. -/
structure SlotStep (s s' : State Tid Node) (t : Tid) (k : Nat) (x : Exchanger.State Tid Node)
    (goal : Pc Node) : Prop where
  slots : s'.slots = update s.slots k x
  pc : s'.pc = update s.pc t goal
  top : s'.top = s.top
  next : s'.next = s.next
  inside : s'.inside = s.inside
  pushed : s'.pushed = s.pushed
  returned : s'.returned = s.returned
  frame : ∀ u, u ≠ t → x.frame u = (s.slots k).frame u

section SlotStep

omit [DecidableEq Node]

variable {pc : Pc Node} {k : Nat} {x : Exchanger.State Tid Node} (hs : SlotStep s s' t k x pc)

include hs

theorem SlotStep.frames (k' : Nat) {u : Tid} (hu : u ≠ t) :
    (s'.slots k').frame u = (s.slots k').frame u := by
  rw [hs.slots]
  by_cases hk : k' = k
  · subst hk
    rw [update_self]
    exact hs.frame u hu
  · rw [update_of_ne hk]

theorem SlotStep.got_elsewhere {k' : Nat} (hk : k' ≠ k) (u : Tid) :
    gotAt s' u k' = gotAt s u k' := by
  rw [gotAt, gotAt, hs.slots, update_of_ne hk]

theorem SlotStep.self : s'.pc t = pc := by
  rw [hs.pc, update_self]

theorem SlotStep.other {u : Tid} (hu : u ≠ t) : s'.pc u = s.pc u := by
  rw [hs.pc, update_of_ne hu]

/-- A thread that got nothing new holds what it held. -/
theorem SlotStep.held_other {u : Tid} (hu : u ≠ t) (hgot : gotAt s' u k = gotAt s u k) :
    pushHeld s' u = pushHeld s u ∧ popHeld s' u = popHeld s u := by
  have hall : gotAt s' u = gotAt s u := by
    funext k'
    by_cases hk : k' = k
    · rw [hk]
      exact hgot
    · exact hs.got_elsewhere hk u
  rw [pushHeld, pushHeld, popHeld, popHeld, hall, hs.other hu]
  exact ⟨rfl, rfl⟩

end SlotStep

variable {x : Exchanger.State Tid Node}

theorem Inv.slot_move (h : Inv c s nodes) {pc : Pc Node} {k : Nat} (hs : SlotStep s s' t k x pc)
    (hx : ∃ partner, Exchanger.Inv x partner) (hheld : ∀ u n, n ∈ pushHeld s' u → n ∈ pushHeld s u)
    (hframes : ∀ k' f, (s'.slots k').frame t = some f → pc.slot = some k')
    (hstore : Store s' nodes') (hpc : PcOk c s' t pc) : Moved c s s' t nodes' := by
  refine h.step_of (t := t) ?_ hstore ?_ ?_ ?_
  · exact ⟨fun u hu => hs.other hu, fun k' u hu => hs.frames k' hu,
      fun n _ => by rw [hs.next], fun u n hn => .inl (hheld u n hn)⟩
  · intro k'
    rw [hs.slots]
    by_cases hk : k' = k
    · subst hk
      rw [update_self]
      exact hx
    · rw [update_of_ne hk]
      exact h.slots k'
  · rw [hs.self]
    exact hframes
  · rw [hs.self]
    exact hpc

theorem Inv.slot_still (h : Inv c s nodes) {pc : Pc Node} {k : Nat} (hs : SlotStep s s' t k x pc)
    (hx : ∃ partner, Exchanger.Inv x partner) (hpush : pushHeld s' t = pushHeld s t)
    (hpop : popHeld s' t = popHeld s t) (hgot : ∀ u, u ≠ t → gotAt s' u k = gotAt s u k)
    (hframes : ∀ k' f, (s'.slots k').frame t = some f → pc.slot = some k') (hpc : PcOk c s' t pc) :
    Moved c s s' t nodes := by
  have hpushes (u : Tid) : pushHeld s' u = pushHeld s u := by
    by_cases hu : u = t
    · rw [hu]
      exact hpush
    · exact (hs.held_other hu (hgot u hu)).1
  have hpops (u : Tid) : popHeld s' u = popHeld s u := by
    by_cases hu : u = t
    · rw [hu]
      exact hpop
    · exact (hs.held_other hu (hgot u hu)).2
  refine h.slot_move hs hx (fun u n hn => hpushes u ▸ hn) hframes ?_ hpc
  exact h.toStore.same hpushes hpops hs.top (fun n _ => by rw [hs.next]) hs.inside hs.pushed
    hs.returned

/-- The slot and thread `t` have moved on. -/
def State.slotted (s : State Tid Node) (t : Tid) (k : Nat) (x : Exchanger.State Tid Node)
    (pc : Pc Node) : State Tid Node :=
  { s with slots := update s.slots k x }.goto t pc

section

omit [DecidableEq Node]

theorem slotted_step {pc : Pc Node} {k : Nat}
    (hframe : ∀ u, u ≠ t → x.frame u = (s.slots k).frame u) :
    SlotStep s (s.slotted t k x pc) t k x pc :=
  ⟨rfl, rfl, rfl, rfl, rfl, rfl, rfl, hframe⟩

@[simp] theorem slotted_slot (s : State Tid Node) (t : Tid) (k : Nat)
    (x : Exchanger.State Tid Node) (pc : Pc Node) : (s.slotted t k x pc).slots k = x :=
  update_self ..

end

omit [DecidableEq Tid] in
/-- A thread outside of the slots is in no call there. -/
theorem Inv.outside (h : Inv c s nodes) (hout : (s.pc t).slot = none) (k : Nat) :
    (s.slots k).frame t = none := by
  cases hf : (s.slots k).frame t with
  | none => rfl
  | some f =>
    have hslot := h.frames t k f hf
    rw [hout] at hslot
    cases hslot

theorem Inv.enter (h : Inv c s nodes) {pc : Pc Node} {k : Nat} {item : Option Node}
    (hx : Exchanger.step (s.slots k) (.call t item c.maxTrials) = some x)
    (hbefore : (s.pc t).slot = none) (hafter : pc.slot = some k)
    (hpush : pushOf (fun _ => none) pc = pushHeld s t)
    (hpop : popOf (fun _ => none) pc = popHeld s t)
    (hpc : InSlot (s.slotted t k x pc) t k item → PcOk c (s.slotted t k x pc) t pc) :
    Moved c s (s.slotted t k x pc) t nodes := by
  obtain ⟨partner, hslot⟩ := h.slots k
  have hinv := hslot.step hx
  obtain ⟨hidle, hword, hframe⟩ := Exchanger.call_cases hx
  have hother (u : Tid) (hu : u ≠ t) : x.frame u = (s.slots k).frame u := by
    rw [hframe, update_of_ne hu]
  have hs : SlotStep s (s.slotted t k x pc) t k x pc := slotted_step hother
  have hmine : x.frame t =
      some ⟨(s.slots k).calls, item, c.maxTrials, Exchanger.loop c.maxTrials 0⟩ := by
    rw [hframe, update_self]
  have hgot : gotAt (s.slotted t k x pc) t = fun _ => none := by
    funext k'
    by_cases hk : k' = k
    · subst hk
      rw [gotAt, slotted_slot, hmine]
      exact Exchanger.got_loop _ _ _
    · rw [hs.got_elsewhere hk, gotAt, h.outside hbefore]
  refine h.slot_still hs hinv ?_ ?_ ?_ ?_ (hpc ?_)
  · rw [pushHeld, hgot, hs.self, hpush]
  · rw [popHeld, hgot, hs.self, hpop]
  · intro u hu
    rw [gotAt, gotAt, slotted_slot, hother u hu, hword]
  · intro k' f hf
    by_cases hk : k' = k
    · rw [hk]
      exact hafter
    · rw [hs.slots, update_of_ne hk, h.outside hbefore] at hf
      cases hf
  · exact ⟨_, by rw [slotted_slot]; exact hmine, rfl⟩

variable {f : Exchanger.Frame Node}

theorem Inv.leave (h : Inv c s nodes) {pc : Pc Node} {k : Nat} {success : Bool}
    {yourItem : Option Node} (hf : (s.slots k).frame t = some f)
    (hret : f.pc = .ret success yourItem) (hpush : pushOf (fun _ => none) pc = pushHeld s t)
    (hpop : popOf (fun _ => none) pc = popHeld s t) (hpc : ∀ s' : State Tid Node, PcOk c s' t pc) :
    Moved c s (s.slotted t k (Exchanger.endCall (s.slots k) t f.ident (success, yourItem)) pc)
      t nodes := by
  obtain ⟨partner, hslot⟩ := h.slots k
  have hinv := hslot.endCall hf hret
  have hother (u : Tid) (hu : u ≠ t) :
      (Exchanger.endCall (s.slots k) t f.ident (success, yourItem)).frame u =
        (s.slots k).frame u := update_of_ne hu ..
  have hs : SlotStep s
      (s.slotted t k (Exchanger.endCall (s.slots k) t f.ident (success, yourItem)) pc) t k
      (Exchanger.endCall (s.slots k) t f.ident (success, yourItem)) pc := slotted_step hother
  have hnone (k' : Nat) : ((s.slotted t k
      (Exchanger.endCall (s.slots k) t f.ident (success, yourItem)) pc).slots k').frame t =
        none := by
    by_cases hk : k' = k
    · subst hk
      rw [slotted_slot]
      exact update_self ..
    · rw [hs.slots, update_of_ne hk]
      cases hf' : (s.slots k').frame t with
      | none => rfl
      | some f' =>
        have hslot := (h.frames t k' f' hf').symm.trans (h.frames t k f hf)
        cases hslot
        exact absurd rfl hk
  have hgot : gotAt (s.slotted t k
      (Exchanger.endCall (s.slots k) t f.ident (success, yourItem)) pc) t = fun _ => none := by
    funext k'
    rw [gotAt, hnone]
  refine h.slot_still hs ⟨partner, hinv⟩ ?_ ?_ ?_ ?_ (hpc _)
  · rw [pushHeld, hgot, hs.self, hpush]
  · rw [popHeld, hgot, hs.self, hpop]
  · intro u hu
    rw [gotAt, gotAt, slotted_slot, hother u hu]
    rfl
  · intro k' f' hf'
    rw [hnone] at hf'
    cases hf'

/-- What a call in a slot with `item` has in hand for a push. -/
def pushItem : Option Node → Option (Option Node) → List Node
  | some _, some none => []
  | some n, _ => [n]
  | none, _ => []

/-- What a call in a slot with `item` has in hand for a pop. -/
def popItem : Option Node → Option (Option Node) → List Node
  | none, some y => y.toList
  | _, _ => []

section

omit [DecidableEq Tid]

theorem Inv.held_in_slot (h : Inv c s nodes) {u : Tid} {k : Nat} (hf : (s.slots k).frame u = some f)
    {s' : State Tid Node} (hsame : s'.pc u = s.pc u) :
    pushHeld s' u = pushItem f.myItem (gotAt s' u k) ∧
      popHeld s' u = popItem f.myItem (gotAt s' u k) := by
  have hslot := h.frames u k f hf
  have hpc := h.pc u
  rw [pushHeld, popHeld, hsame]
  cases hat : s.pc u with
  | pushXchg node range k' | popXchg range k' =>
    rw [hat] at hslot hpc
    cases hslot
    obtain ⟨-, g, hg, hitem⟩ := hpc
    rw [hf] at hg
    cases hg
    rw [hitem]
    dsimp only [pushOf, popOf]
    rcases gotAt s' u k with _ | _ | _ <;> exact ⟨rfl, rfl⟩
  | idle | pushRet _ | popRet _ | pushRead _ _ | pushLink _ _ _ | pushCas _ _ _ | pushPick _ _
  | popRead _ | popNext _ _ | popCas _ _ _ | popPick _ | failed _ =>
    rw [hat] at hslot
    cases hslot

/-- The push of `a` hands its node to the pop of `b`. -/
theorem Store.trade (h : Store s nodes) {a b : Tid} {n : Node}
    (hpushes : ∀ u, u ≠ a → pushHeld s' u = pushHeld s u)
    (hpops : ∀ u, u ≠ b → popHeld s' u = popHeld s u)
    (hgave : pushHeld s a = [n] ∧ pushHeld s' a = [])
    (htook : popHeld s b = [] ∧ popHeld s' b = [n])
    (htop : s'.top = s.top) (hnext : s'.next = s.next) (hinside : s'.inside = s.inside)
    (hpushed : s'.pushed = s.pushed) (hreturned : s'.returned = s.returned) :
    Store s' nodes := by
  refine h.transfer (p := .push a) (q := .pop b) nofun ?_ ?_ ?_ hinside hpushed hreturned
  · intro r hpush hpop
    cases r with
    | core => rfl
    | push u => exact hpushes u fun hu => hpush (hu ▸ rfl)
    | pop u => exact hpops u fun hu => hpop (hu ▸ rfl)
  · simp only [content, hgave, htook]
    exact List.Perm.refl _
  · rw [htop, hnext]
    exact h.stack

end

theorem Inv.meet (h : Inv c s nodes) {k : Nat} {g : Exchanger.Frame Node}
    {slot : Exchanger.Slot Node} {pc : Exchanger.Pc Node} {w : Tid}
    (hs : SlotStep s s' t k x (s.pc t)) (hx : ∃ partner, Exchanger.Inv x partner)
    (hf : (s.slots k).frame t = some f) (hpc : PcOk c s' t (s.pc t))
    (hframes : ∀ k' f, (s'.slots k').frame t = some f → (s.pc t).slot = some k')
    (hmeet : Exchanger.Meeting (s.slots k) t f slot pc w g)
    (hgot : gotAt s' t k = Exchanger.got slot pc)
    (hgots : ∀ u f, u ≠ t → (s.slots k).frame u = some f →
      gotAt s' u k = Exchanger.got slot f.pc) : Moved c s s' t nodes := by
  have hold {u : Tid} {f : Exchanger.Frame Node} (hf : (s.slots k).frame u = some f) :
      gotAt s u k = Exchanger.got (s.slots k).slot f.pc := by
    rw [gotAt, hf]
  have hother (u : Tid) (hut : u ≠ t) (huw : u ≠ w) :
      pushHeld s' u = pushHeld s u ∧ popHeld s' u = popHeld s u := by
    apply hs.held_other hut
    cases hframe : (s.slots k).frame u with
    | none => rw [gotAt, gotAt, hs.frames k hut, hframe]
    | some k' => rw [hgots u k' hut hframe, hold hframe, hmeet.others u k' hut huw hframe]
  obtain ⟨htpush, htpop⟩ := h.held_in_slot hf (Eq.refl (s.pc t))
  obtain ⟨htpush', htpop'⟩ := h.held_in_slot hf hs.self
  obtain ⟨hwpush, hwpop⟩ := h.held_in_slot hmeet.partner (Eq.refl (s.pc w))
  obtain ⟨hwpush', hwpop'⟩ := h.held_in_slot hmeet.partner (hs.other hmeet.apart)
  rw [hold hf, hmeet.before] at htpush htpop
  rw [hgot, hmeet.after] at htpush' htpop'
  rw [hold hmeet.partner, hmeet.before'] at hwpush hwpop
  rw [hgots w g hmeet.apart hmeet.partner, hmeet.after'] at hwpush' hwpop'
  -- the two sides decide whether a node changes hands
  have hpushes (ht : pushHeld s' t = pushHeld s t) (u : Tid) (hu : u ≠ w) :
      pushHeld s' u = pushHeld s u := by
    by_cases hut : u = t
    · rw [hut]
      exact ht
    · exact (hother u hut hu).1
  have hpushes' (hw : pushHeld s' w = pushHeld s w) (u : Tid) (hu : u ≠ t) :
      pushHeld s' u = pushHeld s u := by
    by_cases huw : u = w
    · rw [huw]
      exact hw
    · exact (hother u hu huw).1
  have hpops (ht : popHeld s' t = popHeld s t) (u : Tid) (hu : u ≠ w) :
      popHeld s' u = popHeld s u := by
    by_cases hut : u = t
    · rw [hut]
      exact ht
    · exact (hother u hut hu).2
  have hpops' (hw : popHeld s' w = popHeld s w) (u : Tid) (hu : u ≠ t) :
      popHeld s' u = popHeld s u := by
    by_cases huw : u = w
    · rw [huw]
      exact hw
    · exact (hother u hu huw).2
  have hsame (ht : pushHeld s' t = pushHeld s t) (hw : pushHeld s' w = pushHeld s w)
      (ht' : popHeld s' t = popHeld s t) (hw' : popHeld s' w = popHeld s w) :
      Moved c s s' t nodes := by
    have hall (u : Tid) : pushHeld s' u = pushHeld s u := by
      by_cases hu : u = w
      · rw [hu]
        exact hw
      · exact hpushes ht u hu
    have hall' (u : Tid) : popHeld s' u = popHeld s u := by
      by_cases hu : u = w
      · rw [hu]
        exact hw'
      · exact hpops ht' u hu
    refine h.slot_move hs hx (fun u n hn => hall u ▸ hn) hframes ?_ hpc
    exact h.toStore.same hall hall' hs.top (fun n _ => by rw [hs.next]) hs.inside hs.pushed
      hs.returned
  cases hitem : f.myItem with
  | none =>
    rw [hitem] at htpush htpop htpush' htpop' hwpush' hwpop'
    cases hitem' : g.myItem with
    | none =>
      rw [hitem'] at htpush' htpop' hwpush hwpop hwpush' hwpop'
      exact hsame (htpush'.trans htpush.symm) (hwpush'.trans hwpush.symm)
        (htpop'.trans htpop.symm) (hwpop'.trans hwpop.symm)
    | some n =>
      rw [hitem'] at htpush' htpop' hwpush hwpop hwpush' hwpop'
      have hleft := hpushes (htpush'.trans htpush.symm)
      refine h.slot_move hs hx ?_ hframes ?_ hpc
      · intro u m hm
        by_cases hu : u = w
        · rw [hu, hwpush'] at hm
          cases hm
        · rw [← hleft u hu]
          exact hm
      · exact h.toStore.trade hleft (hpops' (hwpop'.trans hwpop.symm)) ⟨hwpush, hwpush'⟩
          ⟨htpop, htpop'⟩ hs.top hs.next hs.inside hs.pushed hs.returned
  | some n =>
    rw [hitem] at htpush htpop htpush' htpop' hwpush' hwpop'
    cases hitem' : g.myItem with
    | none =>
      rw [hitem'] at htpush' htpop' hwpush hwpop hwpush' hwpop'
      have hleft := hpushes' (hwpush'.trans hwpush.symm)
      refine h.slot_move hs hx ?_ hframes ?_ hpc
      · intro u m hm
        by_cases hu : u = t
        · rw [hu, htpush'] at hm
          cases hm
        · rw [← hleft u hu]
          exact hm
      · exact h.toStore.trade hleft (hpops (htpop'.trans htpop.symm)) ⟨htpush, htpush'⟩
          ⟨hwpop, hwpop'⟩ hs.top hs.next hs.inside hs.pushed hs.returned
    | some m =>
      rw [hitem'] at htpush' htpop' hwpush hwpop hwpush' hwpop'
      exact hsame (htpush'.trans htpush.symm) (hwpush'.trans hwpush.symm)
        (htpop'.trans htpop.symm) (hwpop'.trans hwpop.symm)

theorem Inv.in_slot (h : Inv c s nodes) {k : Nat} {slot : Exchanger.Slot Node}
    {pc : Exchanger.Pc Node} (hf : (s.slots k).frame t = some f)
    (hstep : Exchanger.xchgStep f.myItem f.maxTrials (s.slots k).slot f.pc = some (slot, pc)) :
    Moved c s { s with slots := update s.slots k { (s.slots k) with
      slot := slot, frame := Exchanger.moved (s.slots k).frame t f pc } } t nodes := by
  obtain ⟨partner, hslot⟩ := h.slots k
  have hinv := hslot.xchgStep hf hstep
  have hs : SlotStep s { s with slots := update s.slots k { (s.slots k) with
      slot := slot, frame := Exchanger.moved (s.slots k).frame t f pc } } t k { (s.slots k) with
      slot := slot, frame := Exchanger.moved (s.slots k).frame t f pc } (s.pc t) :=
    ⟨rfl, (update_eq_self t s.pc).symm, rfl, rfl, rfl, rfl, rfl,
      fun u hu => Exchanger.moved_other _ _ hu⟩
  have hat := h.frames t k f hf
  have hgot : gotAt { s with slots := update s.slots k { (s.slots k) with
      slot := slot, frame := Exchanger.moved (s.slots k).frame t f pc } } t k =
      Exchanger.got slot pc := by
    simp only [gotAt, update_self, Exchanger.moved_self]
  have hgots (u : Tid) (g : Exchanger.Frame Node) (hu : u ≠ t)
      (hg : (s.slots k).frame u = some g) :
      gotAt { s with slots := update s.slots k { (s.slots k) with
        slot := slot, frame := Exchanger.moved (s.slots k).frame t f pc } } u k =
        Exchanger.got slot g.pc := by
    simp only [gotAt, update_self, Exchanger.moved_other _ _ hu, hg]
  have hframes (k' : Nat) (g : Exchanger.Frame Node)
      (hg : ((update s.slots k { (s.slots k) with
        slot := slot, frame := Exchanger.moved (s.slots k).frame t f pc }) k').frame t = some g) :
      (s.pc t).slot = some k' := by
    by_cases hk : k' = k
    · rw [hk]
      exact hat
    · rw [update_of_ne hk] at hg
      exact h.frames t k' g hg
  have hin {item : Option Node} (hin : InSlot s t k item) :
      InSlot { s with slots := update s.slots k { (s.slots k) with
        slot := slot, frame := Exchanger.moved (s.slots k).frame t f pc } } t k item := by
    obtain ⟨g, hg, hitem⟩ := hin
    rw [hf] at hg
    cases hg
    exact ⟨{ f with pc := pc }, by simp only [update_self, Exchanger.moved_self], hitem⟩
  have hpc : PcOk c { s with slots := update s.slots k { (s.slots k) with
      slot := slot, frame := Exchanger.moved (s.slots k).frame t f pc } } t (s.pc t) := by
    have hpc := h.pc t
    cases hplace : s.pc t with
    | pushXchg node range k' | popXchg range k' =>
      rw [hplace] at hpc hat
      cases hat
      exact ⟨hpc.1, hin hpc.2⟩
    | idle | pushRet _ | popRet _ | pushRead _ _ | pushLink _ _ _ | pushCas _ _ _ | pushPick _ _
    | popRead _ | popNext _ _ | popCas _ _ _ | popPick _ | failed _ =>
      rw [hplace] at hat
      cases hat
  rcases hslot.got_step hf hstep with ⟨hquiet, hquiets⟩ | ⟨w, g, hmeet⟩
  · have hsame : gotAt s t k = Exchanger.got slot pc := by
      rw [gotAt, hf]
      exact hquiet.symm
    have hheld := h.held_in_slot hf (Eq.refl (s.pc t))
    have hheld' := h.held_in_slot hf hs.self
    rw [hgot, ← hsame] at hheld'
    refine h.slot_still hs hinv (hheld'.1.trans hheld.1.symm) (hheld'.2.trans hheld.2.symm) ?_
      hframes hpc
    intro u hu
    cases hframe : (s.slots k).frame u with
    | none => rw [gotAt, gotAt, hs.frames k hu, hframe]
    | some g =>
      rw [hgots u g hu hframe, gotAt, hframe]
      exact hquiets u g hu hframe
  · exact h.meet hs hinv hf hpc hframes hmeet hgot hgots

theorem xchg_cases {k : Nat} {after : Bool → Option Node → Pc Node}
    (hstep : xchg s t k after = some s') :
    ∃ f, (s.slots k).frame t = some f ∧
      ((∃ success yourItem, f.pc = .ret success yourItem ∧
        s' = s.slotted t k (Exchanger.endCall (s.slots k) t f.ident (success, yourItem))
          (after success yourItem)) ∨
      ∃ slot pc, Exchanger.xchgStep f.myItem f.maxTrials (s.slots k).slot f.pc = some (slot, pc) ∧
        s' = { s with slots := update s.slots k { (s.slots k) with
          slot := slot, frame := Exchanger.moved (s.slots k).frame t f pc } }) := by
  rw [xchg] at hstep
  split at hstep
  · cases hstep
  · rename_i f hf
    split at hstep
    · cases hstep
    · rename_i x hx
      obtain ⟨g, hg, hcases⟩ := Exchanger.nextStep_cases hx
      rw [hf] at hg
      cases hg
      refine ⟨f, hf, ?_⟩
      rcases hcases with ⟨success, yourItem, hret, rfl⟩ | ⟨hnot, slot, pc, hxchg, rfl⟩
      · rw [hret] at hstep
        cases hstep
        exact .inl ⟨success, yourItem, hret, rfl⟩
      · split at hstep
        · rename_i success yourItem hret
          exact absurd hret (hnot success yourItem)
        · cases hstep
          exact .inr ⟨slot, pc, hxchg, rfl⟩

omit [DecidableEq Tid] [DecidableEq Node] in
theorem gotAt_ret {k : Nat} {success : Bool} {yourItem : Option Node}
    (hf : (s.slots k).frame t = some f) (hret : f.pc = .ret success yourItem) :
    gotAt s t k = if success then some yourItem else none := by
  rw [gotAt, hf]
  simp only [hret]
  cases success <;> rfl

theorem Inv.pushXchg (h : Inv c s nodes) {node : Node} {range k : Nat}
    (hat : s.pc t = .pushXchg node range k)
    (hstep : xchg s t k (pushXchged node range) = some s') : Moved c s s' t nodes := by
  obtain ⟨f, hf, ⟨success, yourItem, hret, rfl⟩ | ⟨slot, pc, hxchg, rfl⟩⟩ := xchg_cases hstep
  · have hpc := h.pc t
    rw [hat] at hpc
    have hgot := gotAt_ret hf hret
    have hpush : pushHeld s t = pushOf (gotAt s t) (.pushXchg node range k) := by
      rw [pushHeld, hat]
    have hpop : popHeld s t = [] := by rw [popHeld, hat]; rfl
    simp only [pushOf, hgot] at hpush
    cases success with
    | true =>
      cases yourItem with
      | none => exact h.leave hf hret hpush.symm hpop.symm fun _ => trivial
      | some n => exact h.leave hf hret hpush.symm hpop.symm fun _ => hpc.1
    | false =>
      refine h.leave hf hret hpush.symm hpop.symm fun _ => ?_
      exact (Nat.sub_le range 1).trans_lt hpc.1
  · exact h.in_slot hf hxchg

theorem Inv.popXchg (h : Inv c s nodes) {range k : Nat} (hat : s.pc t = .popXchg range k)
    (hstep : xchg s t k (popXchged range) = some s') : Moved c s s' t nodes := by
  obtain ⟨f, hf, ⟨success, yourItem, hret, rfl⟩ | ⟨slot, pc, hxchg, rfl⟩⟩ := xchg_cases hstep
  · have hpc := h.pc t
    rw [hat] at hpc
    have hgot := gotAt_ret hf hret
    have hpush : pushHeld s t = [] := by rw [pushHeld, hat]; rfl
    have hpop : popHeld s t = popOf (gotAt s t) (.popXchg range k) := by
      rw [popHeld, hat]
    simp only [popOf, hgot] at hpop
    cases success with
    | true =>
      cases yourItem with
      | none => exact h.leave hf hret hpush.symm hpop.symm fun _ => hpc.1
      | some n => exact h.leave hf hret hpush.symm hpop.symm fun _ => trivial
    | false =>
      obtain ⟨partner, hslot⟩ := h.slots k
      have hnone := hslot.pc t f hf
      rw [hret] at hnone
      obtain ⟨-, rfl⟩ := hnone
      refine h.leave hf hret hpush.symm hpop.symm fun _ => ?_
      exact (Nat.sub_le range 1).trans_lt hpc.1
  · exact h.in_slot hf hxchg

theorem Inv.goto (h : Inv c s nodes) {pc : Pc Node} (hbefore : (s.pc t).slot = none)
    (hafter : pc.slot = none) (hpush : pushOf (gotAt s t) pc = pushHeld s t)
    (hpop : popOf (gotAt s t) pc = popHeld s t) (hpc : PcOk c (s.goto t pc) t pc) :
    Moved c s (s.goto t pc) t nodes :=
  h.still (local_goto rfl rfl hbefore hafter) (fun _ _ => rfl) hpush hpop rfl rfl rfl rfl hpc

theorem Inv.pick (h : Inv c s nodes) {slotIdx range : Nat} {node : Option Node} {pc : Pc Node}
    (hrange : range < c.slotsCount) (hbefore : (s.pc t).slot = none)
    (hafter : pc.slot = some slotIdx)
    (hpush : pushOf (fun _ => none) pc = pushHeld s t)
    (hpop : popOf (fun _ => none) pc = popHeld s t)
    (hpc : ∀ s' : State Tid Node, InSlot s' t slotIdx node → PcOk c s' t pc)
    (hstep : rendezvous c s t slotIdx range node pc = some s') : Moved c s s' t nodes := by
  rw [rendezvous] at hstep
  split at hstep
  · rename_i hin
    rw [if_pos (hin.trans_lt hrange)] at hstep
    split at hstep
    · cases hstep
    · rename_i x hx
      cases hstep
      exact h.enter hx hbefore hafter hpush hpop (hpc _)
  · cases hstep

theorem Inv.nextStep (h : Inv c s nodes) (hstep : nextStep s t = some s') :
    ∃ nodes', Moved c s s' t nodes' := by
  have hpc := h.pc t
  rw [Elimination.nextStep] at hstep
  cases hat : s.pc t with
  | idle | failed _ | pushPick _ _ | popPick _ =>
    rw [hat] at hstep
    cases hstep
  | pushRead node range =>
    rw [hat] at hstep hpc
    cases hstep
    refine ⟨nodes, h.goto (by rw [hat]; rfl) rfl ?_ ?_ hpc⟩
    · rw [pushHeld, hat]
      rfl
    · rw [popHeld, hat]
      rfl
  | pushLink node range top =>
    rw [hat] at hstep hpc
    cases hstep
    have hmine : pushHeld s t = [node] := by rw [pushHeld, hat]; rfl
    refine ⟨nodes, h.still (local_goto rfl rfl (by rw [hat]; rfl) rfl) ?_ ?_ ?_ rfl rfl rfl rfl
      ⟨hpc, ?_⟩⟩
    · intro n hn
      rw [hmine] at hn
      exact update_of_ne (fun heq => hn (List.mem_singleton.mpr heq)) ..
    · rw [hmine]
      rfl
    · rw [popHeld, hat]
      rfl
    · exact update_self ..
  | pushCas node range top =>
    simp only [hat] at hstep hpc
    split at hstep
    · rename_i htop
      cases hstep
      exact ⟨_, h.put (htop ▸ hat)⟩
    · cases hstep
      refine ⟨nodes, h.goto (by rw [hat]; rfl) rfl ?_ ?_ hpc.1⟩
      · rw [pushHeld, hat]
        rfl
      · rw [popHeld, hat]
        rfl
  | pushXchg node range k =>
    rw [hat] at hstep
    exact ⟨nodes, h.pushXchg hat hstep⟩
  | pushRet node =>
    rw [hat] at hstep
    cases hstep
    refine ⟨nodes, h.goto (by rw [hat]; rfl) rfl ?_ ?_ trivial⟩
    · rw [pushHeld, hat]
      rfl
    · rw [popHeld, hat]
      rfl
  | popRead range =>
    simp only [hat] at hstep hpc
    have hpush : pushHeld s t = [] := by rw [pushHeld, hat]; rfl
    have hpop : popHeld s t = [] := by rw [popHeld, hat]; rfl
    split at hstep
    · rename_i top htop
      cases hstep
      have hstack := h.stack
      rw [htop] at hstack
      obtain ⟨rest, rfl, -⟩ := hstack.of_some
      refine ⟨_, h.goto (by rw [hat]; rfl) rfl hpush.symm hpop.symm ⟨hpc, ?_⟩⟩
      -- the node is on the core stack, so no push has it in hand
      intro u hin
      have hl : Local s (s.goto t (.popNext range top)) t (.popNext range top) :=
        local_goto rfl rfl (by rw [hat]; rfl) rfl
      by_cases hu : u = t
      · subst hu
        rw [hl.pushHeld_self] at hin
        cases hin
      · rw [hl.pushHeld_other hu] at hin
        cases h.apart.unique .core (.push u) top (List.mem_cons_self ..) hin
    · cases hstep
      exact ⟨nodes, h.goto (by rw [hat]; rfl) rfl hpush.symm hpop.symm trivial⟩
  | popNext range top =>
    rw [hat] at hstep hpc
    cases hstep
    have hpush : pushHeld s t = [] := by rw [pushHeld, hat]; rfl
    have hpop : popHeld s t = [] := by rw [popHeld, hat]; rfl
    refine ⟨nodes, h.goto (by rw [hat]; rfl) rfl hpush.symm hpop.symm ⟨hpc.1, rfl, ?_⟩⟩
    intro u hin
    have hl : Local s (s.goto t (.popCas range top (s.next top))) t
        (.popCas range top (s.next top)) := local_goto rfl rfl (by rw [hat]; rfl) rfl
    by_cases hu : u = t
    · subst hu
      rw [hl.pushHeld_self] at hin
      cases hin
    · rw [hl.pushHeld_other hu] at hin
      exact hpc.2 u hin
  | popCas range top node =>
    simp only [hat] at hstep hpc
    split at hstep
    · rename_i htop
      cases hstep
      obtain ⟨rest, -, hmoved⟩ := h.take hat htop
      exact ⟨rest, hmoved⟩
    · cases hstep
      refine ⟨nodes, h.goto (by rw [hat]; rfl) rfl ?_ ?_ hpc.1⟩
      · rw [pushHeld, hat]
        rfl
      · rw [popHeld, hat]
        rfl
  | popXchg range k =>
    rw [hat] at hstep
    exact ⟨nodes, h.popXchg hat hstep⟩
  | popRet node =>
    cases node with
    | none =>
      rw [hat] at hstep
      cases hstep
      refine ⟨nodes, h.goto (by rw [hat]; rfl) rfl ?_ ?_ trivial⟩
      · rw [pushHeld, hat]
        rfl
      · rw [popHeld, hat]
        rfl
    | some node =>
      rw [hat] at hstep
      cases hstep
      exact ⟨nodes, h.hand hat⟩

variable {a : Act Tid Node}

theorem Inv.step (h : Inv c s nodes) (hok : NotSeen s a) (hstep : step c s a = some s') :
    ∃ nodes', Moved c s s' a.thread nodes' := by
  cases a with
  | push t node =>
    simp only [Elimination.step] at hstep
    split at hstep
    · rename_i hidle
      split at hstep
      · cases hstep
      · rename_i hnew
        cases hstep
        exact ⟨nodes, h.push hidle (Bool.eq_false_iff.mpr hnew) hok⟩
    · cases hstep
  | pop t =>
    simp only [Elimination.step] at hstep
    split at hstep
    · rename_i hidle
      cases hstep
      change ∃ nodes', Moved c s _ t nodes'
      refine ⟨nodes, h.goto (by rw [hidle]; rfl) rfl ?_ ?_ ?_⟩
      · rw [pushHeld, hidle]
        rfl
      · rw [popHeld, hidle]
        rfl
      · have hslots := c.slots
        change c.slotsCount - 1 < c.slotsCount
        omega
    · cases hstep
  | pick t slotIdx =>
    change ∃ nodes', Moved c s s' t nodes'
    have hpc := h.pc t
    simp only [Elimination.step] at hstep
    split at hstep
    · rename_i node range hat
      rw [hat] at hpc
      refine ⟨nodes, h.pick hpc (by rw [hat]; rfl) rfl ?_ ?_ ?_ hstep⟩
      · rw [pushHeld, hat]
        rfl
      · rw [popHeld, hat]
        rfl
      · exact fun _ hin => ⟨hpc, hin⟩
    · rename_i range hat
      rw [hat] at hpc
      refine ⟨nodes, h.pick hpc (by rw [hat]; rfl) rfl ?_ ?_ ?_ hstep⟩
      · rw [pushHeld, hat]
        rfl
      · rw [popHeld, hat]
        rfl
      · exact fun _ hin => ⟨hpc, hin⟩
    · cases hstep
  | step t => exact h.nextStep hstep

omit [DecidableEq Tid] in
theorem vstackInit_inv (c : Config) (memory : Node → Option Node) :
    Inv c (vstackInit memory : State Tid Node) [] where
  stack := rfl
  apart := by
    refine ⟨?_, ?_⟩
    · intro p
      cases p <;> exact List.nodup_nil
    · intro p q n hp
      cases p <;> cases hp
  inside n := by
    constructor
    · intro hfalse
      cases hfalse
    · rintro ⟨p, hp⟩
      cases p <;> cases hp
  count _ := rfl
  slots _ := ⟨_, Exchanger.exchangerInit_inv⟩
  frames := nofun
  pc _ := trivial

/-- The node of a push. -/
def Pc.pushes : Pc Node → Option Node
  | .pushRead node _ | .pushLink node _ _ | .pushCas node _ _ | .pushPick node _
  | .pushXchg node _ _ | .pushRet node => some node
  | _ => none

def Pc.pops : Pc Node → Bool
  | .popRead _ | .popNext _ _ | .popCas _ _ _ | .popPick _ | .popXchg _ _ | .popRet _ => true
  | _ => false

/-- The node is on the core stack, or a pop has it. -/
def Placed (s : State Tid Node) (n : Node) : Prop :=
  (∃ nodes, Linked s.next s.top nodes ∧ n ∈ nodes) ∨ ∃ u, n ∈ popHeld s u

omit [DecidableEq Node] in
theorem goto_self (s : State Tid Node) (t : Tid) (pc : Pc Node) : (s.goto t pc).pc t = pc :=
  update_self ..

section

omit [DecidableEq Tid] [DecidableEq Node]

theorem pushXchged_pushes {node n : Node} {range : Nat} {success : Bool} {y : Option Node}
    (h : (pushXchged node range success y).pushes = some n) : node = n := by
  cases success <;> cases y <;> exact Option.some.inj h

theorem popXchged_pushes (range : Nat) (success : Bool) (y : Option Node) :
    (popXchged range success y).pushes = none := by
  cases success <;> cases y <;> rfl

end

/-- A step of a thread does not begin a push. -/
theorem pushes_nextStep {n : Node} (hstep : nextStep s t = some s')
    (h : (s'.pc t).pushes = some n) : (s.pc t).pushes = some n := by
  rw [nextStep] at hstep
  cases hat : s.pc t with
  | idle | failed _ | pushPick _ _ | popPick _ =>
    rw [hat] at hstep
    cases hstep
  | pushRead _ _ | pushLink _ _ _ | popNext _ _ =>
    rw [hat] at hstep
    cases hstep
    rw [goto_self] at h
    exact h
  | pushRet _ =>
    rw [hat] at hstep
    cases hstep
    rw [goto_self] at h
    cases h
  | pushCas _ _ _ | popRead _ | popCas _ _ _ =>
    simp only [hat] at hstep
    split at hstep <;> cases hstep <;> rw [goto_self] at h <;> exact h
  | popRet node =>
    rw [hat] at hstep
    cases node <;> cases hstep <;> rw [goto_self] at h <;> exact h
  | pushXchg node range k =>
    rw [hat] at hstep
    obtain ⟨f, -, ⟨success, y, -, rfl⟩ | ⟨slot, pc, -, rfl⟩⟩ := xchg_cases hstep
    · rw [State.slotted, goto_self] at h
      exact congrArg some (pushXchged_pushes h)
    · rw [← hat]
      exact h
  | popXchg range k =>
    rw [hat] at hstep
    obtain ⟨f, -, ⟨success, y, -, rfl⟩ | ⟨slot, pc, -, rfl⟩⟩ := xchg_cases hstep
    · rw [State.slotted, goto_self, popXchged_pushes] at h
      cases h
    · rw [← hat]
      exact h

theorem rendezvous_pc {slotIdx range : Nat} {node : Option Node} {pc : Pc Node}
    (hstep : rendezvous c s t slotIdx range node pc = some s') :
    s'.pc t = pc ∨ ∃ message, s'.pc t = .failed message := by
  rw [rendezvous] at hstep
  split at hstep
  · split at hstep
    · split at hstep
      · cases hstep
      · cases hstep
        exact .inl (goto_self _ _ _)
    · cases hstep
      exact .inr ⟨_, goto_self _ _ _⟩
  · cases hstep

theorem pushes_step {n : Node} (hstep : step c s a = some s')
    (h : (s'.pc a.thread).pushes = some n) :
    (s.pc a.thread).pushes = some n ∨ n ∈ pushHeld s' a.thread := by
  cases a with
  | push t node =>
    simp only [step] at hstep
    split at hstep
    · split at hstep
      · cases hstep
      · cases hstep
        rw [Act.thread, goto_self] at h
        cases h
        right
        rw [Act.thread, pushHeld, goto_self]
        exact List.mem_singleton_self n
    · cases hstep
  | pop t =>
    simp only [step] at hstep
    split at hstep
    · cases hstep
      rw [Act.thread, goto_self] at h
      cases h
    · cases hstep
  | pick t slotIdx =>
    simp only [step] at hstep
    split at hstep
    · rename_i node range hat
      rcases rendezvous_pc hstep with hpc | ⟨message, hpc⟩
      · rw [Act.thread, hpc] at h
        rw [Act.thread, hat]
        exact .inl h
      · rw [Act.thread, hpc] at h
        cases h
    · rename_i range hat
      rcases rendezvous_pc hstep with hpc | ⟨message, hpc⟩
      · rw [Act.thread, hpc] at h
        cases h
      · rw [Act.thread, hpc] at h
        cases h
    · cases hstep
  | step t => exact .inl (pushes_nextStep hstep h)

/-- A node goes out only with the pop that returns it. -/
theorem inside_step {n : Node} (hstep : step c s a = some s') (hin : s.inside n = true) :
    s'.inside n = true ∨ s.pc a.thread = .popRet (some n) := by
  cases a with
  | push t node =>
    simp only [step] at hstep
    split at hstep
    · split at hstep
      · cases hstep
      · cases hstep
        left
        change update s.inside node true n = true
        by_cases heq : n = node
        · rw [heq, update_self]
        · rw [update_of_ne heq]
          exact hin
    · cases hstep
  | pop t =>
    simp only [step] at hstep
    split at hstep
    · cases hstep
      exact .inl hin
    · cases hstep
  | pick t slotIdx =>
    have hkept {range : Nat} {node : Option Node} {pc : Pc Node}
        (hstep : rendezvous c s t slotIdx range node pc = some s') : s'.inside n = true := by
      rw [rendezvous] at hstep
      split at hstep
      · split at hstep
        · split at hstep
          · cases hstep
          · cases hstep
            exact hin
        · cases hstep
          exact hin
      · cases hstep
    simp only [step] at hstep
    split at hstep
    · exact .inl (hkept hstep)
    · exact .inl (hkept hstep)
    · cases hstep
  | step t =>
    change nextStep s t = some s' at hstep
    rw [nextStep] at hstep
    cases hat : s.pc t with
    | idle | failed _ | pushPick _ _ | popPick _ =>
      rw [hat] at hstep
      cases hstep
    | pushRead _ _ | pushLink _ _ _ | pushRet _ | popNext _ _ =>
      rw [hat] at hstep
      cases hstep
      exact .inl hin
    | pushCas _ _ _ | popRead _ | popCas _ _ _ =>
      simp only [hat] at hstep
      split at hstep <;> cases hstep <;> exact .inl hin
    | popRet node =>
      rw [hat] at hstep
      cases node with
      | none =>
        cases hstep
        exact .inl hin
      | some node =>
        cases hstep
        by_cases heq : n = node
        · right
          rw [heq]
          exact hat
        · left
          exact (update_of_ne heq ..).trans hin
    | pushXchg _ _ _ | popXchg _ _ =>
      rw [hat] at hstep
      obtain ⟨f, -, ⟨success, y, -, rfl⟩ | ⟨slot, pc, -, rfl⟩⟩ := xchg_cases hstep
      · exact .inl hin
      · exact .inl hin

/-- A pop comes to return NULL only by finding no top. -/
theorem empty_nextStep (hstep : nextStep s t = some s') (h : s'.pc t = .popRet none) :
    s'.top = none := by
  rw [nextStep] at hstep
  cases hat : s.pc t with
  | idle | failed _ | pushPick _ _ | popPick _ =>
    rw [hat] at hstep
    cases hstep
  | pushRead _ _ | pushLink _ _ _ | pushRet _ | popNext _ _ =>
    rw [hat] at hstep
    cases hstep
    rw [goto_self] at h
    cases h
  | pushCas _ _ _ | popCas _ _ _ =>
    simp only [hat] at hstep
    split at hstep <;> cases hstep <;> rw [goto_self] at h <;> cases h
  | popRead range =>
    simp only [hat] at hstep
    split at hstep
    · cases hstep
      rw [goto_self] at h
      cases h
    · rename_i htop
      cases hstep
      exact htop
  | popRet node =>
    rw [hat] at hstep
    cases node <;> cases hstep <;> rw [goto_self] at h <;> cases h
  | pushXchg node range k | popXchg range k =>
    rw [hat] at hstep
    obtain ⟨f, -, ⟨success, y, -, rfl⟩ | ⟨slot, pc, -, rfl⟩⟩ := xchg_cases hstep
    · rw [State.slotted, goto_self] at h
      cases success <;> cases y <;> cases h
    · cases hat.symm.trans h

theorem empty_step (hstep : step c s a = some s') (h : s'.pc a.thread = .popRet none) :
    s'.top = none := by
  cases a with
  | push t node =>
    simp only [step] at hstep
    split at hstep
    · split at hstep
      · cases hstep
      · cases hstep
        rw [Act.thread, goto_self] at h
        cases h
    · cases hstep
  | pop t =>
    simp only [step] at hstep
    split at hstep
    · cases hstep
      rw [Act.thread, goto_self] at h
      cases h
    · cases hstep
  | pick t slotIdx =>
    simp only [step] at hstep
    split at hstep
    · rcases rendezvous_pc hstep with hpc | ⟨message, hpc⟩ <;> cases hpc.symm.trans h
    · rcases rendezvous_pc hstep with hpc | ⟨message, hpc⟩ <;> cases hpc.symm.trans h
    · cases hstep
  | step t => exact empty_nextStep hstep h

/-- A push that no longer has its node in hand has placed it during the call, and
a pop that returns NULL has found the core stack empty. -/
structure History (past : List (State Tid Node × Act Tid Node)) (s : State Tid Node) : Prop where
  placed : ∀ t n, (s.pc t).pushes = some n → n ∉ pushHeld s t →
    During (fun s => (s.pc t).pushes = some n) (fun s => Placed s n) (moments past s)
  empty : ∀ t, s.pc t = .popRet none →
    During (fun s => (s.pc t).pops = true) (fun s => s.top = none) (moments past s)

theorem History.step {past : List (State Tid Node × Act Tid Node)} (hist : History past s)
    (h : Inv c s nodes) (hstep : step c s a = some s') (hmoved : Moved c s s' a.thread nodes') :
    History ((s, a) :: past) s' := by
  constructor
  · intro t n hpushes hgone
    have hbefore : (s.pc t).pushes = some n := by
      by_cases ht : t = a.thread
      · subst ht
        exact (pushes_step hstep hpushes).resolve_right hgone
      · rw [hmoved.keeps.pc t ht] at hpushes
        exact hpushes
    by_cases hheld : n ∈ pushHeld s t
    · -- the node leaves the hands of the push with this step
      have hin : s.inside n = true := (h.inside n).mpr ⟨.push t, hheld⟩
      have hin' : s'.inside n = true := by
        rcases inside_step hstep hin with hin' | hret
        · exact hin'
        · have hpop : n ∈ content s nodes (.pop a.thread) := by
            rw [content, popHeld, hret]
            exact List.mem_singleton_self n
          cases h.apart.unique (.push t) (.pop a.thread) n hheld hpop
      obtain ⟨p, hp⟩ := (hmoved.inside n).mp hin'
      refine .now hpushes ?_
      cases p with
      | core => exact .inl ⟨nodes', hmoved.stack, hp⟩
      | pop u => exact .inr ⟨u, hp⟩
      | push u =>
        rcases hmoved.keeps.held u n hp with hold | ⟨hnew, -⟩
        · cases h.apart.unique (.push t) (.push u) n hheld hold
          exact absurd hp hgone
        · rw [hin] at hnew
          cases hnew
    · exact .before hpushes (hist.placed t n hbefore hheld)
  · intro t hret
    have hpops : (s'.pc t).pops = true := by rw [hret]; rfl
    by_cases ht : t = a.thread
    · subst ht
      exact .now hpops (empty_step hstep hret)
    · refine .before hpops (hist.empty t ?_)
      rw [← hmoved.keeps.pc t ht]
      exact hret

theorem run_history {memory : Node → Option Node} {past : List (State Tid Node × Act Tid Node)}
    (run : (machine Tid Node c memory).Run past s) (hok : AllSteps NotSeen past) :
    (∃ nodes, Inv c s nodes) ∧ History past s := by
  refine run.history_invariant
    (I := fun past s => (∃ nodes, Inv c s nodes) ∧ History past s) ?_ ?_ hok
  · rintro s rfl
    exact ⟨⟨[], vstackInit_inv c memory⟩, nofun, nofun⟩
  · rintro past s a s' - ⟨⟨nodes, h⟩, hist⟩ hallowed hstep
    obtain ⟨nodes', hmoved⟩ := h.step hallowed hstep
    exact ⟨⟨nodes', hmoved.toInv⟩, hist.step h hstep hmoved⟩

/-- A node that was pushed and not returned is in one place, and was returned once
for each earlier push. A pop that has a node returns it. -/
structure Safe (past : List (State Tid Node × Act Tid Node)) (s : State Tid Node) : Prop where
  once : ∀ n, s.pushed.count n = s.returned.count n + if s.inside n then 1 else 0
  kept : ∃ nodes, Linked s.next s.top nodes ∧ Apart (content s nodes) ∧
    ∀ n, s.inside n = true ↔ n ∈ nodes ∨ (∃ t, n ∈ pushHeld s t) ∨ ∃ t, n ∈ popHeld s t
  push : ∀ t n, s.pc t = .pushRet n →
    During (fun s => (s.pc t).pushes = some n) (fun s => Placed s n) (moments past s)
  pop : ∀ t, s.pc t = .popRet none →
    During (fun s => (s.pc t).pops = true) (fun s => s.top = none) (moments past s)
  asserts : ∀ t message, s.pc t ≠ .failed message ∧
    ∀ k f, (s.slots k).frame t = some f → f.pc ≠ .failed message

theorem elimination_safe {memory : Node → Option Node}
    {past : List (State Tid Node × Act Tid Node)}
    (run : (machine Tid Node c memory).Run past s) (hok : AllSteps NotSeen past) :
    Safe past s := by
  obtain ⟨⟨nodes, h⟩, hist⟩ := run_history run hok
  refine ⟨h.count, ⟨nodes, h.stack, h.apart, ?_⟩, ?_, hist.empty, ?_⟩
  · intro n
    rw [h.inside]
    constructor
    · rintro ⟨p, hp⟩
      cases p with
      | core => exact .inl hp
      | push t => exact .inr (.inl ⟨t, hp⟩)
      | pop t => exact .inr (.inr ⟨t, hp⟩)
    · rintro (hcore | ⟨t, hpush⟩ | ⟨t, hpop⟩)
      · exact ⟨.core, hcore⟩
      · exact ⟨.push t, hpush⟩
      · exact ⟨.pop t, hpop⟩
  · intro t n hret
    refine hist.placed t n (by rw [hret]; rfl) ?_
    rw [pushHeld, hret]
    exact List.not_mem_nil
  · intro t message
    constructor
    · intro hfailed
      have hpc := h.pc t
      rw [hfailed] at hpc
      exact hpc
    · intro k f hf hfailed
      obtain ⟨partner, hslot⟩ := h.slots k
      have hpc := hslot.pc t f hf
      rw [hfailed] at hpc
      exact hpc

/-- Thread 2 pushes nodes 20 and 30 in between, so the push of node 10 by thread 0
and the pop of thread 1 meet in the slot. -/
def eliminated : List (Act (Fin 3) Nat) :=
  [.push 0 10, .step 0, .step 0, .push 2 20, .step 2, .step 2, .step 2, .step 2, .step 0,
    .pop 1, .step 1, .step 1, .push 2 30, .step 2, .step 2, .step 2, .step 2, .step 1,
    .pick 0 0, .step 0, .step 0, .pick 1 0, .step 1, .step 1, .step 1, .step 0, .step 0, .step 0]

instance (s : State (Fin 3) Nat) (a : Act (Fin 3) Nat) : Decidable (NotSeen s a) :=
  match a with
  | .push _ node => inferInstanceAs (Decidable (∀ u, (s.pc u).seen ≠ some node))
  | .pop _ | .pick _ _ | .step _ => .isTrue trivial

theorem elimination_safe_eliminated :
    ∃ past s, (machine (Fin 3) Nat ⟨1, 2, by decide, by decide⟩ fun _ => none).Run past s ∧
      Safe past s ∧ s.pc 0 = .pushRet 10 ∧ s.pc 1 = .popRet (some 10) ∧ s.top = some 30 := by
  let M := machine (Fin 3) Nat ⟨1, 2, by decide, by decide⟩ fun _ => none
  have hexec : (M.exec (vstackInit fun _ => none) eliminated).map
      (fun s => (s.pc 0, s.pc 1, s.top)) = some (.pushRet 10, .popRet (some 10), some 30) := by
    decide +kernel
  obtain ⟨s, hs, hview⟩ := Option.map_eq_some_iff.mp hexec
  obtain ⟨hpush, hrest⟩ := Prod.mk.inj hview
  obtain ⟨hpop, htop⟩ := Prod.mk.inj hrest
  have hok : ∀ p ∈ M.pastOf (vstackInit fun _ => none) [] eliminated, NotSeen p.1 p.2 := by
    decide +kernel
  have run := (Machine.Run.start (M := M) rfl).exec hs
  exact ⟨_, s, run, elimination_safe run hok, hpush, hpop, htop⟩

end Libvsync.Stack.Elimination
