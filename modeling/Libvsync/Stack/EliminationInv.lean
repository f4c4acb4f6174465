import Libvsync.Core.Linked
import Libvsync.Core.Places
import Libvsync.Stack.Elimination
import Mathlib.Data.List.Count

/-!
Every node that was pushed and not returned yet is in one place: on the core
stack, in the hands of a push, or in the hands of a pop. This module says what is
in whose hands, and that the steps outside of the exchanger slots keep the
account.
-/

namespace Libvsync.Stack.Elimination

open Libvsync.Core Function
open Libvsync.Utils

variable {Tid Node : Type}

/-- What thread `t` has got in a slot. -/
def gotAt (s : State Tid Node) (t : Tid) (slotIdx : Nat) : Option (Option Node) :=
  match (s.slots slotIdx).frame t with
  | some f => Exchanger.got (s.slots slotIdx).slot f.pc
  | none => none

/-- The node that a push has to bring in: NULL from the slot means that a pop has
it. -/
def pushOf (got : Nat → Option (Option Node)) : Pc Node → List Node
  | .pushRead node _ | .pushLink node _ _ | .pushCas node _ _ | .pushPick node _ => [node]
  | .pushXchg node _ slotIdx =>
    match got slotIdx with
    | some none => []
    | _ => [node]
  | _ => []

/-- The node that a pop has to return. -/
def popOf (got : Nat → Option (Option Node)) : Pc Node → List Node
  | .popXchg _ slotIdx =>
    match got slotIdx with
    | some node => node.toList
    | none => []
  | .popRet node => node.toList
  | _ => []

def pushHeld (s : State Tid Node) (t : Tid) : List Node := pushOf (gotAt s t) (s.pc t)

def popHeld (s : State Tid Node) (t : Tid) : List Node := popOf (gotAt s t) (s.pc t)

inductive Place (Tid : Type) where
  | core
  | push (t : Tid)
  | pop (t : Tid)

def content (s : State Tid Node) (nodes : List Node) : Place Tid → List Node
  | .core => nodes
  | .push t => pushHeld s t
  | .pop t => popHeld s t

/-- The slot that a thread is in. -/
def Pc.slot : Pc Node → Option Nat
  | .pushXchg _ _ slotIdx | .popXchg _ slotIdx => some slotIdx
  | _ => none

def InSlot (s : State Tid Node) (t : Tid) (slotIdx : Nat) (item : Option Node) : Prop :=
  ∃ f, (s.slots slotIdx).frame t = some f ∧ f.myItem = item

/-- A node that a pop has seen is not pushed meanwhile, so its pointer does not
change. -/
def PcOk (c : Config) (s : State Tid Node) (t : Tid) : Pc Node → Prop
  | .idle | .pushRet _ | .popRet _ => True
  | .pushRead _ range | .pushLink _ range _ | .pushPick _ range | .popRead range
  | .popPick range => range < c.slotsCount
  | .pushCas node range top => range < c.slotsCount ∧ s.next node = top
  | .pushXchg node range slotIdx => range < c.slotsCount ∧ InSlot s t slotIdx (some node)
  | .popNext range top => range < c.slotsCount ∧ ∀ u, top ∉ pushHeld s u
  | .popCas range top node => range < c.slotsCount ∧ s.next top = node ∧ ∀ u, top ∉ pushHeld s u
  | .popXchg range slotIdx => range < c.slotsCount ∧ InSlot s t slotIdx none
  | .failed _ => False

variable [DecidableEq Node]

/-- The nodes are accounted for. -/
structure Store (s : State Tid Node) (nodes : List Node) : Prop where
  stack : Linked s.next s.top nodes
  apart : Apart (content s nodes)
  inside : ∀ n, s.inside n = true ↔ ∃ p, n ∈ content s nodes p
  count : ∀ n, s.pushed.count n = s.returned.count n + if s.inside n then 1 else 0

structure Inv (c : Config) (s : State Tid Node) (nodes : List Node) : Prop
    extends Store s nodes where
  slots : ∀ k, ∃ partner, Exchanger.Inv (s.slots k) partner
  frames : ∀ t k f, (s.slots k).frame t = some f → (s.pc t).slot = some k
  pc : ∀ t, PcOk c s t (s.pc t)

variable {c : Config} {s s' : State Tid Node} {nodes nodes' : List Node} {t : Tid}

/-- A step of thread `t` does not touch what the other threads rely on. -/
structure Keeps (s s' : State Tid Node) (t : Tid) : Prop where
  pc : ∀ u, u ≠ t → s'.pc u = s.pc u
  frame : ∀ k u, u ≠ t → (s'.slots k).frame u = (s.slots k).frame u
  next : ∀ n, n ∉ pushHeld s t → s'.next n = s.next n
  held : ∀ u n, n ∈ pushHeld s' u →
    n ∈ pushHeld s u ∨ s.inside n = false ∧ ∀ v, (s.pc v).seen ≠ some n

omit [DecidableEq Node] in
theorem Keeps.unseen (h : Keeps s s' t) {u : Tid} {n : Node} (hseen : (s.pc u).seen = some n)
    (hn : ∀ v, n ∉ pushHeld s v) (v : Tid) : n ∉ pushHeld s' v := by
  intro hin
  rcases h.held v n hin with hold | ⟨-, hunseen⟩
  · exact hn v hold
  · exact hunseen u hseen

/-- The frame rule. -/
theorem Keeps.pcOk (h : Keeps s s' t) (hinv : Inv c s nodes) {u : Tid} (hu : u ≠ t) :
    PcOk c s' u (s'.pc u) := by
  have hok := hinv.pc u
  rw [h.pc u hu]
  have hslot {k : Nat} {item : Option Node} (hin : InSlot s u k item) : InSlot s' u k item := by
    obtain ⟨f, hf, hitem⟩ := hin
    exact ⟨f, (h.frame k u hu).trans hf, hitem⟩
  cases hat : s.pc u with
  | pushCas node range top =>
    rw [hat] at hok
    refine ⟨hok.1, (h.next node ?_).trans hok.2⟩
    intro hmine
    have hhere : node ∈ content s nodes (.push u) := by
      rw [content, pushHeld, hat]
      exact List.mem_singleton_self node
    exact hu (Place.push.inj (hinv.apart.unique (.push u) (.push t) node hhere hmine))
  | pushXchg node range k =>
    rw [hat] at hok
    exact ⟨hok.1, hslot hok.2⟩
  | popXchg range k =>
    rw [hat] at hok
    exact ⟨hok.1, hslot hok.2⟩
  | popNext range top =>
    rw [hat] at hok
    exact ⟨hok.1, h.unseen (by rw [hat]; rfl) hok.2⟩
  | popCas range top node =>
    rw [hat] at hok
    exact ⟨hok.1, (h.next top (hok.2.2 t)).trans hok.2.1, h.unseen (by rw [hat]; rfl) hok.2.2⟩
  | idle | pushRet _ | popRet _ | pushRead _ _ | pushLink _ _ _ | pushPick _ _ | popRead _
  | popPick _ | failed _ =>
    rw [hat] at hok
    exact hok

/-- What a step of thread `t` leads to. -/
structure Moved (c : Config) (s s' : State Tid Node) (t : Tid) (nodes' : List Node) : Prop
    extends Inv c s' nodes' where
  keeps : Keeps s s' t

/-- A step of thread `t` is judged by what it does to the nodes and by where `t`
stands afterwards. -/
theorem Inv.step_of (h : Inv c s nodes) (hkeeps : Keeps s s' t) (hstore : Store s' nodes')
    (hslots : ∀ k, ∃ partner, Exchanger.Inv (s'.slots k) partner)
    (hframes : ∀ k f, (s'.slots k).frame t = some f → (s'.pc t).slot = some k)
    (hpc : PcOk c s' t (s'.pc t)) : Moved c s s' t nodes' := by
  refine ⟨⟨hstore, hslots, ?_, ?_⟩, hkeeps⟩
  · intro u k f hf
    by_cases hu : u = t
    · subst hu
      exact hframes k f hf
    · rw [hkeeps.pc u hu]
      exact h.frames u k f ((hkeeps.frame k u hu).symm.trans hf)
  · intro u
    by_cases hu : u = t
    · subst hu
      exact hpc
    · exact hkeeps.pcOk h hu

theorem Store.same (h : Store s nodes) (hpush : ∀ u, pushHeld s' u = pushHeld s u)
    (hpop : ∀ u, popHeld s' u = popHeld s u) (htop : s'.top = s.top)
    (hnext : ∀ n ∈ nodes, s'.next n = s.next n) (hinside : s'.inside = s.inside)
    (hpushed : s'.pushed = s.pushed) (hreturned : s'.returned = s.returned) :
    Store s' nodes := by
  have hcontent : content s' nodes = content s nodes := by
    funext p
    cases p with
    | core => rfl
    | push u => exact hpush u
    | pop u => exact hpop u
  refine ⟨?_, ?_, ?_, ?_⟩
  · rw [htop]
    exact h.stack.congr hnext
  · rw [hcontent]
    exact h.apart
  · rw [hinside, hcontent]
    exact h.inside
  · rw [hpushed, hreturned, hinside]
    exact h.count

theorem Store.transfer (h : Store s nodes) {p q : Place Tid} (hne : p ≠ q)
    (hothers : ∀ r, r ≠ p → r ≠ q → content s' nodes' r = content s nodes r)
    (hperm : (content s' nodes' p ++ content s' nodes' q).Perm
      (content s nodes p ++ content s nodes q))
    (hstack : Linked s'.next s'.top nodes') (hinside : s'.inside = s.inside)
    (hpushed : s'.pushed = s.pushed) (hreturned : s'.returned = s.returned) :
    Store s' nodes' := by
  refine ⟨hstack, h.apart.transfer hne hothers hperm, ?_, ?_⟩
  · intro n
    rw [hinside, h.inside]
    constructor
    · rintro ⟨r, hr⟩
      exact mem_of_transfer (fun r hp hq => (hothers r hp hq).symm) hperm.symm hr
    · rintro ⟨r, hr⟩
      exact mem_of_transfer hothers hperm hr
  · rw [hpushed, hreturned, hinside]
    exact h.count

variable [DecidableEq Tid]

/-- Thread `t` moves outside of the slots. -/
structure Local (s s' : State Tid Node) (t : Tid) (goal : Pc Node) : Prop where
  slots : s'.slots = s.slots
  pc : s'.pc = update s.pc t goal
  before : (s.pc t).slot = none
  after : goal.slot = none

section Local

omit [DecidableEq Node]

variable {pc : Pc Node} (hl : Local s s' t pc)

include hl

theorem Local.got_eq (u : Tid) : gotAt s' u = gotAt s u := by
  funext k
  rw [gotAt, gotAt, hl.slots]

theorem Local.self : s'.pc t = pc := by
  rw [hl.pc, update_self]

theorem Local.other {u : Tid} (hu : u ≠ t) : s'.pc u = s.pc u := by
  rw [hl.pc, update_of_ne hu]

theorem Local.pushHeld_self : pushHeld s' t = pushOf (gotAt s t) pc := by
  rw [pushHeld, hl.got_eq, hl.self]

theorem Local.pushHeld_other {u : Tid} (hu : u ≠ t) : pushHeld s' u = pushHeld s u := by
  rw [pushHeld, pushHeld, hl.got_eq, hl.other hu]

theorem Local.popHeld_self : popHeld s' t = popOf (gotAt s t) pc := by
  rw [popHeld, hl.got_eq, hl.self]

theorem Local.popHeld_other {u : Tid} (hu : u ≠ t) : popHeld s' u = popHeld s u := by
  rw [popHeld, popHeld, hl.got_eq, hl.other hu]

end Local

theorem Inv.move (h : Inv c s nodes) {pc : Pc Node} (hl : Local s s' t pc)
    (hnext : ∀ n, n ∉ pushHeld s t → s'.next n = s.next n)
    (hheld : ∀ n ∈ pushOf (gotAt s t) pc,
      n ∈ pushHeld s t ∨ s.inside n = false ∧ ∀ v, (s.pc v).seen ≠ some n)
    (hstore : Store s' nodes') (hpc : PcOk c s' t pc) : Moved c s s' t nodes' := by
  have hkeeps : Keeps s s' t := by
    refine ⟨fun u hu => hl.other hu, fun k u _ => by rw [hl.slots], hnext, ?_⟩
    intro u n hn
    by_cases hu : u = t
    · subst hu
      rw [hl.pushHeld_self] at hn
      exact hheld n hn
    · rw [hl.pushHeld_other hu] at hn
      exact .inl hn
  refine h.step_of hkeeps hstore ?_ ?_ (by rw [hl.self]; exact hpc)
  · rw [hl.slots]
    exact h.slots
  · intro k f hf
    rw [hl.slots] at hf
    have hslot := h.frames t k f hf
    rw [hl.before] at hslot
    cases hslot

/-- Only where `t` stands changes, and perhaps the pointer of its own node. -/
theorem Inv.still (h : Inv c s nodes) {pc : Pc Node} (hl : Local s s' t pc)
    (hnext : ∀ n, n ∉ pushHeld s t → s'.next n = s.next n)
    (hpush : pushOf (gotAt s t) pc = pushHeld s t) (hpop : popOf (gotAt s t) pc = popHeld s t)
    (htop : s'.top = s.top) (hinside : s'.inside = s.inside) (hpushed : s'.pushed = s.pushed)
    (hreturned : s'.returned = s.returned) (hpc : PcOk c s' t pc) : Moved c s s' t nodes := by
  refine h.move hl hnext (fun n hn => .inl (hpush ▸ hn)) ?_ hpc
  refine h.toStore.same ?_ ?_ htop ?_ hinside hpushed hreturned
  · intro u
    by_cases hu : u = t
    · subst hu
      rw [hl.pushHeld_self, hpush]
    · exact hl.pushHeld_other hu
  · intro u
    by_cases hu : u = t
    · subst hu
      rw [hl.popHeld_self, hpop]
    · exact hl.popHeld_other hu
  · intro n hn
    apply hnext
    intro hmine
    cases h.apart.unique .core (.push t) n hn hmine

omit [DecidableEq Node] in
theorem local_goto {s₁ : State Tid Node} {pc : Pc Node} (hslots : s₁.slots = s.slots)
    (hpc : s₁.pc = s.pc) (hbefore : (s.pc t).slot = none) (hafter : pc.slot = none) :
    Local s (s₁.goto t pc) t pc :=
  ⟨hslots, by rw [State.goto, hpc], hbefore, hafter⟩

theorem Inv.push (h : Inv c s nodes) {node : Node} (hidle : s.pc t = .idle)
    (hnew : s.inside node = false) (hunseen : ∀ u, (s.pc u).seen ≠ some node) :
    Moved c s ({ s with
      inside := update s.inside node true
      pushed := node :: s.pushed }.goto t (.pushRead node (c.slotsCount - 1))) t nodes := by
  have hl : Local s ({ s with
      inside := update s.inside node true
      pushed := node :: s.pushed }.goto t (.pushRead node (c.slotsCount - 1))) t
      (.pushRead node (c.slotsCount - 1)) :=
    local_goto rfl rfl (by rw [hidle]; rfl) rfl
  have hfresh (p : Place Tid) : node ∉ content s nodes p := by
    intro hin
    rw [(h.inside node).mpr ⟨p, hin⟩] at hnew
    cases hnew
  have hown : pushHeld s t = [] := by rw [pushHeld, hidle]; rfl
  have hcontent (p : Place Tid) (hp : p ≠ .push t) : content ({ s with
      inside := update s.inside node true
      pushed := node :: s.pushed }.goto t (.pushRead node (c.slotsCount - 1))) nodes p =
      content s nodes p := by
    cases p with
    | core => rfl
    | push u => exact hl.pushHeld_other fun hu => hp (hu ▸ rfl)
    | pop u =>
      by_cases hu : u = t
      · subst hu
        exact hl.popHeld_self.trans (by rw [content, popHeld, hidle]; rfl)
      · exact hl.popHeld_other hu
  have hmine : content ({ s with
      inside := update s.inside node true
      pushed := node :: s.pushed }.goto t (.pushRead node (c.slotsCount - 1))) nodes (.push t) =
      node :: content s nodes (.push t) := by
    exact hl.pushHeld_self.trans (by rw [content, hown]; rfl)
  refine h.move hl (fun _ _ => rfl) ?_ ⟨h.stack, ?_, ?_, ?_⟩
    (by have := c.slots; change _ < _; omega)
  · intro n hn
    have heq : n = node := by simpa [pushOf] using hn
    exact .inr (heq ▸ ⟨hnew, hunseen⟩)
  · exact h.apart.take hcontent hmine hfresh
  · intro n
    change update s.inside node true n = true ↔ _
    by_cases heq : n = node
    · subst heq
      simp only [update_self, true_iff]
      exact ⟨.push t, by rw [hmine]; simp⟩
    · rw [update_of_ne heq, h.inside]
      constructor
      · rintro ⟨p, hp⟩
        refine ⟨p, ?_⟩
        by_cases hpt : p = .push t
        · subst hpt
          rw [hmine]
          exact List.mem_cons_of_mem _ hp
        · rw [hcontent p hpt]
          exact hp
      · rintro ⟨p, hp⟩
        refine ⟨p, ?_⟩
        by_cases hpt : p = .push t
        · subst hpt
          rw [hmine] at hp
          exact (List.mem_cons.mp hp).resolve_left heq
        · rw [hcontent p hpt] at hp
          exact hp
  · intro n
    change (node :: s.pushed).count n = s.returned.count n +
      if update s.inside node true n then 1 else 0
    have hcount := h.count n
    by_cases heq : n = node
    · subst heq
      rw [hnew] at hcount
      simpa using hcount
    · rw [update_of_ne heq, List.count_cons_of_ne (Ne.symm heq)]
      exact hcount

theorem Inv.put (h : Inv c s nodes) {node : Node} {range : Nat}
    (hat : s.pc t = .pushCas node range s.top) :
    Moved c s ({ s with top := some node }.goto t (.pushRet node)) t (node :: nodes) := by
  have hl : Local s ({ s with top := some node }.goto t (.pushRet node)) t (.pushRet node) :=
    local_goto rfl rfl (by rw [hat]; rfl) rfl
  have hpc := h.pc t
  rw [hat] at hpc
  have hmine : pushHeld s t = [node] := by rw [pushHeld, hat]; rfl
  refine h.move hl (fun _ _ => rfl) nofun ?_ trivial
  refine h.toStore.transfer (p := .core) (q := .push t) nofun ?_ ?_ (h.stack.push hpc.2) rfl rfl rfl
  · intro r hcore hpush
    cases r with
    | core => exact absurd rfl hcore
    | push u => exact hl.pushHeld_other fun hu => hpush (hu ▸ rfl)
    | pop u =>
      by_cases hu : u = t
      · subst hu
        exact hl.popHeld_self.trans (by rw [content, popHeld, hat]; rfl)
      · exact hl.popHeld_other hu
  · change ((node :: nodes) ++ pushHeld _ t).Perm (nodes ++ pushHeld s t)
    rw [hl.pushHeld_self, hmine]
    simpa [pushOf] using (List.perm_append_singleton node nodes).symm

theorem Inv.take (h : Inv c s nodes) {top : Node} {node : Option Node} {range : Nat}
    (hat : s.pc t = .popCas range top node) (htop : s.top = some top) :
    ∃ rest, nodes = top :: rest ∧
      Moved c s ({ s with top := node }.goto t (.popRet (some top))) t rest := by
  have hl : Local s ({ s with top := node }.goto t (.popRet (some top))) t
      (.popRet (some top)) := local_goto rfl rfl (by rw [hat]; rfl) rfl
  have hpc := h.pc t
  rw [hat] at hpc
  have hstack := h.stack
  rw [htop] at hstack
  obtain ⟨rest, rfl, hrest⟩ := hstack.of_some
  rw [hpc.2.1] at hrest
  have hmine : popHeld s t = [] := by rw [popHeld, hat]; rfl
  refine ⟨rest, rfl, h.move hl (fun _ _ => rfl) nofun ?_ trivial⟩
  refine h.toStore.transfer (p := .core) (q := .pop t) nofun ?_ ?_ hrest rfl rfl rfl
  · intro r hcore hpop
    cases r with
    | core => exact absurd rfl hcore
    | pop u => exact hl.popHeld_other fun hu => hpop (hu ▸ rfl)
    | push u =>
      by_cases hu : u = t
      · subst hu
        exact hl.pushHeld_self.trans (by rw [content, pushHeld, hat]; rfl)
      · exact hl.pushHeld_other hu
  · change (rest ++ popHeld _ t).Perm ((top :: rest) ++ popHeld s t)
    rw [hl.popHeld_self, hmine]
    simp [popOf]

theorem Inv.hand (h : Inv c s nodes) {node : Node} (hat : s.pc t = .popRet (some node)) :
    Moved c s ({ s with
      inside := update s.inside node false
      returned := node :: s.returned }.goto t .idle) t nodes := by
  have hl : Local s ({ s with
      inside := update s.inside node false
      returned := node :: s.returned }.goto t .idle) t .idle :=
    local_goto rfl rfl (by rw [hat]; rfl) rfl
  have hmine : popHeld s t = [node] := by rw [popHeld, hat]; rfl
  have hin : node ∈ content s nodes (.pop t) := by
    rw [content, hmine]
    exact List.mem_singleton_self node
  have hcontent (p : Place Tid) (hp : p ≠ .pop t) : content ({ s with
      inside := update s.inside node false
      returned := node :: s.returned }.goto t .idle) nodes p = content s nodes p := by
    cases p with
    | core => rfl
    | pop u => exact hl.popHeld_other fun hu => hp (hu ▸ rfl)
    | push u =>
      by_cases hu : u = t
      · subst hu
        exact hl.pushHeld_self.trans (by rw [content, pushHeld, hat]; rfl)
      · exact hl.pushHeld_other hu
  have hgone : content ({ s with
      inside := update s.inside node false
      returned := node :: s.returned }.goto t .idle) nodes (.pop t) = [] := hl.popHeld_self
  refine h.move hl (fun _ _ => rfl) nofun ⟨h.stack, ?_, ?_, ?_⟩ trivial
  · exact h.apart.drop hcontent (by rw [hgone]; exact List.nil_sublist _)
  · intro n
    change update s.inside node false n = true ↔ _
    by_cases heq : n = node
    · subst heq
      rw [update_self]
      constructor
      · intro hfalse
        cases hfalse
      · rintro ⟨p, hp⟩
        by_cases hpt : p = .pop t
        · rw [hpt, hgone] at hp
          cases hp
        · rw [hcontent p hpt] at hp
          exact absurd (h.apart.unique p (.pop t) n hp hin) hpt
    · rw [update_of_ne heq, h.inside]
      constructor
      · rintro ⟨p, hp⟩
        refine ⟨p, ?_⟩
        by_cases hpt : p = .pop t
        · rw [hpt, content, hmine] at hp
          exact absurd (List.mem_singleton.mp hp) heq
        · rw [hcontent p hpt]
          exact hp
      · rintro ⟨p, hp⟩
        refine ⟨p, ?_⟩
        by_cases hpt : p = .pop t
        · rw [hpt, hgone] at hp
          cases hp
        · rw [hcontent p hpt] at hp
          exact hp
  · intro n
    change s.pushed.count n = (node :: s.returned).count n +
      if update s.inside node false n then 1 else 0
    have hcount := h.count n
    by_cases heq : n = node
    · subst heq
      rw [(h.inside n).mpr ⟨_, hin⟩] at hcount
      simpa using hcount
    · rw [update_of_ne heq, List.count_cons_of_ne (Ne.symm heq)]
      exact hcount

end Libvsync.Stack.Elimination
