import Libvsync.Core.Fifo
import Libvsync.Core.Linked
import Libvsync.Core.Places
import Libvsync.Core.Queue
import Libvsync.Queue.UnboundedLfRecycle

/-!
The invariant of the recycling queue and what follows from it. A call keeps the
stamped words that it has read. What it knows about a word holds as long as the word
has not changed, and the stamps tell whether it has: after fewer than 128 changes an
old word is not taken for the present one. The `next` pointer of a node is the only
word that is also written without a new stamp, when the node is enqueued again; by
then it has got a new stamp when the next node was appended behind it.
-/

namespace Libvsync.Queue.UnboundedLfRecycle

open Libvsync.Core Function
open Libvsync.Atomic
open Libvsync.Atomic.Stamped

variable {Tid Node Data : Type} [DecidableEq Tid] [DecidableEq Node]

/-- The node that an enqueue has not appended yet. -/
def Pc.fresh : Pc Node Data → Option Node
  | .enqData qnode _ | .enqStamp qnode _ | .enqNull qnode _ _ | .enqTail qnode _
  | .enqNext qnode _ _ | .enqCheck qnode _ _ _ | .enqCas qnode _ _ _ | .enqHelp qnode _ _ _ =>
    some qnode
  | _ => none

/-- The node that a dequeue has taken off and not retired yet. -/
def Pc.leaving : Pc Node Data → Option Node
  | .deqRetire first _ => some first
  | _ => none

def Pc.holds (pc : Pc Node Data) : List Node := pc.fresh.toList ++ pc.leaving.toList

/-- Where nodes are: in the queue or with a call. -/
def content (s : State Tid Node Data) (nodes : List Node) : Option Tid → List Node
  | none => nodes
  | some t => (s.pc t).holds

/-- The entry that is dequeued next. -/
def State.first (s : State Tid Node Data) : Option (Node × Data) := s.order[s.deqs.length]?

def Own (s : State Tid Node Data) (qnode : Node) (data : Data) : Prop :=
  s.data qnode = data ∧ (s.next qnode).pointer = none

/-- If the tail is still the one read, `next` is behind it. -/
def TailNext (s : State Tid Node Data) (last : Stamped Node) (next : Node) : Prop :=
  last.changes = s.tail.changes → (s.next last.pointer).pointer = some next

/-- If the `next` pointer of `last` is still the one read, it is NULL. -/
def Null (s : State Tid Node Data) (last : Stamped Node) (next : Stamped (Option Node)) : Prop :=
  next.changes = (s.next last.pointer).changes → (s.next last.pointer).pointer = none

/-- If the head is still the one read, the tail is ahead of it. -/
def Behind (s : State Tid Node Data) (first : Stamped Node) : Prop :=
  first.changes = s.head.changes → s.tail.pointer ≠ s.head.pointer

/-- If the head is still the one read, `next` is the node behind it. -/
def HeadNext (s : State Tid Node Data) (first : Stamped Node) (next : Option Node) : Prop :=
  first.changes = s.head.changes → ∃ n, next = some n ∧ (s.next first.pointer).pointer = some n

def PcOk (s : State Tid Node Data) (nodes : List Node) : Pc Node Data → Prop
  | .idle | .enqData _ _ | .deqHead | .deqRetire _ _ | .deqRet _ => True
  | .enqStamp qnode data => s.data qnode = data
  | .enqNull qnode data stamp => s.data qnode = data ∧ stamp = (s.next qnode).stamp
  | .enqTail qnode data => Own s qnode data
  | .enqNext qnode data last => Own s qnode data ∧ Since last s.tail
  | .enqCheck qnode data last next =>
    Own s qnode data ∧ Since last s.tail ∧ Grown next (s.next last.pointer) ∧
      (next.pointer = none → Null s last next) ∧
      ∀ n, next.pointer = some n → TailNext s last n
  | .enqCas qnode data last next =>
    Own s qnode data ∧ Since last s.tail ∧ Grown next (s.next last.pointer) ∧
      Null s last next ∧
      (next.changes = (s.next last.pointer).changes → last.pointer ∈ nodes)
  | .enqSwing qnode _ last => Since last s.tail ∧ TailNext s last qnode
  | .enqHelp qnode data last next => Own s qnode data ∧ Since last s.tail ∧ TailNext s last next
  | .deqTail first => Since first s.head
  | .deqNext first last =>
    Since first s.head ∧ Since last s.tail ∧ (first.pointer ≠ last.pointer → Behind s first)
  | .deqCheck first last next =>
    Since first s.head ∧ Since last s.tail ∧
      (first.pointer ≠ last.pointer → Behind s first ∧ HeadNext s first next) ∧
      (first.pointer = last.pointer → ∀ n, next = some n → TailNext s last n)
  | .deqHelp last next => Since last s.tail ∧ TailNext s last next
  | .deqData first next =>
    Since first s.head ∧ Behind s first ∧ HeadNext s first next ∧ next ≠ none
  | .deqCas first next data =>
    Since first s.head ∧ Behind s first ∧ HeadNext s first (some next) ∧
      (first.changes = s.head.changes → s.first = some (next, data))

structure Inv (sentinel : Node) (s : State Tid Node Data) (nodes : List Node) : Prop where
  chain : Linked (fun n => (s.next n).pointer) (some s.head.pointer) nodes
  tail : s.tail.pointer ∈ nodes
  fifo : Fifo s.data s.order s.deqs s.head.pointer nodes
  apart : Apart (content s nodes)
  held : ∀ p n, n ∈ content s nodes p → n ≠ sentinel → s.inside n = true
  pc : ∀ t, PcOk s nodes (s.pc t)

variable {sentinel : Node} {s s' : State Tid Node Data} {nodes nodes' : List Node} {t : Tid}
  {pc' : Pc Node Data}

/-- What every step does to the words. -/
structure Moves (s s' : State Tid Node Data) (nodes nodes' : List Node) : Prop where
  head : Since s.head s'.head
  tail : Since s.tail s'.tail
  next : ∀ n, Grown (s.next n) (s'.next n)
  null : ∀ n, (s'.next n).changes = (s.next n).changes → (s.next n).pointer = none →
    (s'.next n).pointer = none
  linked : ∀ n ∈ nodes, ∀ m, (s.next n).pointer = some m → (s'.next n).pointer = some m
  stays : ∀ n ∈ nodes, (s.next n).pointer = none → n ∈ nodes'
  ahead : s'.head.changes = s.head.changes → s.tail.pointer ≠ s.head.pointer →
    s'.tail.pointer ≠ s'.head.pointer
  entry : s'.head.changes = s.head.changes → ∀ e, s.first = some e → s'.first = some e

variable {last : Stamped Node}

section

omit [DecidableEq Tid] [DecidableEq Node]

theorem TailNext.moves {next : Node} (h : TailNext s last next) (hsince : Since last s.tail)
    (htail : s.tail.pointer ∈ nodes) (hmoves : Moves s s' nodes nodes') :
    TailNext s' last next := by
  intro hsame
  obtain ⟨hold, -⟩ := hsince.1.unchanged hmoves.tail.1 hsame
  exact hmoves.linked last.pointer (hsince.2 hold ▸ htail) next (h hold)

theorem Null.moves {next : Stamped (Option Node)} (h : Null s last next)
    (hgrown : Grown next (s.next last.pointer)) (hmoves : Moves s s' nodes nodes') :
    Null s' last next := by
  intro hsame
  obtain ⟨hold, hsame⟩ := hgrown.unchanged (hmoves.next last.pointer) hsame
  exact hmoves.null last.pointer hsame (h hold)

end

variable {first : Stamped Node}

section

omit [DecidableEq Tid] [DecidableEq Node]

theorem Behind.moves (h : Behind s first) (hsince : Since first s.head)
    (hmoves : Moves s s' nodes nodes') : Behind s' first := by
  intro hsame
  obtain ⟨hold, hsame⟩ := hsince.1.unchanged hmoves.head.1 hsame
  exact hmoves.ahead hsame (h hold)

theorem HeadNext.moves {next : Option Node} (h : HeadNext s first next)
    (hsince : Since first s.head) (hhead : s.head.pointer ∈ nodes)
    (hmoves : Moves s s' nodes nodes') : HeadNext s' first next := by
  intro hsame
  obtain ⟨hold, -⟩ := hsince.1.unchanged hmoves.head.1 hsame
  obtain ⟨n, hn, hlinked⟩ := h hold
  exact ⟨n, hn, hmoves.linked first.pointer (hsince.2 hold ▸ hhead) n hlinked⟩

end

variable {pc : Pc Node Data}

section

omit [DecidableEq Tid] [DecidableEq Node]

theorem PcOk.moves (h : PcOk s nodes pc) (hhead : s.head.pointer ∈ nodes)
    (htail : s.tail.pointer ∈ nodes) (hmoves : Moves s s' nodes nodes')
    (hmine : ∀ n, pc.fresh = some n → s'.next n = s.next n ∧ s'.data n = s.data n) :
    PcOk s' nodes' pc := by
  have hown {n : Node} {d : Data} (hn : pc.fresh = some n) (hold : Own s n d) : Own s' n d := by
    obtain ⟨hnext, hdata⟩ := hmine n hn
    exact ⟨hdata.trans hold.1, by rw [hnext]; exact hold.2⟩
  cases pc with
  | idle | enqData _ _ | deqHead | deqRetire _ _ | deqRet _ => trivial
  | enqStamp qnode data => exact (hmine qnode rfl).2.trans h
  | enqNull qnode data stamp =>
    obtain ⟨hnext, hdata⟩ := hmine qnode rfl
    exact ⟨hdata.trans h.1, by rw [hnext]; exact h.2⟩
  | enqTail qnode data => exact hown rfl h
  | enqNext qnode data last => exact ⟨hown rfl h.1, h.2.trans hmoves.tail⟩
  | enqCheck qnode data last next =>
    obtain ⟨hfresh, hlast, hnext, hnull, hbehind⟩ := h
    exact ⟨hown rfl hfresh, hlast.trans hmoves.tail, hnext.trans (hmoves.next last.pointer),
      fun hnone => (hnull hnone).moves hnext hmoves,
      fun n hn => (hbehind n hn).moves hlast htail hmoves⟩
  | enqCas qnode data last next =>
    obtain ⟨hfresh, hlast, hnext, hnull, hmem⟩ := h
    refine ⟨hown rfl hfresh, hlast.trans hmoves.tail, hnext.trans (hmoves.next last.pointer),
      hnull.moves hnext hmoves, fun hsame => ?_⟩
    obtain ⟨hold, -⟩ := hnext.unchanged (hmoves.next last.pointer) hsame
    exact hmoves.stays last.pointer (hmem hold) (hnull hold)
  | enqSwing qnode data last => exact ⟨h.1.trans hmoves.tail, h.2.moves h.1 htail hmoves⟩
  | enqHelp qnode data last next =>
    exact ⟨hown rfl h.1, h.2.1.trans hmoves.tail, h.2.2.moves h.2.1 htail hmoves⟩
  | deqTail first => exact Since.trans h hmoves.head
  | deqNext first last =>
    exact ⟨h.1.trans hmoves.head, h.2.1.trans hmoves.tail,
      fun hne => (h.2.2 hne).moves h.1 hmoves⟩
  | deqCheck first last next =>
    obtain ⟨hfirst, hlast, hne, heq⟩ := h
    exact ⟨hfirst.trans hmoves.head, hlast.trans hmoves.tail,
      fun hdiff => ⟨(hne hdiff).1.moves hfirst hmoves, (hne hdiff).2.moves hfirst hhead hmoves⟩,
      fun hsame n hn => (heq hsame n hn).moves hlast htail hmoves⟩
  | deqHelp last next => exact ⟨h.1.trans hmoves.tail, h.2.moves h.1 htail hmoves⟩
  | deqData first next =>
    obtain ⟨hfirst, hbehind, hnext, hsome⟩ := h
    exact ⟨hfirst.trans hmoves.head, hbehind.moves hfirst hmoves,
      hnext.moves hfirst hhead hmoves, hsome⟩
  | deqCas first next data =>
    obtain ⟨hfirst, hbehind, hnext, hentry⟩ := h
    refine ⟨hfirst.trans hmoves.head, hbehind.moves hfirst hmoves,
      hnext.moves hfirst hhead hmoves, fun hsame => ?_⟩
    obtain ⟨hold, hsame⟩ := hfirst.1.unchanged hmoves.head.1 hsame
    exact hmoves.entry hsame _ (hentry hold)

theorem Inv.held_nodes (h : Inv sentinel s nodes) {n : Node} (hn : n ∈ (s.pc t).holds) :
    n ∉ nodes := by
  intro hin
  cases h.apart.unique none (some t) n hin hn

theorem mem_holds_fresh {n : Node} (hn : pc.fresh = some n) : n ∈ pc.holds := by
  rw [Pc.holds, hn]
  exact List.mem_append_left _ (List.mem_singleton_self n)

theorem Inv.fresh_out (h : Inv sentinel s nodes) {n : Node} (hn : (s.pc t).fresh = some n) :
    n ∉ nodes :=
  h.held_nodes (mem_holds_fresh hn)

theorem Inv.fresh_inj (h : Inv sentinel s nodes) {u : Tid} {n : Node}
    (ht : (s.pc t).fresh = some n) (hu : (s.pc u).fresh = some n) : u = t :=
  Option.some.inj (h.apart.unique (some u) (some t) n (mem_holds_fresh hu) (mem_holds_fresh ht))

end

omit [DecidableEq Node] in
/-- Thread `t` moves on; the others know what they knew. -/
theorem Inv.pcs (h : Inv sentinel s nodes) (hpc : s'.pc = update s.pc t pc')
    (hmoves : Moves s s' nodes nodes')
    (hothers : ∀ u, u ≠ t → ∀ n, (s.pc u).fresh = some n →
      s'.next n = s.next n ∧ s'.data n = s.data n)
    (hself : PcOk s' nodes' pc') (u : Tid) : PcOk s' nodes' (s'.pc u) := by
  rw [hpc]
  by_cases hu : u = t
  · rw [hu, update_self]
    exact hself
  · rw [update_of_ne hu]
    exact (h.pc u).moves h.fifo.head_mem h.tail hmoves (hothers u hu)

/-- The queue itself does not change, but for the tail; only a node that `t` has
not appended yet may be written to. -/
structure Calm (s s' : State Tid Node Data) (t : Tid) : Prop where
  head : s'.head = s.head
  order : s'.order = s.order
  deqs : s'.deqs = s.deqs
  inside : s'.inside = s.inside
  tail : Since s.tail s'.tail
  ahead : s.tail.pointer ≠ s.head.pointer → s'.tail.pointer ≠ s.head.pointer
  next : ∀ n, (s.pc t).fresh ≠ some n → s'.next n = s.next n
  data : ∀ n, (s.pc t).fresh ≠ some n → s'.data n = s.data n
  own : ∀ n, (s.pc t).fresh = some n → Grown (s.next n) (s'.next n) ∧
    (s'.next n = s.next n ∨ (s'.next n).pointer = none)

omit [DecidableEq Tid] in
theorem Inv.moves_calm (h : Inv sentinel s nodes) (hcalm : Calm s s' t) :
    Moves s s' nodes nodes := by
  refine ⟨?_, hcalm.tail, fun n => ?_, fun n _ hnone => ?_, fun n hn m hm => ?_,
    fun n hn _ => hn, fun _ hne => ?_, fun _ e he => ?_⟩
  · rw [hcalm.head]
    exact .refl _
  · by_cases hn : (s.pc t).fresh = some n
    · exact (hcalm.own n hn).1
    · rw [hcalm.next n hn]
      exact .refl _
  · by_cases hn : (s.pc t).fresh = some n
    · rcases (hcalm.own n hn).2 with hsame | hnone'
      · rw [hsame]
        exact hnone
      · exact hnone'
    · rw [hcalm.next n hn]
      exact hnone
  · rw [hcalm.next n fun hmine => h.fresh_out hmine hn]
    exact hm
  · rw [hcalm.head]
    exact hcalm.ahead hne
  · rw [State.first, hcalm.order, hcalm.deqs]
    exact he

theorem Inv.calm (h : Inv sentinel s nodes) (hpc : s'.pc = update s.pc t pc')
    (hcalm : Calm s s' t) (htail : s'.tail.pointer ∈ nodes) (hholds : pc'.holds = (s.pc t).holds)
    (hself : PcOk s' nodes pc') : Inv sentinel s' nodes := by
  have hcontent : content s' nodes = content s nodes := by
    funext p
    cases p with
    | none => rfl
    | some u =>
      rw [content, content, hpc]
      by_cases hu : u = t
      · rw [hu, update_self, hholds]
      · rw [update_of_ne hu]
  refine ⟨?_, htail, ?_, ?_, ?_, ?_⟩
  · rw [hcalm.head]
    refine h.chain.congr fun n hn => ?_
    rw [hcalm.next n fun hmine => h.fresh_out hmine hn]
  · rw [hcalm.head, hcalm.order, hcalm.deqs]
    exact h.fifo.congr fun n hn => hcalm.data n fun hmine => h.fresh_out hmine hn
  · rw [hcontent]
    exact h.apart
  · rw [hcontent, hcalm.inside]
    exact h.held
  · refine h.pcs hpc (h.moves_calm hcalm) (fun u hu n hn => ?_) hself
    have hother : (s.pc t).fresh ≠ some n := fun hmine => hu (h.fresh_inj hmine hn)
    exact ⟨hcalm.next n hother, hcalm.data n hother⟩

/-- Only where `t` stands changes. -/
theorem Inv.goto (h : Inv sentinel s nodes) (hholds : pc.holds = (s.pc t).holds)
    (hself : PcOk (s.goto t pc) nodes pc) : Inv sentinel (s.goto t pc) nodes :=
  h.calm rfl ⟨rfl, rfl, rfl, rfl, .refl _, fun hne => hne, fun _ _ => rfl, fun _ _ => rfl,
    fun _ _ => ⟨.refl _, .inl rfl⟩⟩ h.tail hholds hself

omit [DecidableEq Tid] [DecidableEq Node] in
theorem Inv.next_tail (h : Inv sentinel s nodes) {n : Node}
    (hn : (s.next s.tail.pointer).pointer = some n) : n ∈ nodes ∧ n ≠ s.head.pointer := by
  have hmem := h.chain.next_mem h.tail hn
  refine ⟨List.mem_of_mem_tail hmem, ?_⟩
  rintro rfl
  have hnodup : nodes.Nodup := h.apart.nodup none
  rw [h.fifo.pending] at hmem hnodup
  exact (List.nodup_cons.mp hnodup).1 hmem

theorem Inv.swing (h : Inv sentinel s nodes) {next : Node} (hlast : Since last s.tail)
    (hnext : TailNext s last next) (hfew : s.tail.changes < last.changes + 128)
    (hholds : pc.holds = (s.pc t).holds) (hself : PcOk ((s.swing last next).goto t pc) nodes pc) :
    Inv sentinel ((s.swing last next).goto t pc) nodes := by
  rw [State.swing] at hself ⊢
  cases hcas : s.tail.cmpxchg last.pointer last.stamp next (last.stamp + 1) with
  | none =>
    rw [hcas] at hself
    exact h.goto hholds hself
  | some tail =>
    rw [hcas] at hself
    have hsame := hlast.1.cmpxchg hfew hcas
    have hbehind := hnext hsame
    rw [hlast.2 hsame] at hbehind
    obtain ⟨hmem, hne⟩ := h.next_tail hbehind
    have hpointer : tail.pointer = next := by
      obtain ⟨-, -, rfl⟩ := cmpxchg_some hcas
      rfl
    refine h.calm rfl ⟨rfl, rfl, rfl, rfl, cmpxchg_since hcas, fun _ => ?_, fun _ _ => rfl,
      fun _ _ => rfl, fun _ _ => ⟨.refl _, .inl rfl⟩⟩ ?_ hholds hself
    · change tail.pointer ≠ s.head.pointer
      rw [hpointer]
      exact hne
    · change tail.pointer ∈ nodes
      rw [hpointer]
      exact hmem

omit [DecidableEq Tid] [DecidableEq Node] in
theorem Inv.not_held (h : Inv sentinel s nodes) {qnode : Node} (hsentinel : qnode ≠ sentinel)
    (hnew : s.inside qnode = false) (p : Option Tid) : qnode ∉ content s nodes p := by
  intro hin
  rw [h.held p qnode hin hsentinel] at hnew
  cases hnew

/-- An enqueue begins with a node that is not in use. -/
theorem Inv.enq (h : Inv sentinel s nodes) {qnode : Node} {data : Data} (hidle : s.pc t = .idle)
    (hsentinel : qnode ≠ sentinel) (hnew : s.inside qnode = false) :
    Inv sentinel ({ s with inside := update s.inside qnode true }.goto t
      (.enqData qnode data)) nodes := by
  have hcontent (p : Option Tid) (hp : p ≠ some t) :
      content ({ s with inside := update s.inside qnode true }.goto t
        (.enqData qnode data)) nodes p = content s nodes p := by
    cases p with
    | none => rfl
    | some u =>
      have hu : u ≠ t := fun heq => hp (heq ▸ rfl)
      exact congrArg Pc.holds (update_of_ne hu ..)
  have hmine : content ({ s with inside := update s.inside qnode true }.goto t
      (.enqData qnode data)) nodes (some t) = qnode :: content s nodes (some t) := by
    simp only [content, State.goto, update_self, hidle]
    rfl
  refine ⟨h.chain, h.tail, h.fifo, h.apart.take hcontent hmine (h.not_held hsentinel hnew), ?_, ?_⟩
  · intro p n hn hns
    change update s.inside qnode true n = true
    by_cases hq : n = qnode
    · rw [hq, update_self]
    · rw [update_of_ne hq]
      refine h.held p n ?_ hns
      by_cases hp : p = some t
      · rw [hp, hmine] at hn
        rw [hp]
        exact (List.mem_cons.mp hn).resolve_left hq
      · rw [hcontent p hp] at hn
        exact hn
  · exact h.pcs rfl ⟨.refl _, .refl _, fun _ => .refl _, fun _ _ hn => hn, fun _ _ _ hm => hm,
      fun _ hn _ => hn, fun _ hne => hne, fun _ _ he => he⟩ (fun _ _ _ _ => ⟨rfl, rfl⟩) trivial

section

omit [DecidableEq Node]

theorem content_others {s₁ : State Tid Node Data} (hpc : s₁.pc = s.pc) (p : Option Tid)
    (hp : p ≠ none) (hpt : p ≠ some t) :
    content (s₁.goto t pc') nodes' p = content s nodes p := by
  cases p with
  | none => exact absurd rfl hp
  | some u =>
    have hu : u ≠ t := fun heq => hpt (heq ▸ rfl)
    rw [content, content, State.goto, ← hpc]
    exact congrArg Pc.holds (update_of_ne hu ..)

theorem content_self (s : State Tid Node Data) (nodes : List Node) (t : Tid)
    (pc : Pc Node Data) : content (s.goto t pc) nodes (some t) = pc.holds :=
  congrArg Pc.holds (update_self ..)

/-- Nodes change hands between the queue and thread `t`. -/
theorem Inv.transfer (h : Inv sentinel s nodes) {s₁ : State Tid Node Data} (hpc : s₁.pc = s.pc)
    (hperm : (nodes' ++ pc'.holds).Perm (nodes ++ (s.pc t).holds)) :
    Apart (content (s₁.goto t pc') nodes') ∧
      ∀ p n, n ∈ content (s₁.goto t pc') nodes' p → n ≠ sentinel → s.inside n = true := by
  have hne : (none : Option Tid) ≠ some t := nofun
  have hperm' : (content (s₁.goto t pc') nodes' none ++
      content (s₁.goto t pc') nodes' (some t)).Perm
        (content s nodes none ++ content s nodes (some t)) := by
    rw [content_self]
    exact hperm
  refine ⟨h.apart.transfer hne (content_others hpc) hperm', fun p n hn hsentinel => ?_⟩
  obtain ⟨q, hq⟩ := mem_of_transfer (content_others hpc) hperm' hn
  exact h.held q n hq hsentinel

end

/-- The compare-and-swap on the last node succeeds. -/
theorem Inv.enqCas (h : Inv sentinel s nodes) {qnode : Node} {data : Data}
    {next word : Stamped (Option Node)} (hat : s.pc t = .enqCas qnode data last next)
    (hfew : (s.next last.pointer).changes < next.changes + 128)
    (hcas : (s.next last.pointer).cmpxchg next.pointer next.stamp (some qnode) (next.stamp + 1) =
      some word) :
    Inv sentinel ({ s with
      next := update s.next last.pointer word
      order := s.order ++ [(qnode, data)] }.goto t (.enqSwing qnode data last))
      (nodes ++ [qnode]) := by
  have hpc := h.pc t
  rw [hat] at hpc
  obtain ⟨⟨hdata, hmynext⟩, hlast, hgrown, hnull, hmem⟩ := hpc
  -- the word is still the one read, so `last` is the last node of the queue
  have hsame := hgrown.cmpxchg hfew hcas
  have hin : last.pointer ∈ nodes := hmem hsame
  have hnone : (s.next last.pointer).pointer = none := hnull hsame
  have hmine : (s.pc t).fresh = some qnode := by rw [hat]; rfl
  have hout : qnode ∉ nodes := h.fresh_out hmine
  have hne : qnode ≠ last.pointer := fun heq => hout (heq ▸ hin)
  have hword : word.pointer = some qnode ∧ word.changes = (s.next last.pointer).changes + 1 := by
    obtain ⟨-, -, rfl⟩ := cmpxchg_some hcas
    exact ⟨rfl, rfl⟩
  have hnexts (n : Node) (hn : n ≠ last.pointer) :
      update s.next last.pointer word n = s.next n := update_of_ne hn ..
  have hholds : (s.pc t).holds = [qnode] := by rw [hat]; rfl
  have hperm : ((nodes ++ [qnode]) ++ []).Perm (nodes ++ (s.pc t).holds) := by
    rw [hholds, List.append_nil]
  have hmoved : Apart (content ({ s with
      next := update s.next last.pointer word
      order := s.order ++ [(qnode, data)] }.goto t (.enqSwing qnode data last))
      (nodes ++ [qnode])) ∧
        ∀ p n, n ∈ content ({ s with
          next := update s.next last.pointer word
          order := s.order ++ [(qnode, data)] }.goto t (.enqSwing qnode data last))
            (nodes ++ [qnode]) p → n ≠ sentinel → s.inside n = true :=
    h.transfer rfl hperm
  refine ⟨?_, List.mem_append_left _ h.tail, h.fifo.append hdata, hmoved.1, hmoved.2, ?_⟩
  · have happend := h.chain.append (h.apart.nodup none) (h.chain.getLast_of_none hin hnone) hout
    refine happend.congr fun n _ => ?_
    change (update s.next last.pointer word n).pointer = _
    by_cases hn : n = last.pointer
    · rw [hn, update_self, update_self, hword.1]
    · rw [hnexts n hn, update_of_ne hn]
      by_cases hq : n = qnode
      · rw [hq, update_self, hmynext]
      · rw [update_of_ne hq]
  · refine h.pcs rfl ?_ (fun u hu n hn => ⟨hnexts n fun heq => ?_, rfl⟩)
      ⟨hlast, fun _ => ?_⟩
    · refine ⟨.refl _, .refl _, fun n => ?_, fun n hchanges hnull => ?_, fun n _ m hm => ?_,
        fun n hn _ => List.mem_append_left _ hn, fun _ hne => hne, fun _ e he => ?_⟩
      · change Grown (s.next n) (update s.next last.pointer word n)
        by_cases hn : n = last.pointer
        · rw [hn, update_self]
          exact (cmpxchg_since hcas).1
        · rw [hnexts n hn]
          exact .refl _
      · change (update s.next last.pointer word n).changes = _ at hchanges
        change (update s.next last.pointer word n).pointer = none
        by_cases hn : n = last.pointer
        · rw [hn, update_self, hword.2] at hchanges
          omega
        · rw [hnexts n hn]
          exact hnull
      · have hn : n ≠ last.pointer := by
          rintro rfl
          rw [hnone] at hm
          cases hm
        change (update s.next last.pointer word n).pointer = some m
        rw [hnexts n hn]
        exact hm
      · change (s.order ++ [(qnode, data)])[s.deqs.length]? = some e
        rw [List.getElem?_append_left (List.getElem?_eq_some_iff.mp he).1]
        exact he
    · exact h.fresh_out hn (heq ▸ hin)
    · change (update s.next last.pointer word last.pointer).pointer = some qnode
      rw [update_self, hword.1]

omit [DecidableEq Tid] [DecidableEq Node] in
/-- The first two nodes, when the head has a next one. -/
theorem Inv.first_next (h : Inv sentinel s nodes) {n : Node}
    (hn : (s.next s.head.pointer).pointer = some n) :
    ∃ rest, nodes = s.head.pointer :: n :: rest ∧
      Linked (fun n => (s.next n).pointer) (some n) (n :: rest) := by
  obtain ⟨rest, hrest, hlinked⟩ := h.chain.of_some
  rw [hn] at hlinked
  obtain ⟨rest', rfl, -⟩ := hlinked.of_some
  exact ⟨rest', hrest, hlinked⟩

/-- The compare-and-swap on the head succeeds. The tail is ahead of the old head,
and the next node is still the one whose data were read. -/
theorem Inv.deqCas (h : Inv sentinel s nodes) {head : Stamped Node} {next : Node} {data : Data}
    (hat : s.pc t = .deqCas first next data) (hfew : s.head.changes < first.changes + 128)
    (hcas : s.head.cmpxchg first.pointer first.stamp next (first.stamp + 1) = some head)
    (hpc' : pc' = if first.pointer = sentinel then .deqRet (some data)
      else .deqRetire first.pointer data) :
    ∃ nodes', Inv sentinel ({ s with head := head, deqs := s.deqs ++ [data] }.goto t pc')
      nodes' := by
  have hpc := h.pc t
  rw [hat] at hpc
  obtain ⟨hfirst, hbehind, hnext, hentry⟩ := hpc
  have hsame := hfirst.1.cmpxchg hfew hcas
  have hpointer := hfirst.2 hsame
  obtain ⟨n, hn, hlinked⟩ := hnext hsame
  cases hn
  rw [hpointer] at hlinked hpc'
  obtain ⟨rest, hnodes, hchain⟩ := h.first_next hlinked
  have hfifo := h.fifo
  rw [hnodes] at hfifo
  obtain rfl : s.data next = data := by
    have hget := (hfifo.next).symm.trans (hentry hsame)
    exact (Prod.mk.inj (Option.some.inj hget)).2
  have hhead : head.pointer = next ∧ head.changes = s.head.changes + 1 := by
    obtain ⟨-, -, rfl⟩ := cmpxchg_some hcas
    exact ⟨rfl, rfl⟩
  have hholds : (s.pc t).holds = [] := by rw [hat]; rfl
  have hmoved : Apart (content ({ s with head := head, deqs := s.deqs ++ [s.data next] }.goto t
      pc') (next :: rest)) ∧ ∀ p n, n ∈ content ({ s with
        head := head, deqs := s.deqs ++ [s.data next] }.goto t pc') (next :: rest) p →
          n ≠ sentinel → s.inside n = true := by
    by_cases hs : s.head.pointer = sentinel
    · rw [if_pos hs] at hpc'
      have hothers (p : Option Tid) (hp : p ≠ none) : content ({ s with
          head := head, deqs := s.deqs ++ [s.data next] }.goto t pc') (next :: rest) p =
            content s nodes p := by
        by_cases hpt : p = some t
        · rw [hpt, content_self, hpc']
          exact hholds.symm
        · exact content_others rfl p hp hpt
      refine ⟨h.apart.drop (p := none) hothers ?_, fun p n hn hsentinel => ?_⟩
      · rw [content, content, hnodes]
        exact List.sublist_cons_self _ _
      · refine h.held p n ?_ hsentinel
        by_cases hp : p = none
        · rw [hp, content, hnodes]
          rw [hp] at hn
          exact List.mem_cons_of_mem _ hn
        · rw [hothers p hp] at hn
          exact hn
    · rw [if_neg hs] at hpc'
      refine h.transfer rfl ?_
      rw [hholds, hpc', List.append_nil, hnodes]
      exact List.perm_append_singleton _ _
  refine ⟨next :: rest, ?_, ?_, ?_, hmoved.1, hmoved.2, ?_⟩
  · change Linked _ (some head.pointer) _
    rw [hhead.1]
    exact hchain
  · have hin := h.tail
    rw [hnodes] at hin
    exact (List.mem_cons.mp hin).resolve_left (hbehind hsame)
  · change Fifo s.data s.order _ head.pointer _
    rw [hhead.1]
    exact hfifo.advance
  · refine h.pcs rfl ?_ (fun _ _ _ _ => ⟨rfl, rfl⟩) ?_
    · refine ⟨cmpxchg_since hcas, .refl _, fun _ => .refl _, fun _ _ hn => hn,
        fun _ _ _ hm => hm, fun n hn hnone => ?_, fun hchanges => ?_, fun hchanges => ?_⟩
      · rw [hnodes] at hn
        refine (List.mem_cons.mp hn).resolve_left fun heq => ?_
        rw [heq, hlinked] at hnone
        cases hnone
      · change head.changes = s.head.changes at hchanges
        omega
      · change head.changes = s.head.changes at hchanges
        omega
    · rw [hpc']
      split <;> trivial

theorem Inv.deqRetire (h : Inv sentinel s nodes) {first : Node} {data : Data}
    (hat : s.pc t = .deqRetire first data) :
    Inv sentinel ({ s with inside := update s.inside first false }.goto t
      (.deqRet (some data))) nodes := by
  have hothers (p : Option Tid) (hp : p ≠ some t) : content ({ s with
      inside := update s.inside first false }.goto t (.deqRet (some data))) nodes p =
        content s nodes p := by
    by_cases hnone : p = none
    · rw [hnone]
      rfl
    · exact content_others rfl p hnone hp
  have hself : content ({ s with
      inside := update s.inside first false }.goto t (.deqRet (some data))) nodes
        (some t) = [] := content_self ..
  have hmine : first ∈ content s nodes (some t) := by
    rw [content, hat]
    exact List.mem_singleton_self first
  refine ⟨h.chain, h.tail, h.fifo,
    h.apart.drop hothers (by rw [hself]; exact List.nil_sublist _), ?_, ?_⟩
  · intro p n hn hsentinel
    have hp : p ≠ some t := by
      rintro rfl
      rw [hself] at hn
      cases hn
    rw [hothers p hp] at hn
    have hne : n ≠ first := by
      rintro rfl
      exact hp (h.apart.unique p (some t) n hn hmine)
    change update s.inside first false n = true
    rw [update_of_ne hne]
    exact h.held p n hn hsentinel
  · exact h.pcs rfl ⟨.refl _, .refl _, fun _ => .refl _, fun _ _ hn => hn, fun _ _ _ hm => hm,
      fun _ hn _ => hn, fun _ hne => hne, fun _ _ he => he⟩ (fun _ _ _ _ => ⟨rfl, rfl⟩) trivial

/-- A write to the node that `t` has not appended yet. -/
theorem Inv.write (h : Inv sentinel s nodes) {qnode : Node} {word : Stamped (Option Node)}
    {data : Data} (hmine : (s.pc t).fresh = some qnode) (hgrown : Grown (s.next qnode) word)
    (hword : word = s.next qnode ∨ word.pointer = none) (hholds : pc'.holds = (s.pc t).holds)
    (hself : PcOk ({ s with
      next := update s.next qnode word
      data := update s.data qnode data }.goto t pc') nodes pc') :
    Inv sentinel ({ s with
      next := update s.next qnode word
      data := update s.data qnode data }.goto t pc') nodes := by
  have hne {n : Node} (hn : (s.pc t).fresh ≠ some n) : n ≠ qnode :=
    fun heq => hn (heq ▸ hmine)
  refine h.calm rfl ⟨rfl, rfl, rfl, rfl, .refl _, fun hne => hne,
    fun n hn => update_of_ne (hne hn) .., fun n hn => update_of_ne (hne hn) ..,
    fun n hn => ?_⟩ h.tail hholds hself
  rw [hmine] at hn
  cases hn
  change Grown _ (update s.next qnode word qnode) ∧
    (update s.next qnode word qnode = _ ∨
      (update s.next qnode word qnode).pointer = none)
  rw [update_self]
  exact ⟨hgrown, hword⟩

omit [DecidableEq Tid] [DecidableEq Node] in
/-- If the head has not changed and the tail is ahead of it, it has a next node. -/
theorem Inv.headNext (h : Inv sentinel s nodes) (hfirst : Since first s.head)
    (hbehind : Behind s first) : HeadNext s first (s.next first.pointer).pointer := by
  intro hsame
  have hpointer := hfirst.2 hsame
  have hne := hbehind hsame
  obtain ⟨rest, hrest, hlinked⟩ := h.chain.of_some
  rw [← hpointer] at hlinked
  cases hnext : (s.next first.pointer).pointer with
  | none =>
    rw [hnext] at hlinked
    have hin := h.tail
    rw [hrest, hlinked.of_none] at hin
    exact absurd (List.mem_singleton.mp hin) hne
  | some n => exact ⟨n, rfl, rfl⟩

theorem Inv.nextStep (h : Inv sentinel s nodes) (hfew : FewChanges s (.step t))
    (hstep : nextStep sentinel s t = some s') : ∃ nodes', Inv sentinel s' nodes' := by
  have hpc := h.pc t
  rw [UnboundedLfRecycle.nextStep] at hstep
  cases hat : s.pc t with
  | idle =>
    rw [hat] at hstep
    cases hstep
  | enqData qnode data =>
    rw [hat] at hstep
    cases hstep
    have hsame : { s with data := update s.data qnode data } = { s with
        next := update s.next qnode (s.next qnode)
        data := update s.data qnode data } := by rw [update_eq_self]
    rw [hsame]
    exact ⟨nodes, h.write (by rw [hat]; rfl) (.refl _) (.inl rfl) (by rw [hat]; rfl)
      (update_self ..)⟩
  | enqStamp qnode data =>
    rw [hat] at hstep hpc
    cases hstep
    exact ⟨nodes, h.goto (by rw [hat]; rfl) ⟨hpc, rfl⟩⟩
  | enqNull qnode data stamp =>
    rw [hat] at hstep hpc
    obtain ⟨hdata, rfl⟩ := hpc
    cases hstep
    have hsame : { s with
        next := update s.next qnode ((s.next qnode).set none (s.next qnode).stamp) } =
        { s with
          next := update s.next qnode ((s.next qnode).set none (s.next qnode).stamp)
          data := update s.data qnode (s.data qnode) } := by
      rw [update_eq_self]
    rw [hsame]
    -- the stamp has not changed since it was read
    have hgrown : Grown (s.next qnode) ((s.next qnode).set none (s.next qnode).stamp) := .refl _
    refine ⟨nodes, h.write (by rw [hat]; rfl) hgrown (.inr rfl) (by rw [hat]; rfl) ⟨?_, ?_⟩⟩
    · exact (update_self ..).trans hdata
    · exact congrArg Stamped.pointer (update_self qnode _ s.next)
  | enqTail qnode data =>
    rw [hat] at hstep hpc
    cases hstep
    exact ⟨nodes, h.goto (by rw [hat]; rfl) ⟨hpc, .refl _⟩⟩
  | enqNext qnode data last =>
    rw [hat] at hstep hpc
    cases hstep
    exact ⟨nodes, h.goto (by rw [hat]; rfl)
      ⟨hpc.1, hpc.2, .refl _, fun hnone _ => hnone, fun n hn _ => hn⟩⟩
  | enqCheck qnode data last next =>
    simp only [hat] at hstep
    rw [hat] at hpc
    obtain ⟨hmine, hlast, hgrown, hnull, hbehind⟩ := hpc
    split at hstep
    · rename_i hcheck
      split at hstep
      · rename_i hnone
        cases hstep
        refine ⟨nodes, h.goto (by rw [hat]; rfl) ⟨hmine, hlast, hgrown, hnull hnone, fun _ => ?_⟩⟩
        rw [hcheck.1]
        exact h.tail
      · rename_i n hsome
        cases hstep
        exact ⟨nodes, h.goto (by rw [hat]; rfl) ⟨hmine, hlast, hbehind n hsome⟩⟩
    · cases hstep
      exact ⟨nodes, h.goto (by rw [hat]; rfl) hmine⟩
  | enqCas qnode data last next =>
    simp only [hat] at hstep
    rw [FewChanges, hat] at hfew
    rw [hat] at hpc
    split at hstep
    · rename_i word hcas
      cases hstep
      exact ⟨_, h.enqCas hat hfew hcas⟩
    · cases hstep
      exact ⟨nodes, h.goto (by rw [hat]; rfl) hpc.1⟩
  | enqSwing qnode data last | deqHelp last next =>
    rw [FewChanges, hat] at hfew
    rw [hat] at hstep hpc
    cases hstep
    exact ⟨nodes, h.swing hpc.1 hpc.2 hfew (by rw [hat]; rfl) trivial⟩
  | enqHelp qnode data last next =>
    rw [FewChanges, hat] at hfew
    rw [hat] at hstep hpc
    cases hstep
    refine ⟨nodes, h.swing hpc.2.1 hpc.2.2 hfew (by rw [hat]; rfl) ?_⟩
    rw [State.swing]
    split
    · exact hpc.1
    · exact hpc.1
  | deqHead =>
    rw [hat] at hstep
    cases hstep
    exact ⟨nodes, h.goto (by rw [hat]; rfl) (Since.refl _)⟩
  | deqTail first =>
    rw [hat] at hstep hpc
    cases hstep
    refine ⟨nodes, h.goto (by rw [hat]; rfl) ⟨hpc, .refl _, fun hne hsame => ?_⟩⟩
    have hpointer : first.pointer = s.head.pointer := hpc.2 hsame
    exact fun heq => hne (hpointer.trans heq.symm)
  | deqNext first last =>
    rw [hat] at hstep hpc
    cases hstep
    obtain ⟨hfirst, hlast, hbehind⟩ := hpc
    refine ⟨nodes, h.goto (by rw [hat]; rfl) ⟨hfirst, hlast, fun hne => ?_, fun heq n hn _ => ?_⟩⟩
    · exact ⟨hbehind hne, h.headNext hfirst (hbehind hne)⟩
    · change (s.next last.pointer).pointer = some n
      rw [← heq]
      exact hn
  | deqCheck first last next =>
    rw [FewChanges, hat] at hfew
    simp only [hat] at hstep
    rw [hat] at hpc
    obtain ⟨hfirst, hlast, hdiff, hequal⟩ := hpc
    split at hstep
    · rename_i hhead
      split at hstep
      · rename_i heq
        cases next with
        | none =>
          cases hstep
          exact ⟨nodes, h.goto (by rw [hat]; rfl) trivial⟩
        | some next =>
          cases hstep
          exact ⟨nodes, h.goto (by rw [hat]; rfl) ⟨hlast, hequal heq next rfl⟩⟩
      · rename_i hne
        cases hstep
        obtain ⟨hbehind, hnext⟩ := hdiff hne
        have hsame := hfirst.1.changes_eq hhead.2 (hfew hhead.1.symm hhead.2 hne)
        obtain ⟨n, rfl, -⟩ := hnext hsame
        exact ⟨nodes, h.goto (by rw [hat]; rfl) ⟨hfirst, hbehind, hnext, by simp⟩⟩
    · cases hstep
      exact ⟨nodes, h.goto (by rw [hat]; rfl) trivial⟩
  | deqData first next =>
    rw [hat] at hstep hpc
    obtain ⟨hfirst, hbehind, hnext, hsome⟩ := hpc
    cases next with
    | none => exact absurd rfl hsome
    | some next =>
      cases hstep
      refine ⟨nodes, h.goto (by rw [hat]; rfl) ⟨hfirst, hbehind, hnext, fun hsame => ?_⟩⟩
      obtain ⟨n, hn, hlinked⟩ := hnext hsame
      cases hn
      have hpointer : first.pointer = s.head.pointer := hfirst.2 hsame
      rw [hpointer] at hlinked
      obtain ⟨rest, hnodes, -⟩ := h.first_next hlinked
      have hfifo := h.fifo
      rw [hnodes] at hfifo
      exact hfifo.next
  | deqCas first next data =>
    rw [FewChanges, hat] at hfew
    simp only [hat] at hstep
    split at hstep
    · rename_i head hcas
      cases hstep
      exact h.deqCas hat hfew hcas rfl
    · cases hstep
      exact ⟨nodes, h.goto (by rw [hat]; rfl) trivial⟩
  | deqRetire first data =>
    rw [hat] at hstep
    cases hstep
    exact ⟨nodes, h.deqRetire hat⟩
  | deqRet data =>
    rw [hat] at hstep
    cases hstep
    exact ⟨nodes, h.goto (by rw [hat]; rfl) trivial⟩

variable {a : Act Tid Node Data}

theorem Inv.step (h : Inv sentinel s nodes) (hfew : FewChanges s a)
    (hstep : step sentinel s a = some s') : ∃ nodes', Inv sentinel s' nodes' := by
  cases a with
  | enq t qnode data =>
    simp only [UnboundedLfRecycle.step] at hstep
    split at hstep
    · rename_i hidle
      split at hstep
      · cases hstep
      · rename_i hnew
        cases hstep
        obtain ⟨hsentinel, hnew⟩ := not_or.mp hnew
        exact ⟨nodes, h.enq hidle hsentinel (Bool.eq_false_iff.mpr hnew)⟩
    · cases hstep
  | deq t =>
    simp only [UnboundedLfRecycle.step] at hstep
    split at hstep
    · rename_i hidle
      cases hstep
      exact ⟨nodes, h.goto (by rw [hidle]; rfl) trivial⟩
    · cases hstep
  | step t => exact h.nextStep hfew hstep

omit [DecidableEq Tid] in
theorem vqueueUbInit_inv (sentinel : Node) (next : Node → Stamped (Option Node))
    (data : Node → Data) :
    Inv sentinel (vqueueUbInit sentinel next data : State Tid Node Data) [sentinel] where
  chain := ⟨rfl, congrArg Stamped.pointer (update_self sentinel _ next)⟩
  tail := List.mem_singleton_self _
  fifo := .start data sentinel
  apart := by
    refine ⟨?_, ?_⟩
    · intro p
      cases p with
      | none => exact List.nodup_singleton _
      | some t => exact List.nodup_nil
    · intro p q n hp hq
      cases p with
      | none =>
        cases q with
        | none => rfl
        | some t => cases hq
      | some t => cases hp
  held p n hn hsentinel := by
    cases p with
    | none => exact absurd (List.mem_singleton.mp hn) hsentinel
    | some t => cases hn
  pc _ := trivial

/-- Everything appended has been dequeued. -/
def Empty (s : State Tid Node Data) : Prop := waiting s.order s.deqs.length = []

omit [DecidableEq Tid] [DecidableEq Node] in
/-- A head without a next node: nothing is in the queue. -/
theorem Inv.empty (h : Inv sentinel s nodes) (hnone : (s.next s.head.pointer).pointer = none) :
    Empty s := by
  obtain ⟨rest, hrest, hlinked⟩ := h.chain.of_some
  rw [hnone] at hlinked
  have hpending := h.fifo.pending
  rw [hrest, hlinked.of_none] at hpending
  exact List.map_eq_nil_iff.mpr (List.map_eq_nil_iff.mp (List.cons.inj hpending).2.symm)

omit [DecidableEq Tid] in
theorem swing_same (s : State Tid Node Data) (last : Stamped Node) (next : Node) :
    (s.swing last next).pc = s.pc ∧ (s.swing last next).head = s.head ∧
      (s.swing last next).order = s.order ∧ (s.swing last next).deqs = s.deqs := by
  rw [State.swing]
  split <;> exact ⟨rfl, rfl, rfl, rfl⟩

/-- What a step of `t` does to the head and to a dequeue of `t` that finds no next node. -/
structure DeqStep (s s' : State Tid Node Data) (t : Tid) : Prop where
  others : ∀ u, u ≠ t → s'.pc u = s.pc u
  head : Since s.head s'.head
  check : ∀ first last, s'.pc t = .deqCheck first last none →
    s'.head = s.head ∧ s'.order = s.order ∧ s'.deqs = s.deqs ∧
      (s.next first.pointer).pointer = none
  ret : s'.pc t = .deqRet none → ∃ first last, s.pc t = .deqCheck first last none ∧
    s.head.stamp = first.stamp

section Frame

omit [DecidableEq Node]

theorem goto_self (s : State Tid Node Data) (t : Tid) (pc : Pc Node Data) :
    (s.goto t pc).pc t = pc := update_self ..

theorem deqStep_goto {s₁ : State Tid Node Data} {pc : Pc Node Data} (hpc : s₁.pc = s.pc)
    (hhead : Since s.head s₁.head) (hcheck : ∀ first last, pc ≠ .deqCheck first last none)
    (hret : pc ≠ .deqRet none) : DeqStep s (s₁.goto t pc) t := by
  refine ⟨fun u hu => ?_, hhead, fun first last hat => ?_, fun hat => ?_⟩
  · exact (update_of_ne hu pc s₁.pc).trans (congrFun hpc u)
  · rw [goto_self] at hat
    exact absurd hat (hcheck first last)
  · rw [goto_self] at hat
    exact absurd hat hret

end Frame

theorem nextStep_deqStep (hstep : nextStep sentinel s t = some s') : DeqStep s s' t := by
  rw [nextStep] at hstep
  cases hat : s.pc t with
  | idle =>
    rw [hat] at hstep
    cases hstep
  | enqData _ _ | enqStamp _ _ | enqNull _ _ _ | enqTail _ _ | enqNext _ _ _ | deqHead | deqTail _
  | deqRetire _ _ | deqRet _ =>
    rw [hat] at hstep
    cases hstep
    exact deqStep_goto rfl (.refl _) (by rintro _ _ ⟨⟩) (by rintro ⟨⟩)
  | enqCheck qnode data last next =>
    simp only [hat] at hstep
    repeat' split at hstep
    all_goals cases hstep
    all_goals exact deqStep_goto rfl (.refl _) (by rintro _ _ ⟨⟩) (by rintro ⟨⟩)
  | enqCas qnode data last next =>
    simp only [hat] at hstep
    split at hstep <;> cases hstep <;>
      exact deqStep_goto rfl (.refl _) (by rintro _ _ ⟨⟩) (by rintro ⟨⟩)
  | enqSwing qnode data last =>
    rw [hat] at hstep
    cases hstep
    obtain ⟨hpc, hhead, -⟩ := swing_same s last qnode
    exact deqStep_goto hpc (hhead ▸ .refl _) (by rintro _ _ ⟨⟩) (by rintro ⟨⟩)
  | enqHelp _ _ last next | deqHelp last next =>
    rw [hat] at hstep
    cases hstep
    obtain ⟨hpc, hhead, -⟩ := swing_same s last next
    exact deqStep_goto hpc (hhead ▸ .refl _) (by rintro _ _ ⟨⟩) (by rintro ⟨⟩)
  | deqNext first last =>
    rw [hat] at hstep
    cases hstep
    refine ⟨fun u hu => update_of_ne hu .., .refl _, fun f l hf => ?_, fun hret => ?_⟩
    · rw [goto_self] at hf
      injection hf with hfirst _ hnone
      rw [← hfirst]
      exact ⟨rfl, rfl, rfl, hnone⟩
    · rw [goto_self] at hret
      cases hret
  | deqCheck first last next =>
    simp only [hat] at hstep
    split at hstep
    · rename_i hhead
      split at hstep
      · cases next with
        | none =>
          cases hstep
          refine ⟨fun u hu => update_of_ne hu .., .refl _, fun f l hf => ?_,
            fun _ => ⟨first, last, hat, hhead.2⟩⟩
          rw [goto_self] at hf
          cases hf
        | some next =>
          cases hstep
          exact deqStep_goto rfl (.refl _) (by rintro _ _ ⟨⟩) (by rintro ⟨⟩)
      · cases hstep
        exact deqStep_goto rfl (.refl _) (by rintro _ _ ⟨⟩) (by rintro ⟨⟩)
    · cases hstep
      exact deqStep_goto rfl (.refl _) (by rintro _ _ ⟨⟩) (by rintro ⟨⟩)
  | deqData first next =>
    cases next with
    | none =>
      rw [hat] at hstep
      cases hstep
    | some next =>
      rw [hat] at hstep
      cases hstep
      exact deqStep_goto rfl (.refl _) (by rintro _ _ ⟨⟩) (by rintro ⟨⟩)
  | deqCas first next data =>
    simp only [hat] at hstep
    split at hstep
    · rename_i head hcas
      cases hstep
      refine deqStep_goto rfl (cmpxchg_since hcas) ?_ ?_
      · intro f l
        split <;> rintro ⟨⟩
      · split <;> rintro ⟨⟩
    · cases hstep
      exact deqStep_goto rfl (.refl _) (by rintro _ _ ⟨⟩) (by rintro ⟨⟩)

theorem step_deqStep (hstep : step sentinel s a = some s') : DeqStep s s' a.thread := by
  cases a with
  | enq t qnode data =>
    simp only [step] at hstep
    split at hstep
    · split at hstep <;> cases hstep
      exact deqStep_goto rfl (.refl _) (by rintro _ _ ⟨⟩) (by rintro ⟨⟩)
    · cases hstep
  | deq t =>
    simp only [step] at hstep
    split at hstep <;> cases hstep
    exact deqStep_goto rfl (.refl _) (by rintro _ _ ⟨⟩) (by rintro ⟨⟩)
  | step t => exact nextStep_deqStep hstep

/-- A dequeue that has found no next node behind a head that did not change since met an empty
queue. -/
def History (past : List (State Tid Node Data × Act Tid Node Data))
    (s : State Tid Node Data) : Prop :=
  ∀ t first last, s.pc t = .deqCheck first last none → first.changes = s.head.changes →
    During (fun s => s.pc t ≠ .idle) Empty (moments past s)

omit [DecidableEq Tid] [DecidableEq Node] in
theorem History.step {past : List (State Tid Node Data × Act Tid Node Data)} (hist : History past s)
    (h : Inv sentinel s nodes) (h' : Inv sentinel s' nodes') (hstep : DeqStep s s' a.thread) :
    History ((s, a) :: past) s' := by
  intro u first last hat hsame
  have hbusy : s'.pc u ≠ .idle := by
    rw [hat]
    rintro ⟨⟩
  have hpc := h'.pc u
  rw [hat] at hpc
  have hpointer : first.pointer = s'.head.pointer := hpc.1.2 hsame
  by_cases hu : u = a.thread
  · subst hu
    obtain ⟨hhead, horder, hdeqs, hnone⟩ := hstep.check first last hat
    refine .now hbusy ?_
    rw [Empty, horder, hdeqs]
    rw [hpointer, hhead] at hnone
    exact h.empty hnone
  · have hat' : s.pc u = .deqCheck first last none := (hstep.others u hu).symm.trans hat
    have hpc := h.pc u
    rw [hat'] at hpc
    exact .before hbusy (hist u first last hat' (hpc.1.1.unchanged hstep.head.1 hsame).1)

/-- The operations of a queue. What a dequeue that returns NULL has seen is said apart, as it
depends on how often the head changed since the dequeue read it. -/
def recycleSpec (queue : List Data) :
    QueueCall Data → QueueResult Data → List Data → Prop
  | .deq, .taken none, queue' => queue' = queue
  | call, result, queue' => queueSpec queue call result queue'

/-- What a call will return, once that is fixed. -/
def Pc.settled : Pc Node Data → Option (QueueCall Data × QueueResult Data)
  | .enqSwing _ data _ => some (.enq data, .done)
  | .deqRetire _ data => some (.deq, .taken (some data))
  | .deqRet data => some (.deq, .taken data)
  | _ => none

def view : View (State Tid Node Data) Tid (List Data) (QueueCall Data) (QueueResult Data) :=
  .ofPlaces (fun s => waiting s.order s.deqs.length) State.pc .idle Pc.settled rfl

variable {past : List (State Tid Node Data × Act Tid Node Data)}

theorem Inv.nextStep_moves (h : Inv sentinel s nodes) (hfew : FewChanges s (.step t))
    (hstep : UnboundedLfRecycle.nextStep sentinel s t = some s') :
    Core.Moves view recycleSpec t past s s' := by
  have hpc := h.pc t
  rw [UnboundedLfRecycle.nextStep] at hstep
  cases hat : s.pc t with
  | idle =>
    rw [hat] at hstep
    cases hstep
  | enqData _ _ | enqStamp _ _ | enqNull _ _ _ | enqTail _ _ | enqNext _ _ _ | deqHead | deqTail _
  | deqNext _ _ | deqRetire _ _ =>
    rw [hat] at hstep
    cases hstep
    exact .walkTo rfl rfl (.inl (by rw [hat]; rfl))
  | deqRet _ =>
    rw [hat] at hstep
    cases hstep
    exact .walkTo rfl rfl (.inr rfl)
  | enqCheck _ _ _ _ =>
    simp only [hat] at hstep
    repeat' split at hstep
    all_goals cases hstep
    all_goals exact .walkTo rfl rfl (.inl (by rw [hat]; rfl))
  | enqCas qnode data last next =>
    simp only [hat] at hstep
    split at hstep <;> cases hstep
    · exact .settleTo (.enq data) .done rfl (by rw [hat]; rfl) rfl (waiting_enq h.fifo.length_le)
    · exact .walkTo rfl rfl (.inl (by rw [hat]; rfl))
  | enqSwing qnode data last =>
    rw [hat] at hstep
    cases hstep
    obtain ⟨hpcs, -, horder, hdeqs⟩ := swing_same s last qnode
    refine .walkTo (congrArg (update · t _) hpcs) ?_ (.inr rfl)
    exact congrArg₂ waiting horder (congrArg List.length hdeqs)
  | enqHelp _ _ last next | deqHelp last next =>
    rw [hat] at hstep
    cases hstep
    obtain ⟨hpcs, -, horder, hdeqs⟩ := swing_same s last next
    refine .walkTo (congrArg (update · t _) hpcs) ?_ (.inl (by rw [hat]; rfl))
    exact congrArg₂ waiting horder (congrArg List.length hdeqs)
  | deqCheck first last next =>
    simp only [hat] at hstep
    split at hstep
    · split at hstep
      · cases next with
        | none =>
          cases hstep
          exact .settleTo .deq (.taken none) rfl (by rw [hat]; rfl) rfl rfl
        | some next =>
          cases hstep
          exact .walkTo rfl rfl (.inl (by rw [hat]; rfl))
      · cases hstep
        exact .walkTo rfl rfl (.inl (by rw [hat]; rfl))
    · cases hstep
      exact .walkTo rfl rfl (.inl (by rw [hat]; rfl))
  | deqData first next =>
    cases next with
    | none =>
      rw [hat] at hstep
      cases hstep
    | some next =>
      rw [hat] at hstep
      cases hstep
      exact .walkTo rfl rfl (.inl (by rw [hat]; rfl))
  | deqCas first next data =>
    rw [FewChanges, hat] at hfew
    rw [hat] at hpc
    simp only [hat] at hstep
    split at hstep
    · rename_i head hcas
      cases hstep
      have hentry := hpc.2.2.2 (hpc.1.1.cmpxchg hfew hcas)
      refine .settleTo .deq (.taken (some data)) rfl (by rw [hat]; rfl) ?_
        (queueSpec_taken _ hentry)
      split <;> rfl
    · cases hstep
      exact .walkTo rfl rfl (.inl (by rw [hat]; rfl))

theorem Inv.step_moves (h : Inv sentinel s nodes) (hfew : FewChanges s a)
    (hstep : UnboundedLfRecycle.step sentinel s a = some s') :
    Core.Moves view recycleSpec a.thread past s s' := by
  cases a with
  | enq t qnode data =>
    simp only [UnboundedLfRecycle.step] at hstep
    split at hstep
    · rename_i hidle
      split at hstep <;> cases hstep
      exact .walkTo rfl rfl (.inl (congrArg Pc.settled hidle).symm)
    · cases hstep
  | deq t =>
    simp only [UnboundedLfRecycle.step] at hstep
    split at hstep
    · rename_i hidle
      cases hstep
      exact .walkTo rfl rfl (.inl (congrArg Pc.settled hidle).symm)
    · cases hstep
  | step t => exact h.nextStep_moves hfew hstep

theorem nextStep_answers (hstep : nextStep sentinel s t = some s') (hidle : s'.pc t = .idle) :
    ∃ x, (s.pc t).settled = some x := by
  rw [nextStep] at hstep
  cases hat : s.pc t with
  | enqSwing _ _ _ | deqRet _ => exact ⟨_, rfl⟩
  | deqData first next =>
    rw [hat] at hstep
    cases next with
    | none => cases hstep
    | some next =>
      cases hstep
      rw [goto_self] at hidle
      cases hidle
  | _ =>
    exfalso
    simp only [hat] at hstep
    repeat' split at hstep
    all_goals cases hstep
    all_goals
      rw [goto_self] at hidle
      cases hidle

variable {next : Node → Stamped (Option Node)} {data : Node → Data}

theorem run_inv (run : (machine Tid Node Data sentinel next data).Run past s)
    (hfew : AllSteps FewChanges past) : (∃ nodes, Inv sentinel s nodes) ∧ History past s := by
  refine run.history_invariant
    (I := fun past s => (∃ nodes, Inv sentinel s nodes) ∧ History past s) ?_ ?_ hfew
  · rintro s rfl
    exact ⟨⟨_, vqueueUbInit_inv sentinel next data⟩, nofun⟩
  · rintro past s a s' - ⟨⟨nodes, h⟩, hist⟩ hok hstep
    obtain ⟨nodes', h'⟩ := h.step hok hstep
    exact ⟨⟨nodes', h'⟩, hist.step h h' (step_deqStep hstep)⟩

/-- The steps that find few changes. -/
def guardedMachine (Tid Node Data : Type) [DecidableEq Tid] [DecidableEq Node] (sentinel : Node)
    (next : Node → Stamped (Option Node)) (data : Node → Data) :
    Machine (State Tid Node Data) (Act Tid Node Data) :=
  (machine Tid Node Data sentinel next data).guarded fun s a => FewChanges s a

theorem run_linear (run : (machine Tid Node Data sentinel next data).Run past s)
    (hfew : AllSteps FewChanges past) :
    Linear (guardedMachine Tid Node Data sentinel next data)
    Act.thread view recycleSpec past s := by
  have hall : AllSteps (fun s a => decide (FewChanges s a) = true) past :=
    fun p hp => decide_eq_true (hfew p hp)
  apply (run.guard hall).linear_always
  · rintro s rfl t
    rfl
  · intro past s a s' run hstep
    obtain ⟨hok, hstep⟩ := Option.ite_none_right_eq_some.mp hstep
    obtain ⟨run, hall⟩ := run.of_guarded
    obtain ⟨⟨nodes, h⟩, -⟩ := run_inv run fun p hp => of_decide_eq_true (hall p hp)
    exact h.step_moves (of_decide_eq_true hok) hstep

theorem run_answers : Answers (machine Tid Node Data sentinel next data) Act.thread view s := by
  refine .ofPlaces fun a s' hstep hbusy hidle => ?_
  cases a with
  | enq t _ _ | deq t =>
    change s.pc t ≠ .idle at hbusy
    simp only [machine, step] at hstep
    cases hstep
  | step t => exact nextStep_answers hstep hidle

/-- The calls are atomic operations of a queue, and a dequeue returns NULL only by a read that
found the queue empty, if the head changed few times since. The nodes from the head on are the
old head and those appended and not dequeued, with their data; the tail is one of them, and a node
that is handed to `retire` is not. -/
structure Safe (sentinel : Node) (next : Node → Stamped (Option Node)) (data : Node → Data)
    (past : List (State Tid Node Data × Act Tid Node Data)) (s : State Tid Node Data) : Prop where
  linear : Linear (guardedMachine Tid Node Data sentinel next data) Act.thread view recycleSpec
    past s
  answers : Answers (machine Tid Node Data sentinel next data) Act.thread view s
  null : ∀ t s', step sentinel s (.step t) = some s' → s'.pc t = .deqRet none →
    ∃ first last, s.pc t = .deqCheck first last none ∧ (s.head.changes < first.changes + 128 →
      During (fun s => s.pc t ≠ .idle) Empty (moments past s))
  fifo : s.deqs <+: s.order.map Prod.snd
  chain : ∃ nodes, Linked (fun n => (s.next n).pointer) (some s.head.pointer) nodes ∧
    nodes.Nodup ∧ s.tail.pointer ∈ nodes ∧
    nodes = s.head.pointer :: (s.order.drop s.deqs.length).map Prod.fst ∧
    ∀ t first data, s.pc t = .deqRetire first data → first ∉ nodes
  kept : ∀ entry ∈ s.order.drop s.deqs.length, s.data entry.1 = entry.2
  notNull : ∀ t first, s.pc t ≠ .deqData first none

theorem vqueue_ub_recycle_safe (run : (machine Tid Node Data sentinel next data).Run past s)
    (hfew : AllSteps FewChanges past) : Safe sentinel next data past s := by
  obtain ⟨⟨nodes, h⟩, hist⟩ := run_inv run hfew
  refine ⟨run_linear run hfew, run_answers, ?_, h.fifo.values,
    ⟨nodes, h.chain, h.apart.nodup none, h.tail, h.fifo.pending, ?_⟩, h.fifo.kept, ?_⟩
  · intro t s' hstep hret
    obtain ⟨first, last, hat, hstamp⟩ := (nextStep_deqStep hstep).ret hret
    refine ⟨first, last, hat, fun hfew => hist t first last hat ?_⟩
    have hpc := h.pc t
    rw [hat] at hpc
    exact hpc.1.1.changes_eq hstamp hfew
  · intro t first data hat
    have hheld : first ∈ (s.pc t).holds := by
      rw [hat]
      exact List.mem_singleton_self first
    exact h.held_nodes hheld
  · intro t first hat
    have hpc := h.pc t
    rw [hat] at hpc
    exact hpc.2.2.2 rfl

/-- The dequeue of the second thread has read the head and its next node, which is
node 1. The first thread takes node 1 and then node 2 off, so that node 1 is retired
while the second thread still has a pointer to it, and enqueues node 1 again with
other data. The compare-and-swap of the second thread fails. -/
def recycling : List (Act Bool Nat Nat) :=
  List.flatten [
    .enq true 1 7 :: List.replicate 8 (.step true),
    .enq true 2 8 :: List.replicate 8 (.step true),
    .deq false :: List.replicate 5 (.step false),
    .deq true :: List.replicate 7 (.step true),
    .deq true :: List.replicate 8 (.step true),
    .enq true 1 9 :: List.replicate 8 (.step true),
    List.replicate 9 (.step false)]

theorem vqueue_ub_recycle_safe_recycling :
    ∃ past s, (machine Bool Nat Nat 0 (fun _ => ⟨none, 5, 0⟩) fun _ => 0).Run past s ∧
      AllSteps FewChanges past ∧ Safe 0 (fun _ => ⟨none, 5, 0⟩) (fun _ => 0) past s ∧ s.order =
      [(1, 7), (2, 8), (1, 9)] ∧
        s.deqs = [7, 8, 9] := by
  let M := machine Bool Nat Nat 0 (fun _ => ⟨none, 5, 0⟩) fun _ => 0
  have hexec : (M.exec (vqueueUbInit 0 (fun _ => ⟨none, 5, 0⟩) fun _ => 0) recycling).map
      (fun s => (s.order, s.deqs)) = some ([(1, 7), (2, 8), (1, 9)], [7, 8, 9]) := by
    decide +kernel
  obtain ⟨s, hs, hview⟩ := Option.map_eq_some_iff.mp hexec
  obtain ⟨horder, hdeqs⟩ := Prod.mk.inj hview
  have hfew : ∀ p ∈ M.pastOf (vqueueUbInit 0 (fun _ => ⟨none, 5, 0⟩) fun _ => 0) [] recycling,
      FewChanges p.1 p.2 := by
    decide +kernel
  have run := (Machine.Run.start (M := M) rfl).exec hs
  exact ⟨_, s, run, hfew, vqueue_ub_recycle_safe run hfew, horder, hdeqs⟩

/-- The first thread enqueues and dequeues in turn, with the nodes 2 and 1. -/
def lap : List (Act Bool Nat Nat) :=
  List.flatten [
    .enq true 2 0 :: List.replicate 8 (.step true), .deq true :: List.replicate 8 (.step true),
    .enq true 1 0 :: List.replicate 8 (.step true), .deq true :: List.replicate 8 (.step true)]

/-- The second thread reads the head, which is node 1, then the tail, which is node 2, and then the
`next` pointer of node 1, when node 1 was retired and enqueued again as the last node. Meanwhile
the head changes 128 times and is node 1 again, with the stamp that was read. -/
def stale : List (Act Bool Nat Nat) :=
  List.flatten [
    .enq true 1 0 :: List.replicate 8 (.step true), .deq true :: List.replicate 7 (.step true),
    [.deq false, .step false],
    .enq true 2 0 :: List.replicate 8 (.step true), [.step false],
    .deq true :: List.replicate 8 (.step true),
    .enq true 1 0 :: List.replicate 8 (.step true), [.step false],
    .deq true :: List.replicate 8 (.step true),
    List.flatten (List.replicate 63 lap), [.step false]]

/-- No compare-and-swap finds a word that changed often, as the one on the head is not reached: the
dequeue goes on to read data through NULL. -/
theorem vqueue_ub_recycle_null :
    ∃ past s first, (machine Bool Nat Nat 0 (fun _ => ⟨none, 0, 0⟩) fun _ => 0).Run past s ∧
      AllSteps FewAtCas past ∧ s.pc false = .deqData first none := by
  let M := (machine Bool Nat Nat 0 (fun _ => ⟨none, 0, 0⟩) fun _ => 0).guarded
    fun s a => FewAtCas s a
  have hexec : (M.exec (vqueueUbInit 0 (fun _ => ⟨none, 0, 0⟩) fun _ => 0) stale).map
      (fun s => s.pc false) = some (.deqData ⟨1, 1, 1⟩ none) := by
    decide +kernel
  obtain ⟨s, hs, hpc⟩ := Option.map_eq_some_iff.mp hexec
  obtain ⟨run, hfew⟩ := ((Machine.Run.start (M := M) rfl).exec hs).of_guarded
  exact ⟨_, s, _, run, fun p hp => of_decide_eq_true (hfew p hp), hpc⟩

end Libvsync.Queue.UnboundedLfRecycle
