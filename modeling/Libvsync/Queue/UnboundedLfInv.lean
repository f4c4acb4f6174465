import Libvsync.Core.Linked
import Libvsync.Core.Places
import Libvsync.Queue.UnboundedLf
import Mathlib.Data.List.Count

/-!
The invariant of the lock-free queue. The nodes from the head on form a chain that
contains the tail. A node that a call has read as the head or as the tail is still
in the chain or has left it for good: its `next` pointer is set, so nothing can be
appended behind it, and the head does not come back to it.
-/

namespace Libvsync.Queue.UnboundedLf

open Libvsync.Core Function

variable {Tid Node Data : Type} [DecidableEq Tid] [DecidableEq Node]

/-- The node that an enqueue has not appended yet. -/
def Pc.fresh : Pc Node Data → Option Node
  | .enqData qnode _ | .enqNull qnode _ | .enqTail qnode _ | .enqNext qnode _ _
  | .enqCheck qnode _ _ _ | .enqCas qnode _ _ | .enqHelp qnode _ _ _ => some qnode
  | _ => none

/-- The node that a dequeue has taken off and not retired yet. -/
def Pc.leaving : Pc Node Data → Option Node
  | .deqRetire first _ => some first
  | _ => none

def Pc.holds (pc : Pc Node Data) : List Node := pc.fresh.toList ++ pc.leaving.toList

/-- Where nodes are: in the queue or with a call. -/
def content (s : State Tid Node Data) (nodes : List Node) : Option Tid → List Node
  | none => nodes
  | some t => (s.pc t).holds

/-- The node has left the queue for good. -/
def Gone (s : State Tid Node Data) (nodes : List Node) (n : Node) : Prop :=
  n ∉ nodes ∧ (∀ t, (s.pc t).fresh ≠ some n) ∧ s.next n ≠ none

def Known (s : State Tid Node Data) (nodes : List Node) (n : Node) : Prop :=
  n ∈ nodes ∨ Gone s nodes n

def HeadOrGone (s : State Tid Node Data) (nodes : List Node) (n : Node) : Prop :=
  n = s.head ∨ Gone s nodes n

/-- The entry that is dequeued next. -/
def State.first (s : State Tid Node Data) : Option (Node × Data) := s.order[s.deqs.length]?

/-- What a call knows. The facts about the head are of use only as long as the
node read is still the head. -/
def PcOk (s : State Tid Node Data) (nodes : List Node) : Pc Node Data → Prop
  | .idle | .enqData _ _ | .deqHead | .deqRet _ => True
  | .enqNull qnode data => s.data qnode = some data
  | .enqTail qnode data => s.data qnode = some data ∧ s.next qnode = none
  | .enqNext qnode data last | .enqCas qnode data last =>
    (s.data qnode = some data ∧ s.next qnode = none) ∧ Known s nodes last
  | .enqCheck qnode data last next =>
    (s.data qnode = some data ∧ s.next qnode = none) ∧ Known s nodes last ∧
      ∀ n, next = some n → s.next last = some n
  | .enqHelp qnode data last next =>
    (s.data qnode = some data ∧ s.next qnode = none) ∧ Known s nodes last ∧
      s.next last = some next
  | .enqSwing qnode _ last => Known s nodes last ∧ s.next last = some qnode
  | .deqTail first => HeadOrGone s nodes first
  | .deqNext first last =>
    HeadOrGone s nodes first ∧ (first = s.head → last ≠ first → s.tail ≠ s.head)
  | .deqCheck first last next =>
    HeadOrGone s nodes first ∧ (first = s.head → last ≠ first → s.tail ≠ s.head) ∧
      (∀ n, next = some n → s.next first = some n) ∧
      (next = none → first = s.head → last = first)
  | .deqHelp last next => Known s nodes last ∧ s.next last = some next
  | .deqData first next =>
    HeadOrGone s nodes first ∧ (first = s.head → s.tail ≠ s.head) ∧ s.next first = some next
  | .deqCas first next data =>
    HeadOrGone s nodes first ∧ (first = s.head → s.tail ≠ s.head) ∧ s.next first = some next ∧
      (first = s.head → ∃ v, data = some v ∧ s.first = some (next, v))
  | .deqRetire first data => Gone s nodes first ∧ data ≠ none
  | .failed _ => False

def InUse (s : State Tid Node Data) (nodes : List Node) (n : Node) : Prop :=
  n ∈ nodes ∨ ∃ t, (s.pc t).leaving = some n

/-- A node was retired once for each time it was appended, unless it is still in
use. -/
def CountOk (s : State Tid Node Data) (nodes : List Node) (n : Node) : Prop :=
  (InUse s nodes n → (s.order.map Prod.fst).count n = s.retired.count n + 1) ∧
    (¬ InUse s nodes n → (s.order.map Prod.fst).count n = s.retired.count n)

structure Inv (sentinel : Node) (s : State Tid Node Data) (nodes : List Node) : Prop where
  chain : Linked s.next (some s.head) nodes
  tail : s.tail ∈ nodes
  pending : nodes = s.head :: (s.order.drop s.deqs.length).map Prod.fst
  values : s.deqs = (s.order.map fun entry => some entry.2).take s.deqs.length
  data : ∀ entry ∈ s.order.drop s.deqs.length, s.data entry.1 = some entry.2
  apart : Apart (content s nodes)
  inside : ∀ n, s.inside n = true ↔ n ≠ sentinel ∧ ∃ p, n ∈ content s nodes p
  count : ∀ n, n ≠ sentinel → CountOk s nodes n
  unused : ∀ t, sentinel ∉ (s.pc t).holds
  pc : ∀ t, PcOk s nodes (s.pc t)

variable {sentinel : Node} {s s' : State Tid Node Data} {nodes nodes' : List Node} {t : Tid}
  {pc' : Pc Node Data}

/-- What a step leaves of what a call at `pc` knows. -/
structure Keeps (s s' : State Tid Node Data) (nodes nodes' : List Node) (pc : Pc Node Data) :
    Prop where
  own : ∀ n, pc.fresh = some n → s'.next n = s.next n ∧ s'.data n = s.data n
  known : ∀ n ∈ pc.sees, Known s nodes n → Known s' nodes' n
  gone : ∀ n ∈ pc.sees, Gone s nodes n → Gone s' nodes' n
  first : s'.head ≠ s.head → s.head ∈ pc.sees → Gone s' nodes' s.head
  back : ∀ n ∈ pc.sees, HeadOrGone s nodes n → n = s'.head → n = s.head
  next : ∀ n ∈ pc.sees, Known s nodes n → ∀ m, s.next n = some m → s'.next n = some m
  tail : s'.head = s.head → s.tail ≠ s.head → s'.tail ≠ s'.head
  entry : s'.head = s.head → ∀ e, s.first = some e → s'.first = some e

variable {pc : Pc Node Data}

section

omit [DecidableEq Tid] [DecidableEq Node]

theorem Keeps.headOrGone (h : Keeps s s' nodes nodes' pc) {n : Node} (hn : n ∈ pc.sees)
    (hfirst : HeadOrGone s nodes n) : HeadOrGone s' nodes' n := by
  rcases hfirst with rfl | hgone
  · by_cases hhead : s'.head = s.head
    · exact .inl hhead.symm
    · exact .inr (h.first hhead hn)
  · exact .inr (h.gone n hn hgone)

/-- A fact about the head, when the head is still the node read. -/
theorem Keeps.tail_ne (h : Keeps s s' nodes nodes' pc) {n : Node} (hn : n ∈ pc.sees)
    (hfirst : HeadOrGone s nodes n) (hold : n = s.head → s.tail ≠ s.head) (hhead : n = s'.head) :
    s'.tail ≠ s'.head := by
  have hback := h.back n hn hfirst hhead
  exact h.tail (hhead.symm.trans hback) (hold hback)

theorem PcOk.keeps (h : PcOk s nodes pc) (hhead : s.head ∈ nodes)
    (hkeeps : Keeps s s' nodes nodes' pc) : PcOk s' nodes' pc := by
  have hknown {n : Node} (hn : HeadOrGone s nodes n) : Known s nodes n := by
    rcases hn with rfl | hgone
    · exact .inl hhead
    · exact .inr hgone
  have hown {n : Node} {d : Data} (hn : pc.fresh = some n)
      (hold : s.data n = some d ∧ s.next n = none) : s'.data n = some d ∧ s'.next n = none := by
    obtain ⟨hnext, hdata⟩ := hkeeps.own n hn
    exact ⟨hdata.trans hold.1, hnext.trans hold.2⟩
  cases pc with
  | idle | enqData _ _ | deqHead | deqRet _ => trivial
  | enqNull qnode data => exact (hkeeps.own qnode rfl).2.trans h
  | enqTail qnode data => exact hown rfl h
  | enqNext qnode data last | enqCas qnode data last =>
    exact ⟨hown rfl h.1, hkeeps.known last (by simp [Pc.sees]) h.2⟩
  | enqCheck qnode data last next =>
    obtain ⟨hmine, hlast, hnext⟩ := h
    have hin : last ∈ (Pc.enqCheck qnode data last next).sees := List.mem_cons_self ..
    exact ⟨hown rfl hmine, hkeeps.known last hin hlast,
      fun n hn => hkeeps.next last hin hlast n (hnext n hn)⟩
  | enqHelp qnode data last next =>
    obtain ⟨hmine, hlast, hnext⟩ := h
    have hin : last ∈ (Pc.enqHelp qnode data last next).sees := List.mem_cons_self ..
    exact ⟨hown rfl hmine, hkeeps.known last hin hlast, hkeeps.next last hin hlast next hnext⟩
  | enqSwing qnode data last =>
    have hin : last ∈ (Pc.enqSwing qnode data last : Pc Node Data).sees := by simp [Pc.sees]
    exact ⟨hkeeps.known last hin h.1, hkeeps.next last hin h.1 qnode h.2⟩
  | deqTail first => exact hkeeps.headOrGone (List.mem_cons_self ..) h
  | deqNext first last =>
    have hin : first ∈ (Pc.deqNext first last : Pc Node Data).sees := List.mem_cons_self ..
    exact ⟨hkeeps.headOrGone hin h.1, fun heq hne =>
      hkeeps.tail_ne hin h.1 (fun hback => h.2 hback hne) heq⟩
  | deqCheck first last next =>
    obtain ⟨hfirst, htail, hnext, hnone⟩ := h
    have hin : first ∈ (Pc.deqCheck first last next : Pc Node Data).sees :=
      List.mem_cons_self ..
    refine ⟨hkeeps.headOrGone hin hfirst, ?_, ?_, ?_⟩
    · intro heq hne
      exact hkeeps.tail_ne hin hfirst (fun hback => htail hback hne) heq
    · intro n hn
      exact hkeeps.next first hin (hknown hfirst) n (hnext n hn)
    · intro hn heq
      exact hnone hn (hkeeps.back first hin hfirst heq)
  | deqHelp last next =>
    have hin : last ∈ (Pc.deqHelp last next : Pc Node Data).sees := List.mem_cons_self ..
    exact ⟨hkeeps.known last hin h.1, hkeeps.next last hin h.1 next h.2⟩
  | deqData first next =>
    obtain ⟨hfirst, htail, hnext⟩ := h
    have hin : first ∈ (Pc.deqData first next : Pc Node Data).sees := List.mem_cons_self ..
    exact ⟨hkeeps.headOrGone hin hfirst, hkeeps.tail_ne hin hfirst htail,
      hkeeps.next first hin (hknown hfirst) next hnext⟩
  | deqCas first next data =>
    obtain ⟨hfirst, htail, hnext, hentry⟩ := h
    have hin : first ∈ (Pc.deqCas first next data).sees := List.mem_cons_self ..
    refine ⟨hkeeps.headOrGone hin hfirst, hkeeps.tail_ne hin hfirst htail,
      hkeeps.next first hin (hknown hfirst) next hnext, fun heq => ?_⟩
    have hback := hkeeps.back first hin hfirst heq
    obtain ⟨v, hv, hv'⟩ := hentry hback
    exact ⟨v, hv, hkeeps.entry (heq.symm.trans hback) _ hv'⟩
  | deqRetire first data => exact ⟨hkeeps.gone first (List.mem_cons_self ..) h.1, h.2⟩
  | failed message => exact h

end

section

omit [DecidableEq Tid]

theorem Inv.head_mem (h : Inv sentinel s nodes) : s.head ∈ nodes := by
  rw [h.pending]
  exact List.mem_cons_self ..

theorem Inv.fresh_out (h : Inv sentinel s nodes) {n : Node} (hn : (s.pc t).fresh = some n) :
    n ∉ nodes := by
  intro hin
  have hheld : n ∈ content s nodes (some t) := by
    rw [content, Pc.holds, hn]
    exact List.mem_append_left _ (List.mem_singleton_self n)
  cases h.apart.unique none (some t) n hin hheld

theorem Inv.fresh_inj (h : Inv sentinel s nodes) {u : Tid} {n : Node}
    (ht : (s.pc t).fresh = some n) (hu : (s.pc u).fresh = some n) : u = t := by
  have hheld {v : Tid} (hv : (s.pc v).fresh = some n) : n ∈ content s nodes (some v) := by
    rw [content, Pc.holds, hv]
    exact List.mem_append_left _ (List.mem_singleton_self n)
  exact Option.some.inj (h.apart.unique (some u) (some t) n (hheld hu) (hheld ht))

/-- The entries in the queue are of nodes in the queue. -/
theorem Inv.entry_mem (h : Inv sentinel s nodes) {entry : Node × Data}
    (hentry : entry ∈ s.order.drop s.deqs.length) : entry.1 ∈ nodes := by
  rw [h.pending]
  exact List.mem_cons_of_mem _ (List.mem_map_of_mem hentry)

/-- The queue itself does not change, but for the tail; only a node that `t` has
not appended yet may be written to. -/
structure Calm (s s' : State Tid Node Data) (t : Tid) : Prop where
  head : s'.head = s.head
  order : s'.order = s.order
  deqs : s'.deqs = s.deqs
  next : ∀ n, (s.pc t).fresh ≠ some n → s'.next n = s.next n
  data : ∀ n, (s.pc t).fresh ≠ some n → s'.data n = s.data n
  tail : s.tail ≠ s.head → s'.tail ≠ s.head

theorem Inv.keeps_calm (h : Inv sentinel s nodes) (hcalm : Calm s s' t)
    (hfresh : ∀ v n, (s'.pc v).fresh = some n →
      (s.pc v).fresh = some n ∨ ∀ w, n ∉ (s.pc w).sees) {u : Tid} (hu : u ≠ t) :
    Keeps s s' nodes nodes (s.pc u) := by
  have hsame {n : Node} (hn : Known s nodes n) : s'.next n = s.next n := by
    refine hcalm.next n fun hmine => ?_
    rcases hn with hin | hgone
    · exact h.fresh_out hmine hin
    · exact hgone.2.1 t hmine
  have hgone (n : Node) (hn : n ∈ (s.pc u).sees) (hgone : Gone s nodes n) : Gone s' nodes n := by
    refine ⟨hgone.1, fun v hv => ?_, ?_⟩
    · rcases hfresh v n hv with hold | hunseen
      · exact hgone.2.1 v hold
      · exact hunseen u hn
    · rw [hsame (.inr hgone)]
      exact hgone.2.2
  refine ⟨?_, ?_, hgone, ?_, ?_, ?_, ?_, ?_⟩
  · intro n hn
    have hother : (s.pc t).fresh ≠ some n := fun hmine => hu (h.fresh_inj hmine hn)
    exact ⟨hcalm.next n hother, hcalm.data n hother⟩
  · intro n hn hknown
    rcases hknown with hin | hout
    · exact .inl hin
    · exact .inr (hgone n hn hout)
  · intro hne
    exact absurd hcalm.head hne
  · intro n _ _ heq
    exact heq.trans hcalm.head
  · intro n _ hknown m hm
    rw [hsame hknown]
    exact hm
  · intro _ htail
    rw [hcalm.head]
    exact hcalm.tail htail
  · intro _ e he
    rw [State.first, hcalm.order, hcalm.deqs]
    exact he

end

/-- Thread `t` moves on; the others know what they knew. -/
theorem Inv.pcs (h : Inv sentinel s nodes) (hpc : s'.pc = update s.pc t pc')
    (hkeeps : ∀ u, u ≠ t → Keeps s s' nodes nodes' (s.pc u)) (hself : PcOk s' nodes' pc')
    (u : Tid) : PcOk s' nodes' (s'.pc u) := by
  rw [hpc]
  by_cases hu : u = t
  · subst hu
    rw [update_self]
    exact hself
  · rw [update_of_ne hu]
    exact (h.pc u).keeps h.head_mem (hkeeps u hu)

omit [DecidableEq Tid] in
theorem CountOk.congr {n : Node} (h : CountOk s nodes n) (horder : s'.order = s.order)
    (hretired : s'.retired = s.retired) (huse : InUse s' nodes' n ↔ InUse s nodes n) :
    CountOk s' nodes' n := by
  rw [CountOk, huse, horder, hretired]
  exact h

theorem Inv.calm (h : Inv sentinel s nodes) (hpc : s'.pc = update s.pc t pc')
    (hcalm : Calm s s' t) (htail : s'.tail ∈ nodes) (hinside : s'.inside = s.inside)
    (hretired : s'.retired = s.retired) (hfresh : pc'.fresh = (s.pc t).fresh)
    (hleaving : pc'.leaving = (s.pc t).leaving) (hself : PcOk s' nodes pc') :
    Inv sentinel s' nodes := by
  have hfreshes (u : Tid) : (s'.pc u).fresh = (s.pc u).fresh := by
    rw [hpc]
    by_cases hu : u = t
    · rw [hu, update_self, hfresh]
    · rw [update_of_ne hu]
  have hleavings (u : Tid) : (s'.pc u).leaving = (s.pc u).leaving := by
    rw [hpc]
    by_cases hu : u = t
    · rw [hu, update_self, hleaving]
    · rw [update_of_ne hu]
  have hholds (u : Tid) : (s'.pc u).holds = (s.pc u).holds := by
    rw [Pc.holds, Pc.holds, hfreshes, hleavings]
  have hcontent : content s' nodes = content s nodes := by
    funext p
    cases p with
    | none => rfl
    | some u => exact hholds u
  refine ⟨?_, htail, ?_, ?_, ?_, ?_, ?_, ?_, ?_, ?_⟩
  · rw [hcalm.head]
    exact h.chain.congr fun n hn => hcalm.next n fun hmine => h.fresh_out hmine hn
  · rw [hcalm.head, hcalm.order, hcalm.deqs]
    exact h.pending
  · rw [hcalm.order, hcalm.deqs]
    exact h.values
  · intro entry hentry
    rw [hcalm.order, hcalm.deqs] at hentry
    rw [hcalm.data entry.1 fun hmine => h.fresh_out hmine (h.entry_mem hentry)]
    exact h.data entry hentry
  · rw [hcontent]
    exact h.apart
  · rw [hinside, hcontent]
    exact h.inside
  · intro n hn
    refine (h.count n hn).congr hcalm.order hretired ?_
    rw [InUse, InUse]
    simp only [hleavings]
  · intro u
    rw [hholds]
    exact h.unused u
  · refine h.pcs hpc (fun u hu => h.keeps_calm hcalm ?_ hu) hself
    intro v n hv
    rw [hfreshes] at hv
    exact .inl hv

omit [DecidableEq Node] in
theorem goto_pc (s : State Tid Node Data) (t : Tid) (pc : Pc Node Data) :
    (s.goto t pc).pc = update s.pc t pc := rfl

theorem Inv.goto (h : Inv sentinel s nodes) (hfresh : pc.fresh = (s.pc t).fresh)
    (hleaving : pc.leaving = (s.pc t).leaving) (hself : PcOk (s.goto t pc) nodes pc) :
    Inv sentinel (s.goto t pc) nodes :=
  h.calm rfl ⟨rfl, rfl, rfl, fun _ _ => rfl, fun _ _ => rfl, fun htail => htail⟩ h.tail rfl rfl
    hfresh hleaving hself

omit [DecidableEq Tid] [DecidableEq Node] in
theorem Gone.congr {n : Node} (h : Gone s nodes n)
    (hfresh : ∀ u, (s'.pc u).fresh = some n → (s.pc u).fresh = some n)
    (hnext : s'.next n = s.next n) : Gone s' nodes n :=
  ⟨h.1, fun u hu => h.2.1 u (hfresh u hu), by rw [hnext]; exact h.2.2⟩

section

omit [DecidableEq Node]

theorem fresh_goto {s₁ : State Tid Node Data} (hpc : s₁.pc = s.pc)
    (hfresh : pc.fresh = (s.pc t).fresh) (u : Tid) (n : Node)
    (hu : ((s₁.goto t pc).pc u).fresh = some n) : (s.pc u).fresh = some n := by
  rw [goto_pc, hpc] at hu
  by_cases hut : u = t
  · rw [hut, update_self, hfresh] at hu
    rw [hut]
    exact hu
  · rw [update_of_ne hut] at hu
    exact hu

theorem Known.goto {s₁ : State Tid Node Data} {n : Node} (h : Known s nodes n)
    (hnext : s₁.next = s.next) (hpc : s₁.pc = s.pc) (hfresh : pc.fresh = (s.pc t).fresh) :
    Known (s₁.goto t pc) nodes n := by
  rcases h with hin | hgone
  · exact .inl hin
  · exact .inr (hgone.congr (fun u => fresh_goto hpc hfresh u n) (congrFun hnext n))

theorem HeadOrGone.goto {n : Node} (h : HeadOrGone s nodes n) (hfresh : pc.fresh = (s.pc t).fresh) :
    HeadOrGone (s.goto t pc) nodes n := by
  rcases h with hhead | hgone
  · exact .inl hhead
  · exact .inr (hgone.congr (fun u => fresh_goto rfl hfresh u n) rfl)

end

omit [DecidableEq Tid] in
theorem Inv.headOrGone_known (h : Inv sentinel s nodes) {n : Node} (hn : HeadOrGone s nodes n) :
    Known s nodes n := by
  rcases hn with rfl | hgone
  · exact .inl h.head_mem
  · exact .inr hgone

theorem Inv.swing (h : Inv sentinel s nodes) {last next : Node} (hnext : s.next last = some next)
    (hfresh : pc.fresh = (s.pc t).fresh) (hleaving : pc.leaving = (s.pc t).leaving)
    (hself : PcOk ((s.swing last next).goto t pc) nodes pc) :
    Inv sentinel ((s.swing last next).goto t pc) nodes := by
  rw [State.swing] at hself ⊢
  split at hself
  · rename_i htail
    rw [if_pos htail]
    subst htail
    have hmem := h.chain.next_mem h.tail hnext
    refine h.calm rfl ⟨rfl, rfl, rfl, fun _ _ => rfl, fun _ _ => rfl, fun _ hback => ?_⟩
      (List.mem_of_mem_tail hmem) rfl rfl hfresh hleaving hself
    have hnodup : nodes.Nodup := h.apart.nodup none
    change next = s.head at hback
    rw [h.pending] at hmem hnodup
    exact (List.nodup_cons.mp hnodup).1 (hback ▸ hmem)
  · rename_i htail
    rw [if_neg htail]
    exact h.goto hfresh hleaving hself

/-- An enqueue begins with a node that is not in use and that nobody sees. -/
theorem Inv.enq (h : Inv sentinel s nodes) {qnode : Node} {data : Data} (hidle : s.pc t = .idle)
    (hsentinel : qnode ≠ sentinel) (hnew : s.inside qnode = false)
    (hunseen : ∀ u, qnode ∉ (s.pc u).sees) :
    Inv sentinel ({ s with inside := update s.inside qnode true }.goto t
      (.enqData qnode data)) nodes := by
  have hother (u : Tid) (hu : u ≠ t) : ({ s with
      inside := update s.inside qnode true }.goto t (.enqData qnode data)).pc u =
        s.pc u := update_of_ne hu ..
  have hself : ({ s with inside := update s.inside qnode true }.goto t
      (.enqData qnode data)).pc t = .enqData qnode data := update_self ..
  have hfresh (p : Option Tid) : qnode ∉ content s nodes p := by
    intro hin
    rw [(h.inside qnode).mpr ⟨hsentinel, p, hin⟩] at hnew
    cases hnew
  have hcontent (p : Option Tid) (hp : p ≠ some t) :
      content ({ s with inside := update s.inside qnode true }.goto t
        (.enqData qnode data)) nodes p = content s nodes p := by
    cases p with
    | none => rfl
    | some u => rw [content, content, hother u fun hu => hp (hu ▸ rfl)]
  have hmine : content ({ s with inside := update s.inside qnode true }.goto t
      (.enqData qnode data)) nodes (some t) = qnode :: content s nodes (some t) := by
    rw [content, content, hself, hidle]
    rfl
  refine ⟨h.chain, h.tail, h.pending, h.values, h.data, h.apart.take hcontent hmine hfresh, ?_,
    ?_, ?_, ?_⟩
  · intro n
    change update s.inside qnode true n = true ↔ _
    by_cases hn : n = qnode
    · subst hn
      simp only [update_self, true_iff]
      exact ⟨hsentinel, some t, by rw [hmine]; simp⟩
    · rw [update_of_ne hn, h.inside]
      refine and_congr_right fun _ => exists_congr fun p => ?_
      by_cases hp : p = some t
      · rw [hp, hmine, List.mem_cons]
        exact (or_iff_right hn).symm
      · rw [hcontent p hp]
  · intro n hn
    refine (h.count n hn).congr rfl rfl (or_congr_right (exists_congr fun u => ?_))
    by_cases hu : u = t
    · rw [hu, hself, hidle]
      rfl
    · rw [hother u hu]
  · intro u
    by_cases hu : u = t
    · rw [hu, hself]
      intro hin
      have heq : sentinel = qnode := by simpa [Pc.holds, Pc.fresh, Pc.leaving] using hin
      exact hsentinel heq.symm
    · rw [hother u hu]
      exact h.unused u
  · have hcalm : Calm s ({ s with inside := update s.inside qnode true }.goto t
        (.enqData qnode data)) t :=
      ⟨rfl, rfl, rfl, fun _ _ => rfl, fun _ _ => rfl, fun htail => htail⟩
    refine h.pcs rfl (fun u hu => h.keeps_calm hcalm ?_ hu) trivial
    intro v n hv
    by_cases hvt : v = t
    · rw [hvt, hself] at hv
      cases hv
      exact .inr hunseen
    · rw [hother v hvt] at hv
      exact .inl hv

/-- The compare-and-swap on the last node succeeds. -/
theorem Inv.enqCas (h : Inv sentinel s nodes) {qnode last : Node} {data : Data}
    (hat : s.pc t = .enqCas qnode data last) (hnone : s.next last = none) :
    Inv sentinel ({ s with
      next := update s.next last (some qnode)
      order := s.order ++ [(qnode, data)] }.goto t (.enqSwing qnode data last))
      (nodes ++ [qnode]) := by
  have hother (u : Tid) (hu : u ≠ t) : ({ s with
      next := update s.next last (some qnode)
      order := s.order ++ [(qnode, data)] }.goto t (.enqSwing qnode data last)).pc u = s.pc u :=
    update_of_ne hu ..
  have hself : ({ s with
      next := update s.next last (some qnode)
      order := s.order ++ [(qnode, data)] }.goto t (.enqSwing qnode data last)).pc t =
        .enqSwing qnode data last := update_self ..
  have hpc := h.pc t
  rw [hat] at hpc
  obtain ⟨⟨hdata, hmynext⟩, hknown⟩ := hpc
  have hlast : last ∈ nodes := by
    rcases hknown with hin | hgone
    · exact hin
    · exact absurd hnone hgone.2.2
  have hmine : (s.pc t).fresh = some qnode := by rw [hat]; rfl
  have hout : qnode ∉ nodes := h.fresh_out hmine
  have hne : last ≠ qnode := fun heq => hout (heq ▸ hlast)
  have hlen : s.deqs.length ≤ s.order.length := by
    have hvalues := congrArg List.length h.values
    rw [List.length_take, List.length_map] at hvalues
    omega
  have hsentinel : qnode ≠ sentinel := by
    rintro rfl
    refine h.unused t ?_
    rw [Pc.holds, hmine]
    exact List.mem_append_left _ (List.mem_singleton_self _)
  have hfresh (u : Tid) (n : Node) (hu : (({ s with
      next := update s.next last (some qnode)
      order := s.order ++ [(qnode, data)] }.goto t (.enqSwing qnode data last)).pc u).fresh =
        some n) : (s.pc u).fresh = some n := by
    by_cases hut : u = t
    · rw [hut, hself] at hu
      cases hu
    · rw [hother u hut] at hu
      exact hu
  have hgone {n : Node} (hn : Gone s nodes n) : Gone ({ s with
      next := update s.next last (some qnode)
      order := s.order ++ [(qnode, data)] }.goto t (.enqSwing qnode data last))
      (nodes ++ [qnode]) n := by
    refine ⟨?_, fun u hu => hn.2.1 u (hfresh u n hu), ?_⟩
    · rw [List.mem_append, List.mem_singleton]
      rintro (hin | rfl)
      · exact hn.1 hin
      · exact hn.2.1 t hmine
    · have hnl : n ≠ last := fun heq => hn.1 (heq ▸ hlast)
      change update s.next last (some qnode) n ≠ none
      rw [update_of_ne hnl]
      exact hn.2.2
  have hknown' {n : Node} (hn : Known s nodes n) : Known ({ s with
      next := update s.next last (some qnode)
      order := s.order ++ [(qnode, data)] }.goto t (.enqSwing qnode data last))
      (nodes ++ [qnode]) n := by
    rcases hn with hin | hout
    · exact .inl (List.mem_append_left _ hin)
    · exact .inr (hgone hout)
  refine ⟨?_, List.mem_append_left _ h.tail, ?_, ?_, ?_, ?_, ?_, ?_, ?_, ?_⟩
  · have happend := h.chain.append (h.apart.nodup none) (h.chain.getLast_of_none hlast hnone) hout
    rw [show update s.next qnode none = s.next from
      update_eq_iff.mpr ⟨hmynext.symm, fun _ _ => rfl⟩] at happend
    exact happend
  · change nodes ++ [qnode] =
      s.head :: ((s.order ++ [(qnode, data)]).drop s.deqs.length).map Prod.fst
    rw [List.drop_append_of_le_length hlen, List.map_append, h.pending]
    rfl
  · change s.deqs = ((s.order ++ [(qnode, data)]).map fun entry => some entry.2).take s.deqs.length
    rw [List.map_append, List.take_append_of_le_length (by rw [List.length_map]; exact hlen)]
    exact h.values
  · intro entry hentry
    change entry ∈ (s.order ++ [(qnode, data)]).drop s.deqs.length at hentry
    rw [List.drop_append_of_le_length hlen] at hentry
    rcases List.mem_append.mp hentry with hold | hnew
    · exact h.data entry hold
    · rw [List.mem_singleton.mp hnew]
      exact hdata
  · refine h.apart.transfer (p := none) (q := some t) (Option.some_ne_none t).symm ?_ ?_
    · intro p hp hpt
      cases p with
      | none => exact absurd rfl hp
      | some u => rw [content, content, hother u fun hu => hpt (hu ▸ rfl)]
    · simp only [content, hself, hat]
      simp [Pc.holds, Pc.fresh, Pc.leaving]
  · intro n
    change s.inside n = true ↔ _
    rw [h.inside]
    refine and_congr_right fun _ => ?_
    have hheld : content s nodes (some t) = [qnode] := by
      rw [content, hat]
      rfl
    constructor
    · rintro ⟨p, hp⟩
      cases p with
      | none => exact ⟨none, List.mem_append_left _ hp⟩
      | some u =>
        by_cases hu : u = t
        · rw [hu, hheld] at hp
          exact ⟨none, List.mem_append_right _ hp⟩
        · exact ⟨some u, by rw [content, hother u hu]; exact hp⟩
    · rintro ⟨p, hp⟩
      cases p with
      | none =>
        rcases List.mem_append.mp hp with hin | hin
        · exact ⟨none, hin⟩
        · exact ⟨some t, by rw [hheld]; exact hin⟩
      | some u =>
        by_cases hu : u = t
        · rw [hu, content, hself] at hp
          cases hp
        · exact ⟨some u, by rw [content, hother u hu] at hp; exact hp⟩
  · intro n hn
    have hcount := h.count n hn
    have hleaving : (∃ u, (({ s with
        next := update s.next last (some qnode)
        order := s.order ++ [(qnode, data)] }.goto t (.enqSwing qnode data last)).pc u).leaving =
          some n) ↔ ∃ u, (s.pc u).leaving = some n := by
      refine exists_congr fun u => ?_
      by_cases hu : u = t
      · rw [hu, hself, hat]
        rfl
      · rw [hother u hu]
    rw [CountOk, InUse, hleaving, List.mem_append, List.mem_singleton]
    change (_ → ((s.order ++ [(qnode, data)]).map Prod.fst).count n = s.retired.count n + 1) ∧
      (_ → ((s.order ++ [(qnode, data)]).map Prod.fst).count n = s.retired.count n)
    rw [List.map_append, List.count_append]
    by_cases heq : n = qnode
    · subst heq
      have hunused : ¬ InUse s nodes n := by
        rintro (hin | ⟨u, hu⟩)
        · exact hout hin
        · have hheld : n ∈ content s nodes (some u) := by
            rw [content, Pc.holds, hu]
            exact List.mem_append_right _ (List.mem_singleton_self n)
          have hmine' : n ∈ content s nodes (some t) := by
            rw [content, hat]
            exact List.mem_singleton_self n
          rw [Option.some.inj (h.apart.unique (some u) (some t) n hheld hmine'), hat] at hu
          cases hu
      have hzero := hcount.2 hunused
      refine ⟨fun _ => by simp [hzero], fun hnot => absurd (.inl (.inr rfl)) hnot⟩
    · have hsame : (n ∈ nodes ∨ n = qnode) ↔ n ∈ nodes := or_iff_left heq
      have hzero : ([(qnode, data)].map Prod.fst).count n = 0 := by simp [Ne.symm heq]
      rw [hsame, hzero, Nat.add_zero]
      exact hcount
  · intro u
    by_cases hu : u = t
    · rw [hu, hself]
      exact List.not_mem_nil
    · rw [hother u hu]
      exact h.unused u
  · refine h.pcs rfl (fun u hu => ?_) ⟨hknown' (.inl hlast), update_self ..⟩
    refine ⟨?_, fun n _ => hknown', fun n _ => hgone, fun hhead => absurd rfl hhead,
      fun n _ _ heq => heq, ?_, fun _ htail => htail, ?_⟩
    · intro n hn
      have hnl : n ≠ last := fun heq => h.fresh_out hn (heq ▸ hlast)
      exact ⟨update_of_ne hnl .., rfl⟩
    · intro n _ _ m hm
      have hnl : n ≠ last := by
        rintro rfl
        rw [hnone] at hm
        cases hm
      exact (update_of_ne hnl ..).trans hm
    · intro _ e he
      change (s.order ++ [(qnode, data)])[s.deqs.length]? = some e
      rw [List.getElem?_append_left (List.getElem?_eq_some_iff.mp he).1]
      exact he

omit [DecidableEq Tid] in
/-- The first two nodes, when the head has a next one. -/
theorem Inv.first_next (h : Inv sentinel s nodes) {n : Node} (hn : s.next s.head = some n) :
    ∃ data, s.first = some (n, data) ∧ s.data n = some data ∧
      nodes = s.head :: n :: (s.order.drop (s.deqs.length + 1)).map Prod.fst := by
  obtain ⟨rest, hrest, hlinked⟩ := h.chain.of_some
  rw [hn] at hlinked
  obtain ⟨rest', rfl, -⟩ := hlinked.of_some
  have hpending := h.pending
  rw [hrest] at hpending
  have hmap := (List.cons.inj hpending).2
  cases hdrop : s.order.drop s.deqs.length with
  | nil =>
    rw [hdrop] at hmap
    cases hmap
  | cons entry more =>
    rw [hdrop] at hmap
    obtain ⟨hfst, hrest'⟩ := List.cons.inj hmap
    have hget : s.order[s.deqs.length]? = some entry := by
      have hget : (s.order.drop s.deqs.length)[0]? = some entry := by rw [hdrop]; rfl
      rw [List.getElem?_drop, Nat.add_zero] at hget
      exact hget
    have hdata := h.data entry (by rw [hdrop]; exact List.mem_cons_self ..)
    refine ⟨entry.2, ?_, ?_, ?_⟩
    · rw [State.first, hget, hfst]
    · rw [hfst]
      exact hdata
    · rw [hrest, hrest', ← List.drop_drop, hdrop]
      rfl

/-- The compare-and-swap on the head succeeds. The tail is ahead of the old head,
which nobody can append behind any more. -/
theorem Inv.deqCas (h : Inv sentinel s nodes) {next : Node} {data : Option Data}
    (hat : s.pc t = .deqCas s.head next data)
    (hpc' : pc' = if s.head = sentinel then .deqRet data else .deqRetire s.head data) :
    Inv sentinel ({ s with head := next, deqs := s.deqs ++ [data] }.goto t pc')
      (next :: (s.order.drop (s.deqs.length + 1)).map Prod.fst) := by
  have hother (u : Tid) (hu : u ≠ t) :
      ({ s with head := next, deqs := s.deqs ++ [data] }.goto t pc').pc u = s.pc u :=
    update_of_ne hu ..
  have hself : ({ s with head := next, deqs := s.deqs ++ [data] }.goto t pc').pc t = pc' :=
    update_self ..
  have hpc := h.pc t
  rw [hat] at hpc
  obtain ⟨-, htail, hnext, hentry⟩ := hpc
  obtain ⟨v, rfl, hfirst⟩ := hentry rfl
  obtain ⟨d, -, -, hnodes⟩ := h.first_next hnext
  generalize hrest : (s.order.drop (s.deqs.length + 1)).map Prod.fst = rest at hnodes
  have hnodup : nodes.Nodup := h.apart.nodup none
  have hheadout : s.head ∉ next :: rest := by
    rw [hnodes] at hnodup
    exact (List.nodup_cons.mp hnodup).1
  have hsub {n : Node} (hn : n ∈ next :: rest) : n ∈ nodes := by
    rw [hnodes]
    exact List.mem_cons_of_mem _ hn
  have hpcs : pc'.fresh = none ∧
      pc'.leaving = if s.head = sentinel then none else some s.head := by
    rw [hpc']
    split <;> exact ⟨rfl, rfl⟩
  have hfresh (u : Tid) (n : Node)
      (hu : (({ s with head := next, deqs := s.deqs ++ [some v] }.goto t pc').pc u).fresh =
        some n) : (s.pc u).fresh = some n := by
    by_cases hut : u = t
    · rw [hut, hself, hpcs.1] at hu
      cases hu
    · rw [hother u hut] at hu
      exact hu
  have hgone {n : Node} (hn : Gone s nodes n) :
      Gone ({ s with head := next, deqs := s.deqs ++ [some v] }.goto t pc') (next :: rest) n :=
    ⟨fun hin => hn.1 (hsub hin), fun u hu => hn.2.1 u (hfresh u n hu), hn.2.2⟩
  have hheadgone :
      Gone ({ s with head := next, deqs := s.deqs ++ [some v] }.goto t pc') (next :: rest)
        s.head := by
    refine ⟨hheadout, fun u hu => h.fresh_out (hfresh u s.head hu) h.head_mem, ?_⟩
    change s.next s.head ≠ none
    rw [hnext]
    exact Option.some_ne_none next
  have hlen : (s.deqs ++ [some v]).length = s.deqs.length + 1 := by simp
  have hcontent (p : Option Tid) (hp : p ≠ none) (hpt : p ≠ some t) :
      content ({ s with head := next, deqs := s.deqs ++ [some v] }.goto t pc') (next :: rest) p =
        content s nodes p := by
    cases p with
    | none => exact absurd rfl hp
    | some u => rw [content, content, hother u fun hu => hpt (hu ▸ rfl)]
  have hmine : content s nodes (some t) = [] := by rw [content, hat]; rfl
  have hmine' : content ({ s with head := next, deqs := s.deqs ++ [some v] }.goto t pc')
      (next :: rest) (some t) = if s.head = sentinel then [] else [s.head] := by
    rw [content, hself, Pc.holds, hpcs.1, hpcs.2]
    split <;> rfl
  refine ⟨?_, ?_, ?_, ?_, ?_, ?_, ?_, ?_, ?_, ?_⟩
  · have hchain := h.chain
    rw [hnodes] at hchain
    obtain ⟨-, -, hrest'⟩ := hchain
    exact ⟨rfl, hrest'⟩
  · have hin := h.tail
    rw [hnodes] at hin
    exact (List.mem_cons.mp hin).resolve_left (htail rfl)
  · change next :: rest = next :: (s.order.drop (s.deqs ++ [some v]).length).map Prod.fst
    rw [hlen, hrest]
  · change s.deqs ++ [some v] =
      (s.order.map fun entry => some entry.2).take (s.deqs ++ [some v]).length
    rw [State.first] at hfirst
    rw [hlen, List.take_add_one, List.getElem?_map, hfirst, ← h.values]
    rfl
  · intro entry hentry
    change entry ∈ s.order.drop (s.deqs ++ [some v]).length at hentry
    rw [hlen, ← List.drop_drop] at hentry
    exact h.data entry (List.mem_of_mem_drop hentry)
  · by_cases hs : s.head = sentinel
    · refine h.apart.drop (p := none) (fun p hp => ?_) ?_
      · by_cases hpt : p = some t
        · rw [hpt, hmine', hmine, if_pos hs]
        · exact hcontent p hp hpt
      · rw [content, content, hnodes]
        exact List.sublist_cons_self _ _
    · refine h.apart.transfer (p := none) (q := some t) (Option.some_ne_none t).symm hcontent ?_
      rw [hmine', hmine, if_neg hs, content, content, hnodes, List.append_nil]
      exact List.perm_append_singleton _ _
  · intro n
    change s.inside n = true ↔ _
    rw [h.inside]
    refine and_congr_right fun hn => ?_
    constructor
    · rintro ⟨p, hp⟩
      by_cases hpn : p = none
      · rw [hpn, content, hnodes] at hp
        rcases List.mem_cons.mp hp with rfl | hp
        · refine ⟨some t, ?_⟩
          rw [hmine', if_neg hn]
          exact List.mem_singleton_self _
        · exact ⟨none, hp⟩
      · by_cases hpt : p = some t
        · rw [hpt, hmine] at hp
          cases hp
        · exact ⟨p, by rw [hcontent p hpn hpt]; exact hp⟩
    · rintro ⟨p, hp⟩
      by_cases hpn : p = none
      · rw [hpn] at hp
        exact ⟨none, hsub hp⟩
      · by_cases hpt : p = some t
        · rw [hpt, hmine'] at hp
          split at hp
          · cases hp
          · rw [List.mem_singleton.mp hp]
            exact ⟨none, h.head_mem⟩
        · exact ⟨p, by rw [hcontent p hpn hpt] at hp; exact hp⟩
  · intro n hn
    refine (h.count n hn).congr rfl rfl ?_
    constructor
    · rintro (hin | ⟨u, hu⟩)
      · exact .inl (hsub hin)
      · by_cases hut : u = t
        · rw [hut, hself, hpcs.2] at hu
          split at hu
          · cases hu
          · cases hu
            exact .inl h.head_mem
        · rw [hother u hut] at hu
          exact .inr ⟨u, hu⟩
    · rintro (hin | ⟨u, hu⟩)
      · rw [hnodes] at hin
        rcases List.mem_cons.mp hin with rfl | hin
        · exact .inr ⟨t, by rw [hself, hpcs.2, if_neg hn]⟩
        · exact .inl hin
      · have hut : u ≠ t := by
          rintro rfl
          rw [hat] at hu
          cases hu
        exact .inr ⟨u, by rw [hother u hut]; exact hu⟩
  · intro u
    by_cases hu : u = t
    · rw [hu, hself, Pc.holds, hpcs.1, hpcs.2]
      split
      · exact List.not_mem_nil
      · rename_i hs
        intro hin
        exact hs (List.mem_singleton.mp hin).symm
    · rw [hother u hu]
      exact h.unused u
  · refine h.pcs rfl (fun u hu => ?_) ?_
    · refine ⟨fun n _ => ⟨rfl, rfl⟩, ?_, fun n _ => hgone, fun _ _ => hheadgone, ?_,
        fun n _ _ m hm => hm, ?_, ?_⟩
      · intro n _ hknown
        rcases hknown with hin | hout
        · rw [hnodes] at hin
          rcases List.mem_cons.mp hin with rfl | hin
          · exact .inr hheadgone
          · exact .inl hin
        · exact .inr (hgone hout)
      · intro n _ hn heq
        rcases hn with hhead | hout
        · exact hhead
        · exact absurd (hsub (List.mem_cons.mpr (.inl heq))) hout.1
      · intro hhead
        exact absurd (List.mem_cons.mpr (.inl hhead.symm)) hheadout
      · intro hhead
        exact absurd (List.mem_cons.mpr (.inl hhead.symm)) hheadout
    · rw [hpc'] at hheadgone ⊢
      split
      · trivial
      · rename_i hs
        rw [if_neg hs] at hheadgone
        exact ⟨hheadgone, Option.some_ne_none v⟩

theorem Inv.deqRetire (h : Inv sentinel s nodes) {first : Node} {data : Option Data}
    (hat : s.pc t = .deqRetire first data) :
    Inv sentinel ({ s with
      inside := update s.inside first false
      retired := s.retired ++ [first] }.goto t (.deqRet data)) nodes := by
  have hother (u : Tid) (hu : u ≠ t) : ({ s with
      inside := update s.inside first false
      retired := s.retired ++ [first] }.goto t (.deqRet data)).pc u = s.pc u :=
    update_of_ne hu ..
  have hself : ({ s with
      inside := update s.inside first false
      retired := s.retired ++ [first] }.goto t (.deqRet data)).pc t = .deqRet data :=
    update_self ..
  have hpc := h.pc t
  rw [hat] at hpc
  have hmine : content s nodes (some t) = [first] := by rw [content, hat]; rfl
  have hin : first ∈ content s nodes (some t) := by
    rw [hmine]
    exact List.mem_singleton_self first
  have hcontent (p : Option Tid) (hp : p ≠ some t) :
      content ({ s with
        inside := update s.inside first false
        retired := s.retired ++ [first] }.goto t (.deqRet data)) nodes p = content s nodes p := by
    cases p with
    | none => rfl
    | some u => rw [content, content, hother u fun hu => hp (hu ▸ rfl)]
  have hmine' : content ({ s with
      inside := update s.inside first false
      retired := s.retired ++ [first] }.goto t (.deqRet data)) nodes (some t) = [] := by
    rw [content, hself]
    rfl
  have huse (n : Node) : InUse ({ s with
      inside := update s.inside first false
      retired := s.retired ++ [first] }.goto t (.deqRet data)) nodes n ↔
        InUse s nodes n ∧ n ≠ first := by
    constructor
    · rintro (hnode | ⟨u, hu⟩)
      · exact ⟨.inl hnode, fun heq => hpc.1.1 (heq ▸ hnode)⟩
      · have hut : u ≠ t := by
          rintro rfl
          rw [hself] at hu
          cases hu
        rw [hother u hut] at hu
        refine ⟨.inr ⟨u, hu⟩, ?_⟩
        rintro rfl
        have hheld : n ∈ content s nodes (some u) := by
          rw [content, Pc.holds, hu]
          exact List.mem_append_right _ (List.mem_singleton_self n)
        exact hut (Option.some.inj (h.apart.unique (some u) (some t) n hheld hin))
    · rintro ⟨hnode | ⟨u, hu⟩, hn⟩
      · exact .inl hnode
      · have hut : u ≠ t := by
          rintro rfl
          rw [hat] at hu
          exact hn (Option.some.inj hu).symm
        exact .inr ⟨u, by rw [hother u hut]; exact hu⟩
  refine ⟨h.chain, h.tail, h.pending, h.values, h.data,
    h.apart.drop hcontent (by rw [hmine']; exact List.nil_sublist _), ?_, ?_, ?_, ?_⟩
  · intro n
    change update s.inside first false n = true ↔ _
    by_cases hn : n = first
    · subst hn
      rw [update_self]
      constructor
      · exact fun hfalse => absurd hfalse Bool.false_ne_true
      · rintro ⟨-, p, hp⟩
        by_cases hpt : p = some t
        · rw [hpt, hmine'] at hp
          cases hp
        · rw [hcontent p hpt] at hp
          exact absurd (h.apart.unique p (some t) n hp hin) hpt
    · rw [update_of_ne hn, h.inside]
      refine and_congr_right fun _ => exists_congr fun p => ?_
      by_cases hpt : p = some t
      · rw [hpt, hmine, hmine', List.mem_singleton]
        exact iff_of_false hn List.not_mem_nil
      · rw [hcontent p hpt]
  · intro n hn
    have hcount := h.count n hn
    rw [CountOk, huse]
    change (_ → (s.order.map Prod.fst).count n = (s.retired ++ [first]).count n + 1) ∧
      (_ → (s.order.map Prod.fst).count n = (s.retired ++ [first]).count n)
    rw [List.count_append]
    by_cases heq : n = first
    · subst heq
      have hone := hcount.1 (.inr ⟨t, by rw [hat]; rfl⟩)
      refine ⟨fun hin => absurd rfl hin.2, fun _ => ?_⟩
      rw [hone, List.count_singleton_self]
    · have hzero : [first].count n = 0 := by simp [Ne.symm heq]
      rw [hzero, Nat.add_zero]
      refine ⟨fun hin => hcount.1 hin.1, fun hout => hcount.2 fun hin => hout ⟨hin, heq⟩⟩
  · intro u
    by_cases hu : u = t
    · rw [hu, hself]
      exact List.not_mem_nil
    · rw [hother u hu]
      exact h.unused u
  · have hcalm : Calm s ({ s with
        inside := update s.inside first false
        retired := s.retired ++ [first] }.goto t (.deqRet data)) t :=
      ⟨rfl, rfl, rfl, fun _ _ => rfl, fun _ _ => rfl, fun htail => htail⟩
    refine h.pcs rfl (fun u hu => h.keeps_calm hcalm ?_ hu) trivial
    intro v n hv
    by_cases hvt : v = t
    · rw [hvt, hself] at hv
      cases hv
    · rw [hother v hvt] at hv
      exact .inl hv

/-- A write to the node that `t` has not appended yet. -/
theorem Inv.write (h : Inv sentinel s nodes) {qnode : Node}
    (hpc : s'.pc = update s.pc t pc') (hmine : (s.pc t).fresh = some qnode)
    (hhead : s'.head = s.head) (htail : s'.tail = s.tail) (horder : s'.order = s.order)
    (hdeqs : s'.deqs = s.deqs) (hinside : s'.inside = s.inside) (hretired : s'.retired = s.retired)
    (hnext : ∀ n, n ≠ qnode → s'.next n = s.next n)
    (hdata : ∀ n, n ≠ qnode → s'.data n = s.data n)
    (hfresh : pc'.fresh = some qnode) (hleaving : pc'.leaving = (s.pc t).leaving)
    (hself : PcOk s' nodes pc') : Inv sentinel s' nodes := by
  have hne {n : Node} (hn : (s.pc t).fresh ≠ some n) : n ≠ qnode :=
    fun heq => hn (heq ▸ hmine)
  refine h.calm hpc ⟨hhead, horder, hdeqs, fun n hn => hnext n (hne hn),
    fun n hn => hdata n (hne hn), ?_⟩ (by rw [htail]; exact h.tail) hinside hretired
    (hfresh.trans hmine.symm) hleaving hself
  rw [htail]
  exact fun hold => hold

theorem Inv.nextStep (h : Inv sentinel s nodes) (hstep : nextStep sentinel s t = some s') :
    ∃ nodes', Inv sentinel s' nodes' := by
  have hpc := h.pc t
  rw [UnboundedLf.nextStep] at hstep
  cases hat : s.pc t with
  | idle | failed _ =>
    rw [hat] at hstep
    cases hstep
  | enqData qnode data =>
    rw [hat] at hstep
    cases hstep
    exact ⟨nodes, h.write rfl (by rw [hat]; rfl) rfl rfl rfl rfl rfl rfl (fun _ _ => rfl)
      (fun n hn => update_of_ne hn ..) rfl (by rw [hat]; rfl) (update_self ..)⟩
  | enqNull qnode data =>
    rw [hat] at hstep hpc
    cases hstep
    exact ⟨nodes, h.write rfl (by rw [hat]; rfl) rfl rfl rfl rfl rfl rfl
      (fun n hn => update_of_ne hn ..) (fun _ _ => rfl) rfl (by rw [hat]; rfl)
      ⟨hpc, update_self ..⟩⟩
  | enqTail qnode data =>
    rw [hat] at hstep hpc
    cases hstep
    exact ⟨nodes, h.goto (by rw [hat]; rfl) (by rw [hat]; rfl) ⟨hpc, .inl h.tail⟩⟩
  | enqNext qnode data last =>
    rw [hat] at hstep hpc
    cases hstep
    exact ⟨nodes, h.goto (by rw [hat]; rfl) (by rw [hat]; rfl)
      ⟨hpc.1, hpc.2.goto rfl rfl (by rw [hat]; rfl), fun n hn => hn⟩⟩
  | enqCheck qnode data last next =>
    simp only [hat] at hstep
    rw [hat] at hpc
    obtain ⟨hmine, hlast, hnext⟩ := hpc
    split at hstep
    · cases next with
      | none =>
        cases hstep
        exact ⟨nodes, h.goto (by rw [hat]; rfl) (by rw [hat]; rfl)
          ⟨hmine, hlast.goto rfl rfl (by rw [hat]; rfl)⟩⟩
      | some next =>
        cases hstep
        exact ⟨nodes, h.goto (by rw [hat]; rfl) (by rw [hat]; rfl)
          ⟨hmine, hlast.goto rfl rfl (by rw [hat]; rfl), hnext next rfl⟩⟩
    · cases hstep
      exact ⟨nodes, h.goto (by rw [hat]; rfl) (by rw [hat]; rfl) hmine⟩
  | enqCas qnode data last =>
    simp only [hat] at hstep
    rw [hat] at hpc
    split at hstep
    · rename_i hnone
      cases hstep
      exact ⟨_, h.enqCas hat hnone⟩
    · cases hstep
      exact ⟨nodes, h.goto (by rw [hat]; rfl) (by rw [hat]; rfl) hpc.1⟩
  | enqSwing qnode data last | deqHelp last next =>
    rw [hat] at hstep hpc
    cases hstep
    exact ⟨nodes, h.swing hpc.2 (by rw [hat]; rfl) (by rw [hat]; rfl) trivial⟩
  | enqHelp qnode data last next =>
    rw [hat] at hstep hpc
    cases hstep
    refine ⟨nodes, h.swing hpc.2.2 (by rw [hat]; rfl) (by rw [hat]; rfl) ?_⟩
    rw [State.swing]
    split
    · exact hpc.1
    · exact hpc.1
  | deqHead =>
    rw [hat] at hstep
    cases hstep
    exact ⟨nodes, h.goto (by rw [hat]; rfl) (by rw [hat]; rfl) (.inl rfl)⟩
  | deqTail first =>
    rw [hat] at hstep hpc
    cases hstep
    refine ⟨nodes, h.goto (by rw [hat]; rfl) (by rw [hat]; rfl)
      ⟨HeadOrGone.goto hpc (by rw [hat]; rfl), ?_⟩⟩
    intro heq hne htail
    exact hne (htail.trans heq.symm)
  | deqNext first last =>
    rw [hat] at hstep hpc
    cases hstep
    refine ⟨nodes, h.goto (by rw [hat]; rfl) (by rw [hat]; rfl)
      ⟨hpc.1.goto (by rw [hat]; rfl), hpc.2, fun n hn => hn, ?_⟩⟩
    -- a head without a next node is the only node, and so the tail
    intro hnone heq
    change first = s.head at heq
    by_contra hne
    have htail := hpc.2 heq hne
    obtain ⟨rest, hrest, hlinked⟩ := h.chain.of_some
    rw [← heq, hnone] at hlinked
    have hin := h.tail
    rw [hrest, hlinked.of_none] at hin
    exact htail (List.mem_singleton.mp hin)
  | deqCheck first last next =>
    simp only [hat] at hstep
    rw [hat] at hpc
    obtain ⟨hfirst, htail, hnext, hnone⟩ := hpc
    split at hstep
    · rename_i hhead
      split at hstep
      · rename_i hlast
        cases next with
        | none =>
          cases hstep
          exact ⟨nodes, h.goto (by rw [hat]; rfl) (by rw [hat]; rfl) trivial⟩
        | some next =>
          cases hstep
          refine ⟨nodes, h.goto (by rw [hat]; rfl) (by rw [hat]; rfl) ⟨?_, ?_⟩⟩
          · rw [← hlast]
            exact (h.headOrGone_known hfirst).goto rfl rfl (by rw [hat]; rfl)
          · rw [← hlast]
            exact hnext next rfl
      · rename_i hlast
        cases next with
        | none => exact absurd (hnone rfl hhead.symm).symm hlast
        | some next =>
          cases hstep
          exact ⟨nodes, h.goto (by rw [hat]; rfl) (by rw [hat]; rfl)
            ⟨hfirst.goto (by rw [hat]; rfl), fun heq => htail heq (Ne.symm hlast),
              hnext next rfl⟩⟩
    · cases hstep
      exact ⟨nodes, h.goto (by rw [hat]; rfl) (by rw [hat]; rfl) trivial⟩
  | deqData first next =>
    rw [hat] at hstep hpc
    cases hstep
    obtain ⟨hfirst, htail, hnext⟩ := hpc
    refine ⟨nodes, h.goto (by rw [hat]; rfl) (by rw [hat]; rfl)
      ⟨hfirst.goto (by rw [hat]; rfl), htail, hnext, fun heq => ?_⟩⟩
    obtain ⟨d, hentry, hd, -⟩ := h.first_next (heq ▸ hnext)
    exact ⟨d, hd, hentry⟩
  | deqCas first next data =>
    simp only [hat] at hstep
    split at hstep
    · rename_i hhead
      subst hhead
      cases hstep
      exact ⟨_, h.deqCas hat rfl⟩
    · cases hstep
      exact ⟨nodes, h.goto (by rw [hat]; rfl) (by rw [hat]; rfl) trivial⟩
  | deqRetire first data =>
    rw [hat] at hstep
    cases hstep
    exact ⟨nodes, h.deqRetire hat⟩
  | deqRet data =>
    rw [hat] at hstep
    cases hstep
    exact ⟨nodes, h.goto (by rw [hat]; rfl) (by rw [hat]; rfl) trivial⟩

end Libvsync.Queue.UnboundedLf
