import Libvsync.Core.Linked
import Libvsync.Core.Places
import Libvsync.Core.Queue
import Mathlib.Data.List.Count

/-!
The queue with many producers and one consumer. A producer makes its node the
tail by an exchange and then links the old tail to it, so that the chain of
`next` pointers can have a gap behind every node that is not the tail. The
consumer waits at a gap. A dequeue throws out the old head, which the caller may
free or enqueue again at once.

`inside`, `order`, `deqs` and `discarded` are not read by the code: whether a node
was given to `vmpsc_enq` and not discarded since, the exchanges on the tail with
node and data, the returned data, and the discarded nodes.
-/

namespace Libvsync.Queue.Mpsc

open Libvsync.Core Function

/-- Where a producer stands. -/
inductive Pc (Node Data : Type) where
  | idle
  | enqData (node : Node) (data : Data)
  | enqNext (node : Node) (data : Data)
  | enqXchg (node : Node) (data : Data)
  | enqLink (tail node : Node) (data : Data)

/-- Where the consumer stands. -/
inductive DeqPc (Node Data : Type) where
  | idle
  | deqHead
  | deqNext (head : Node)
  | deqTail (head : Node)
  | deqAwait (head : Node)
  | deqData (head next : Node)
  | deqClear (head next : Node) (entry : Data)
  | deqMove (head next : Node) (entry : Data)
  | deqRet (entry : Option Data) (discardedNode : Option Node)
  | failed (message : String)
  deriving DecidableEq

structure State (Tid Node Data : Type) where
  tail : Node
  head : Node
  next : Node → Option Node
  data : Node → Option Data
  pc : Tid → Pc Node Data
  deq : DeqPc Node Data
  inside : Node → Bool
  order : List (Node × Data)
  deqs : List Data
  discarded : List Node

inductive Act (Tid Node Data : Type) where
  | enq (t : Tid) (node : Node) (data : Data)
  | deq
  | step (t : Tid)
  | consume

/-- The producer that takes a step; `none` is the consumer. -/
def Act.thread {Tid Node Data : Type} : Act Tid Node Data → Option Tid
  | .enq t _ _ | .step t => some t
  | .deq | .consume => none

variable {Tid Node Data : Type} [DecidableEq Tid] [DecidableEq Node]

def State.goto (s : State Tid Node Data) (t : Tid) (pc : Pc Node Data) : State Tid Node Data :=
  { s with pc := update s.pc t pc }

/-- The next atomic operation of producer `t`. -/
def enqStep (s : State Tid Node Data) (t : Tid) : Option (State Tid Node Data) :=
  match s.pc t with
  | .idle => none
  | .enqData node data =>
    some ({ s with data := update s.data node (some data) }.goto t (.enqNext node data))
  | .enqNext node data =>
    some ({ s with next := update s.next node none }.goto t (.enqXchg node data))
  | .enqXchg node data =>
    some ({ s with
      tail := node
      order := s.order ++ [(node, data)] }.goto t (.enqLink s.tail node data))
  | .enqLink tail node _ =>
    some ({ s with next := update s.next tail (some node) }.goto t .idle)

/-- The next operation of the consumer. `sentinel` is the node within the queue
object, which is never given out. -/
def deqStep (sentinel : Node) (s : State Tid Node Data) : Option (State Tid Node Data) :=
  match s.deq with
  | .idle | .failed _ => none
  | .deqHead => some { s with deq := .deqNext s.head }
  | .deqNext head =>
    match s.next head with
    | some next => some { s with deq := .deqData head next }
    | none => some { s with deq := .deqTail head }
  | .deqTail head =>
    if s.tail = head then some { s with deq := .deqRet none none }
    else some { s with deq := .deqAwait head }
  | .deqAwait head =>
    match s.next head with
    | some next => some { s with deq := .deqData head next }
    | none => none
  | .deqData head next =>
    match s.data next with
    | some entry => some { s with deq := .deqClear head next entry }
    | none => some { s with deq := .failed "entry" }
  | .deqClear head next entry =>
    some { s with
      data := update s.data next none
      deq := .deqMove head next entry }
  | .deqMove head next entry =>
    if head = sentinel then
      some { s with
        head := next
        deq := .deqRet (some entry) none
        deqs := s.deqs ++ [entry] }
    else
      some { s with
        head := next
        deq := .deqRet (some entry) (some head)
        inside := update s.inside head false
        deqs := s.deqs ++ [entry]
        discarded := s.discarded ++ [head] }
  | .deqRet _ _ => some { s with deq := .idle }

/-- A node is enqueued that is not in use by the queue. -/
def step (sentinel : Node) (s : State Tid Node Data) :
    Act Tid Node Data → Option (State Tid Node Data)
  | .enq t node data =>
    match s.pc t with
    | .idle =>
      if node = sentinel ∨ s.inside node then none
      else some ({ s with inside := update s.inside node true }.goto t
        (.enqData node data))
    | _ => none
  | .deq =>
    match s.deq with
    | .idle => some { s with deq := .deqHead }
    | _ => none
  | .step t => enqStep s t
  | .consume => deqStep sentinel s

/-- `vmpsc_init`, with whatever the other nodes hold. -/
def vmpscInit (sentinel : Node) (next : Node → Option Node) (data : Node → Option Data) :
    State Tid Node Data where
  tail := sentinel
  head := sentinel
  next := update next sentinel none
  data := update data sentinel none
  pc := fun _ => .idle
  deq := .idle
  inside := fun _ => false
  order := []
  deqs := []
  discarded := []

def machine (Tid Node Data : Type) [DecidableEq Tid] [DecidableEq Node] (sentinel : Node)
    (next : Node → Option Node) (data : Node → Option Data) :
    Machine (State Tid Node Data) (Act Tid Node Data) where
  start s := s = vmpscInit sentinel next data
  step := step sentinel

/-- The loop of `vmpsc_destroy`: the nodes that the callback is called on, in
order; `none` when the fuel does not reach the end of the chain. -/
def destroyLoop (sentinel : Node) (next : Node → Option Node) :
    Nat → Option Node → Option (List Node)
  | _, none => some []
  | 0, some _ => none
  | fuel + 1, some cur =>
    match destroyLoop sentinel next fuel (next cur) with
    | none => none
    | some visited => some (if cur = sentinel then visited else cur :: visited)

/-- `vmpsc_destroy`. -/
def vmpscDestroy (sentinel : Node) (s : State Tid Node Data) (fuel : Nat) : Option (List Node) :=
  destroyLoop sentinel s.next fuel (some s.head)

/-- The node that a producer has not made the tail yet. -/
def Pc.holds : Pc Node Data → List Node
  | .enqData node _ | .enqNext node _ | .enqXchg node _ => [node]
  | .idle | .enqLink _ _ _ => []

/-- Where nodes are: in the chain or with a producer. -/
def content (s : State Tid Node Data) (nodes : List Node) : Option Tid → List Node
  | none => nodes
  | some t => (s.pc t).holds

/-- What a producer relies on. -/
def PcOk (s : State Tid Node Data) (nodes : List Node) (ideal : Node → Option Node) :
    Pc Node Data → Prop
  | .idle | .enqData _ _ => True
  | .enqNext node data => s.data node = some data
  | .enqXchg node data => s.data node = some data ∧ s.next node = none
  | .enqLink tail node _ => tail ∈ nodes ∧ s.next tail = none ∧ ideal tail = some node

/-- What the consumer relies on: a node that is linked is not written to by a
producer. -/
def DeqOk (s : State Tid Node Data) : DeqPc Node Data → Prop
  | .idle | .deqHead => True
  | .deqNext head | .deqTail head | .deqAwait head => head = s.head
  | .deqData head next => head = s.head ∧ s.next head = some next
  | .deqClear head next entry =>
    head = s.head ∧ s.next head = some next ∧ s.data next = some entry
  | .deqMove head next entry =>
    head = s.head ∧ s.next head = some next ∧ s.order[s.deqs.length]? = some (next, entry)
  | .deqRet _ _ => True
  | .failed _ => False

/-- The data of a node in the chain is there until the consumer clears it. -/
def DataOk (s : State Tid Node Data) : Prop :=
  ∀ entry ∈ s.order.drop s.deqs.length,
    s.data entry.1 = some entry.2 ∨ ∃ head, s.deq = .deqMove head entry.1 entry.2

/-- `ideal` is the chain without its gaps. -/
structure Inv (sentinel : Node) (s : State Tid Node Data) (nodes : List Node)
    (ideal : Node → Option Node) : Prop where
  chain : Linked ideal (some s.head) nodes
  last : nodes.getLast? = some s.tail
  real : ∀ n ∈ nodes, (∀ t m d, s.pc t ≠ .enqLink n m d) → s.next n = ideal n
  gaps : ∀ t u n m m' d d', s.pc t = .enqLink n m d → s.pc u = .enqLink n m' d' → t = u
  pending : nodes = s.head :: (s.order.drop s.deqs.length).map Prod.fst
  values : s.deqs = (s.order.map Prod.snd).take s.deqs.length
  data : DataOk s
  apart : Apart (content s nodes)
  inside : ∀ n, s.inside n = true ↔ n ≠ sentinel ∧ ∃ p, n ∈ content s nodes p
  count : ∀ n, n ≠ sentinel →
    (s.order.map Prod.fst).count n = s.discarded.count n + if n ∈ nodes then 1 else 0
  unused : sentinel ∉ s.order.map Prod.fst ∧ ∀ t, sentinel ∉ (s.pc t).holds
  pc : ∀ t, PcOk s nodes ideal (s.pc t)
  deq : DeqOk s s.deq

variable {sentinel : Node} {s s' : State Tid Node Data} {nodes nodes' : List Node}
  {ideal ideal' : Node → Option Node} {t : Tid} {pc' : Pc Node Data}

omit [DecidableEq Tid] [DecidableEq Node] in
theorem PcOk.congr {pc : Pc Node Data} (h : PcOk s nodes ideal pc)
    (hdata : ∀ n ∈ pc.holds, s'.data n = s.data n)
    (hnext : ∀ n ∈ pc.holds, s'.next n = s.next n)
    (hlink : ∀ n m d, pc = .enqLink n m d → n ∈ nodes →
      s'.next n = s.next n ∧ ideal' n = ideal n ∧ n ∈ nodes') : PcOk s' nodes' ideal' pc := by
  cases pc with
  | idle | enqData _ _ => trivial
  | enqNext node data => exact (hdata node (List.mem_singleton_self _)).trans h
  | enqXchg node data =>
    exact ⟨(hdata node (List.mem_singleton_self _)).trans h.1,
      (hnext node (List.mem_singleton_self _)).trans h.2⟩
  | enqLink tail node data =>
    obtain ⟨hin, hnone, hideal⟩ := h
    obtain ⟨hsame, hsame', hin'⟩ := hlink tail node _ rfl hin
    exact ⟨hin', hsame.trans hnone, hsame'.trans hideal⟩

section

omit [DecidableEq Tid]

/-- The next node of the head, once it is linked. -/
theorem Inv.of_linked (h : Inv sentinel s nodes ideal) {n : Node}
    (hn : s.next s.head = some n) : ∃ rest, nodes = s.head :: n :: rest := by
  obtain ⟨rest, rfl, hrest⟩ := h.chain.of_some
  have hideal : ideal s.head = some n := by
    rw [← h.real s.head (List.mem_cons_self ..), hn]
    intro t m d hat
    have hpc := h.pc t
    rw [hat] at hpc
    rw [hpc.2.1] at hn
    cases hn
  rw [hideal] at hrest
  obtain ⟨rest', rfl, -⟩ := hrest.of_some
  exact ⟨rest', rfl⟩

theorem Inv.deq_congr (h : Inv sentinel s nodes ideal) (hhead : s'.head = s.head)
    (hnext : ∀ n, s.next s.head = some n → s'.next s.head = some n)
    (hdata : ∀ n ∈ nodes, s'.data n = s.data n) (horder : s.order <+: s'.order)
    (hdeqs : s'.deqs = s.deqs) : DeqOk s' s.deq := by
  have hdeq := h.deq
  have hin {n : Node} (hn : s.next s.head = some n) : n ∈ nodes := by
    obtain ⟨rest, rfl⟩ := h.of_linked hn
    simp
  cases hat : s.deq with
  | idle | deqHead | deqRet _ _ => trivial
  | deqNext head | deqTail head | deqAwait head =>
    rw [hat] at hdeq
    exact hdeq.trans hhead.symm
  | deqData head next =>
    rw [hat] at hdeq
    obtain ⟨rfl, hn⟩ := hdeq
    exact ⟨hhead.symm, hnext next hn⟩
  | deqClear head next entry =>
    rw [hat] at hdeq
    obtain ⟨rfl, hn, hentry⟩ := hdeq
    exact ⟨hhead.symm, hnext next hn, (hdata next (hin hn)).trans hentry⟩
  | deqMove head next entry =>
    rw [hat] at hdeq
    obtain ⟨rfl, hn, hentry⟩ := hdeq
    refine ⟨hhead.symm, hnext next hn, ?_⟩
    obtain ⟨more, hmore⟩ := horder
    have hlt := (List.getElem?_eq_some_iff.mp hentry).1
    rw [hdeqs, ← hmore, List.getElem?_append_left hlt]
    exact hentry
  | failed message =>
    rw [hat] at hdeq
    exact hdeq

end

/-- A producer works on its own node, or links the old tail. -/
theorem Inv.produce (h : Inv sentinel s nodes ideal) (hpc : s'.pc = update s.pc t pc')
    (htail : s'.tail = s.tail) (hhead : s'.head = s.head) (hdeq : s'.deq = s.deq)
    (hinside : s'.inside = s.inside) (horder : s'.order = s.order) (hdeqs : s'.deqs = s.deqs)
    (hdiscarded : s'.discarded = s.discarded) (hholds : pc'.holds = (s.pc t).holds)
    (hlinks : ∀ n m d, pc' ≠ .enqLink n m d)
    (hnext : ∀ n ∈ nodes, s'.next n = s.next n ∨
      ∃ m d, s.pc t = .enqLink n m d ∧ s'.next n = some m)
    (hlinked : ∀ n m d, s.pc t = .enqLink n m d → s'.next n = some m)
    (hothers : ∀ n, n ∉ nodes → n ∉ (s.pc t).holds → s'.next n = s.next n)
    (hdata : ∀ n, n ∉ (s.pc t).holds → s'.data n = s.data n)
    (hself : PcOk s' nodes ideal pc') : Inv sentinel s' nodes ideal := by
  have hself' : s'.pc t = pc' := by rw [hpc, update_self]
  have hother (u : Tid) (hu : u ≠ t) : s'.pc u = s.pc u := by
    rw [hpc, update_of_ne hu]
  have hcontent : content s' nodes = content s nodes := by
    funext p
    cases p with
    | none => rfl
    | some u =>
      by_cases hu : u = t
      · subst hu
        rw [content, content, hself', hholds]
      · rw [content, content, hother u hu]
  have hmine {n : Node} (hn : n ∈ nodes) : n ∉ (s.pc t).holds := by
    intro hheld
    cases h.apart.unique none (some t) n hn hheld
  refine ⟨?_, ?_, ?_, ?_, ?_, ?_, ?_, ?_, ?_, ?_, ?_, ?_, ?_⟩
  · rw [hhead]
    exact h.chain
  · rw [htail]
    exact h.last
  · intro n hn hfree
    by_cases hat : ∃ m d, s.pc t = .enqLink n m d
    · obtain ⟨m, d, hat⟩ := hat
      have hideal := h.pc t
      rw [hat] at hideal
      rw [hlinked n m d hat, hideal.2.2]
    · rcases hnext n hn with hsame | ⟨m, d, hm, -⟩
      · rw [hsame]
        refine h.real n hn fun u m d hu => ?_
        by_cases hut : u = t
        · exact hat ⟨m, d, hut ▸ hu⟩
        · exact hfree u m d ((hother u hut).trans hu)
      · exact absurd ⟨m, d, hm⟩ hat
  · intro u v n m m' d d' hu hv
    by_cases hut : u = t
    · rw [hut, hself'] at hu
      exact absurd hu (hlinks n m d)
    · by_cases hvt : v = t
      · rw [hvt, hself'] at hv
        exact absurd hv (hlinks n m' d')
      · rw [hother u hut] at hu
        rw [hother v hvt] at hv
        exact h.gaps u v n m m' d d' hu hv
  · rw [hhead, horder, hdeqs]
    exact h.pending
  · rw [hdeqs, horder]
    exact h.values
  · intro entry hentry
    rw [horder, hdeqs] at hentry
    rw [hdeq, hdata entry.1]
    · exact h.data entry hentry
    · apply hmine
      rw [h.pending]
      exact List.mem_cons_of_mem _ (List.mem_map_of_mem hentry)
  · rw [hcontent]
    exact h.apart
  · rw [hinside, hcontent]
    exact h.inside
  · rw [horder, hdiscarded]
    exact h.count
  · refine ⟨by rw [horder]; exact h.unused.1, fun u => ?_⟩
    by_cases hu : u = t
    · rw [hu, hself', hholds]
      exact h.unused.2 t
    · rw [hother u hu]
      exact h.unused.2 u
  · intro u
    by_cases hu : u = t
    · rw [hu, hself']
      exact hself
    · rw [hother u hu]
      have haway (n : Node) (hn : n ∈ (s.pc u).holds) : n ∉ nodes ∧ n ∉ (s.pc t).holds := by
        constructor
        · intro hin
          cases h.apart.unique (some u) none n hn hin
        · intro hin
          cases h.apart.unique (some u) (some t) n hn hin
          exact hu rfl
      refine (h.pc u).congr ?_ ?_ ?_
      · intro n hn
        exact hdata n (haway n hn).2
      · intro n hn
        exact hothers n (haway n hn).1 (haway n hn).2
      · intro n m d hat hn
        refine ⟨?_, rfl, hn⟩
        rcases hnext n hn with hsame | ⟨m', d', hm', -⟩
        · exact hsame
        · exact absurd (h.gaps u t n m m' d d' hat hm') hu
  · rw [hdeq]
    have hin : s.head ∈ nodes := by
      rw [h.pending]
      exact List.mem_cons_self ..
    refine h.deq_congr hhead ?_ (fun n hn => hdata n (hmine hn))
      (horder ▸ List.prefix_refl _) hdeqs
    intro n hn
    rcases hnext s.head hin with hsame | ⟨m, d, hm, -⟩
    · rw [hsame]
      exact hn
    · have hnone := h.pc t
      rw [hm] at hnone
      rw [hnone.2.1] at hn
      cases hn

section

omit [DecidableEq Node]

theorem goto_self (s : State Tid Node Data) (t : Tid) (pc : Pc Node Data) :
    (s.goto t pc).pc t = pc := update_self ..

theorem goto_other (s : State Tid Node Data) {t u : Tid} (pc : Pc Node Data) (hu : u ≠ t) :
    (s.goto t pc).pc u = s.pc u := update_of_ne hu ..

end

/-- An enqueue begins with a node that is not in use. -/
theorem Inv.enq (h : Inv sentinel s nodes ideal) {node : Node} {data : Data}
    (hidle : s.pc t = .idle) (hsentinel : node ≠ sentinel) (hnew : s.inside node = false) :
    Inv sentinel ({ s with inside := update s.inside node true }.goto t
      (.enqData node data)) nodes ideal := by
  have hother (u : Tid) (hu : u ≠ t) :
      ({ s with inside := update s.inside node true }.goto t (.enqData node data)).pc u =
        s.pc u := goto_other _ _ hu
  have hself : ({ s with inside := update s.inside node true }.goto t
      (.enqData node data)).pc t = .enqData node data := goto_self _ _ _
  have hfresh (p : Option Tid) : node ∉ content s nodes p := by
    intro hin
    rw [(h.inside node).mpr ⟨hsentinel, p, hin⟩] at hnew
    cases hnew
  have hcontent (p : Option Tid) (hp : p ≠ some t) :
      content ({ s with inside := update s.inside node true }.goto t
        (.enqData node data)) nodes p = content s nodes p := by
    cases p with
    | none => rfl
    | some u => rw [content, content, hother u fun hu => hp (hu ▸ rfl)]
  have hmine : content ({ s with inside := update s.inside node true }.goto t
      (.enqData node data)) nodes (some t) = node :: content s nodes (some t) := by
    rw [content, content, hself, hidle]
    rfl
  refine ⟨h.chain, h.last, ?_, ?_, h.pending, h.values, h.data, h.apart.take hcontent hmine hfresh,
    ?_, h.count, ⟨h.unused.1, ?_⟩, ?_, ?_⟩
  · intro n hn hfree
    refine h.real n hn fun u m d hu => ?_
    by_cases hut : u = t
    · rw [hut, hidle] at hu
      cases hu
    · exact hfree u m d ((hother u hut).trans hu)
  · intro u v n m m' d d' hu hv
    by_cases hut : u = t
    · rw [hut, hself] at hu
      cases hu
    · by_cases hvt : v = t
      · rw [hvt, hself] at hv
        cases hv
      · rw [hother u hut] at hu
        rw [hother v hvt] at hv
        exact h.gaps u v n m m' d d' hu hv
  · intro n
    change update s.inside node true n = true ↔ _
    by_cases hn : n = node
    · subst hn
      simp only [update_self, true_iff]
      exact ⟨hsentinel, some t, by rw [hmine]; simp⟩
    · rw [update_of_ne hn, h.inside]
      refine and_congr_right fun _ => exists_congr fun p => ?_
      by_cases hp : p = some t
      · rw [hp, hmine, List.mem_cons]
        exact (or_iff_right hn).symm
      · rw [hcontent p hp]
  · intro u
    by_cases hu : u = t
    · rw [hu, hself]
      intro hin
      exact hsentinel (List.mem_singleton.mp hin).symm
    · rw [hother u hu]
      exact h.unused.2 u
  · intro u
    by_cases hu : u = t
    · rw [hu, hself]
      trivial
    · rw [hother u hu]
      exact (h.pc u).congr (fun _ _ => rfl) (fun _ _ => rfl) fun _ _ _ _ hn => ⟨rfl, rfl, hn⟩
  · exact h.deq_congr rfl (fun _ hn => hn) (fun _ _ => rfl) (List.prefix_refl _) rfl

/-- The exchange on the tail: the chain grows by a node, with a gap in front of
it. -/
theorem Inv.enqXchg (h : Inv sentinel s nodes ideal) {node : Node} {data : Data}
    (hat : s.pc t = .enqXchg node data) :
    Inv sentinel ({ s with
      tail := node
      order := s.order ++ [(node, data)] }.goto t (.enqLink s.tail node data)) (nodes ++ [node])
      (update (update ideal node none) s.tail (some node)) := by
  have hother (u : Tid) (hu : u ≠ t) : ({ s with
      tail := node
      order := s.order ++ [(node, data)] }.goto t (.enqLink s.tail node data)).pc u = s.pc u :=
    goto_other _ _ hu
  have hself : ({ s with
      tail := node
      order := s.order ++ [(node, data)] }.goto t (.enqLink s.tail node data)).pc t =
        .enqLink s.tail node data := goto_self _ _ _
  have hpc := h.pc t
  rw [hat] at hpc
  obtain ⟨hdata, hnone⟩ := hpc
  have hheld : node ∈ content s nodes (some t) := by
    rw [content, hat]
    exact List.mem_singleton_self node
  have hfresh : node ∉ nodes := by
    intro hin
    cases h.apart.unique none (some t) node hin hheld
  have htail : s.tail ∈ nodes := List.mem_of_getLast? h.last
  have hne : node ≠ s.tail := fun heq => hfresh (heq ▸ htail)
  have hlast := h.chain.last_next h.last
  -- nobody else has a link to make behind the tail
  have hfree (u : Tid) (m : Node) (d : Data) : s.pc u ≠ .enqLink s.tail m d := by
    intro hu
    have hlink := h.pc u
    rw [hu] at hlink
    rw [hlink.2.2] at hlast
    cases hlast
  have hlen : s.deqs.length ≤ s.order.length := by
    have hvalues := congrArg List.length h.values
    rw [List.length_take, List.length_map] at hvalues
    omega
  have hsentinel : node ≠ sentinel := by
    rintro rfl
    exact h.unused.2 t (by rw [hat]; exact List.mem_singleton_self _)
  refine ⟨h.chain.append (h.apart.nodup none) h.last hfresh, ?_, ?_, ?_, ?_, ?_, ?_, ?_, ?_, ?_,
    ⟨?_, ?_⟩, ?_, ?_⟩
  · rw [List.getLast?_concat]
    rfl
  · intro n hn hopen
    change s.next n = _
    rcases List.mem_append.mp hn with hin | hin
    · by_cases hnt : n = s.tail
      · exact absurd hself (hnt ▸ hopen t node data)
      · have hnn : n ≠ node := fun heq => hfresh (heq ▸ hin)
        rw [update_of_ne hnt, update_of_ne hnn]
        refine h.real n hin fun u m d hu => ?_
        by_cases hut : u = t
        · rw [hut, hat] at hu
          cases hu
        · exact hopen u m d ((hother u hut).trans hu)
    · rw [List.mem_singleton.mp hin, update_of_ne hne, update_self]
      exact hnone
  · intro u v n m m' d d' hu hv
    by_cases hut : u = t
    · rw [hut, hself] at hu
      cases hu
      by_cases hvt : v = t
      · rw [hut, hvt]
      · rw [hother v hvt] at hv
        exact absurd hv (hfree v m' d')
    · rw [hother u hut] at hu
      by_cases hvt : v = t
      · rw [hvt, hself] at hv
        cases hv
        exact absurd hu (hfree u m d)
      · rw [hother v hvt] at hv
        exact h.gaps u v n m m' d d' hu hv
  · change nodes ++ [node] = s.head :: ((s.order ++ [(node, data)]).drop s.deqs.length).map Prod.fst
    rw [List.drop_append_of_le_length hlen, List.map_append, h.pending]
    rfl
  · change s.deqs = ((s.order ++ [(node, data)]).map Prod.snd).take s.deqs.length
    rw [List.map_append, List.take_append_of_le_length (by rw [List.length_map]; exact hlen)]
    exact h.values
  · intro entry hentry
    change entry ∈ (s.order ++ [(node, data)]).drop s.deqs.length at hentry
    rw [List.drop_append_of_le_length hlen] at hentry
    rcases List.mem_append.mp hentry with hold | hnew
    · exact h.data entry hold
    · rw [List.mem_singleton.mp hnew]
      exact .inl hdata
  · refine h.apart.transfer (p := none) (q := some t) (Option.some_ne_none t).symm ?_ ?_
    · intro p hp hpt
      cases p with
      | none => exact absurd rfl hp
      | some u => rw [content, content, hother u fun hu => hpt (hu ▸ rfl)]
    · simp only [content, hself, hat]
      simp [Pc.holds]
  · intro n
    change s.inside n = true ↔ _
    rw [h.inside]
    refine and_congr_right fun _ => ?_
    constructor
    · rintro ⟨p, hp⟩
      cases p with
      | none => exact ⟨none, List.mem_append_left _ hp⟩
      | some u =>
        by_cases hu : u = t
        · refine ⟨none, List.mem_append_right _ ?_⟩
          rw [hu, content, hat] at hp
          exact hp
        · exact ⟨some u, by rw [content, hother u hu]; exact hp⟩
    · rintro ⟨p, hp⟩
      cases p with
      | none =>
        rcases List.mem_append.mp hp with hin | hin
        · exact ⟨none, hin⟩
        · exact ⟨some t, by rw [List.mem_singleton.mp hin]; exact hheld⟩
      | some u =>
        by_cases hu : u = t
        · rw [hu, content, hself] at hp
          cases hp
        · exact ⟨some u, by rw [content, hother u hu] at hp; exact hp⟩
  · intro n hn
    change ((s.order ++ [(node, data)]).map Prod.fst).count n =
      s.discarded.count n + if n ∈ nodes ++ [node] then 1 else 0
    have hcount := h.count n hn
    rw [List.map_append, List.count_append, hcount]
    by_cases heq : n = node
    · subst heq
      simp [hfresh]
    · simp [heq, Ne.symm heq]
  · change sentinel ∉ (s.order ++ [(node, data)]).map Prod.fst
    rw [List.map_append, List.mem_append]
    rintro (hin | hin)
    · exact h.unused.1 hin
    · exact hsentinel (List.mem_singleton.mp hin).symm
  · intro u
    by_cases hu : u = t
    · rw [hu, hself]
      exact List.not_mem_nil
    · rw [hother u hu]
      exact h.unused.2 u
  · intro u
    by_cases hu : u = t
    · rw [hu, hself]
      refine ⟨List.mem_append_left _ htail, ?_, update_self ..⟩
      exact (h.real s.tail htail hfree).trans hlast
    · rw [hother u hu]
      refine (h.pc u).congr (fun _ _ => rfl) (fun _ _ => rfl) fun n m d hlink hn => ?_
      have hnt : n ≠ s.tail := fun heq => hfree u m d (heq ▸ hlink)
      have hnn : n ≠ node := fun heq => hfresh (heq ▸ hn)
      refine ⟨rfl, ?_, List.mem_append_left _ hn⟩
      rw [update_of_ne hnt, update_of_ne hnn]
  · exact h.deq_congr rfl (fun _ hn => hn) (fun _ _ => rfl) (List.prefix_append _ _) rfl

section

omit [DecidableEq Tid]

theorem Inv.look (h : Inv sentinel s nodes ideal) {deq' : DeqPc Node Data}
    (hmove : ∀ head next entry, s.deq ≠ .deqMove head next entry)
    (hdeq : DeqOk { s with deq := deq' } deq') :
    Inv sentinel { s with deq := deq' } nodes ideal := by
  refine ⟨h.chain, h.last, h.real, h.gaps, h.pending, h.values, ?_, h.apart, h.inside, h.count,
    h.unused, h.pc, hdeq⟩
  intro entry hentry
  rcases h.data entry hentry with hdata | ⟨head, hat⟩
  · exact .inl hdata
  · exact absurd hat (hmove head entry.1 entry.2)

theorem Inv.first (h : Inv sentinel s nodes ideal) {n : Node} (hn : s.next s.head = some n) :
    ∃ data, s.order[s.deqs.length]? = some (n, data) ∧
      nodes = s.head :: n :: (s.order.drop (s.deqs.length + 1)).map Prod.fst := by
  obtain ⟨rest, hnodes⟩ := h.of_linked hn
  have hpending := h.pending
  rw [hnodes] at hpending
  have hmap := (List.cons.inj hpending).2
  cases hdrop : s.order.drop s.deqs.length with
  | nil =>
    rw [hdrop] at hmap
    cases hmap
  | cons entry more =>
    rw [hdrop] at hmap
    obtain ⟨hfst, hrest⟩ := List.cons.inj hmap
    refine ⟨entry.2, ?_, ?_⟩
    · have hget : (s.order.drop s.deqs.length)[0]? = some entry := by rw [hdrop]; rfl
      rw [List.getElem?_drop, Nat.add_zero] at hget
      rw [hget, hfst]
    · rw [hnodes, hrest, ← List.drop_drop, hdrop]
      rfl

/-- The data of the first entry, before the consumer clears it. -/
theorem Inv.first_data (h : Inv sentinel s nodes ideal) {n : Node}
    (hn : s.next s.head = some n) (hmove : ∀ head next entry, s.deq ≠ .deqMove head next entry) :
    ∃ data, s.order[s.deqs.length]? = some (n, data) ∧ s.data n = some data := by
  obtain ⟨data, hget, -⟩ := h.first hn
  refine ⟨data, hget, ?_⟩
  have hmem : (n, data) ∈ s.order.drop s.deqs.length := by
    rw [List.mem_iff_getElem?]
    exact ⟨0, by rw [List.getElem?_drop, Nat.add_zero]; exact hget⟩
  rcases h.data (n, data) hmem with hdata | ⟨head, hat⟩
  · exact hdata
  · exact absurd hat (hmove head n data)

/-- The entries behind the first one are of other nodes. -/
theorem Inv.behind (h : Inv sentinel s nodes ideal) {n : Node} (hn : s.next s.head = some n)
    {entry : Node × Data} (hentry : entry ∈ s.order.drop (s.deqs.length + 1)) : entry.1 ≠ n := by
  obtain ⟨data, -, hnodes⟩ := h.first hn
  have hnodup : nodes.Nodup := h.apart.nodup none
  rw [hnodes] at hnodup
  rintro rfl
  have hnodup' := (List.nodup_cons.mp hnodup).2
  exact (List.nodup_cons.mp hnodup').1 (List.mem_map_of_mem hentry)

/-- The consumer clears the data of the node that becomes the sentinel. -/
theorem Inv.deqClear (h : Inv sentinel s nodes ideal) {head next : Node} {entry : Data}
    (hat : s.deq = .deqClear head next entry) :
    Inv sentinel { s with
      data := update s.data next none
      deq := .deqMove head next entry } nodes ideal := by
  have hdeq := h.deq
  rw [hat] at hdeq
  obtain ⟨rfl, hnext, hentry⟩ := hdeq
  obtain ⟨data, hget, hdata⟩ := h.first_data hnext (by rw [hat]; exact nofun)
  obtain rfl : data = entry := Option.some.inj (hdata.symm.trans hentry)
  have hin : next ∈ nodes := by
    obtain ⟨rest, rfl⟩ := h.of_linked hnext
    simp
  refine ⟨h.chain, h.last, h.real, h.gaps, h.pending, h.values, ?_, h.apart, h.inside, h.count,
    h.unused, ?_, rfl, hnext, hget⟩
  · intro e he
    change e ∈ s.order.drop s.deqs.length at he
    have hcons : s.order.drop s.deqs.length =
        (next, data) :: s.order.drop (s.deqs.length + 1) := by
      obtain ⟨hlt, hval⟩ := List.getElem?_eq_some_iff.mp hget
      rw [List.drop_eq_getElem_cons hlt, hval]
    rw [hcons] at he
    rcases List.mem_cons.mp he with rfl | hrest
    · exact .inr ⟨s.head, rfl⟩
    · left
      change update s.data next none e.1 = some e.2
      rw [update_of_ne (h.behind hnext hrest)]
      have hmem : e ∈ s.order.drop s.deqs.length := by
        rw [hcons]
        exact he
      rcases h.data e hmem with hkept | ⟨head, hmove⟩
      · exact hkept
      · rw [hat] at hmove
        cases hmove
  · intro u
    refine (h.pc u).congr ?_ (fun _ _ => rfl) fun _ _ _ _ hn => ⟨rfl, rfl, hn⟩
    intro n hn
    refine update_of_ne ?_ ..
    rintro rfl
    cases h.apart.unique none (some u) n hin hn

/-- The consumer moves the head. The old head has its link, so no producer has
anything to do with it. -/
theorem Inv.deqMove (h : Inv sentinel s nodes ideal) {head next : Node} {entry : Data}
    (hat : s.deq = .deqMove head next entry) {inside : Node → Bool} {discarded : List Node}
    {discardedNode : Option Node}
    (hinside : ∀ n, inside n = true ↔ s.inside n = true ∧ n ≠ s.head)
    (hcount : ∀ n, n ≠ sentinel →
      discarded.count n = s.discarded.count n + if n = s.head then 1 else 0) :
    Inv sentinel { s with
      head := next
      deq := .deqRet (some entry) discardedNode
      inside := inside
      deqs := s.deqs ++ [entry]
      discarded := discarded } (next :: (s.order.drop (s.deqs.length + 1)).map Prod.fst)
      ideal := by
  have hdeq := h.deq
  rw [hat] at hdeq
  obtain ⟨rfl, hnext, hget⟩ := hdeq
  obtain ⟨data, -, hnodes⟩ := h.first hnext
  generalize hrest : (s.order.drop (s.deqs.length + 1)).map Prod.fst = rest at hnodes
  have hnodup : nodes.Nodup := h.apart.nodup none
  have hold : nodes = s.head :: next :: rest := hnodes
  have hheadout : s.head ∉ next :: rest := by
    rw [hold] at hnodup
    exact (List.nodup_cons.mp hnodup).1
  have hsub {n : Node} (hn : n ∈ next :: rest) : n ∈ nodes := by
    rw [hold]
    exact List.mem_cons_of_mem _ hn
  refine ⟨?_, ?_, ?_, h.gaps, ?_, ?_, ?_, ?_, ?_, ?_, h.unused, ?_, trivial⟩
  · have hchain := h.chain
    rw [hold] at hchain
    obtain ⟨-, hnext', hrest'⟩ := hchain
    exact ⟨rfl, hrest'⟩
  · have hlast := h.last
    rw [hold, List.getLast?_cons_cons] at hlast
    exact hlast
  · intro n hn hfree
    exact h.real n (hsub hn) hfree
  · change next :: rest = next :: (s.order.drop (s.deqs ++ [entry]).length).map Prod.fst
    rw [List.length_append, List.length_singleton, hrest]
  · change s.deqs ++ [entry] = (s.order.map Prod.snd).take (s.deqs ++ [entry]).length
    rw [List.length_append, List.length_singleton, List.take_add_one, List.getElem?_map, hget,
      ← h.values]
    rfl
  · intro e he
    change e ∈ s.order.drop (s.deqs ++ [entry]).length at he
    rw [List.length_append, List.length_singleton] at he
    left
    have hmem : e ∈ s.order.drop s.deqs.length := by
      obtain ⟨hlt, -⟩ := List.getElem?_eq_some_iff.mp hget
      rw [List.drop_eq_getElem_cons hlt]
      exact List.mem_cons_of_mem _ he
    rcases h.data e hmem with hdata | ⟨head, hmove⟩
    · exact hdata
    · rw [hat] at hmove
      cases hmove
      exact absurd rfl (h.behind hnext he)
  · refine h.apart.drop (p := none) ?_ ?_
    · intro p hp
      cases p with
      | none => exact absurd rfl hp
      | some u => rfl
    · rw [content, content, hold]
      exact List.sublist_cons_self _ _
  · intro n
    rw [hinside, h.inside, and_assoc]
    refine and_congr_right fun _ => ?_
    constructor
    · rintro ⟨⟨p, hp⟩, hne⟩
      cases p with
      | none =>
        rw [content, hold] at hp
        exact ⟨none, (List.mem_cons.mp hp).resolve_left hne⟩
      | some u => exact ⟨some u, hp⟩
    · rintro ⟨p, hp⟩
      cases p with
      | none => exact ⟨⟨none, hsub hp⟩, fun heq => hheadout (heq ▸ hp)⟩
      | some u =>
        refine ⟨⟨some u, hp⟩, ?_⟩
        rintro rfl
        have hhead : s.head ∈ content s nodes none := by
          rw [content, hold]
          exact List.mem_cons_self ..
        cases h.apart.unique none (some u) s.head hhead hp
  · intro n hn
    change (s.order.map Prod.fst).count n = discarded.count n + if n ∈ next :: rest then 1 else 0
    rw [h.count n hn, hcount n hn, hold]
    by_cases heq : n = s.head
    · rw [heq, if_pos (List.mem_cons_self ..), if_pos rfl, if_neg hheadout]
    · rw [if_neg heq]
      simp [heq]
  · intro u
    refine (h.pc u).congr (fun _ _ => rfl) (fun _ _ => rfl) fun n m d hlink hn => ?_
    refine ⟨rfl, rfl, ?_⟩
    rw [hold] at hn
    refine (List.mem_cons.mp hn).resolve_left ?_
    rintro rfl
    have hnone := h.pc u
    rw [hlink] at hnone
    rw [hnone.2.1] at hnext
    cases hnext

end

theorem Inv.enqStep (h : Inv sentinel s nodes ideal) (hstep : enqStep s t = some s') :
    ∃ nodes' ideal', Inv sentinel s' nodes' ideal' := by
  have hpc := h.pc t
  rw [Mpsc.enqStep] at hstep
  cases hat : s.pc t with
  | idle =>
    rw [hat] at hstep
    cases hstep
  | enqData node data =>
    rw [hat] at hstep
    cases hstep
    refine ⟨nodes, ideal, h.produce rfl rfl rfl rfl rfl rfl rfl rfl (by rw [hat]; rfl)
      (by simp) (fun n _ => .inl rfl) (by simp [hat]) (fun n _ _ => rfl) ?_
      (update_self ..)⟩
    intro n hn
    rw [hat] at hn
    exact update_of_ne (fun heq => hn (List.mem_singleton.mpr heq)) ..
  | enqNext node data =>
    rw [hat] at hstep hpc
    cases hstep
    have hheld : node ∈ content s nodes (some t) := by
      rw [content, hat]
      exact List.mem_singleton_self node
    refine ⟨nodes, ideal, h.produce rfl rfl rfl rfl rfl rfl rfl rfl (by rw [hat]; rfl)
      (by simp) (fun n hn => .inl ?_) (by simp [hat]) ?_ (fun n _ => rfl)
      ⟨hpc, update_self ..⟩⟩
    · refine update_of_ne ?_ ..
      rintro rfl
      cases h.apart.unique none (some t) n hn hheld
    · intro n _ hn
      rw [hat] at hn
      exact update_of_ne (fun heq => hn (List.mem_singleton.mpr heq)) ..
  | enqXchg node data =>
    rw [hat] at hstep
    cases hstep
    exact ⟨_, _, h.enqXchg hat⟩
  | enqLink tail node data =>
    rw [hat] at hstep hpc
    cases hstep
    refine ⟨nodes, ideal, h.produce rfl rfl rfl rfl rfl rfl rfl rfl (by rw [hat]; rfl)
      (by simp) ?_ ?_ ?_ (fun n _ => rfl) trivial⟩
    · intro n _
      by_cases hn : n = tail
      · rw [hn]
        exact .inr ⟨node, data, hat, update_self ..⟩
      · exact .inl (update_of_ne hn ..)
    · intro n m d hlink
      rw [hat] at hlink
      cases hlink
      exact update_self ..
    · intro n hn _
      refine update_of_ne ?_ ..
      rintro rfl
      exact hn hpc.1

section

omit [DecidableEq Tid]

theorem Inv.empty (h : Inv sentinel s nodes ideal) (htail : s.tail = s.head) :
    s.order.length = s.deqs.length := by
  have hnodup : nodes.Nodup := h.apart.nodup none
  have hlast := h.last
  have hlen := congrArg List.length h.values
  rw [List.length_take, List.length_map] at hlen
  rw [h.pending] at hnodup hlast
  cases hdrop : s.order.drop s.deqs.length with
  | nil =>
    have hle := List.drop_eq_nil_iff.mp hdrop
    omega
  | cons entry more =>
    rw [hdrop, htail, List.map_cons, List.getLast?_cons_cons] at hlast
    rw [hdrop, List.map_cons] at hnodup
    exact absurd (List.mem_of_getLast? hlast) (List.nodup_cons.mp hnodup).1

theorem Inv.deqStep (h : Inv sentinel s nodes ideal) (hstep : deqStep sentinel s = some s') :
    ∃ nodes' ideal', Inv sentinel s' nodes' ideal' := by
  have hdeq := h.deq
  rw [Mpsc.deqStep] at hstep
  cases hat : s.deq with
  | idle | failed _ =>
    rw [hat] at hstep
    cases hstep
  | deqHead =>
    rw [hat] at hstep
    cases hstep
    exact ⟨nodes, ideal, h.look (by rw [hat]; exact nofun) rfl⟩
  | deqNext head =>
    simp only [hat] at hstep hdeq
    split at hstep
    · rename_i next hnext
      cases hstep
      exact ⟨nodes, ideal, h.look (by rw [hat]; exact nofun) ⟨hdeq, hnext⟩⟩
    · cases hstep
      exact ⟨nodes, ideal, h.look (by rw [hat]; exact nofun) hdeq⟩
  | deqTail head =>
    simp only [hat] at hstep hdeq
    split at hstep
    · cases hstep
      exact ⟨nodes, ideal, h.look (by rw [hat]; exact nofun) trivial⟩
    · cases hstep
      exact ⟨nodes, ideal, h.look (by rw [hat]; exact nofun) hdeq⟩
  | deqAwait head =>
    simp only [hat] at hstep hdeq
    split at hstep
    · rename_i next hnext
      cases hstep
      exact ⟨nodes, ideal, h.look (by rw [hat]; exact nofun) ⟨hdeq, hnext⟩⟩
    · cases hstep
  | deqData head next =>
    simp only [hat] at hstep hdeq
    obtain ⟨rfl, hnext⟩ := hdeq
    obtain ⟨data, -, hdata⟩ := h.first_data hnext (by rw [hat]; exact nofun)
    rw [hdata] at hstep
    cases hstep
    exact ⟨nodes, ideal, h.look (by rw [hat]; exact nofun) ⟨rfl, hnext, hdata⟩⟩
  | deqClear head next entry =>
    rw [hat] at hstep
    cases hstep
    exact ⟨nodes, ideal, h.deqClear hat⟩
  | deqMove head next entry =>
    simp only [hat] at hstep hdeq
    obtain ⟨rfl, -, -⟩ := hdeq
    split at hstep
    · rename_i hsentinel
      cases hstep
      refine ⟨_, ideal, h.deqMove hat ?_ ?_⟩
      · intro n
        refine (and_iff_left_of_imp fun hin => ?_).symm
        rw [hsentinel]
        exact ((h.inside n).mp hin).1
      · intro n hn
        rw [hsentinel, if_neg hn]
        rfl
    · rename_i hsentinel
      cases hstep
      refine ⟨_, ideal, h.deqMove hat ?_ ?_⟩
      · intro n
        by_cases hn : n = s.head
        · simp [hn]
        · simp [hn]
      · intro n _
        rw [List.count_append]
        by_cases hn : n = s.head
        · simp [hn]
        · simp [hn, Ne.symm hn]
  | deqRet entry discardedNode =>
    rw [hat] at hstep
    cases hstep
    exact ⟨nodes, ideal, h.look (by rw [hat]; exact nofun) trivial⟩

end

variable {a : Act Tid Node Data}

theorem Inv.step (h : Inv sentinel s nodes ideal) (hstep : step sentinel s a = some s') :
    ∃ nodes' ideal', Inv sentinel s' nodes' ideal' := by
  cases a with
  | enq t node data =>
    simp only [Mpsc.step] at hstep
    split at hstep
    · rename_i hidle
      split at hstep
      · cases hstep
      · rename_i hnew
        cases hstep
        obtain ⟨hsentinel, hnew⟩ := not_or.mp hnew
        exact ⟨nodes, ideal, h.enq hidle hsentinel (Bool.eq_false_iff.mpr hnew)⟩
    · cases hstep
  | deq =>
    simp only [Mpsc.step] at hstep
    split at hstep
    · rename_i hidle
      cases hstep
      exact ⟨nodes, ideal, h.look (by rw [hidle]; exact nofun) trivial⟩
    · cases hstep
  | step t => exact h.enqStep hstep
  | consume => exact h.deqStep hstep

omit [DecidableEq Tid] in
theorem vmpscInit_inv (sentinel : Node) (next : Node → Option Node) (data : Node → Option Data) :
    Inv sentinel (vmpscInit sentinel next data : State Tid Node Data) [sentinel]
      (fun _ => none) where
  chain := ⟨rfl, rfl⟩
  last := rfl
  real n hn _ := by
    rw [List.mem_singleton.mp hn]
    exact update_self ..
  gaps := nofun
  pending := rfl
  values := rfl
  data := nofun
  apart := by
    refine ⟨?_, ?_⟩
    · intro p
      cases p with
      | none => exact List.nodup_singleton _
      | some t => exact List.nodup_nil
    · intro p q n hp hq
      cases p with
      | none =>
        cases q with
        | none => rfl
        | some t => cases hq
      | some t => cases hp
  inside n := by
    constructor
    · intro hfalse
      cases hfalse
    · rintro ⟨hn, p, hp⟩
      cases p with
      | none => exact absurd (List.mem_singleton.mp hp) hn
      | some t => cases hp
  count n hn := by simp [vmpscInit, hn]
  unused := ⟨nofun, fun _ => nofun⟩
  pc _ := trivial
  deq := trivial

/-- The consumer is in a call. -/
def DeqPc.busy : DeqPc Node Data → Bool
  | .idle | .failed _ => false
  | _ => true

/-- A dequeue returns NULL only by finding the tail at the head. -/
theorem null_step {d : Option Node} (hstep : step sentinel s a = some s')
    (hret : s'.deq = .deqRet none d) :
    s.deq = .deqRet none d ∨
      s.deq = .deqTail s.tail ∧ s'.order = s.order ∧ s'.deqs = s.deqs := by
  cases a with
  | enq t node data =>
    simp only [step] at hstep
    split at hstep
    · split at hstep
      · cases hstep
      · cases hstep
        exact .inl hret
    · cases hstep
  | deq =>
    simp only [step] at hstep
    split at hstep
    · cases hstep
      cases hret
    · cases hstep
  | step t =>
    simp only [step, enqStep] at hstep
    split at hstep
    · cases hstep
    · cases hstep
      exact .inl hret
    · cases hstep
      exact .inl hret
    · cases hstep
      exact .inl hret
    · cases hstep
      exact .inl hret
  | consume =>
    simp only [step, deqStep] at hstep
    cases hat : s.deq with
    | idle | failed _ =>
      rw [hat] at hstep
      cases hstep
    | deqHead | deqClear _ _ _ | deqRet _ _ =>
      rw [hat] at hstep
      cases hstep
      cases hret
    | deqNext _ | deqData _ _ | deqMove _ _ _ =>
      simp only [hat] at hstep
      split at hstep <;> cases hstep <;> cases hret
    | deqAwait _ =>
      simp only [hat] at hstep
      split at hstep
      · cases hstep
        cases hret
      · cases hstep
    | deqTail head =>
      simp only [hat] at hstep
      split at hstep
      · rename_i htail
        cases hstep
        exact .inr ⟨by rw [htail], rfl, rfl⟩
      · cases hstep
        cases hret

/-- A dequeue that returns NULL met an empty queue. -/
def History (past : List (State Tid Node Data × Act Tid Node Data))
    (s : State Tid Node Data) : Prop :=
  ∀ d, s.deq = .deqRet none d →
    During (fun s => s.deq.busy = true) (fun s => s.order.length = s.deqs.length)
      (moments past s)

variable {past : List (State Tid Node Data × Act Tid Node Data)}
  {next : Node → Option Node} {data : Node → Option Data}

theorem run_inv (run : (machine Tid Node Data sentinel next data).Run past s) :
    (∃ nodes ideal, Inv sentinel s nodes ideal) ∧ History past s := by
  have hall : AllSteps (fun _ _ => True) past := fun _ _ => trivial
  refine run.history_invariant
    (I := fun past s => (∃ nodes ideal, Inv sentinel s nodes ideal) ∧ History past s) ?_ ?_ hall
  · rintro s rfl
    exact ⟨⟨_, _, vmpscInit_inv sentinel next data⟩, nofun⟩
  · rintro past s a s' - ⟨⟨nodes, ideal, h⟩, hist⟩ - hstep
    refine ⟨h.step hstep, fun d hret => ?_⟩
    have hbusy : s'.deq.busy = true := by rw [hret]; rfl
    rcases null_step hstep hret with hbefore | ⟨hat, horder, hdeqs⟩
    · exact .before hbusy (hist d hbefore)
    · refine .now hbusy ?_
      have hdeq := h.deq
      rw [hat] at hdeq
      rw [horder, hdeqs]
      exact h.empty hdeq

/-- What the call of a producer or of the consumer will return, once that is fixed. -/
def State.settled (s : State Tid Node Data) : Option Tid → Option
    (QueueCall Data × QueueResult Data)
  | some t =>
    match s.pc t with
    | .enqLink _ _ data => some (.enq data, .done)
    | _ => none
  | none =>
    match s.deq with
    | .deqRet entry _ => some (.deq, .taken entry)
    | _ => none

/-- Whether a producer or the consumer is in a call. -/
def State.busy (s : State Tid Node Data) : Option Tid → Prop
  | some t => s.pc t ≠ .idle
  | none => s.deq ≠ .idle

def view : View (State Tid Node Data) (Option Tid) (List Data) (QueueCall Data)
    (QueueResult Data) where
  abs s := waiting s.order s.deqs.length
  busy p s := s.busy p
  settled p s := s.settled p
  settled_busy p s x hx := by
    cases p with
    | some t =>
      intro hidle
      rw [State.settled, hidle] at hx
      cases hx
    | none =>
      intro hidle
      rw [State.settled, hidle] at hx
      cases hx

section Moves

omit [DecidableEq Node]

/-- What producer `t` does leaves the calls of the others as they are. -/
theorem settled_goto {s₁ : State Tid Node Data} (hpc : s₁.pc = s.pc) (hdeq : s₁.deq = s.deq)
    {p : Option Tid} (hp : p ≠ some t) : (s₁.goto t pc').settled p = s.settled p := by
  cases p with
  | none =>
    change s₁.settled none = s.settled none
    rw [State.settled, State.settled, hdeq]
  | some u =>
    have hu : u ≠ t := fun heq => hp (congrArg some heq)
    rw [State.settled, State.settled, goto_other _ _ hu, hpc]

/-- A step of a producer that leaves the queue as it is and settles nothing. -/
theorem walk {s₁ : State Tid Node Data} (hpc : s₁.pc = s.pc) (hdeq : s₁.deq = s.deq)
    (horder : s₁.order = s.order) (hdeqs : s₁.deqs = s.deqs)
    (hsettled : (s₁.goto t pc').settled (some t) = s.settled (some t) ∨ pc' = .idle) :
    Moves view queueSpec (some t) past s (s₁.goto t pc') := by
  have hsame : waiting s₁.order s₁.deqs.length = waiting s.order s.deqs.length := by
    rw [horder, hdeqs]
  refine ⟨?_, fun p hp => settled_goto hpc hdeq hp⟩
  rcases hsettled with hsettled | rfl
  · exact .walk hsame hsettled
  · exact .leave hsame fun hbusy => hbusy (goto_self s₁ t _)

section

omit [DecidableEq Tid]

/-- A step of the consumer that leaves the queue as it is and settles nothing. -/
theorem seek (hpc : s'.pc = s.pc) (horder : s'.order = s.order) (hdeqs : s'.deqs = s.deqs)
    (hsettled : s'.settled none = s.settled none ∨ s'.deq = .idle) :
    Moves view queueSpec none past s s' := by
  have hsame : waiting s'.order s'.deqs.length = waiting s.order s.deqs.length := by
    rw [horder, hdeqs]
  refine ⟨?_, fun p hp => ?_⟩
  · rcases hsettled with hsettled | hidle
    · exact .walk hsame hsettled
    · exact .leave hsame fun hbusy => hbusy hidle
  · cases p with
    | none => exact absurd rfl hp
    | some t =>
      change s'.settled (some t) = s.settled (some t)
      rw [State.settled, State.settled, hpc]

theorem settle {entry : Option Data} {discardedNode : Option Node}
    (hdeq : s'.deq = .deqRet entry discardedNode) (hpc : s'.pc = s.pc)
    (hbefore : s.settled none = none)
    (hmeets : queueSpec (waiting s.order s.deqs.length) .deq (.taken entry)
      (waiting s'.order s'.deqs.length)) : Moves view queueSpec none past s s' := by
  have hafter : s'.settled none = some (.deq, .taken entry) := by
    rw [State.settled, hdeq]
  refine ⟨.settle .deq (.taken entry) hbefore hafter hmeets, fun p hp => ?_⟩
  cases p with
  | none => exact absurd rfl hp
  | some t =>
    change s'.settled (some t) = s.settled (some t)
    rw [State.settled, State.settled, hpc]

end

end Moves

omit [DecidableEq Tid] in
theorem Inv.length_le (h : Inv sentinel s nodes ideal) : s.deqs.length ≤ s.order.length := by
  have hlen := congrArg List.length h.values
  rw [List.length_take, List.length_map] at hlen
  omega

theorem Inv.enqStep_moves (h : Inv sentinel s nodes ideal)
    (hstep : Mpsc.enqStep s t = some s') : Moves view queueSpec (some t) past s s' := by
  rw [Mpsc.enqStep] at hstep
  cases hat : s.pc t with
  | idle =>
    rw [hat] at hstep
    cases hstep
  | enqData node data | enqNext node data =>
    rw [hat] at hstep
    cases hstep
    refine walk rfl rfl rfl rfl (.inl ?_)
    rw [State.settled, State.settled, goto_self, hat]
  | enqXchg node data =>
    rw [hat] at hstep
    cases hstep
    refine ⟨.settle (.enq data) .done ?_ ?_ (waiting_enq h.length_le),
      fun p hp => settled_goto rfl rfl hp⟩
    · change s.settled (some t) = none
      rw [State.settled, hat]
    · change State.settled (State.goto _ t _) (some t) = _
      rw [State.settled, goto_self]
  | enqLink tail node data =>
    rw [hat] at hstep
    cases hstep
    exact walk rfl rfl rfl rfl (.inr rfl)

omit [DecidableEq Tid] in
theorem Inv.deqStep_moves (h : Inv sentinel s nodes ideal)
    (hstep : Mpsc.deqStep sentinel s = some s') : Moves view queueSpec none past s s' := by
  have hdeq := h.deq
  rw [Mpsc.deqStep] at hstep
  cases hat : s.deq with
  | idle | failed _ =>
    rw [hat] at hstep
    cases hstep
  | deqHead | deqClear _ _ _ =>
    rw [hat] at hstep
    cases hstep
    refine seek rfl rfl rfl (.inl ?_)
    rw [State.settled, State.settled, hat]
  | deqNext head | deqAwait head | deqData _ _ =>
    simp only [hat] at hstep
    split at hstep <;> cases hstep
    all_goals
      refine seek rfl rfl rfl (.inl ?_)
      rw [State.settled, State.settled, hat]
  | deqTail head =>
    simp only [hat] at hstep hdeq
    split at hstep <;> cases hstep
    · rename_i htail
      refine settle rfl rfl (by rw [State.settled, hat]) ⟨?_, rfl⟩
      exact waiting_nil.mpr (h.empty (htail.trans hdeq)).le
    · refine seek rfl rfl rfl (.inl ?_)
      rw [State.settled, State.settled, hat]
  | deqMove head next entry =>
    simp only [hat] at hstep hdeq
    split at hstep <;> cases hstep <;>
      exact settle rfl rfl (by rw [State.settled, hat]) (queueSpec_taken entry hdeq.2.2)
  | deqRet entry discardedNode =>
    rw [hat] at hstep
    cases hstep
    exact seek rfl rfl rfl (.inr rfl)

theorem Inv.step_moves (h : Inv sentinel s nodes ideal) (hstep : Mpsc.step sentinel s a = some s') :
    Moves view queueSpec a.thread past s s' := by
  cases a with
  | enq t node data =>
    simp only [Mpsc.step] at hstep
    split at hstep
    · rename_i hidle
      split at hstep <;> cases hstep
      refine walk rfl rfl rfl rfl (.inl ?_)
      rw [State.settled, State.settled, goto_self, hidle]
    · cases hstep
  | deq =>
    simp only [Mpsc.step] at hstep
    split at hstep
    · rename_i hidle
      cases hstep
      refine seek rfl rfl rfl (.inl ?_)
      rw [State.settled, State.settled, hidle]
    · cases hstep
  | step t => exact h.enqStep_moves hstep
  | consume => exact h.deqStep_moves hstep

/-- A call ends only by the link of a producer or by the return of the consumer. -/
theorem step_answers (hstep : step sentinel s a = some s') (hbusy : s.busy a.thread) :
    s'.busy a.thread ∨ ∃ x, s.settled a.thread = some x := by
  cases a with
  | enq t node data | deq =>
    simp only [step] at hstep
    split at hstep
    · rename_i hidle
      exact absurd hidle hbusy
    · cases hstep
  | step t =>
    simp only [step, enqStep] at hstep
    cases hat : s.pc t with
    | idle => exact absurd hat hbusy
    | enqLink tail node data => exact .inr ⟨_, by rw [Act.thread, State.settled, hat]⟩
    | _ =>
      rw [hat] at hstep
      cases hstep
      refine .inl ?_
      rw [Act.thread, State.busy, goto_self]
      rintro ⟨⟩
  | consume =>
    simp only [step, deqStep] at hstep
    cases hat : s.deq with
    | idle => exact absurd hat hbusy
    | deqRet entry discardedNode => exact .inr ⟨_, by rw [Act.thread, State.settled, hat]⟩
    | _ =>
      simp only [hat] at hstep
      repeat' split at hstep
      all_goals cases hstep
      all_goals
        refine .inl ?_
        rintro ⟨⟩

/-- The node that a dequeue throws out by its last step. -/
def DeqPc.discards : DeqPc Node Data → List Node
  | .deqRet _ discardedNode => discardedNode.toList
  | _ => []

theorem step_handed (hstep : step sentinel s a = some s') :
    s'.discarded = s.discarded ++ if a.thread = none then s'.deq.discards else [] := by
  cases a with
  | enq t node data =>
    simp only [step] at hstep
    split at hstep
    · split at hstep <;> cases hstep
      exact (List.append_nil _).symm
    · cases hstep
  | deq =>
    simp only [step] at hstep
    split at hstep <;> cases hstep
    exact (List.append_nil _).symm
  | step t =>
    simp only [step, enqStep] at hstep
    split at hstep <;> cases hstep <;> exact (List.append_nil _).symm
  | consume =>
    simp only [step, deqStep] at hstep
    cases hat : s.deq with
    | deqMove head next entry =>
      simp only [hat] at hstep
      split at hstep <;> cases hstep
      · exact (List.append_nil _).symm
      · rfl
    | _ =>
      simp only [hat] at hstep
      repeat' split at hstep
      all_goals cases hstep
      all_goals exact (List.append_nil _).symm

theorem run_linear (run : (machine Tid Node Data sentinel next data).Run past s) :
    Linear (machine Tid Node Data sentinel next data) Act.thread view queueSpec past s := by
  apply run.linear_always
  · rintro s rfl p
    cases p <;> rfl
  · intro past s a s' run hstep
    obtain ⟨⟨nodes, ideal, h⟩, -⟩ := run_inv run
    exact h.step_moves hstep

/-- The node that the next step of a producer writes to. -/
def Pc.writes : Pc Node Data → Option Node
  | .enqData node _ | .enqNext node _ => some node
  | .enqLink tail _ _ => some tail
  | .idle | .enqXchg _ _ => none

/-- What `vmpsc_destroy` visits in a chain without gaps. -/
theorem destroyLoop_linked {p : Option Node} (h : Linked next p nodes) {fuel : Nat}
    (hfuel : nodes.length ≤ fuel) :
    destroyLoop sentinel next fuel p = some (nodes.filter (· ≠ sentinel)) := by
  induction nodes generalizing p fuel with
  | nil =>
    have hp : p = none := h
    rw [hp]
    cases fuel <;> rfl
  | cons n nodes ih =>
    obtain ⟨rfl, hrest⟩ := h
    cases fuel with
    | zero => cases hfuel
    | succ fuel =>
      have hle : nodes.length ≤ fuel := Nat.le_of_succ_le_succ hfuel
      rw [destroyLoop, ih hrest hle]
      by_cases hn : n = sentinel
      · simp [hn]
      · simp [hn]

/-- The calls are atomic operations of a queue, so the data come out in the order of the
exchanges, each by the dequeue that returns it; with it the dequeue hands out the node that it
throws out. When the consumer throws a node out no producer is about to write to it, and what a
producer writes to was not thrown out. Each enqueue of a node ends in one discard or in one visit
of `vmpsc_destroy`. -/
structure Safe (sentinel : Node) (next : Node → Option Node) (data : Node → Option Data)
    (past : List (State Tid Node Data × Act Tid Node Data)) (s : State Tid Node Data) : Prop where
  linear : Linear (machine Tid Node Data sentinel next data) Act.thread view queueSpec past s
  answers : Answers (machine Tid Node Data sentinel next data) Act.thread view s
  handed : ∀ a s', step sentinel s a = some s' →
    s'.discarded = s.discarded ++ if a.thread = none then s'.deq.discards else []
  fifo : s.deqs <+: s.order.map Prod.snd
  empty : ∀ d, s.deq = .deqRet none d →
    During (fun s => s.deq.busy = true) (fun s => s.order.length = s.deqs.length) (moments past s)
  discard : ∀ head next entry, s.deq = .deqMove head next entry →
    ∀ t, (s.pc t).writes ≠ some head
  write : ∀ t n, (s.pc t).writes = some n → n = sentinel ∨ s.inside n = true
  once : ∀ n, n ≠ sentinel → s.discarded.count n ≤ (s.order.map Prod.fst).count n ∧
    (s.order.map Prod.fst).count n ≤ s.discarded.count n + 1
  destroy : (∀ t, s.pc t = .idle) → s.deq = .idle →
    ∃ visited bound, (∀ fuel, bound ≤ fuel → vmpscDestroy sentinel s fuel = some visited) ∧
      ∀ n, n ≠ sentinel →
        (s.order.map Prod.fst).count n = s.discarded.count n + visited.count n
  asserts : ∀ message, s.deq ≠ .failed message

section

omit [DecidableEq Tid]

theorem Inv.discard (h : Inv sentinel s nodes ideal) {head next : Node} {entry : Data}
    (hat : s.deq = .deqMove head next entry) (t : Tid) : (s.pc t).writes ≠ some head := by
  have hdeq := h.deq
  have hpc := h.pc t
  rw [hat] at hdeq
  obtain ⟨rfl, hnext, -⟩ := hdeq
  have hhead : s.head ∈ content s nodes none := by
    rw [content, h.pending]
    exact List.mem_cons_self ..
  have hheld : s.head ∉ (s.pc t).holds := by
    intro hin
    cases h.apart.unique none (some t) s.head hhead hin
  intro hwrites
  cases hplace : s.pc t with
  | idle | enqXchg _ _ =>
    rw [hplace] at hwrites
    cases hwrites
  | enqData node data | enqNext node data =>
    rw [hplace] at hwrites hheld
    exact hheld (List.mem_singleton.mpr (Option.some.inj hwrites).symm)
  | enqLink tail node data =>
    rw [hplace] at hwrites hpc
    cases hwrites
    rw [hpc.2.1] at hnext
    cases hnext

theorem Inv.write (h : Inv sentinel s nodes ideal) {n : Node}
    (hwrites : (s.pc t).writes = some n) : n = sentinel ∨ s.inside n = true := by
  have hpc := h.pc t
  have hin : ∃ p, n ∈ content s nodes p := by
    cases hplace : s.pc t with
    | idle | enqXchg _ _ =>
      rw [hplace] at hwrites
      cases hwrites
    | enqData node data | enqNext node data =>
      rw [hplace] at hwrites
      cases hwrites
      exact ⟨some t, by rw [content, hplace]; exact List.mem_singleton_self n⟩
    | enqLink tail node data =>
      rw [hplace] at hwrites hpc
      cases hwrites
      exact ⟨none, hpc.1⟩
  by_cases hn : n = sentinel
  · exact .inl hn
  · exact .inr ((h.inside n).mpr ⟨hn, hin⟩)

theorem Inv.destroy (h : Inv sentinel s nodes ideal) (hidle : ∀ t, s.pc t = .idle) :
    ∃ visited bound, (∀ fuel, bound ≤ fuel → vmpscDestroy sentinel s fuel = some visited) ∧
      ∀ n, n ≠ sentinel →
        (s.order.map Prod.fst).count n = s.discarded.count n + visited.count n := by
  have hchain : Linked s.next (some s.head) nodes := by
    refine h.chain.congr fun n hn => h.real n hn fun t m d => ?_
    rw [hidle]
    exact nofun
  refine ⟨nodes.filter (· ≠ sentinel), nodes.length, ?_, ?_⟩
  · intro fuel hfuel
    exact destroyLoop_linked hchain hfuel
  · intro n hn
    have hnodup : nodes.Nodup := h.apart.nodup none
    rw [h.count n hn, List.count_filter (by simpa using hn)]
    by_cases hin : n ∈ nodes
    · rw [if_pos hin, List.count_eq_one_of_mem hnodup hin]
    · rw [if_neg hin, List.count_eq_zero_of_not_mem hin]

end

theorem vmpsc_safe (run : (machine Tid Node Data sentinel next data).Run past s) :
    Safe sentinel next data past s := by
  obtain ⟨⟨nodes, ideal, h⟩, hist⟩ := run_inv run
  refine ⟨run_linear run, fun a s' => step_answers, fun a s' => step_handed, ?_, hist, ?_, ?_, ?_,
    ?_, ?_⟩
  · rw [h.values]
    exact List.take_prefix _ _
  · intro head next entry hat t
    exact h.discard hat t
  · intro t n hwrites
    exact h.write hwrites
  · intro n hn
    have hcount := h.count n hn
    split at hcount <;> omega
  · intro hidle _
    exact h.destroy hidle
  · intro message hfailed
    have hdeq := h.deq
    rw [hfailed] at hdeq
    exact hdeq

/-- Two producers: node 2 becomes the tail before node 1 is linked, and the
consumer waits at the gap. Node 1 is thrown out and used again. -/
def gap : List (Act Bool Nat Nat) :=
  [.enq true 1 7, .step true, .step true, .step true, .enq false 2 8, .step false, .step false,
    .step false, .step false, .deq, .consume, .consume, .consume, .step true, .consume, .consume,
    .consume, .consume, .consume, .deq, .consume, .consume, .consume, .consume, .consume, .consume,
    .enq true 1 9]

theorem vmpsc_safe_gap :
    ∃ past s, (machine Bool Nat Nat 0 (fun _ => none) fun _ => none).Run past s ∧
      Safe 0 (fun _ => none) (fun _ => none) past s ∧ s.deqs = [7, 8] ∧ s.discarded = [1] := by
  have hexec : ((machine Bool Nat Nat 0 (fun _ => none) fun _ => none).exec
      (vmpscInit 0 (fun _ => none) fun _ => none) gap).map (fun s => (s.deqs, s.discarded)) =
      some ([7, 8], [1]) := by
    decide +kernel
  obtain ⟨s, hs, hview⟩ := Option.map_eq_some_iff.mp hexec
  obtain ⟨hdeqs, hdiscarded⟩ := Prod.mk.inj hview
  have run := (Machine.Run.start
    (M := machine Bool Nat Nat 0 (fun _ => none) fun _ => none) rfl).exec hs
  exact ⟨_, s, run, vmpsc_safe run, hdeqs, hdiscarded⟩

end Libvsync.Queue.Mpsc
