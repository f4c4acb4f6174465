import Libvsync.Core.Fifo
import Libvsync.Core.Linked
import Libvsync.Core.Owner
import Libvsync.Core.Places
import Libvsync.Core.Queue

/-!
The unbounded queue with two locks. Enqueuers have the lock `enq_l` and work at the tail,
dequeuers have `deq_l` and work at the head, and both meet at a node when the queue is empty or
almost empty. A dequeue retires the old head, which the caller may free or enqueue again at
once, also while `tail` still points to it: an enqueuer that has linked its node only moves the
tail and does not look at the old one again.

`inside`, `order` and `deqs` are not read by the code: whether a node was given to
`vqueue_ub_enq` and not retired since, the nodes in the order in which they were linked, each
with its data, and the data taken out.
-/

namespace Libvsync.Queue.UnboundedTotal

open Libvsync.Core Function

/-- Where a thread stands, with its arguments and local variables. -/
inductive Pc (Node Data : Type) where
  | idle
  | enqLock (qnode : Node) (data : Data)
  | enqData (qnode : Node) (data : Data)
  | enqNext (qnode : Node) (data : Data)
  | enqTail (qnode : Node) (data : Data)
  | enqLink (tail qnode : Node) (data : Data)
  | enqMove (qnode : Node) (data : Data)
  | enqUnlock (data : Data)
  | deqLock
  | deqHead
  | deqNext (head : Node)
  | deqData (head qnode : Node)
  | deqMove (head qnode : Node) (data : Option Data)
  | deqRetire (head : Node) (data : Option Data)
  | deqUnlock (data : Option Data)
  | deqRet (data : Option Data)
  | emptyLock
  | emptyHead
  | emptyNext (head : Node)
  | emptyUnlock (empty : Bool)
  | emptyRet (empty : Bool)
  deriving DecidableEq

structure State (Tid Node Data : Type) where
  enqL : Option Tid
  deqL : Option Tid
  head : Node
  tail : Node
  next : Node → Option Node
  data : Node → Option Data
  pc : Tid → Pc Node Data
  inside : Node → Bool
  order : List (Node × Option Data)
  deqs : List (Option Data)

inductive Act (Tid Node Data : Type) where
  | enq (t : Tid) (qnode : Node) (data : Data)
  | deq (t : Tid)
  | empty (t : Tid)
  | step (t : Tid)

def Act.thread {Tid Node Data : Type} : Act Tid Node Data → Tid
  | .enq t _ _ | .deq t | .empty t | .step t => t

variable {Tid Node Data : Type} [DecidableEq Tid] [DecidableEq Node]

def State.goto (s : State Tid Node Data) (t : Tid) (pc : Pc Node Data) : State Tid Node Data :=
  { s with pc := update s.pc t pc }

/-- `queue_lock_acquire(&q->enq_l)` -/
def State.acquireEnq (s : State Tid Node Data) (t : Tid) (pc : Pc Node Data) :
    Option (State Tid Node Data) :=
  if s.enqL = none then some ({ s with enqL := some t }.goto t pc) else none

/-- `queue_lock_acquire(&q->deq_l)` -/
def State.acquireDeq (s : State Tid Node Data) (t : Tid) (pc : Pc Node Data) :
    Option (State Tid Node Data) :=
  if s.deqL = none then some ({ s with deqL := some t }.goto t pc) else none

/-- The next operation of `t`. `sentinel` is the node within the queue object. -/
def nextStep (sentinel : Node) (s : State Tid Node Data) (t : Tid) :
    Option (State Tid Node Data) :=
  match s.pc t with
  | .idle => none
  | .enqLock qnode data => s.acquireEnq t (.enqData qnode data)
  | .enqData qnode data =>
    some ({ s with data := update s.data qnode (some data) }.goto t
      (.enqNext qnode data))
  | .enqNext qnode data =>
    some ({ s with next := update s.next qnode none }.goto t (.enqTail qnode data))
  | .enqTail qnode data => some (s.goto t (.enqLink s.tail qnode data))
  | .enqLink tail qnode data =>
    some ({ s with
      next := update s.next tail (some qnode)
      order := s.order ++ [(qnode, some data)] }.goto t (.enqMove qnode data))
  | .enqMove qnode data => some ({ s with tail := qnode }.goto t (.enqUnlock data))
  | .enqUnlock _ => some ({ s with enqL := none }.goto t .idle)
  | .deqLock => s.acquireDeq t .deqHead
  | .deqHead => some (s.goto t (.deqNext s.head))
  | .deqNext head =>
    match s.next head with
    | some qnode => some (s.goto t (.deqData head qnode))
    | none => some (s.goto t (.deqUnlock none))
  | .deqData head qnode => some (s.goto t (.deqMove head qnode (s.data qnode)))
  | .deqMove head qnode data =>
    let s' := { s with head := qnode, deqs := s.deqs ++ [data] }
    if head ≠ sentinel then some (s'.goto t (.deqRetire head data))
    else some (s'.goto t (.deqUnlock data))
  | .deqRetire head data =>
    some ({ s with inside := update s.inside head false }.goto t (.deqUnlock data))
  | .deqUnlock data => some ({ s with deqL := none }.goto t (.deqRet data))
  | .deqRet _ => some (s.goto t .idle)
  | .emptyLock => s.acquireDeq t .emptyHead
  | .emptyHead => some (s.goto t (.emptyNext s.head))
  | .emptyNext head => some (s.goto t (.emptyUnlock (s.next head).isNone))
  | .emptyUnlock empty => some ({ s with deqL := none }.goto t (.emptyRet empty))
  | .emptyRet _ => some (s.goto t .idle)

/-- A node is enqueued that is not in use by the queue. -/
def step (sentinel : Node) (s : State Tid Node Data) :
    Act Tid Node Data → Option (State Tid Node Data)
  | .enq t qnode data =>
    match s.pc t with
    | .idle =>
      if qnode = sentinel ∨ s.inside qnode then none
      else some ({ s with inside := update s.inside qnode true }.goto t
        (.enqLock qnode data))
    | _ => none
  | .deq t =>
    match s.pc t with
    | .idle => some (s.goto t .deqLock)
    | _ => none
  | .empty t =>
    match s.pc t with
    | .idle => some (s.goto t .emptyLock)
    | _ => none
  | .step t => nextStep sentinel s t

/-- After `vqueue_ub_init`, with whatever the other nodes hold. -/
structure Initial (sentinel : Node) (s : State Tid Node Data) : Prop where
  enqL : s.enqL = none
  deqL : s.deqL = none
  head : s.head = sentinel
  tail : s.tail = sentinel
  next : s.next sentinel = none
  data : s.data sentinel = none
  pc : s.pc = fun _ => .idle
  inside : s.inside = fun _ => false
  order : s.order = []
  deqs : s.deqs = []

def machine (Tid Node Data : Type) [DecidableEq Tid] [DecidableEq Node] (sentinel : Node) :
    Machine (State Tid Node Data) (Act Tid Node Data) where
  start := Initial sentinel
  step := step sentinel

/-- The nodes that the next operation reads, writes or retires. -/
def Pc.touches : Pc Node Data → List Node
  | .enqData qnode _ | .enqNext qnode _ => [qnode]
  | .enqLink tail _ _ => [tail]
  | .deqNext head | .emptyNext head => [head]
  | .deqData _ qnode => [qnode]
  | .deqRetire head _ => [head]
  | _ => []

/-- What a call will return, once that is fixed. -/
def Pc.settled : Pc Node Data → Option (QueueCall (Option Data) × QueueResult (Option Data))
  | .enqMove _ data | .enqUnlock data => some (.enq (some data), .done)
  | .deqRetire _ data | .deqUnlock data | .deqRet data => some (.deq, .taken (data.map some))
  | .emptyUnlock empty | .emptyRet empty => some (.empty, .isEmpty empty)
  | _ => none

def view : View (State Tid Node Data) Tid (List (Option Data)) (QueueCall (Option Data))
    (QueueResult (Option Data)) :=
  .ofPlaces (fun s => waiting s.order s.deqs.length) State.pc .idle Pc.settled rfl

/-- The calls are atomic operations of a queue: the data are taken out in the order in which they
were enqueued, each once and by the dequeue that returns them. A dequeue that found a node returns
data, and one that reads no next node finds all data taken out; NULL is returned only then. No node
is touched that was retired. -/
structure Safe (sentinel : Node) (past : List (State Tid Node Data × Act Tid Node Data))
    (s : State Tid Node Data) : Prop where
  linear : Linear (machine Tid Node Data sentinel) Act.thread view queueSpec past s
  answers : Answers (machine Tid Node Data sentinel) Act.thread view s
  null : ∀ t s', step sentinel s (.step t) = some s' → (s.pc t).settled = none →
    (s'.pc t).settled = some (.deq, .taken none) →
    ∃ head, s.pc t = .deqNext head ∧ s.next head = none ∧ s.deqs = s.order.map Prod.snd
  fifo : s.deqs <+: s.order.map Prod.snd
  found : ∀ t head qnode, s.pc t = .deqData head qnode → s.data qnode ≠ none
  empty : ∀ t head, s.pc t = .deqNext head ∨ s.pc t = .emptyNext head → s.next head = none →
    s.deqs = s.order.map Prod.snd
  touches : ∀ t, ∀ n ∈ (s.pc t).touches, n = sentinel ∨ s.inside n = true

/-- The node that a thread has to itself. -/
def Pc.holds : Pc Node Data → List Node
  | .enqLock qnode _ | .enqData qnode _ | .enqNext qnode _ | .enqTail qnode _
  | .enqLink _ qnode _ => [qnode]
  | .deqRetire head _ => [head]
  | _ => []

def Pc.hasEnq : Pc Node Data → Bool
  | .enqData _ _ | .enqNext _ _ | .enqTail _ _ | .enqLink _ _ _ | .enqMove _ _
  | .enqUnlock _ => true
  | _ => false

def Pc.hasDeq : Pc Node Data → Bool
  | .deqHead | .deqNext _ | .deqData _ _ | .deqMove _ _ _ | .deqRetire _ _ | .deqUnlock _
  | .emptyHead | .emptyNext _ | .emptyUnlock _ => true
  | _ => false

/-- Where nodes are: in the chain or with a thread. -/
def content (s : State Tid Node Data) (nodes : List Node) : Option Tid → List Node
  | none => nodes
  | some t => (s.pc t).holds

/-- What a thread relies on. -/
def PcOk (s : State Tid Node Data) : Pc Node Data → Prop
  | .enqNext qnode data => s.data qnode = some data
  | .enqTail qnode data => s.data qnode = some data ∧ s.next qnode = none
  | .enqLink tail qnode data =>
    s.data qnode = some data ∧ s.next qnode = none ∧ tail = s.tail
  | .deqNext head | .emptyNext head => head = s.head
  | .deqData head qnode => head = s.head ∧ s.next head = some qnode
  | .deqMove head qnode data => head = s.head ∧ s.next head = some qnode ∧ s.data qnode = data
  | _ => True

/-- The node that is linked and not the tail yet. -/
def Pc.linked : Pc Node Data → Option Node
  | .enqMove qnode _ => some qnode
  | _ => none

/-- The last node of the chain. -/
def State.last (s : State Tid Node Data) : Node :=
  match s.enqL with
  | none => s.tail
  | some t => ((s.pc t).linked).getD s.tail

structure Inv (sentinel : Node) (s : State Tid Node Data) (nodes : List Node) : Prop where
  chain : Linked s.next (some s.head) nodes
  last : nodes.getLast? = some s.last
  fifo : Fifo s.data s.order s.deqs s.head nodes
  full : ∀ e ∈ s.order, e.2 ≠ none
  apart : Apart (content s nodes)
  inside : ∀ n, s.inside n = true ↔ n ≠ sentinel ∧ ∃ p, n ∈ content s nodes p
  unused : ∀ t, sentinel ∉ (s.pc t).holds
  enq : Owner (fun t => (s.pc t).hasEnq) s.enqL
  deq : Owner (fun t => (s.pc t).hasDeq) s.deqL
  pc : ∀ t, PcOk s (s.pc t)

variable {sentinel : Node} {s s' : State Tid Node Data} {nodes m : List Node} {t u : Tid}
  {q : Pc Node Data}

section Frame

omit [DecidableEq Node]

theorem goto_self (s : State Tid Node Data) (t : Tid) (q : Pc Node Data) :
    (s.goto t q).pc t = q :=
  update_self ..

theorem pc_self (hpc : s'.pc = update s.pc t q) : s'.pc t = q := by
  rw [hpc, update_self]

/-- The last node stays the last one while no thread links or moves the tail. -/
theorem last_congr (hpc : s'.pc = update s.pc t q) (henqL : s'.enqL = s.enqL)
    (htail : s'.tail = s.tail) (hlinked : q.linked = (s.pc t).linked) : s'.last = s.last := by
  rw [State.last, State.last, henqL, htail]
  cases s.enqL with
  | none => rfl
  | some u =>
    dsimp only
    rw [hpc]
    by_cases hut : u = t
    · rw [hut, update_self, hlinked]
    · rw [update_of_ne hut]

omit [DecidableEq Tid] in
theorem last_owner (hlock : s.enqL = some t) : s.last = ((s.pc t).linked).getD s.tail := by
  rw [State.last, hlock]

theorem content_other (hpc : s'.pc = update s.pc t q) {p : Option Tid} (hp : p ≠ none)
    (hpt : p ≠ some t) : content s' m p = content s nodes p := by
  cases p with
  | none => exact absurd rfl hp
  | some u => rw [content, content, hpc, update_of_ne fun hut => hpt (congrArg some hut)]

theorem content_self (hpc : s'.pc = update s.pc t q) :
    content s' m (some t) = q.holds := by
  rw [content, hpc, update_self]

theorem hasEnq_other (hpc : s'.pc = update s.pc t q) (u : Tid) (hu : u ≠ t) :
    (s'.pc u).hasEnq = (s.pc u).hasEnq := by
  rw [hpc, update_of_ne hu]

theorem hasDeq_other (hpc : s'.pc = update s.pc t q) (u : Tid) (hu : u ≠ t) :
    (s'.pc u).hasDeq = (s.pc u).hasDeq := by
  rw [hpc, update_of_ne hu]

omit [DecidableEq Tid] in
theorem PcOk.congr (h : PcOk s q)
    (hnode : ∀ n ∈ q.holds, s'.data n = s.data n ∧ s'.next n = s.next n)
    (htail : q.hasEnq = true → s'.tail = s.tail)
    (hhead : q.hasDeq = true → s'.head = s.head ∧
      ∀ m, s.next s.head = some m → s'.next s.head = some m ∧ s'.data m = s.data m) :
    PcOk s' q := by
  have hmine {n : Node} (hn : q.holds = [n]) := hnode n (hn ▸ List.mem_singleton_self n)
  cases q with
  | enqNext qnode data => exact (hmine rfl).1.trans h
  | enqTail qnode data => exact ⟨(hmine rfl).1.trans h.1, (hmine rfl).2.trans h.2⟩
  | enqLink tail qnode data =>
    exact ⟨(hmine rfl).1.trans h.1, (hmine rfl).2.trans h.2.1, h.2.2.trans (htail rfl).symm⟩
  | deqNext head | emptyNext head => exact h.trans (hhead rfl).1.symm
  | deqData head qnode =>
    obtain ⟨rfl, hnext⟩ := h
    exact ⟨(hhead rfl).1.symm, ((hhead rfl).2 qnode hnext).1⟩
  | deqMove head qnode data =>
    obtain ⟨rfl, hnext, hdata⟩ := h
    obtain ⟨hsame, hsame'⟩ := (hhead rfl).2 qnode hnext
    exact ⟨(hhead rfl).1.symm, hsame, hsame'.trans hdata⟩
  | _ => trivial

/-- The threads after a step of `t`. The tail is changed by the thread that has `enq_l` and the
head by the one that has `deq_l`. -/
theorem Inv.pcs (h : Inv sentinel s nodes) (hpc : s'.pc = update s.pc t q)
    (hnode : ∀ u, u ≠ t → ∀ n ∈ (s.pc u).holds, s'.data n = s.data n ∧ s'.next n = s.next n)
    (htail : s'.tail = s.tail ∨ (s.pc t).hasEnq = true)
    (hhead : (s'.head = s.head ∧ ∀ m, s.next s.head = some m →
      s'.next s.head = some m ∧ s'.data m = s.data m) ∨ (s.pc t).hasDeq = true)
    (hok : PcOk s' q) (u : Tid) : PcOk s' (s'.pc u) := by
  rw [hpc]
  by_cases hut : u = t
  · rw [hut, update_self]
    exact hok
  · rw [update_of_ne hut]
    refine (h.pc u).congr (hnode u hut) (fun hu => ?_) fun hu => ?_
    · exact htail.resolve_right fun ht => Bool.false_ne_true ((h.enq.alone ht hut).symm.trans hu)
    · exact hhead.resolve_right fun ht => Bool.false_ne_true ((h.deq.alone ht hut).symm.trans hu)

section

omit [DecidableEq Tid]

theorem Inv.last_mem (h : Inv sentinel s nodes) : s.last ∈ nodes := List.mem_of_getLast? h.last

theorem Inv.first (h : Inv sentinel s nodes) {n : Node} (hn : s.next s.head = some n) :
    ∃ rest, nodes = s.head :: n :: rest := by
  obtain ⟨rest, rfl, hrest⟩ := h.chain.of_some
  rw [hn] at hrest
  obtain ⟨rest', rfl, -⟩ := hrest.of_some
  exact ⟨rest', rfl⟩

theorem Inv.apart_chain (h : Inv sentinel s nodes) {n : Node} (hn : n ∈ (s.pc t).holds) :
    n ∉ nodes := by
  intro hin
  cases h.apart.unique none (some t) n hin hn

theorem Inv.apart_holds (h : Inv sentinel s nodes) (hu : u ≠ t) {n : Node}
    (hn : n ∈ (s.pc u).holds) : n ∉ (s.pc t).holds := by
  intro hin
  cases h.apart.unique (some u) (some t) n hn hin
  exact hu rfl

end

/-- A step of `t` that leaves the chain as it is and writes to its own node at most. -/
theorem Inv.move (h : Inv sentinel s nodes) (hpc : s'.pc = update s.pc t q)
    (hhead : s'.head = s.head) (hnext : ∀ n, n ∉ (s.pc t).holds → s'.next n = s.next n)
    (hdata : ∀ n, n ∉ (s.pc t).holds → s'.data n = s.data n) (hinside : s'.inside = s.inside)
    (horder : s'.order = s.order) (hdeqs : s'.deqs = s.deqs) (hholds : q.holds = (s.pc t).holds)
    (hlast : s'.last = s.last) (htail : s'.tail = s.tail ∨ (s.pc t).hasEnq = true)
    (henq : Owner (fun u => (s'.pc u).hasEnq) s'.enqL)
    (hdeq : Owner (fun u => (s'.pc u).hasDeq) s'.deqL) (hok : PcOk s' q) :
    Inv sentinel s' nodes := by
  have hcontent : content s' nodes = content s nodes := by
    funext p
    by_cases hp : p = none
    · rw [hp, content, content]
    · by_cases hpt : p = some t
      · rw [hpt, content_self hpc, content, hholds]
      · exact content_other hpc hp hpt
  have hchain {n : Node} (hn : n ∈ nodes) : n ∉ (s.pc t).holds := fun hin => h.apart_chain hin hn
  refine ⟨?_, ?_, ?_, ?_, ?_, ?_, fun u => ?_, henq, hdeq, h.pcs hpc (fun u hu n hn => ?_) htail
    (.inl ⟨hhead, fun m hm => ?_⟩) hok⟩
  · rw [hhead]
    exact h.chain.congr fun n hn => hnext n (hchain hn)
  · rw [hlast]
    exact h.last
  · rw [horder, hdeqs, hhead]
    exact h.fifo.congr fun n hn => hdata n (hchain hn)
  · rw [horder]
    exact h.full
  · rw [hcontent]
    exact h.apart
  · rw [hinside, hcontent]
    exact h.inside
  · rw [hpc]
    by_cases hut : u = t
    · rw [hut, update_self, hholds]
      exact h.unused t
    · rw [update_of_ne hut]
      exact h.unused u
  · have haway := h.apart_holds hu hn
    exact ⟨hdata n haway, hnext n haway⟩
  · obtain ⟨rest, rfl⟩ := h.first hm
    have hin : m ∈ s.head :: m :: rest := List.mem_cons_of_mem _ (List.mem_cons_self ..)
    rw [hnext s.head (hchain (List.mem_cons_self ..)), hdata m (hchain hin)]
    exact ⟨hm, rfl⟩

/-- A step of `t` that changes nothing but where `t` is, and has the locks that it had. -/
theorem Inv.goto (h : Inv sentinel s nodes) (hholds : q.holds = (s.pc t).holds)
    (henq : q.hasEnq = (s.pc t).hasEnq) (hdeq : q.hasDeq = (s.pc t).hasDeq)
    (hlinked : q.linked = (s.pc t).linked) (hok : PcOk s q) : Inv sentinel (s.goto t q) nodes := by
  refine h.move rfl rfl (fun _ _ => rfl) (fun _ _ => rfl) rfl rfl rfl hholds
    (last_congr rfl rfl rfl hlinked) (.inl rfl) ?_ ?_ ?_
  · exact h.enq.keep (hasEnq_other rfl) (by rw [goto_self, henq])
  · exact h.deq.keep (hasDeq_other rfl) (by rw [goto_self, hdeq])
  · exact hok.congr (fun _ _ => ⟨rfl, rfl⟩) (fun _ => rfl) fun _ => ⟨rfl, fun _ hm => ⟨hm, rfl⟩⟩

end Frame

/-- A call of `vqueue_ub_enq` begins with a node that is not in use. -/
theorem Inv.enqCall (h : Inv sentinel s nodes) {qnode : Node} {data : Data}
    (hidle : s.pc t = .idle) (hsentinel : qnode ≠ sentinel) (hnew : s.inside qnode = false) :
    Inv sentinel ({ s with inside := update s.inside qnode true }.goto t
      (.enqLock qnode data)) nodes := by
  have hpc : ({ s with inside := update s.inside qnode true }.goto t
      (.enqLock qnode data)).pc = update s.pc t (.enqLock qnode data) := rfl
  have hfresh (p : Option Tid) : qnode ∉ content s nodes p := by
    intro hin
    rw [(h.inside qnode).mpr ⟨hsentinel, p, hin⟩] at hnew
    cases hnew
  have hothers (p : Option Tid) (hp : p ≠ some t) :
      content ({ s with inside := update s.inside qnode true }.goto t
        (.enqLock qnode data)) nodes p = content s nodes p := by
    by_cases hnone : p = none
    · rw [hnone, content, content]
    · exact content_other hpc hnone hp
  have hmine : content ({ s with inside := update s.inside qnode true }.goto t
      (.enqLock qnode data)) nodes (some t) = qnode :: content s nodes (some t) := by
    rw [content_self hpc, content, hidle]
    rfl
  refine ⟨h.chain, (last_congr hpc rfl rfl (by rw [hidle]; rfl)).symm ▸ h.last, h.fifo, h.full,
    h.apart.take hothers hmine hfresh, fun n => ?_, fun u => ?_, ?_, ?_,
    h.pcs hpc (fun _ _ _ _ => ⟨rfl, rfl⟩) (.inl rfl) (.inl ⟨rfl, fun _ hm => ⟨hm, rfl⟩⟩) trivial⟩
  · change update s.inside qnode true n = true ↔ _
    by_cases hn : n = qnode
    · subst hn
      rw [update_self]
      exact iff_of_true rfl ⟨hsentinel, some t, by rw [hmine]; exact List.mem_cons_self ..⟩
    · rw [update_of_ne hn, h.inside]
      refine and_congr_right fun _ => exists_congr fun p => ?_
      by_cases hp : p = some t
      · rw [hp, hmine, List.mem_cons]
        exact (or_iff_right hn).symm
      · rw [hothers p hp]
  · rw [hpc]
    by_cases hut : u = t
    · rw [hut, update_self]
      exact fun hin => hsentinel (List.mem_singleton.mp hin).symm
    · rw [update_of_ne hut]
      exact h.unused u
  · exact h.enq.keep (hasEnq_other hpc) (by rw [goto_self, hidle]; rfl)
  · exact h.deq.keep (hasDeq_other hpc) (by rw [goto_self, hidle]; rfl)

theorem Inv.enqLink (h : Inv sentinel s nodes) {tail qnode : Node} {data : Data}
    (hat : s.pc t = .enqLink tail qnode data)
    (hs' : s' = { s with
      next := update s.next tail (some qnode)
      order := s.order ++ [(qnode, some data)] }.goto t (.enqMove qnode data)) :
    Inv sentinel s' (nodes ++ [qnode]) := by
  have hown := h.pc t
  rw [hat] at hown
  obtain ⟨hdata, hnone, rfl⟩ := hown
  have hhas : (s.pc t).hasEnq = true := by
    rw [hat]
    rfl
  have hlock : s.enqL = some t := (h.enq t).mp hhas
  have hlast : s.last = s.tail := by
    rw [last_owner hlock, hat]
    rfl
  have hheld : qnode ∈ (s.pc t).holds := by
    rw [hat]
    exact List.mem_singleton_self qnode
  have hfresh := h.apart_chain hheld
  have htail : s.tail ∈ nodes := hlast ▸ h.last_mem
  have hend : s.next s.tail = none := h.chain.last_next (hlast ▸ h.last)
  have hpc : s'.pc = update s.pc t (.enqMove qnode data) := by
    rw [hs']
    rfl
  have hperm : (content s' (nodes ++ [qnode]) none ++ content s' (nodes ++ [qnode]) (some t)).Perm
      (content s nodes none ++ content s nodes (some t)) := by
    rw [content_self hpc, content, content, content, hat]
    exact .of_eq (List.append_nil _)
  have hothers (p : Option Tid) (hp : p ≠ none) (hpt : p ≠ some t) :
      content s' (nodes ++ [qnode]) p = content s nodes p :=
    content_other hpc hp hpt
  have hchain : Linked (update s.next s.tail (some qnode)) (some s.head)
      (nodes ++ [qnode]) := by
    have happend := h.chain.append (h.apart.nodup none) (hlast ▸ h.last) hfresh
    have hsame : update s.next qnode none = s.next := by
      rw [← hnone]
      exact update_eq_self qnode s.next
    rwa [hsame] at happend
  have hnew : s'.last = qnode := by
    have hlock' : s'.enqL = some t := by
      rw [hs']
      exact hlock
    rw [last_owner hlock', pc_self hpc]
    rfl
  subst hs'
  refine ⟨hchain, ?_, h.fifo.append hdata, fun e he => ?_,
    h.apart.transfer (Option.some_ne_none t).symm hothers hperm, fun n => ?_, fun u => ?_, ?_, ?_,
    h.pcs hpc (fun u hu n hn => ⟨rfl, ?_⟩) (.inl rfl) (.inl ⟨rfl, fun m hm => ⟨?_, rfl⟩⟩) trivial⟩
  · rw [List.getLast?_concat, hnew]
  · rcases List.mem_append.mp he with hold | hnew
    · exact h.full e hold
    · rw [List.mem_singleton.mp hnew]
      exact Option.some_ne_none data
  · refine (h.inside n).trans (and_congr_right fun _ => ⟨?_, ?_⟩)
    · rintro ⟨p, hp⟩
      exact mem_of_transfer (fun p hp hpt => (hothers p hp hpt).symm) hperm.symm hp
    · rintro ⟨p, hp⟩
      exact mem_of_transfer hothers hperm hp
  · rw [hpc]
    by_cases hut : u = t
    · rw [hut, update_self]
      exact List.not_mem_nil
    · rw [update_of_ne hut]
      exact h.unused u
  · exact h.enq.keep (hasEnq_other hpc) (by rw [goto_self, hat]; rfl)
  · exact h.deq.keep (hasDeq_other hpc) (by rw [goto_self, hat]; rfl)
  · refine update_of_ne ?_ _ _
    rintro rfl
    exact h.apart_chain hn htail
  · -- the head has a next node, so it is not the last one
    refine (update_of_ne ?_ _ _).trans hm
    intro heq
    rw [heq, hend] at hm
    cases hm

omit [DecidableEq Node] in
/-- The head moves on, and the old one is retired unless it is the sentinel. -/
theorem Inv.deqMove (h : Inv sentinel s nodes) {head qnode : Node} {data : Option Data}
    (hat : s.pc t = .deqMove head qnode data) (hhas : q.hasDeq = true) (hnot : q.hasEnq = false)
    (hlinked : q.linked = none)
    (hholds : (head ≠ sentinel ∧ q.holds = [head]) ∨ (head = sentinel ∧ q.holds = []))
    (hok : ∀ s₁ : State Tid Node Data, PcOk s₁ q)
    (hs' : s' = { s with head := qnode, deqs := s.deqs ++ [data] }.goto t q) :
    Inv sentinel s' nodes.tail := by
  have hown := h.pc t
  rw [hat] at hown
  obtain ⟨rfl, hnext, rfl⟩ := hown
  obtain ⟨rest, rfl⟩ := h.first hnext
  have hpc : s'.pc = update s.pc t q := by
    rw [hs']
    rfl
  have hothers (p : Option Tid) (hp : p ≠ none) (hpt : p ≠ some t) :
      content s' (qnode :: rest) p = content s (s.head :: qnode :: rest) p :=
    content_other hpc hp hpt
  have hempty : (s.pc t).holds = [] := by
    rw [hat]
    rfl
  have hchain := h.chain.2
  rw [hnext] at hchain
  have hplaces : Apart (content s' (qnode :: rest)) ∧ ∀ n, n ≠ sentinel →
      ((∃ p, n ∈ content s (s.head :: qnode :: rest) p) ↔
        ∃ p, n ∈ content s' (qnode :: rest) p) := by
    rcases hholds with ⟨-, hholds⟩ | ⟨hsentinel, hholds⟩
    · have hperm : (content s' (qnode :: rest) none ++ content s' (qnode :: rest) (some t)).Perm
          (content s (s.head :: qnode :: rest) none ++
            content s (s.head :: qnode :: rest) (some t)) := by
        rw [content_self hpc, content, content, content, hholds, hempty, List.append_nil]
        exact List.perm_append_singleton ..
      refine ⟨h.apart.transfer (Option.some_ne_none t).symm hothers hperm,
        fun n _ => ⟨?_, ?_⟩⟩
      · rintro ⟨p, hp⟩
        exact mem_of_transfer (fun p hp hpt => (hothers p hp hpt).symm) hperm.symm hp
      · rintro ⟨p, hp⟩
        exact mem_of_transfer hothers hperm hp
    · have hsame (p : Option Tid) (hp : p ≠ none) :
          content s' (qnode :: rest) p = content s (s.head :: qnode :: rest) p := by
        by_cases hpt : p = some t
        · rw [hpt, content_self hpc, content, hholds, hempty]
        · exact hothers p hp hpt
      refine ⟨h.apart.drop hsame (List.sublist_cons_self ..), fun n hn => exists_congr fun p => ?_⟩
      by_cases hp : p = none
      · rw [hp, content, content, List.mem_cons]
        exact or_iff_right fun heq => hn (heq.trans hsentinel)
      · rw [hsame p hp]
  subst hs'
  refine ⟨hchain, ?_, h.fifo.advance, h.full, hplaces.1,
    fun n => (h.inside n).trans (and_congr_right fun hn => hplaces.2 n hn), fun u => ?_, ?_, ?_,
    h.pcs hpc (fun _ _ _ _ => ⟨rfl, rfl⟩) (.inl rfl) (.inr (by rw [hat]; rfl)) (hok _)⟩
  · have hlast := h.last
    rw [List.getLast?_cons_cons, ← last_congr hpc rfl rfl (by rw [hat]; exact hlinked)] at hlast
    exact hlast
  · rw [hpc]
    by_cases hut : u = t
    · rw [hut, update_self]
      rcases hholds with ⟨hne, hholds⟩ | ⟨-, hholds⟩
      · rw [hholds]
        exact fun hin => hne (List.mem_singleton.mp hin).symm
      · rw [hholds]
        exact List.not_mem_nil
    · rw [update_of_ne hut]
      exact h.unused u
  · exact h.enq.keep (hasEnq_other hpc) (by rw [goto_self, hat, hnot]; rfl)
  · exact h.deq.keep (hasDeq_other hpc) (by rw [goto_self, hat, hhas]; rfl)

theorem Inv.deqRetire (h : Inv sentinel s nodes) {head : Node} {data : Option Data}
    (hat : s.pc t = .deqRetire head data) :
    Inv sentinel ({ s with inside := update s.inside head false }.goto t
      (.deqUnlock data)) nodes := by
  have hpc : ({ s with inside := update s.inside head false }.goto t
      (.deqUnlock data)).pc = update s.pc t (.deqUnlock data) := rfl
  have hheld : content s nodes (some t) = [head] := by
    rw [content, hat]
    rfl
  have hothers (p : Option Tid) (hp : p ≠ some t) :
      content ({ s with inside := update s.inside head false }.goto t
        (.deqUnlock data)) nodes p = content s nodes p := by
    by_cases hnone : p = none
    · rw [hnone, content, content]
    · exact content_other hpc hnone hp
  have hmine : content ({ s with inside := update s.inside head false }.goto t
      (.deqUnlock data)) nodes (some t) = [] := content_self hpc
  refine ⟨h.chain, (last_congr hpc rfl rfl (by rw [hat]; rfl)).symm ▸ h.last, h.fifo, h.full,
    h.apart.drop hothers (by rw [hmine]; exact List.nil_sublist _), fun n => ?_, fun u => ?_, ?_,
    ?_, h.pcs hpc (fun _ _ _ _ => ⟨rfl, rfl⟩) (.inl rfl) (.inl ⟨rfl, fun _ hm => ⟨hm, rfl⟩⟩)
    trivial⟩
  · change update s.inside head false n = true ↔ _
    by_cases hn : n = head
    · subst hn
      rw [update_self]
      refine iff_of_false Bool.false_ne_true ?_
      rintro ⟨-, p, hp⟩
      by_cases hpt : p = some t
      · rw [hpt, hmine] at hp
        cases hp
      · rw [hothers p hpt] at hp
        exact hpt (h.apart.unique p (some t) n hp (by rw [hheld]; exact List.mem_singleton_self n))
    · rw [update_of_ne hn, h.inside]
      refine and_congr_right fun _ => exists_congr fun p => ?_
      by_cases hpt : p = some t
      · rw [hpt, hmine, hheld, List.mem_singleton]
        exact iff_of_false hn List.not_mem_nil
      · rw [hothers p hpt]
  · rw [hpc]
    by_cases hut : u = t
    · rw [hut, update_self]
      exact List.not_mem_nil
    · rw [update_of_ne hut]
      exact h.unused u
  · exact h.enq.keep (hasEnq_other hpc) (by rw [goto_self, hat]; rfl)
  · exact h.deq.keep (hasDeq_other hpc) (by rw [goto_self, hat]; rfl)

theorem Inv.nextStep (h : Inv sentinel s nodes)
    (hstep : UnboundedTotal.nextStep sentinel s t = some s') :
    ∃ nodes', Inv sentinel s' nodes' := by
  have hown := h.pc t
  unfold UnboundedTotal.nextStep at hstep
  cases hat : s.pc t with
  | idle =>
    rw [hat] at hstep
    cases hstep
  | enqLock qnode data =>
    rw [hat] at hstep
    obtain ⟨hfree, heq⟩ := Option.ite_none_right_eq_some.mp hstep
    cases heq
    refine ⟨nodes, h.move rfl rfl (fun _ _ => rfl) (fun _ _ => rfl) rfl rfl rfl (by rw [hat]; rfl)
      ?_ (.inl rfl) ?_ ?_ trivial⟩
    · rw [last_owner (t := t) rfl, goto_self, State.last, hfree]
      rfl
    · exact Owner.acquire (hasEnq_other rfl) (hfree ▸ h.enq) (by rw [goto_self]; rfl)
    · exact h.deq.keep (hasDeq_other rfl) (by rw [goto_self, hat]; rfl)
  | enqData qnode data =>
    rw [hat] at hstep
    cases hstep
    refine ⟨nodes, h.move rfl rfl (fun _ _ => rfl) (fun n hn => update_of_ne ?_ _ _) rfl
      rfl rfl (by rw [hat]; rfl) (last_congr rfl rfl rfl (by rw [hat]; rfl)) (.inl rfl) ?_ ?_
      (update_self ..)⟩
    · rintro rfl
      rw [hat] at hn
      exact hn (List.mem_singleton_self n)
    · exact h.enq.keep (hasEnq_other rfl) (by rw [goto_self, hat]; rfl)
    · exact h.deq.keep (hasDeq_other rfl) (by rw [goto_self, hat]; rfl)
  | enqNext qnode data =>
    rw [hat] at hstep hown
    cases hstep
    refine ⟨nodes, h.move rfl rfl (fun n hn => update_of_ne ?_ _ _) (fun _ _ => rfl) rfl
      rfl rfl (by rw [hat]; rfl) (last_congr rfl rfl rfl (by rw [hat]; rfl)) (.inl rfl) ?_ ?_
      ⟨hown, update_self ..⟩⟩
    · rintro rfl
      rw [hat] at hn
      exact hn (List.mem_singleton_self n)
    · exact h.enq.keep (hasEnq_other rfl) (by rw [goto_self, hat]; rfl)
    · exact h.deq.keep (hasDeq_other rfl) (by rw [goto_self, hat]; rfl)
  | enqTail qnode data | deqData head qnode =>
    rw [hat] at hstep hown
    cases hstep
    exact ⟨nodes, h.goto (by rw [hat]; rfl) (by rw [hat]; rfl) (by rw [hat]; rfl)
      (by rw [hat]; rfl) ⟨hown.1, hown.2, rfl⟩⟩
  | enqLink tail qnode data =>
    rw [hat] at hstep
    cases hstep
    exact ⟨_, h.enqLink hat rfl⟩
  | enqMove qnode data =>
    rw [hat] at hstep
    cases hstep
    have hhas : (s.pc t).hasEnq = true := by
      rw [hat]
      rfl
    have hlock : s.enqL = some t := (h.enq t).mp hhas
    refine ⟨nodes, h.move rfl rfl (fun _ _ => rfl) (fun _ _ => rfl) rfl rfl rfl (by rw [hat]; rfl)
      ?_ (.inr hhas) ?_ ?_ trivial⟩
    · have hnew : (State.goto { s with tail := qnode } t (.enqUnlock data)).last = qnode := by
        have hlock' : (State.goto { s with tail := qnode } t (.enqUnlock data)).enqL = some t :=
          hlock
        rw [last_owner hlock', goto_self]
        rfl
      rw [hnew, last_owner hlock, hat]
      rfl
    · exact h.enq.keep (hasEnq_other rfl) (by rw [goto_self, hat]; rfl)
    · exact h.deq.keep (hasDeq_other rfl) (by rw [goto_self, hat]; rfl)
  | enqUnlock data =>
    rw [hat] at hstep
    cases hstep
    have hhas : (s.pc t).hasEnq = true := by
      rw [hat]
      rfl
    have hlock : s.enqL = some t := (h.enq t).mp hhas
    refine ⟨nodes, h.move rfl rfl (fun _ _ => rfl) (fun _ _ => rfl) rfl rfl rfl (by rw [hat]; rfl)
      ?_ (.inl rfl) ?_ ?_ trivial⟩
    · rw [last_owner hlock, hat]
      rfl
    · exact h.enq.release (hasEnq_other rfl) hhas (congrArg Pc.hasEnq (pc_self (q := .idle) rfl))
    · refine h.deq.keep (hasDeq_other rfl) ?_
      rw [hat]
      exact (congrArg Pc.hasDeq (pc_self (q := .idle) rfl)).trans rfl
  | deqLock | emptyLock =>
    rw [hat] at hstep
    obtain ⟨hfree, heq⟩ := Option.ite_none_right_eq_some.mp hstep
    cases heq
    refine ⟨nodes, h.move rfl rfl (fun _ _ => rfl) (fun _ _ => rfl) rfl rfl rfl (by rw [hat]; rfl)
      (last_congr rfl rfl rfl (by rw [hat]; rfl)) (.inl rfl) ?_ ?_ trivial⟩
    · exact h.enq.keep (hasEnq_other rfl) (by rw [goto_self, hat]; rfl)
    · exact Owner.acquire (hasDeq_other rfl) (hfree ▸ h.deq) (by rw [goto_self]; rfl)
  | deqHead | emptyHead =>
    rw [hat] at hstep
    cases hstep
    exact ⟨nodes, h.goto (by rw [hat]; rfl) (by rw [hat]; rfl) (by rw [hat]; rfl)
      (by rw [hat]; rfl) rfl⟩
  | deqNext head =>
    rw [hat] at hstep hown
    dsimp only at hstep
    split at hstep <;> cases hstep
    · rename_i qnode hnext
      exact ⟨nodes, h.goto (by rw [hat]; rfl) (by rw [hat]; rfl) (by rw [hat]; rfl)
        (by rw [hat]; rfl) ⟨hown, hnext⟩⟩
    · exact ⟨nodes, h.goto (by rw [hat]; rfl) (by rw [hat]; rfl) (by rw [hat]; rfl)
        (by rw [hat]; rfl) trivial⟩
  | deqMove head qnode data =>
    rw [hat] at hstep
    dsimp only at hstep
    split at hstep <;> cases hstep
    · rename_i hne
      exact ⟨_, h.deqMove (q := .deqRetire head data) hat rfl rfl rfl (.inl ⟨hne, rfl⟩)
        (fun _ => trivial) rfl⟩
    · rename_i heq
      exact ⟨_, h.deqMove (q := .deqUnlock data) hat rfl rfl rfl (.inr ⟨not_not.mp heq, rfl⟩)
        (fun _ => trivial) rfl⟩
  | deqRetire head data =>
    rw [hat] at hstep
    cases hstep
    exact ⟨nodes, h.deqRetire hat⟩
  | deqRet _ | emptyRet _ | emptyNext head =>
    rw [hat] at hstep
    cases hstep
    exact ⟨nodes, h.goto (by rw [hat]; rfl) (by rw [hat]; rfl) (by rw [hat]; rfl)
      (by rw [hat]; rfl) trivial⟩
  | deqUnlock _ | emptyUnlock _ =>
    rw [hat] at hstep
    cases hstep
    have hhas : (s.pc t).hasDeq = true := by
      rw [hat]
      rfl
    refine ⟨nodes, h.move rfl rfl (fun _ _ => rfl) (fun _ _ => rfl) rfl rfl rfl (by rw [hat]; rfl)
      (last_congr rfl rfl rfl (by rw [hat]; rfl)) (.inl rfl) ?_ ?_ trivial⟩
    · exact h.enq.keep (hasEnq_other rfl) (by rw [goto_self, hat]; rfl)
    · exact h.deq.release (hasDeq_other rfl) hhas (by rw [goto_self]; rfl)

theorem Inv.step (h : Inv sentinel s nodes) {a : Act Tid Node Data}
    (hstep : UnboundedTotal.step sentinel s a = some s') : ∃ nodes', Inv sentinel s' nodes' := by
  cases a with
  | enq t qnode data =>
    simp only [UnboundedTotal.step] at hstep
    cases hat : s.pc t <;> rw [hat] at hstep
    case idle =>
      dsimp only at hstep
      split at hstep
      · cases hstep
      · rename_i hfree
        obtain ⟨hne, hnew⟩ := not_or.mp hfree
        cases hstep
        exact ⟨nodes, h.enqCall hat hne (Bool.eq_false_iff.mpr hnew)⟩
    all_goals cases hstep
  | deq t | empty t =>
    simp only [UnboundedTotal.step] at hstep
    cases hat : s.pc t <;> rw [hat] at hstep <;> cases hstep
    exact ⟨nodes, h.goto (by rw [hat]; rfl) (by rw [hat]; rfl) (by rw [hat]; rfl)
      (by rw [hat]; rfl) trivial⟩
  | step t => exact h.nextStep hstep

section

omit [DecidableEq Tid] [DecidableEq Node]

theorem Initial.inv (hs : Initial sentinel s) : Inv sentinel s [sentinel] := by
  have hidle (u : Tid) : s.pc u = .idle := congrFun hs.pc u
  have hholds (u : Tid) : (s.pc u).holds = [] := by
    rw [hidle u]
    rfl
  refine ⟨?_, ?_, ?_, ?_, ⟨?_, ?_⟩, fun n => ?_, fun u => ?_, ?_, ?_, fun u => ?_⟩
  · rw [hs.head]
    exact ⟨rfl, hs.next⟩
  · rw [State.last, hs.enqL, hs.tail]
    rfl
  · rw [hs.order, hs.deqs, hs.head]
    exact Fifo.start s.data sentinel
  · rw [hs.order]
    exact fun e he => absurd he List.not_mem_nil
  · intro p
    cases p with
    | none => exact List.nodup_singleton sentinel
    | some u =>
      rw [content, hholds u]
      exact List.nodup_nil
  · intro p p' n hp hp'
    cases p with
    | none =>
      cases p' with
      | none => rfl
      | some u =>
        rw [content, hholds u] at hp'
        cases hp'
    | some u =>
      rw [content, hholds u] at hp
      cases hp
  · rw [hs.inside]
    refine iff_of_false Bool.false_ne_true ?_
    rintro ⟨hne, p, hp⟩
    cases p with
    | none => exact hne (List.mem_singleton.mp hp)
    | some u =>
      rw [content, hholds u] at hp
      cases hp
  · rw [hholds u]
    exact List.not_mem_nil
  · rw [hs.enqL]
    exact Owner.start fun u => by rw [hidle u]; rfl
  · rw [hs.deqL]
    exact Owner.start fun u => by rw [hidle u]; rfl
  · rw [hidle u]
    trivial

theorem Inv.found (h : Inv sentinel s nodes) {qnode : Node} (hnext : s.next s.head = some qnode) :
    s.order[s.deqs.length]? = some (qnode, s.data qnode) ∧ s.data qnode ≠ none := by
  obtain ⟨rest, rfl⟩ := h.first hnext
  exact ⟨h.fifo.next, h.full (qnode, s.data qnode) (List.mem_of_getElem? h.fifo.next)⟩

/-- A head without a next node: all data were taken out. -/
theorem Inv.drained (h : Inv sentinel s nodes) (hnone : s.next s.head = none) :
    s.deqs = s.order.map Prod.snd := by
  obtain ⟨rest, rfl, hrest⟩ := h.chain.of_some
  rw [hnone] at hrest
  have hpending := h.fifo.pending
  rw [hrest.of_none] at hpending
  have hdrop : s.order.drop s.deqs.length = [] :=
    List.map_eq_nil_iff.mp (List.cons.inj hpending).2.symm
  have hle := List.drop_eq_nil_iff.mp hdrop
  exact h.fifo.values.eq_of_length_le (by rw [List.length_map]; exact hle)

/-- The queue is empty when the head has no next node. -/
theorem Inv.empty_iff (h : Inv sentinel s nodes) :
    s.next s.head = none ↔ waiting s.order s.deqs.length = [] := by
  constructor
  · intro hnone
    exact waiting_nil.mpr (by rw [h.drained hnone, List.length_map])
  · intro hnil
    by_contra hsome
    obtain ⟨qnode, hnext⟩ := Option.ne_none_iff_exists'.mp hsome
    have hfirst := (h.found hnext).1
    rw [List.getElem?_eq_none (waiting_nil.mp hnil)] at hfirst
    cases hfirst

end

variable {past : List (State Tid Node Data × Act Tid Node Data)}

theorem Inv.nextStep_moves (h : Inv sentinel s nodes)
    (hstep : UnboundedTotal.nextStep sentinel s t = some s') :
    Moves view queueSpec t past s s' := by
  have hown := h.pc t
  unfold UnboundedTotal.nextStep at hstep
  cases hat : s.pc t with
  | idle =>
    rw [hat] at hstep
    cases hstep
  | enqLock _ _ | deqLock | emptyLock =>
    rw [hat] at hstep
    obtain ⟨-, heq⟩ := Option.ite_none_right_eq_some.mp hstep
    cases heq
    exact .walkTo rfl rfl (.inl (by rw [hat]; rfl))
  | enqData _ _ | enqNext _ _ | enqTail _ _ | enqMove _ _ | deqHead | deqData _ _ | deqRetire _ _
  | deqUnlock _ | emptyHead | emptyUnlock _ =>
    rw [hat] at hstep
    cases hstep
    exact .walkTo rfl rfl (.inl (by rw [hat]; rfl))
  | enqUnlock _ | deqRet _ | emptyRet _ =>
    rw [hat] at hstep
    cases hstep
    exact .walkTo rfl rfl (.inr rfl)
  | enqLink tail qnode data =>
    rw [hat] at hstep
    cases hstep
    exact .settleTo (.enq (some data)) .done rfl (by rw [hat]; rfl) rfl
      (waiting_enq h.fifo.length_le)
  | deqNext head =>
    rw [hat] at hstep hown
    dsimp only at hstep
    split at hstep <;> cases hstep
    · exact .walkTo rfl rfl (.inl (by rw [hat]; rfl))
    · rename_i hnone
      have hnil := h.empty_iff.mp ((congrArg s.next hown).symm.trans hnone)
      exact .settleTo .deq (.taken none) rfl (by rw [hat]; rfl) rfl ⟨hnil, rfl⟩
  | deqMove head qnode data =>
    rw [hat] at hstep hown
    obtain ⟨rfl, hnext, rfl⟩ := hown
    obtain ⟨hfirst, hsome⟩ := h.found hnext
    have htaken : queueSpec (waiting s.order s.deqs.length) .deq
        (.taken ((s.data qnode).map some))
        (waiting s.order (s.deqs ++ [s.data qnode]).length) := by
      obtain ⟨v, hv⟩ := Option.ne_none_iff_exists'.mp hsome
      rw [List.length_append, waiting_deq hfirst, hv]
      rfl
    dsimp only at hstep
    split at hstep <;> cases hstep <;>
      exact .settleTo .deq _ rfl (by rw [hat]; rfl) rfl htaken
  | emptyNext head =>
    rw [hat] at hstep hown
    cases hstep
    have hempty : (s.next head).isNone = true ↔ waiting s.order s.deqs.length = [] := by
      rw [show head = s.head from hown, Option.isNone_iff_eq_none]
      exact h.empty_iff
    exact .settleTo .empty _ rfl (by rw [hat]; rfl) rfl ⟨hempty, rfl⟩

theorem Inv.step_moves (h : Inv sentinel s nodes) {a : Act Tid Node Data}
    (hstep : UnboundedTotal.step sentinel s a = some s') :
    Moves view queueSpec a.thread past s s' := by
  cases a with
  | enq t qnode data =>
    simp only [UnboundedTotal.step] at hstep
    split at hstep
    · rename_i hidle
      split at hstep <;> cases hstep
      exact .walkTo rfl rfl (.inl (congrArg Pc.settled hidle).symm)
    · cases hstep
  | deq t | empty t =>
    simp only [UnboundedTotal.step] at hstep
    split at hstep
    · rename_i hidle
      cases hstep
      exact .walkTo rfl rfl (.inl (congrArg Pc.settled hidle).symm)
    · cases hstep
  | step t => exact h.nextStep_moves hstep

theorem nextStep_answers (hstep : nextStep sentinel s t = some s') (hidle : s'.pc t = .idle) :
    ∃ x, (s.pc t).settled = some x := by
  rw [nextStep] at hstep
  cases hat : s.pc t with
  | enqUnlock _ | deqRet _ | emptyRet _ => exact ⟨_, rfl⟩
  | enqLock _ _ | deqLock | emptyLock =>
    rw [hat] at hstep
    obtain ⟨-, heq⟩ := Option.ite_none_right_eq_some.mp hstep
    cases heq
    rw [goto_self] at hidle
    cases hidle
  | _ =>
    exfalso
    simp only [hat] at hstep
    repeat' split at hstep
    all_goals cases hstep
    all_goals
      rw [goto_self] at hidle
      cases hidle

theorem run_answers : Answers (machine Tid Node Data sentinel) Act.thread view s := by
  refine .ofPlaces fun a s' hstep hbusy hidle => ?_
  cases a with
  | enq t _ _ | deq t | empty t =>
    change s.pc t ≠ .idle at hbusy
    simp only [machine, step] at hstep
    cases hstep
  | step t => exact nextStep_answers hstep hidle

/-- A dequeue is settled to return NULL when it finds no next node. -/
theorem Inv.null (h : Inv sentinel s nodes) (hstep : UnboundedTotal.nextStep sentinel s t = some s')
    (hbefore : (s.pc t).settled = none) (hafter : (s'.pc t).settled = some (.deq, .taken none)) :
    ∃ head, s.pc t = .deqNext head ∧ s.next head = none ∧ s.deqs = s.order.map Prod.snd := by
  have hown := h.pc t
  rw [UnboundedTotal.nextStep] at hstep
  cases hat : s.pc t with
  | deqNext head =>
    rw [hat] at hstep hown
    dsimp only at hstep
    split at hstep <;> cases hstep
    · rw [goto_self] at hafter
      cases hafter
    · rename_i hnone
      exact ⟨head, rfl, hnone, h.drained ((congrArg s.next hown).symm.trans hnone)⟩
  | deqMove head qnode data =>
    rw [hat] at hstep hown
    obtain ⟨rfl, hnext, rfl⟩ := hown
    obtain ⟨v, hv⟩ := Option.ne_none_iff_exists'.mp (h.found hnext).2
    dsimp only at hstep
    rw [hv] at hstep
    split at hstep <;> cases hstep <;> rw [goto_self] at hafter <;> cases hafter
  | deqRetire _ _ | deqUnlock _ | deqRet _ | enqMove _ _ | enqUnlock _ | emptyUnlock _
  | emptyRet _ =>
    rw [hat] at hbefore
    cases hbefore
  | enqLock _ _ | deqLock | emptyLock =>
    rw [hat] at hstep
    obtain ⟨-, heq⟩ := Option.ite_none_right_eq_some.mp hstep
    cases heq
    rw [goto_self] at hafter
    cases hafter
  | idle =>
    rw [hat] at hstep
    cases hstep
  | _ =>
    rw [hat] at hstep
    cases hstep
    rw [goto_self] at hafter
    cases hafter

omit [DecidableEq Tid] [DecidableEq Node] in
theorem Inv.touches (h : Inv sentinel s nodes) {n : Node} (hn : n ∈ (s.pc t).touches) :
    n = sentinel ∨ s.inside n = true := by
  have halive {p : Option Tid} {n : Node} (hn : n ∈ content s nodes p) :
      n = sentinel ∨ s.inside n = true := by
    by_cases heq : n = sentinel
    · exact .inl heq
    · exact .inr ((h.inside n).mpr ⟨heq, p, hn⟩)
  have hchain {n : Node} (hn : n ∈ nodes) := halive (p := none) hn
  have hown := h.pc t
  cases hat : s.pc t <;> rw [hat] at hn hown
  case enqData qnode data | enqNext qnode data | deqRetire head data =>
    obtain rfl := List.mem_singleton.mp hn
    refine halive (p := some t) ?_
    rw [content, hat]
    exact List.mem_singleton_self n
  case enqLink tail qnode data =>
    obtain rfl := List.mem_singleton.mp hn
    have hhas : (s.pc t).hasEnq = true := by
      rw [hat]
      rfl
    have hlast : s.last = s.tail := by
      rw [last_owner ((h.enq t).mp hhas), hat]
      rfl
    rw [hown.2.2, ← hlast]
    exact hchain h.last_mem
  case deqNext head | emptyNext head =>
    obtain rfl := List.mem_singleton.mp hn
    rw [show n = s.head from hown]
    exact hchain h.fifo.head_mem
  case deqData head qnode =>
    obtain rfl := List.mem_singleton.mp hn
    obtain ⟨rfl, hnext⟩ := hown
    obtain ⟨rest, rfl⟩ := h.first hnext
    exact hchain (List.mem_cons_of_mem _ (List.mem_cons_self ..))
  all_goals cases hn

theorem run_inv (run : (machine Tid Node Data sentinel).Run past s) :
    ∃ nodes, Inv sentinel s nodes := by
  refine run.invariant (I := fun s => ∃ nodes, Inv sentinel s nodes) ?_ ?_
  · intro s hs
    exact ⟨_, Initial.inv hs⟩
  · rintro s a s' ⟨nodes, h⟩ hstep
    exact h.step hstep

theorem run_linear (run : (machine Tid Node Data sentinel).Run past s) :
    Linear (machine Tid Node Data sentinel) Act.thread view queueSpec past s := by
  apply run.linear_always
  · intro s hs t
    exact congrArg Pc.settled (congrFun hs.pc t)
  · intro past s a s' run hstep
    obtain ⟨nodes, h⟩ := run_inv run
    exact h.step_moves hstep

theorem queue_ub_safe (Tid Node Data : Type) [DecidableEq Tid] [DecidableEq Node]
    (sentinel : Node) {past : List (State Tid Node Data × Act Tid Node Data)}
    {s : State Tid Node Data} (run : (machine Tid Node Data sentinel).Run past s) :
    Safe sentinel past s := by
  obtain ⟨nodes, h⟩ := run_inv run
  refine ⟨run_linear run, run_answers, fun t s' => h.null, h.fifo.values, ?_, ?_,
    fun t n => h.touches⟩
  · intro t head qnode hat
    have hown := h.pc t
    rw [hat] at hown
    obtain ⟨rfl, hnext⟩ := hown
    exact (h.found hnext).2
  · intro t head hat hnone
    have hown := h.pc t
    have heq : head = s.head := by
      rcases hat with hat | hat <;> rw [hat] at hown <;> exact hown
    exact h.drained (heq ▸ hnone)

def fresh : State Nat Nat Nat :=
  ⟨none, none, 0, 0, fun _ => none, fun _ => none, fun _ => .idle, fun _ => false, [], []⟩

/-- Thread 0 enqueues in node 1 and links node 2 behind it, and before it moves the tail thread
1 dequeues twice and retires node 1, which the tail still points to. -/
def behindTail : List (Act Nat Nat Nat) :=
  .enq 0 1 10 :: List.replicate 7 (.step 0) ++ .enq 0 2 20 :: List.replicate 5 (.step 0) ++
    .deq 1 :: List.replicate 7 (.step 1) ++ .deq 1 :: List.replicate 8 (.step 1)

theorem queue_ub_safe_behindTail :
    ∃ past s, (machine Nat Nat Nat 0).Run past s ∧ Safe 0 past s ∧ s.tail = 1 ∧ s.inside 1 = false ∧
      s.pc 0 = .enqMove 2 20 ∧ s.deqs = [some 10, some 20] := by
  have hstart : (machine Nat Nat Nat 0).start fresh :=
    ⟨rfl, rfl, rfl, rfl, rfl, rfl, rfl, rfl, rfl, rfl⟩
  have hexec : ((machine Nat Nat Nat 0).exec fresh behindTail).map
      (fun s => (s.tail, s.inside 1, s.pc 0, s.deqs)) =
        some (1, false, .enqMove 2 20, [some 10, some 20]) := by
    decide +kernel
  obtain ⟨s, hs, hview⟩ := Option.map_eq_some_iff.mp hexec
  obtain ⟨htail, hview⟩ := Prod.mk.inj hview
  obtain ⟨hinside, hview⟩ := Prod.mk.inj hview
  obtain ⟨hpc, hdeqs⟩ := Prod.mk.inj hview
  have run := (Machine.Run.start hstart).exec hs
  exact ⟨_, s, run, queue_ub_safe Nat Nat Nat 0 run, htail, hinside, hpc, hdeqs⟩

end Libvsync.Queue.UnboundedTotal
