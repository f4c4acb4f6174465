import Libvsync.Map.ListsetLf

/-!
The shared state of the lock-free list set. The nodes that are linked and not
snipped form one chain from head to tail, along which the keys grow; the
pointer of a snipped node is marked and frozen. A step touches the shared
state in one of a few ways, each of which keeps this and what the other
threads rely on.
-/

namespace Libvsync.Map.ListsetLf

open Libvsync.Core Function

variable {Tid Node Key : Type} [DecidableEq Node] [LinearOrder Key]

/-- A key among the ranks. -/
def rankOf (k : Key) : WithBot (WithTop Key) := ((k : WithTop Key) : WithBot (WithTop Key))

section Rank

variable (c : Config Node Key)

theorem Config.rank_head (k : Key) : c.rank c.head < rankOf k := by
  simp [Config.rank, rankOf, WithBot.bot_lt_coe]

theorem Config.rank_tail (k : Key) : rankOf k < c.rank c.tail := by
  have htail : c.rank c.tail = ((⊤ : WithTop Key) : WithBot (WithTop Key)) := by
    simp [Config.rank, c.distinct.symm]
  rw [htail]
  exact WithBot.coe_lt_coe.mpr (WithTop.coe_lt_top k)

variable {c} {n : Node} {k : Key}

theorem Config.rank_of_ne (hhead : n ≠ c.head) (htail : n ≠ c.tail) :
    c.rank n = rankOf (c.key n) := by
  simp [Config.rank, rankOf, hhead, htail]

theorem Config.rank_lt_iff (hhead : n ≠ c.head) (htail : n ≠ c.tail) :
    c.rank n < rankOf k ↔ c.cmpFun n k < 0 := by
  rw [Config.rank_of_ne hhead htail, c.cmp_neg]
  simp [rankOf, WithBot.coe_lt_coe, WithTop.coe_lt_coe]

theorem Config.rank_eq_iff (hhead : n ≠ c.head) (htail : n ≠ c.tail) :
    c.rank n = rankOf k ↔ c.cmpFun n k = 0 := by
  rw [Config.rank_of_ne hhead htail, c.cmp_zero]
  simp [rankOf]

/-- Nothing is below head. -/
theorem Config.ne_head_of_lt {m : Node} (h : c.rank m < c.rank n) : n ≠ c.head := by
  rintro rfl
  simp [Config.rank] at h

end Rank

/-- Two sentinels and two nodes, each node with its number as key. -/
def numbered : Config (Fin 4) Nat where
  head := 0
  tail := 1
  distinct := by decide
  key n := n
  cmpFun n k := (n : Int) - k
  cmp_neg := by
    intro n k
    omega
  cmp_zero := by
    intro n k
    omega

/-- The nodes of `numbered` that are no sentinels. -/
def nodeTwo : Fin 4 := 2
def nodeThree : Fin 4 := 3

theorem update_true {f : Node → Bool} {n m : Node} :
    update f n true m = true ↔ m = n ∨ f m = true := by
  by_cases h : m = n
  · subst h
    simp
  · simp [h]

/-- The shape of the list. -/
structure ListInv (c : Config Node Key) (s : State Tid Node Key) : Prop where
  chain : ∃ nodes, Chain s.pointer c.head c.tail nodes ∧
    ∀ n, n ∈ nodes ↔ s.linked n = true ∧ s.snipped n = false
  ends : s.linked c.head = true ∧ s.linked c.tail = true
  frozen : ∀ n, s.snipped n = true → s.linked n = true ∧ (s.next n).2 = true
  closed : ∀ n, s.linked n = true → n ≠ c.tail →
    ∃ m, (s.next n).1 = some m ∧ s.linked m = true ∧ c.rank n < c.rank m
  sentinels : (s.next c.head).2 = false ∧ s.next c.tail = (none, false)
  known : ∀ n, s.linked n = true → s.inUse n = true ∨ n = c.head ∨ n = c.tail
  handed : ∀ n ∈ s.handed, s.snipped n = true
  once : s.handed.Nodup

/-- The node is on the way from head to tail, marked or not. -/
def InChain (s : State Tid Node Key) (n : Node) : Prop :=
  s.linked n = true ∧ s.snipped n = false

/-- The position that a search for `k` has found: `pred` is below the key. -/
structure PredOk (c : Config Node Key) (s : State Tid Node Key) (k : Key) (pred : Node) :
    Prop where
  linked : s.linked pred = true
  below : c.rank pred < rankOf k

theorem PredOk.notTail {c : Config Node Key} {s : State Tid Node Key} {k : Key} {pred : Node}
    (h : PredOk c s k pred) : pred ≠ c.tail := by
  rintro rfl
  exact lt_asymm h.below (c.rank_tail k)

/-- A node on the way that is not a sentinel. -/
structure NodeOk (c : Config Node Key) (s : State Tid Node Key) (n : Node) : Prop where
  linked : s.linked n = true
  notHead : n ≠ c.head
  notTail : n ≠ c.tail

/-- A node that is being added. -/
structure NewOk (c : Config Node Key) (s : State Tid Node Key) (k : Key) (node : Node) :
    Prop where
  unlinked : s.linked node = false
  notHead : node ≠ c.head
  notTail : node ≠ c.tail
  key : c.key node = k

def CallerOk (c : Config Node Key) (s : State Tid Node Key) (k : Key) : Caller Node → Prop
  | .add node => NewOk c s k node
  | .remove => True

/-- The neighbours between which a node is added. -/
structure GapOk (c : Config Node Key) (s : State Tid Node Key) (k : Key) (pred curr : Node) :
    Prop extends PredOk c s k pred where
  currLinked : s.linked curr = true
  above : rankOf k < c.rank curr

def PcOk (c : Config Node Key) (s : State Tid Node Key) : Pc Node Key → Prop
  | .idle | .removeRet _ _ | .getRet _ _ | .getStart _ => True
  | .addRet _ node ok => ok = false → s.linked node = false
  | .findStart k caller => CallerOk c s k caller
  | .findRead k caller pred curr => CallerOk c s k caller ∧ PredOk c s k pred ∧ NodeOk c s curr
  | .findSnip k caller pred curr succ =>
    CallerOk c s k caller ∧ PredOk c s k pred ∧ NodeOk c s curr ∧ s.next curr = (succ, true)
  | .findRetire k caller pred curr succ =>
    CallerOk c s k caller ∧ PredOk c s k pred ∧ NodeOk c s curr ∧
      s.next curr = (succ, true) ∧ s.snipped curr = true ∧ curr ∉ s.handed
  | .addWrite k node pred curr => NewOk c s k node ∧ GapOk c s k pred curr
  | .addCas k node pred curr =>
    NewOk c s k node ∧ GapOk c s k pred curr ∧ s.next node = (some curr, false)
  | .removeRead k pred curr | .removeMark k pred curr _ =>
    PredOk c s k pred ∧ NodeOk c s curr ∧ c.key curr = k
  | .removeDetach k pred curr succ =>
    PredOk c s k pred ∧ NodeOk c s curr ∧ s.next curr = (succ, true)
  | .removeRetire _ curr => s.snipped curr = true ∧ curr ∉ s.handed
  | .getNext k curr => NodeOk c s curr ∧ c.key curr < k
  | .getMark k curr => NodeOk c s curr ∧ c.key curr = k
  | .crashed => False

/-- What only one thread at a time can be doing: adding a given node, handing
a given node to the retire callback. -/
inductive Task (Node : Type) where
  | add (node : Node)
  | hand (node : Node)
  deriving DecidableEq

def Caller.tasks : Caller Node → List (Task Node)
  | .add node => [.add node]
  | .remove => []

def Pc.tasks : Pc Node Key → List (Task Node)
  | .findStart _ caller | .findRead _ caller _ _ | .findSnip _ caller _ _ _ => caller.tasks
  | .findRetire _ caller _ curr _ => .hand curr :: caller.tasks
  | .addWrite _ node _ _ | .addCas _ node _ _ | .addRet _ node false => [.add node]
  | .removeRetire _ curr => [.hand curr]
  | _ => []

structure Inv (c : Config Node Key) (s : State Tid Node Key) : Prop where
  list : ListInv c s
  pc : ∀ t, PcOk c s (s.pc t)
  tasks : Apart (fun t => (s.pc t).tasks)
  inUse : ∀ t node, Task.add node ∈ (s.pc t).tasks → s.inUse node = true

/-- What a step can do to the shared state, for a thread with the given tasks. -/
inductive Effect (c : Config Node Key) (s : State Tid Node Key) (tasks : List (Task Node)) :
    State Tid Node Key → Prop
  | none : Effect c s tasks s
  | take (node : Node) (fresh : s.inUse node = false) :
      Effect c s tasks { s with inUse := update s.inUse node true }
  | drop (node : Node) (mine : Task.add node ∈ tasks) (unlinked : s.linked node = false) :
      Effect c s tasks { s with inUse := update s.inUse node false }
  | write (node curr : Node) (mine : Task.add node ∈ tasks) (notHead : node ≠ c.head)
      (notTail : node ≠ c.tail) (unlinked : s.linked node = false) :
      Effect c s tasks { s with next := update s.next node (some curr, false) }
  | mark (node : Node) (succ : Option Node) (ok : NodeOk c s node)
      (old : s.next node = (succ, false)) :
      Effect c s tasks { s with next := update s.next node (succ, true) }
  | link (k : Key) (node pred curr : Node) (mine : Task.add node ∈ tasks)
      (new : NewOk c s k node) (gap : GapOk c s k pred curr)
      (old : s.next pred = (some curr, false)) (ready : s.next node = (some curr, false))
      (known : s.inUse node = true) :
      Effect c s tasks { s with
        next := update s.next pred (some node, false)
        linked := update s.linked node true }
  | snip (pred curr : Node) (succ : Option Node) (predLinked : s.linked pred = true)
      (node : NodeOk c s curr) (notTail : pred ≠ c.tail)
      (old : s.next pred = (some curr, false)) (marked : s.next curr = (succ, true)) :
      Effect c s tasks { s with
        next := update s.next pred (succ, false)
        snipped := update s.snipped curr true }
  | hand (n : Node) (mine : Task.hand n ∈ tasks) (first : n ∉ s.handed)
      (snipped : s.snipped n = true) :
      Effect c s tasks { s with handed := n :: s.handed }

namespace Effect

variable {c : Config Node Key} {s s' : State Tid Node Key} {tasks : List (Task Node)}

theorem pc_eq (e : Effect c s tasks s') : s'.pc = s.pc := by
  cases e <;> rfl

theorem linked_mono (e : Effect c s tasks s') {n : Node} (h : s.linked n = true) :
    s'.linked n = true := by
  cases e with
  | link k node =>
    by_cases hn : n = node
    · subst hn
      exact update_self _ _ _
    · exact (update_of_ne hn _ _).trans h
  | _ => exact h

theorem linked_eq (e : Effect c s tasks s') {n : Node} (hn : Task.add n ∉ tasks) :
    s'.linked n = s.linked n := by
  cases e with
  | link k node pred curr mine =>
    apply update_of_ne
    rintro rfl
    exact hn mine
  | _ => rfl

/-- A marked pointer of a linked node does not change. -/
theorem next_eq (e : Effect c s tasks s') {n : Node} (hlinked : s.linked n = true)
    (hmarked : (s.next n).2 = true) : s'.next n = s.next n := by
  cases e with
  | write node curr mine notHead notTail unlinked =>
    apply update_of_ne
    rintro rfl
    rw [unlinked] at hlinked
    cases hlinked
  | mark node succ ok old | link k node pred curr mine new gap old
  | snip pred curr succ predLinked nodeOk notTail old =>
    apply update_of_ne
    rintro rfl
    simp [old] at hmarked
  | _ => rfl

/-- Nobody else writes the pointer of a node that is not linked yet. -/
theorem unlinked_eq (e : Effect c s tasks s') {n : Node} (hn : Task.add n ∉ tasks)
    (hlinked : s.linked n = false) : s'.next n = s.next n := by
  have hne {m : Node} (hm : s.linked m = true) : n ≠ m := by
    rintro rfl
    rw [hlinked] at hm
    cases hm
  cases e with
  | write node curr mine =>
    apply update_of_ne
    rintro rfl
    exact hn mine
  | mark node succ ok => exact update_of_ne (hne ok.linked) _ _
  | link k node pred curr mine new gap => exact update_of_ne (hne gap.linked) _ _
  | snip pred curr succ predLinked => exact update_of_ne (hne predLinked) _ _
  | _ => rfl

theorem snipped_mono (e : Effect c s tasks s') {n : Node} (h : s.snipped n = true) :
    s'.snipped n = true := by
  cases e with
  | snip pred curr =>
    by_cases hn : n = curr
    · subst hn
      exact update_self _ _ _
    · exact (update_of_ne hn _ _).trans h
  | _ => exact h

theorem not_handed (e : Effect c s tasks s') {n : Node} (hn : Task.hand n ∉ tasks)
    (h : n ∉ s.handed) : n ∉ s'.handed := by
  cases e with
  | hand m mine =>
    intro hmem
    rcases List.mem_cons.mp hmem with rfl | hmem
    · exact hn mine
    · exact h hmem
  | _ => exact h

theorem inUse_mono (e : Effect c s tasks s') {n : Node} (hn : Task.add n ∉ tasks)
    (h : s.inUse n = true) : s'.inUse n = true := by
  cases e with
  | take node =>
    by_cases hsame : n = node
    · subst hsame
      exact update_self _ _ _
    · exact (update_of_ne hsame _ _).trans h
  | drop node mine =>
    have hne : n ≠ node := by
      rintro rfl
      exact hn mine
    exact (update_of_ne hne _ _).trans h
  | _ => exact h

end Effect

section Frame

variable {c : Config Node Key} {s s' : State Tid Node Key} {tasks : List (Task Node)}

/-- What a step of a thread with the given tasks leaves to the others. -/
structure Keeps (s s' : State Tid Node Key) (tasks : List (Task Node)) : Prop where
  linked_mono : ∀ {n}, s.linked n = true → s'.linked n = true
  linked_eq : ∀ {n}, Task.add n ∉ tasks → s'.linked n = s.linked n
  next_eq : ∀ {n}, s.linked n = true → (s.next n).2 = true → s'.next n = s.next n
  unlinked_eq : ∀ {n}, Task.add n ∉ tasks → s.linked n = false → s'.next n = s.next n
  snipped_mono : ∀ {n}, s.snipped n = true → s'.snipped n = true
  not_handed : ∀ {n}, Task.hand n ∉ tasks → n ∉ s.handed → n ∉ s'.handed

theorem Effect.keeps (e : Effect c s tasks s') : Keeps s s' tasks :=
  ⟨e.linked_mono, e.linked_eq, e.next_eq, e.unlinked_eq, e.snipped_mono, e.not_handed⟩

omit [DecidableEq Node] [LinearOrder Key] in
theorem Keeps.goto [DecidableEq Tid] (k : Keeps s s' tasks) (t : Tid) (pc : Pc Node Key) :
    Keeps s (s'.goto t pc) tasks :=
  ⟨k.linked_mono, k.linked_eq, k.next_eq, k.unlinked_eq, k.snipped_mono, k.not_handed⟩

theorem PredOk.frame {k : Key} {pred : Node} (h : PredOk c s k pred)
    (e : Keeps s s' tasks) : PredOk c s' k pred :=
  ⟨e.linked_mono h.linked, h.below⟩

omit [DecidableEq Node] in
theorem NodeOk.frame {n : Node} (h : NodeOk c s n) (e : Keeps s s' tasks) :
    NodeOk c s' n :=
  ⟨e.linked_mono h.linked, h.notHead, h.notTail⟩

theorem GapOk.frame {k : Key} {pred curr : Node} (h : GapOk c s k pred curr)
    (e : Keeps s s' tasks) : GapOk c s' k pred curr :=
  ⟨h.toPredOk.frame e, e.linked_mono h.currLinked, h.above⟩

section

omit [DecidableEq Node]

theorem NewOk.frame {k : Key} {node : Node} (h : NewOk c s k node) (e : Keeps s s' tasks)
    (hn : Task.add node ∉ tasks) : NewOk c s' k node :=
  ⟨by rw [e.linked_eq hn]; exact h.unlinked, h.notHead, h.notTail, h.key⟩

theorem CallerOk.frame {k : Key} {caller : Caller Node} (h : CallerOk c s k caller)
    (e : Keeps s s' tasks) (hn : ∀ x ∈ caller.tasks, x ∉ tasks) :
    CallerOk c s' k caller := by
  cases caller with
  | add node => exact NewOk.frame h e (hn _ (by simp [Caller.tasks]))
  | remove => trivial

/-- Only linking matters to the node that is being added. -/
theorem CallerOk.congr {k : Key} {caller : Caller Node} (h : CallerOk c s k caller)
    (hlinked : s'.linked = s.linked) : CallerOk c s' k caller := by
  cases caller with
  | add node => exact ⟨by rw [hlinked]; exact h.unlinked, h.notHead, h.notTail, h.key⟩
  | remove => trivial

end

/-- A step of one thread keeps what the others rely on. -/
theorem PcOk.frame {pc : Pc Node Key} (h : PcOk c s pc) (e : Keeps s s' tasks)
    (hn : ∀ x ∈ pc.tasks, x ∉ tasks) : PcOk c s' pc := by
  cases pc with
  | addRet k node ok =>
    intro hok
    subst hok
    rw [e.linked_eq (hn _ (by simp [Pc.tasks]))]
    exact h rfl
  | findStart k caller => exact CallerOk.frame h e hn
  | findRead k caller pred curr => exact ⟨h.1.frame e hn, h.2.1.frame e, h.2.2.frame e⟩
  | findSnip k caller pred curr succ =>
    obtain ⟨hcaller, hpred, hcurr, hnext⟩ := h
    refine ⟨hcaller.frame e hn, hpred.frame e, hcurr.frame e, ?_⟩
    rw [e.next_eq hcurr.linked (by rw [hnext])]
    exact hnext
  | findRetire k caller pred curr succ =>
    obtain ⟨hcaller, hpred, hcurr, hnext, hsnipped, hfirst⟩ := h
    refine ⟨hcaller.frame e ?_, hpred.frame e, hcurr.frame e, ?_, e.snipped_mono hsnipped,
      e.not_handed (hn _ (by simp [Pc.tasks])) hfirst⟩
    · intro x hx
      exact hn x (List.mem_cons_of_mem _ hx)
    · rw [e.next_eq hcurr.linked (by rw [hnext])]
      exact hnext
  | addWrite k node pred curr =>
    exact ⟨h.1.frame e (hn _ (by simp [Pc.tasks])), h.2.frame e⟩
  | addCas k node pred curr =>
    obtain ⟨hnew, hgap, hready⟩ := h
    have hmine := hn (.add node) (by simp [Pc.tasks])
    refine ⟨hnew.frame e hmine, hgap.frame e, ?_⟩
    rw [e.unlinked_eq hmine hnew.unlinked]
    exact hready
  | removeRead k pred curr | removeMark k pred curr succ =>
    exact ⟨h.1.frame e, h.2.1.frame e, h.2.2⟩
  | removeDetach k pred curr succ =>
    obtain ⟨hpred, hcurr, hnext⟩ := h
    refine ⟨hpred.frame e, hcurr.frame e, ?_⟩
    rw [e.next_eq hcurr.linked (by rw [hnext])]
    exact hnext
  | removeRetire k curr =>
    exact ⟨e.snipped_mono h.1, e.not_handed (hn _ (by simp [Pc.tasks])) h.2⟩
  | getNext k curr | getMark k curr => exact ⟨h.1.frame e, h.2⟩
  | crashed => exact h
  | _ => trivial

end Frame

section List

variable {c : Config Node Key} {s : State Tid Node Key}

/-- An unmarked node that has been linked is still in the chain. -/
theorem ListInv.inChain (h : ListInv c s) {n : Node} (hlinked : s.linked n = true)
    (hmark : (s.next n).2 = false) : InChain s n := by
  refine ⟨hlinked, ?_⟩
  by_contra hsnipped
  have := (h.frozen n (by simpa using hsnipped)).2
  rw [hmark] at this
  cases this

/-- Pointers of nodes that are not linked do not matter. -/
theorem ListInv.congr (h : ListInv c s) {next : Node → Option Node × Bool}
    (hlinked : ∀ n, s.linked n = true →
      (next n).1 = (s.next n).1 ∧ ((s.next n).2 = true → (next n).2 = true))
    (hhead : (next c.head).2 = false) (htail : next c.tail = (none, false)) :
    ListInv c { s with next := next } where
  chain := by
    obtain ⟨nodes, hchain, hmem⟩ := h.chain
    refine ⟨nodes, hchain.congr ?_, hmem⟩
    intro n hn _
    exact (hlinked n ((hmem n).mp hn).1).1
  ends := h.ends
  frozen n hn := by
    obtain ⟨hl, hmark⟩ := h.frozen n hn
    exact ⟨hl, (hlinked n hl).2 hmark⟩
  closed n hn hne := by
    rw [(hlinked n hn).1]
    exact h.closed n hn hne
  sentinels := ⟨hhead, htail⟩
  known := h.known
  handed := h.handed
  once := h.once

theorem ListInv.write (h : ListInv c s) {node : Node} (v : Option Node × Bool)
    (notHead : node ≠ c.head) (notTail : node ≠ c.tail) (unlinked : s.linked node = false) :
    ListInv c { s with next := update s.next node v } := by
  apply h.congr
  · intro n hn
    rw [update_of_ne]
    · exact ⟨rfl, id⟩
    · rintro rfl
      rw [unlinked] at hn
      cases hn
  · rw [update_of_ne notHead.symm]
    exact h.sentinels.1
  · rw [update_of_ne notTail.symm]
    exact h.sentinels.2

theorem ListInv.mark (h : ListInv c s) {node : Node} {succ : Option Node}
    (notHead : node ≠ c.head) (notTail : node ≠ c.tail) (old : s.next node = (succ, false)) :
    ListInv c { s with next := update s.next node (succ, true) } := by
  apply h.congr
  · intro n _
    by_cases hsame : n = node
    · subst hsame
      simp [old]
    · rw [update_of_ne hsame]
      exact ⟨rfl, id⟩
  · rw [update_of_ne notHead.symm]
    exact h.sentinels.1
  · rw [update_of_ne notTail.symm]
    exact h.sentinels.2

/-- The adder pushes its node in between two neighbours. -/
theorem ListInv.link (h : ListInv c s) {k : Key} {node pred curr : Node}
    (new : NewOk c s k node) (gap : GapOk c s k pred curr)
    (old : s.next pred = (some curr, false)) (ready : s.next node = (some curr, false))
    (known : s.inUse node = true) :
    ListInv c { s with
      next := update s.next pred (some node, false)
      linked := update s.linked node true } := by
  have hunlinked := new.unlinked
  have hne : node ≠ pred := by
    rintro rfl
    rw [gap.linked] at hunlinked
    cases hunlinked
  have notTail : pred ≠ c.tail := gap.notTail
  have hrank : c.rank node = rankOf k := by
    rw [Config.rank_of_ne new.notHead new.notTail, new.key]
  have hmono {n : Node} (hn : s.linked n = true) :
      update s.linked node true n = true := by
    rw [update_true]
    exact Or.inr hn
  exact {
    chain := by
      obtain ⟨nodes, hchain, hmem⟩ := h.chain
      have hpred := (hmem pred).mpr (h.inChain gap.linked (by rw [old]))
      have hnew : node ∉ nodes := by
        rw [hmem]
        simp [hunlinked]
      obtain ⟨nodes', hchain', hmem'⟩ := hchain.link
        (fun n => (update s.next pred (some node, false) n).1) hpred notTail
        (congrArg Prod.fst old) hnew (by simp)
        (by rw [update_of_ne hne, ready])
        (fun n hn _ => congrArg Prod.fst (update_of_ne hn _ _))
      refine ⟨nodes', hchain', ?_⟩
      intro n
      have hsnip : s.snipped node = false := by
        by_contra hs
        rw [(h.frozen node (by simpa using hs)).1] at hunlinked
        cases hunlinked
      dsimp only
      rw [hmem' n, update_true, hmem n]
      constructor
      · rintro (rfl | hold)
        · exact ⟨Or.inl rfl, hsnip⟩
        · exact ⟨Or.inr hold.1, hold.2⟩
      · rintro ⟨rfl | hlinked, hs⟩
        · exact Or.inl rfl
        · exact Or.inr ⟨hlinked, hs⟩
    ends := ⟨hmono h.ends.1, hmono h.ends.2⟩
    frozen := by
      intro n hn
      obtain ⟨hlinked, hmark⟩ := h.frozen n hn
      refine ⟨hmono hlinked, ?_⟩
      dsimp only
      rw [update_of_ne]
      · exact hmark
      · rintro rfl
        rw [old] at hmark
        cases hmark
    closed := by
      intro n hn hnt
      dsimp only at hn ⊢
      rcases update_true.mp hn with rfl | hlinked
      · rw [update_of_ne hne]
        exact ⟨curr, congrArg Prod.fst ready, hmono gap.currLinked, by rw [hrank]; exact gap.above⟩
      · by_cases hsame : n = pred
        · subst hsame
          exact ⟨node, by simp, by simp, by rw [hrank]; exact gap.below⟩
        · rw [update_of_ne hsame]
          obtain ⟨m, hm, hml, hgrow⟩ := h.closed n hlinked hnt
          exact ⟨m, hm, hmono hml, hgrow⟩
    sentinels := by
      dsimp only
      constructor
      · by_cases hsame : c.head = pred
        · rw [hsame]
          simp
        · rw [update_of_ne hsame]
          exact h.sentinels.1
      · rw [update_of_ne notTail.symm]
        exact h.sentinels.2
    known := by
      intro n hn
      dsimp only at hn
      rcases update_true.mp hn with rfl | hn
      · exact Or.inl known
      · exact h.known n hn
    handed := h.handed
    once := h.once }

/-- A marked node is unlinked from its predecessor. -/
theorem ListInv.snip (h : ListInv c s) {pred curr : Node} {succ : Option Node}
    (predLinked : s.linked pred = true) (node : NodeOk c s curr) (notTail : pred ≠ c.tail)
    (old : s.next pred = (some curr, false)) (marked : s.next curr = (succ, true)) :
    ListInv c { s with
      next := update s.next pred (succ, false)
      snipped := update s.snipped curr true } := by
  obtain ⟨q, hq, hqlinked, hqgrow⟩ := h.closed curr node.linked node.notTail
  obtain ⟨m, hm, _, hgrow⟩ := h.closed pred predLinked notTail
  rw [old] at hm
  cases hm
  rw [marked] at hq
  dsimp only at hq
  subst hq
  exact {
    chain := by
      obtain ⟨nodes, hchain, hmem⟩ := h.chain
      have hpred := (hmem pred).mpr (h.inChain predLinked (by rw [old]))
      obtain ⟨nodes', hchain', hmem'⟩ := hchain.unlink
        (fun n => (update s.next pred (some q, false) n).1) hpred notTail
        (congrArg Prod.fst old) node.notTail (congrArg Prod.fst marked) (by simp)
        (fun n hn => congrArg Prod.fst (update_of_ne hn _ _))
      refine ⟨nodes', hchain', ?_⟩
      intro n
      dsimp only
      rw [hmem' n, hmem n]
      by_cases hn : n = curr
      · subst hn
        simp
      · simp [hn]
    ends := h.ends
    frozen := by
      intro n hn
      dsimp only at hn ⊢
      have hold : s.linked n = true ∧ (s.next n).2 = true := by
        rcases update_true.mp hn with rfl | hn
        · exact ⟨node.linked, by rw [marked]⟩
        · exact h.frozen n hn
      refine ⟨hold.1, ?_⟩
      rw [update_of_ne]
      · exact hold.2
      · rintro rfl
        simp [old] at hold
    closed := by
      intro n hn hnt
      dsimp only
      by_cases hsame : n = pred
      · subst hsame
        exact ⟨q, by simp, hqlinked, hgrow.trans hqgrow⟩
      · rw [update_of_ne hsame]
        exact h.closed n hn hnt
    sentinels := by
      dsimp only
      constructor
      · by_cases hsame : c.head = pred
        · rw [hsame]
          simp
        · rw [update_of_ne hsame]
          exact h.sentinels.1
      · rw [update_of_ne notTail.symm]
        exact h.sentinels.2
    known := h.known
    handed := by
      intro n hn
      exact update_true.mpr (Or.inr (h.handed n hn))
    once := h.once }

/-- What an unmarked node points to has not been snipped. -/
theorem ListInv.not_snipped (h : ListInv c s) {pred curr : Node}
    (predLinked : s.linked pred = true) (notTail : pred ≠ c.tail)
    (old : s.next pred = (some curr, false)) : s.snipped curr = false := by
  obtain ⟨nodes, hchain, hmem⟩ := h.chain
  have hpred := (hmem pred).mpr (h.inChain predLinked (by rw [old]))
  obtain ⟨m, before, after, rfl, hm⟩ := hchain.split hpred notTail
  have hm : (s.next pred).1 = some m := hm
  rw [old] at hm
  cases hm
  exact ((hmem curr).mp (by simp)).2

theorem Effect.listInv {s' : State Tid Node Key} {tasks : List (Task Node)}
    (e : Effect c s tasks s') (h : ListInv c s) : ListInv c s' := by
  cases e with
  | none => exact h
  | take node fresh =>
    refine { h with known := ?_ }
    intro n hn
    rcases h.known n hn with hused | hend
    · exact Or.inl (update_true.mpr (Or.inr hused))
    · exact Or.inr hend
  | drop node mine unlinked =>
    refine { h with known := ?_ }
    intro n hn
    have hne : n ≠ node := by
      rintro rfl
      rw [show s.linked n = true from hn] at unlinked
      cases unlinked
    dsimp only
    rw [update_of_ne hne]
    exact h.known n hn
  | write node curr mine notHead notTail unlinked => exact h.write _ notHead notTail unlinked
  | mark node succ ok old => exact h.mark ok.notHead ok.notTail old
  | link k node pred curr mine new gap old ready known => exact h.link new gap old ready known
  | snip pred curr succ predLinked node notTail old marked =>
    exact h.snip predLinked node notTail old marked
  | hand n mine first snipped =>
    refine { h with handed := ?_, once := List.nodup_cons.mpr ⟨first, h.once⟩ }
    intro m hm
    rcases List.mem_cons.mp hm with rfl | hm
    · exact snipped
    · exact h.handed m hm

end List

end Libvsync.Map.ListsetLf
