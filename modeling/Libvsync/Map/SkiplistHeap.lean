import Libvsync.Map.Skiplist

/-!
The shared state of the skiplist. On every level the nodes that are linked and
not snipped form one chain from head to tail, the pointers of a snipped node
are frozen, and `non_snipped_level` is the number of levels of a node that have
not been counted down. A step touches the shared state in one of a few ways,
each of which keeps this and what the other threads rely on.
-/

namespace Libvsync.Map.Skiplist

open Libvsync.Core Function

variable {Tid Node Key : Type}

section Tables

variable [DecidableEq Node] {A : Type}

@[simp] theorem set2_self (f : Node → Nat → A) (n : Node) (l : Nat) (v : A) :
    set2 f n l v n l = v := by
  simp [set2]

theorem set2_of_ne (f : Node → Nat → A) {n m : Node} {l k : Nat} (v : A)
    (h : m ≠ n ∨ k ≠ l) : set2 f n l v m k = f m k := by
  unfold set2
  by_cases hm : m = n
  · subst hm
    rcases h with h | h
    · exact absurd rfl h
    · rw [update_self, update_of_ne h]
  · rw [update_of_ne hm]

theorem set2_true {f : Node → Nat → Bool} {n m : Node} {l k : Nat} :
    set2 f n l true m k = true ↔ (m = n ∧ k = l) ∨ f m k = true := by
  by_cases h : m = n ∧ k = l
  · obtain ⟨rfl, rfl⟩ := h
    simp
  · rw [set2_of_ne f true (by tauto)]
    tauto

end Tables

/-- The nodes that are linked and not snipped form the chain of a level. -/
def LevelChain (c : Config Node Key) (s : State Tid Node Key) (l : Nat) (nodes : List Node) :
    Prop :=
  Chain (s.level l) c.head c.tail nodes ∧
    ∀ n, n ∈ nodes ↔ s.linked n l = true ∧ s.snipped n l = false

/-- The levels of a node that have been counted down. -/
def State.countedLevels (s : State Tid Node Key) (n : Node) : Finset Nat :=
  (Finset.range (s.height n)).filter (fun l => s.counted n l = true)

/-- The shape of the levels. -/
structure LinksInv (c : Config Node Key) (s : State Tid Node Key) : Prop where
  chain : ∀ l ≤ c.topLevel, ∃ nodes, LevelChain c s l nodes
  height : ∀ n l, s.linked n l = true → l < s.height n
  bound : ∀ n, s.height n ≤ c.topLevel + 1
  ends : ∀ l ≤ c.topLevel, s.linked c.head l = true ∧ s.linked c.tail l = true
  down : ∀ n l k, s.linked n l = true → k ≤ l → s.linked n k = true
  frozen : ∀ n l, s.snipped n l = true → s.linked n l = true ∧ (s.next n l).2 = true
  closed : ∀ n l, s.linked n l = true → n ≠ c.tail →
    ∃ m, (s.next n l).1 = some m ∧ s.linked m l = true ∧ m ≠ c.head
  sentinels : ∀ l, (s.next c.head l).2 = false ∧ s.next c.tail l = (none, false)
  known : ∀ n l, s.linked n l = true → s.added n = true ∨ n = c.head ∨ n = c.tail

/-- The counters match the snips that have been counted. -/
structure CountInv (s : State Tid Node Key) : Prop where
  counted : ∀ n l, s.counted n l = true → s.snipped n l = true
  count : ∀ n, (s.countedLevels n).card + s.nonSnippedLevel n = s.height n
  handed : ∀ n ∈ s.handed, 0 < s.height n ∧ ∀ l < s.height n, s.counted n l = true
  once : s.handed.Nodup

structure HeapInv (c : Config Node Key) (s : State Tid Node Key) : Prop
    extends LinksInv c s, CountInv s

/-- A node that its adder has linked below `level`. -/
structure LinkedBelow (c : Config Node Key) (s : State Tid Node Key) (node : Node)
    (height level : Nat) : Prop where
  heightEq : s.height node = height
  lt : level < height
  notHead : node ≠ c.head
  notTail : node ≠ c.tail
  iff : ∀ l, s.linked node l = true ↔ l < level

/-- A pair of neighbours that a search has found on a level. -/
structure Neighbours (c : Config Node Key) (s : State Tid Node Key) (l : Nat)
    (pred succ : Node) : Prop where
  predLinked : s.linked pred l = true
  notTail : pred ≠ c.tail
  succLinked : s.linked succ l = true
  notHead : succ ≠ c.head

def CallerOk (c : Config Node Key) (s : State Tid Node Key) : Caller Node → Prop
  | .add node height => LinkedBelow c s node height 0
  | .link node height level => LinkedBelow c s node height level
  | .remove _ | .detach => True

structure FindOk (c : Config Node Key) (s : State Tid Node Key) (f : Find Node Key) : Prop where
  level : f.level ≤ c.topLevel
  pred : s.linked f.pred f.level = true
  notTail : f.pred ≠ c.tail
  above : ∀ l, f.level < l → l ≤ c.topLevel → Neighbours c s l (f.preds l) (f.succs l)
  caller : CallerOk c s f.caller

structure AddingOk (c : Config Node Key) (s : State Tid Node Key) (a : Adding Node Key)
    (level : Nat) : Prop where
  node : LinkedBelow c s a.node a.height level
  around : ∀ l ≤ c.topLevel, Neighbours c s l (a.preds l) (a.succs l)

/-- A node that a removal marks. -/
structure Removable (c : Config Node Key) (s : State Tid Node Key) (node : Node)
    (level : Nat) : Prop where
  bottom : s.linked node 0 = true
  notHead : node ≠ c.head
  notTail : node ≠ c.tail
  lt : level < s.height node

def PcOk (c : Config Node Key) (s : State Tid Node Key) : Pc Node Key → Prop
  | .idle | .addRet _ _ | .removeRet _ | .lookupRet _ => True
  | .addInit _ node height =>
    s.added node = true ∧ node ≠ c.head ∧ node ≠ c.tail ∧ 1 ≤ height ∧
      height ≤ c.topLevel + 1 ∧ ∀ l, s.linked node l = false
  | .findLevel f | .findReload f => FindOk c s f
  | .findCurr f curr => FindOk c s f ∧ s.linked curr f.level = true ∧ curr ≠ c.head
  | .findSnip f curr succ =>
    FindOk c s f ∧ s.linked curr f.level = true ∧ curr ≠ c.head ∧
      s.next curr f.level = (succ, true)
  | .findDec f curr =>
    FindOk c s f ∧ s.snipped curr f.level = true ∧ s.counted curr f.level = false
  | .findRetire f curr =>
    FindOk c s f ∧ curr ∉ s.handed ∧ 0 < s.height curr ∧
      ∀ l < s.height curr, s.counted curr l = true
  | .addSet a level =>
    AddingOk c s a 0 ∧ level < a.height ∧
      (0 < level → (s.next a.node 0).1 = some (a.succs 0))
  | .addLink a => AddingOk c s a 0 ∧ (s.next a.node 0).1 = some (a.succs 0)
  | .linkRead a level | .linkSet a level _ _ => AddingOk c s a level
  | .linkCas a level =>
    AddingOk c s a level ∧ (s.next a.node level).1 = some (a.succs level)
  | .markRead _ node level | .markCas _ node level _ => Removable c s node level
  | .lookupLevel _ _ pred level =>
    level ≤ c.topLevel ∧ s.linked pred level = true ∧ pred ≠ c.tail
  | .lookupCurr _ _ pred level curr =>
    level ≤ c.topLevel ∧ s.linked pred level = true ∧ pred ≠ c.tail ∧
      s.linked curr level = true ∧ curr ≠ c.head
  | .lookupSkip _ _ pred level curr =>
    level ≤ c.topLevel ∧ s.linked pred level = true ∧ pred ≠ c.tail ∧
      s.linked curr level = true ∧ curr ≠ c.tail
  | .failed _ => False

/-- What only one thread at a time can be doing: adding a given node, counting
a given level of it down, handing it over. -/
inductive Task (Node : Type) where
  | add (node : Node)
  | count (node : Node) (level : Nat)
  | hand (node : Node)
  deriving DecidableEq

def Caller.tasks : Caller Node → List (Task Node)
  | .add node _ | .link node _ _ => [.add node]
  | .remove _ | .detach => []

def Pc.tasks : Pc Node Key → List (Task Node)
  | .addInit _ node _ => [.add node]
  | .findLevel f | .findCurr f _ | .findSnip f _ _ | .findReload f => f.caller.tasks
  | .findDec f curr => .count curr f.level :: f.caller.tasks
  | .findRetire f curr => .hand curr :: f.caller.tasks
  | .addSet a _ | .addLink a | .linkRead a _ | .linkSet a _ _ _ | .linkCas a _ =>
    [.add a.node]
  | _ => []

structure Inv (c : Config Node Key) (s : State Tid Node Key) : Prop where
  heap : HeapInv c s
  pc : ∀ t, PcOk c s (s.pc t)
  tasks : Apart (fun t => (s.pc t).tasks)
  added : ∀ t node, Task.add node ∈ (s.pc t).tasks → s.added node = true

section

variable {c : Config Node Key} {s s' : State Tid Node Key}

theorem LinkedBelow.congr {node : Node} {height level : Nat}
    (h : LinkedBelow c s node height level) (hlinked : s'.linked = s.linked)
    (hheight : s'.height = s.height) : LinkedBelow c s' node height level :=
  ⟨by rw [hheight, h.heightEq], h.lt, h.notHead, h.notTail, by rw [hlinked]; exact h.iff⟩

theorem Neighbours.congr {l : Nat} {pred succ : Node} (h : Neighbours c s l pred succ)
    (hlinked : s'.linked = s.linked) : Neighbours c s' l pred succ :=
  ⟨by rw [hlinked]; exact h.predLinked, h.notTail, by rw [hlinked]; exact h.succLinked,
    h.notHead⟩

theorem FindOk.congr {f : Find Node Key} (h : FindOk c s f) (hlinked : s'.linked = s.linked)
    (hheight : s'.height = s.height) : FindOk c s' f where
  level := h.level
  pred := by rw [hlinked]; exact h.pred
  notTail := h.notTail
  above l hl htop := (h.above l hl htop).congr hlinked
  caller := by
    have hcaller := h.caller
    cases hc : f.caller with
    | add node height | link node height level =>
      rw [hc] at hcaller
      exact LinkedBelow.congr hcaller hlinked hheight
    | remove expected | detach => trivial

theorem AddingOk.congr {a : Adding Node Key} {level : Nat} (h : AddingOk c s a level)
    (hlinked : s'.linked = s.linked) (hheight : s'.height = s.height) : AddingOk c s' a level :=
  ⟨h.node.congr hlinked hheight, fun l hl => (h.around l hl).congr hlinked⟩

/-- An unmarked node that has been linked is still in the chain. -/
theorem LinksInv.mem_chain (h : LinksInv c s) {l : Nat} {nodes : List Node}
    (hchain : LevelChain c s l nodes) {n : Node} (hlinked : s.linked n l = true)
    (hmark : (s.next n l).2 = false) : n ∈ nodes := by
  rw [hchain.2]
  refine ⟨hlinked, ?_⟩
  by_contra hsnipped
  have := (h.frozen n l (by simpa using hsnipped)).2
  rw [hmark] at this
  cases this

/-- What an unmarked node points to has not been snipped. -/
theorem LinksInv.not_snipped (h : LinksInv c s) {pred curr : Node} {l : Nat}
    (level : l ≤ c.topLevel) (predLinked : s.linked pred l = true) (notTail : pred ≠ c.tail)
    (old : s.next pred l = (some curr, false)) : s.snipped curr l = false := by
  obtain ⟨nodes, hchain⟩ := h.chain l level
  have hmem := h.mem_chain hchain predLinked (by rw [old])
  obtain ⟨m, before, after, rfl, hm⟩ := hchain.1.split hmem notTail
  have hm : m = curr := by
    have : (s.next pred l).1 = some m := hm
    rw [old] at this
    exact (Option.some.inj this).symm
  subst hm
  exact ((hchain.2 m).mp (by simp)).2

/-- Pointers of nodes that are not linked there do not matter. -/
theorem LinksInv.congr (h : LinksInv c s) {next : Node → Nat → Option Node × Bool}
    (hlinked : ∀ n l, s.linked n l = true →
      (next n l).1 = (s.next n l).1 ∧ ((s.next n l).2 = true → (next n l).2 = true))
    (hhead : ∀ l, (next c.head l).2 = false) (htail : ∀ l, next c.tail l = (none, false)) :
    LinksInv c { s with next := next } where
  chain l hl := by
    obtain ⟨nodes, hchain, hmem⟩ := h.chain l hl
    refine ⟨nodes, hchain.congr ?_, hmem⟩
    intro n hn _
    exact (hlinked n l ((hmem n).mp hn).1).1
  height := h.height
  bound := h.bound
  ends := h.ends
  down := h.down
  frozen n l hn := by
    obtain ⟨hl, hmark⟩ := h.frozen n l hn
    exact ⟨hl, (hlinked n l hl).2 hmark⟩
  closed n l hn hne := by
    rw [(hlinked n l hn).1]
    exact h.closed n l hn hne
  sentinels l := ⟨hhead l, htail l⟩
  known := h.known

/-- Counting a level down, once for each snip, never goes below zero. -/
theorem HeapInv.pos_of_uncounted (h : HeapInv c s) {n : Node} {l : Nat}
    (snipped : s.snipped n l = true) (uncounted : s.counted n l = false) :
    1 ≤ s.nonSnippedLevel n := by
  have hlt : l < s.height n := h.height n l (h.frozen n l snipped).1
  have hsub : s.countedLevels n ⊂ Finset.range (s.height n) := by
    apply (Finset.ssubset_iff_of_subset (Finset.filter_subset _ _)).mpr
    exact ⟨l, Finset.mem_range.mpr hlt, by simp [uncounted]⟩
  have hcard := Finset.card_lt_card hsub
  have hcount := h.count n
  rw [Finset.card_range] at hcard
  omega

end

variable [DecidableEq Node]

/-- What a step can do to the shared state, for a thread with the given tasks. -/
inductive Effect (c : Config Node Key) (s : State Tid Node Key) (tasks : List (Task Node)) :
    State Tid Node Key → Prop
  | none : Effect c s tasks s
  | add (node : Node) (fresh : s.added node = false) :
      Effect c s tasks { s with added := update s.added node true }
  | init (node : Node) (height : Nat) (mine : Task.add node ∈ tasks)
      (unlinked : ∀ l, s.linked node l = false) (fits : height ≤ c.topLevel + 1) :
      Effect c s tasks { s with
        height := update s.height node height
        nonSnippedLevel := update s.nonSnippedLevel node height }
  | write (node : Node) (l : Nat) (v : Option Node × Bool) (mine : Task.add node ∈ tasks)
      (notHead : node ≠ c.head) (notTail : node ≠ c.tail) (unlinked : s.linked node l = false) :
      Effect c s tasks { s with next := set2 s.next node l v }
  | mark (node : Node) (l : Nat) (succ : Option Node) (notHead : node ≠ c.head)
      (notTail : node ≠ c.tail) (old : s.next node l = (succ, false)) :
      Effect c s tasks { s with next := set2 s.next node l (succ, true) }
  | link (node pred succ : Node) (height l : Nat) (mine : Task.add node ∈ tasks)
      (below : LinkedBelow c s node height l) (around : Neighbours c s l pred succ)
      (old : s.next pred l = (some succ, false)) (ready : (s.next node l).1 = some succ)
      (known : s.added node = true) :
      Effect c s tasks { s with
        next := set2 s.next pred l (some node, false)
        linked := set2 s.linked node l true }
  | snip (pred curr : Node) (succ : Option Node) (l : Nat) (level : l ≤ c.topLevel)
      (predLinked : s.linked pred l = true) (notTail : pred ≠ c.tail)
      (linked : s.linked curr l = true) (old : s.next pred l = (some curr, false))
      (marked : s.next curr l = (succ, true)) :
      Effect c s tasks { s with
        next := set2 s.next pred l (succ, false)
        snipped := set2 s.snipped curr l true }
  | count (n : Node) (l : Nat) (mine : Task.count n l ∈ tasks)
      (snipped : s.snipped n l = true) (uncounted : s.counted n l = false) :
      Effect c s tasks { s with
        nonSnippedLevel :=
          update s.nonSnippedLevel n (wsub 64 (s.nonSnippedLevel n) 1)
        counted := set2 s.counted n l true }
  | hand (n : Node) (mine : Task.hand n ∈ tasks) (first : n ∉ s.handed)
      (pos : 0 < s.height n) (all : ∀ l < s.height n, s.counted n l = true) :
      Effect c s tasks { s with handed := n :: s.handed }

namespace Effect

variable {c : Config Node Key} {s s' : State Tid Node Key} {tasks : List (Task Node)}

theorem linked_mono (e : Effect c s tasks s') {n : Node} {l : Nat}
    (h : s.linked n l = true) : s'.linked n l = true := by
  cases e with
  | link => exact set2_true.mpr (Or.inr h)
  | _ => exact h

theorem linked_eq (e : Effect c s tasks s') {n : Node} (l : Nat) (hn : Task.add n ∉ tasks) :
    s'.linked n l = s.linked n l := by
  cases e with
  | link node pred succ height k mine =>
    apply set2_of_ne
    left
    rintro rfl
    exact hn mine
  | _ => rfl

theorem height_eq (e : Effect c s tasks s') {n : Node}
    (hn : Task.add n ∉ tasks ∨ ∃ l, s.linked n l = true) : s'.height n = s.height n := by
  cases e with
  | init node height mine unlinked =>
    apply update_of_ne
    rintro rfl
    rcases hn with hn | ⟨l, hl⟩
    · exact hn mine
    · rw [unlinked l] at hl
      cases hl
  | _ => rfl

/-- A marked pointer of a linked node does not change. -/
theorem next_eq (e : Effect c s tasks s') {n : Node} {l : Nat} (hlinked : s.linked n l = true)
    (hmarked : (s.next n l).2 = true) : s'.next n l = s.next n l := by
  cases e with
  | write node k v mine notHead notTail unlinked =>
    apply set2_of_ne
    by_contra hsame
    push Not at hsame
    obtain ⟨rfl, rfl⟩ := hsame
    rw [unlinked] at hlinked
    cases hlinked
  | mark node k succ notHead notTail old | link node pred succ height k mine below around old
  | snip pred curr succ k level predLinked notTail linked old =>
    apply set2_of_ne
    by_contra hsame
    push Not at hsame
    obtain ⟨rfl, rfl⟩ := hsame
    simp [old] at hmarked
  | _ => rfl

/-- Nobody else redirects the pointer of a node at a level where it is not
linked yet. -/
theorem pointer_eq (e : Effect c s tasks s') {n : Node} {l : Nat} (hn : Task.add n ∉ tasks)
    (hlinked : s.linked n l = false) : (s'.next n l).1 = (s.next n l).1 := by
  cases e with
  | write node k v mine =>
    have : n ≠ node := by
      rintro rfl
      exact hn mine
    exact congrArg Prod.fst (set2_of_ne s.next v (Or.inl this))
  | mark node k succ notHead notTail old =>
    by_cases hsame : n = node ∧ l = k
    · obtain ⟨rfl, rfl⟩ := hsame
      simp [old]
    · exact congrArg Prod.fst (set2_of_ne s.next _ (by tauto))
  | link node pred succ height k mine below around old =>
    apply congrArg Prod.fst (set2_of_ne s.next _ _)
    by_contra hsame
    push Not at hsame
    obtain ⟨rfl, rfl⟩ := hsame
    rw [around.predLinked] at hlinked
    cases hlinked
  | snip pred curr succ k level predLinked =>
    apply congrArg Prod.fst (set2_of_ne s.next _ _)
    by_contra hsame
    push Not at hsame
    obtain ⟨rfl, rfl⟩ := hsame
    rw [predLinked] at hlinked
    cases hlinked
  | _ => rfl

theorem snipped_mono (e : Effect c s tasks s') {n : Node} {l : Nat}
    (h : s.snipped n l = true) : s'.snipped n l = true := by
  cases e with
  | snip => exact set2_true.mpr (Or.inr h)
  | _ => exact h

theorem counted_mono (e : Effect c s tasks s') {n : Node} {l : Nat}
    (h : s.counted n l = true) : s'.counted n l = true := by
  cases e with
  | count => exact set2_true.mpr (Or.inr h)
  | _ => exact h

theorem counted_eq (e : Effect c s tasks s') {n : Node} {l : Nat}
    (hn : Task.count n l ∉ tasks) : s'.counted n l = s.counted n l := by
  cases e with
  | count m k mine =>
    apply set2_of_ne
    by_contra hsame
    push Not at hsame
    obtain ⟨rfl, rfl⟩ := hsame
    exact hn mine
  | _ => rfl

theorem not_handed (e : Effect c s tasks s') {n : Node} (hn : Task.hand n ∉ tasks)
    (h : n ∉ s.handed) : n ∉ s'.handed := by
  cases e with
  | hand m mine =>
    intro hmem
    rcases List.mem_cons.mp hmem with rfl | hmem
    · exact hn mine
    · exact h hmem
  | _ => exact h

theorem added_mono (e : Effect c s tasks s') {n : Node} (h : s.added n = true) :
    s'.added n = true := by
  cases e with
  | add node =>
    by_cases hn : n = node
    · subst hn
      exact update_self _ _ _
    · show update s.added node true n = true
      rw [update_of_ne hn]
      exact h
  | _ => exact h

end Effect

section Frame

variable {c : Config Node Key} {s s' : State Tid Node Key} {tasks : List (Task Node)}

theorem LinkedBelow.frame {node : Node} {height level : Nat}
    (h : LinkedBelow c s node height level) (e : Effect c s tasks s')
    (hn : Task.add node ∉ tasks) : LinkedBelow c s' node height level where
  heightEq := by rw [e.height_eq (Or.inl hn), h.heightEq]
  lt := h.lt
  notHead := h.notHead
  notTail := h.notTail
  iff l := by rw [e.linked_eq l hn, h.iff]

theorem Neighbours.frame {l : Nat} {pred succ : Node} (h : Neighbours c s l pred succ)
    (e : Effect c s tasks s') : Neighbours c s' l pred succ :=
  ⟨e.linked_mono h.predLinked, h.notTail, e.linked_mono h.succLinked, h.notHead⟩

theorem CallerOk.frame {caller : Caller Node} (h : CallerOk c s caller)
    (e : Effect c s tasks s') (hn : ∀ x ∈ caller.tasks, x ∉ tasks) : CallerOk c s' caller := by
  cases caller with
  | add node height | link node height level =>
    exact LinkedBelow.frame h e (hn _ (by simp [Caller.tasks]))
  | remove expected | detach => trivial

theorem FindOk.frame {f : Find Node Key} (h : FindOk c s f) (e : Effect c s tasks s')
    (hn : ∀ x ∈ f.caller.tasks, x ∉ tasks) : FindOk c s' f where
  level := h.level
  pred := e.linked_mono h.pred
  notTail := h.notTail
  above l hl htop := (h.above l hl htop).frame e
  caller := h.caller.frame e hn

theorem AddingOk.frame {a : Adding Node Key} {level : Nat} (h : AddingOk c s a level)
    (e : Effect c s tasks s') (hn : Task.add a.node ∉ tasks) : AddingOk c s' a level where
  node := h.node.frame e hn
  around l hl := (h.around l hl).frame e

theorem Removable.frame {node : Node} {level : Nat} (h : Removable c s node level)
    (e : Effect c s tasks s') : Removable c s' node level where
  bottom := e.linked_mono h.bottom
  notHead := h.notHead
  notTail := h.notTail
  lt := by rw [e.height_eq (Or.inr ⟨0, h.bottom⟩)]; exact h.lt

/-- A step of one thread keeps what the others rely on. -/
theorem PcOk.frame {pc : Pc Node Key} (h : PcOk c s pc) (heap : HeapInv c s)
    (e : Effect c s tasks s') (hn : ∀ x ∈ pc.tasks, x ∉ tasks) : PcOk c s' pc := by
  cases pc with
  | addInit key node height =>
    obtain ⟨hadded, h1, h2, h3, h4, hun⟩ := h
    refine ⟨e.added_mono hadded, h1, h2, h3, h4, ?_⟩
    intro l
    rw [e.linked_eq l (hn _ (by simp [Pc.tasks]))]
    exact hun l
  | findLevel f | findReload f => exact FindOk.frame h e hn
  | findCurr f curr => exact ⟨h.1.frame e hn, e.linked_mono h.2.1, h.2.2⟩
  | findSnip f curr succ =>
    obtain ⟨hfind, hlinked, hhead, hnext⟩ := h
    refine ⟨hfind.frame e hn, e.linked_mono hlinked, hhead, ?_⟩
    rw [e.next_eq hlinked (by rw [hnext])]
    exact hnext
  | findDec f curr =>
    obtain ⟨hfind, hsnipped, hcounted⟩ := h
    refine ⟨hfind.frame e ?_, e.snipped_mono hsnipped, ?_⟩
    · intro x hx
      exact hn x (List.mem_cons_of_mem _ hx)
    · rw [e.counted_eq (hn _ (by simp [Pc.tasks]))]
      exact hcounted
  | findRetire f curr =>
    obtain ⟨hfind, hfirst, hpos, hall⟩ := h
    have hlinked : s.linked curr 0 = true :=
      (heap.frozen curr 0 (heap.counted curr 0 (hall 0 hpos))).1
    have hheight := e.height_eq (Or.inr ⟨0, hlinked⟩)
    refine ⟨hfind.frame e ?_, e.not_handed (hn _ (by simp [Pc.tasks])) hfirst, ?_, ?_⟩
    · intro x hx
      exact hn x (List.mem_cons_of_mem _ hx)
    · rw [hheight]
      exact hpos
    · intro l hl
      rw [hheight] at hl
      exact e.counted_mono (hall l hl)
  | addSet a level =>
    obtain ⟨hadding, hlevel, hset⟩ := h
    have hmine := hn (.add a.node) (by simp [Pc.tasks])
    refine ⟨hadding.frame e hmine, hlevel, ?_⟩
    intro hpos
    rw [e.pointer_eq hmine]
    · exact hset hpos
    · simpa using hadding.node.iff 0
  | addLink a =>
    obtain ⟨hadding, hset⟩ := h
    have hmine := hn (.add a.node) (by simp [Pc.tasks])
    refine ⟨hadding.frame e hmine, ?_⟩
    rw [e.pointer_eq hmine]
    · exact hset
    · simpa using hadding.node.iff 0
  | linkRead a level | linkSet a level curSucc mark =>
    exact AddingOk.frame h e (hn _ (by simp [Pc.tasks]))
  | linkCas a level =>
    obtain ⟨hadding, hset⟩ := h
    have hmine := hn (.add a.node) (by simp [Pc.tasks])
    refine ⟨hadding.frame e hmine, ?_⟩
    rw [e.pointer_eq hmine]
    · exact hset
    · simpa using hadding.node.iff level
  | markRead key node level | markCas key node level succ => exact Removable.frame h e
  | lookupLevel key acceptNext pred level => exact ⟨h.1, e.linked_mono h.2.1, h.2.2⟩
  | lookupCurr key acceptNext pred level curr | lookupSkip key acceptNext pred level curr =>
    exact ⟨h.1, e.linked_mono h.2.1, h.2.2.1, e.linked_mono h.2.2.2.1, h.2.2.2.2⟩
  | failed message => exact h
  | _ => trivial

end Frame

section Heap

variable {c : Config Node Key} {s : State Tid Node Key}

theorem LinksInv.write (h : LinksInv c s) {node : Node} {l : Nat} (v : Option Node × Bool)
    (notHead : node ≠ c.head) (notTail : node ≠ c.tail) (unlinked : s.linked node l = false) :
    LinksInv c { s with next := set2 s.next node l v } := by
  apply h.congr
  · intro n k hn
    rw [set2_of_ne]
    · exact ⟨rfl, id⟩
    · by_contra hsame
      push Not at hsame
      obtain ⟨rfl, rfl⟩ := hsame
      rw [unlinked] at hn
      cases hn
  · intro k
    rw [set2_of_ne s.next v (Or.inl notHead.symm)]
    exact (h.sentinels k).1
  · intro k
    rw [set2_of_ne s.next v (Or.inl notTail.symm)]
    exact (h.sentinels k).2

theorem LinksInv.mark (h : LinksInv c s) {node : Node} {l : Nat} {succ : Option Node}
    (notHead : node ≠ c.head) (notTail : node ≠ c.tail) (old : s.next node l = (succ, false)) :
    LinksInv c { s with next := set2 s.next node l (succ, true) } := by
  apply h.congr
  · intro n k _
    by_cases hsame : n = node ∧ k = l
    · obtain ⟨rfl, rfl⟩ := hsame
      simp [old]
    · rw [set2_of_ne s.next _ (by tauto)]
      exact ⟨rfl, id⟩
  · intro k
    rw [set2_of_ne s.next _ (Or.inl notHead.symm)]
    exact (h.sentinels k).1
  · intro k
    rw [set2_of_ne s.next _ (Or.inl notTail.symm)]
    exact (h.sentinels k).2

/-- The adder pushes its node in between two neighbours. -/
theorem LinksInv.link (h : LinksInv c s) {node pred succ : Node} {height l : Nat}
    (below : LinkedBelow c s node height l) (around : Neighbours c s l pred succ)
    (old : s.next pred l = (some succ, false)) (ready : (s.next node l).1 = some succ)
    (known : s.added node = true) :
    LinksInv c { s with
      next := set2 s.next pred l (some node, false)
      linked := set2 s.linked node l true } := by
  have hunlinked : s.linked node l = false := by simpa using below.iff l
  have hne : node ≠ pred := by
    rintro rfl
    rw [around.predLinked] at hunlinked
    cases hunlinked
  have hnext (n : Node) (k : Nat) (hn : n ≠ pred ∨ k ≠ l) :
      set2 s.next pred l (some node, false) n k = s.next n k := set2_of_ne s.next _ hn
  have hmono {n : Node} {k : Nat} (hn : s.linked n k = true) :
      set2 s.linked node l true n k = true := set2_true.mpr (Or.inr hn)
  exact {
    chain := by
      intro k hk
      obtain ⟨nodes, hchain⟩ := h.chain k hk
      by_cases hkl : k = l
      · subst hkl
        have hmem := h.mem_chain hchain around.predLinked (by rw [old])
        have hnew : node ∉ nodes := by
          rw [hchain.2]
          simp [hunlinked]
        obtain ⟨nodes', hchain', hmem'⟩ := hchain.1.link
          (fun n => (set2 s.next pred k (some node, false) n k).1) hmem around.notTail
          (congrArg Prod.fst old) hnew (by simp) (by rw [hnext node k (Or.inl hne)]; exact ready)
          (fun n hn _ => congrArg Prod.fst (hnext n k (Or.inl hn)))
        refine ⟨nodes', hchain', ?_⟩
        intro n
        have hsnip : s.snipped node k = false := by
          by_contra hs
          rw [(h.frozen node k (by simpa using hs)).1] at hunlinked
          cases hunlinked
        dsimp only
        rw [hmem' n, set2_true, hchain.2 n]
        constructor
        · rintro (rfl | hold)
          · exact ⟨Or.inl ⟨rfl, rfl⟩, hsnip⟩
          · exact ⟨Or.inr hold.1, hold.2⟩
        · rintro ⟨⟨rfl, _⟩ | hlinked, hs⟩
          · exact Or.inl rfl
          · exact Or.inr ⟨hlinked, hs⟩
      · refine ⟨nodes, hchain.1.congr ?_, ?_⟩
        · intro n _ _
          exact congrArg Prod.fst (hnext n k (Or.inr hkl))
        · intro n
          dsimp only
          rw [hchain.2 n, set2_of_ne s.linked true (Or.inr hkl)]
    height := by
      intro n k hn
      dsimp only at hn ⊢
      rcases set2_true.mp hn with ⟨rfl, rfl⟩ | hn
      · rw [below.heightEq]
        exact below.lt
      · exact h.height n k hn
    bound := h.bound
    ends := fun k hk => ⟨hmono (h.ends k hk).1, hmono (h.ends k hk).2⟩
    down := by
      intro n k j hn hj
      dsimp only at hn ⊢
      rcases set2_true.mp hn with ⟨rfl, rfl⟩ | hn
      · rw [set2_true]
        rcases Nat.lt_or_eq_of_le hj with hlt | heq
        · exact Or.inr ((below.iff j).mpr hlt)
        · exact Or.inl ⟨rfl, heq⟩
      · exact hmono (h.down n k j hn hj)
    frozen := by
      intro n k hn
      obtain ⟨hlinked, hmark⟩ := h.frozen n k hn
      refine ⟨hmono hlinked, ?_⟩
      dsimp only
      rw [hnext]
      · exact hmark
      · by_contra hsame
        push Not at hsame
        obtain ⟨rfl, rfl⟩ := hsame
        rw [old] at hmark
        cases hmark
    closed := by
      intro n k hn hnt
      dsimp only at hn ⊢
      rcases set2_true.mp hn with ⟨rfl, rfl⟩ | hlinked
      · rw [hnext n k (Or.inl hne)]
        exact ⟨succ, ready, hmono around.succLinked, around.notHead⟩
      · by_cases hsame : n = pred ∧ k = l
        · obtain ⟨rfl, rfl⟩ := hsame
          exact ⟨node, by simp, by simp, below.notHead⟩
        · rw [hnext n k (by tauto)]
          obtain ⟨m, hm, hml, hmh⟩ := h.closed n k hlinked hnt
          exact ⟨m, hm, hmono hml, hmh⟩
    sentinels := by
      intro k
      dsimp only
      constructor
      · by_cases hsame : c.head = pred ∧ k = l
        · obtain ⟨rfl, rfl⟩ := hsame
          simp
        · rw [hnext c.head k (by tauto)]
          exact (h.sentinels k).1
      · rw [hnext c.tail k (Or.inl around.notTail.symm)]
        exact (h.sentinels k).2
    known := by
      intro n k hn
      dsimp only at hn ⊢
      rcases set2_true.mp hn with ⟨rfl, _⟩ | hn
      · exact Or.inl known
      · exact h.known n k hn }

/-- A marked node is unlinked from its predecessor. -/
theorem LinksInv.snip (h : LinksInv c s) {pred curr : Node} {succ : Option Node} {l : Nat}
    (predLinked : s.linked pred l = true) (notTail : pred ≠ c.tail)
    (linked : s.linked curr l = true) (old : s.next pred l = (some curr, false))
    (marked : s.next curr l = (succ, true)) :
    LinksInv c { s with
      next := set2 s.next pred l (succ, false)
      snipped := set2 s.snipped curr l true } := by
  have hcurr : curr ≠ c.tail := by
    rintro rfl
    rw [(h.sentinels l).2] at marked
    cases marked
  obtain ⟨q, hq, hqlinked, hqhead⟩ := h.closed curr l linked hcurr
  rw [marked] at hq
  simp only at hq
  subst hq
  have hnext (n : Node) (k : Nat) (hn : n ≠ pred ∨ k ≠ l) :
      set2 s.next pred l (some q, false) n k = s.next n k := set2_of_ne s.next _ hn
  exact {
    chain := by
      intro k hk
      obtain ⟨nodes, hchain⟩ := h.chain k hk
      by_cases hkl : k = l
      · subst hkl
        have hmem := h.mem_chain hchain predLinked (by rw [old])
        obtain ⟨nodes', hchain', hmem'⟩ := hchain.1.unlink
          (fun n => (set2 s.next pred k (some q, false) n k).1) hmem notTail
          (congrArg Prod.fst old) hcurr (congrArg Prod.fst marked) (by simp)
          (fun n hn => congrArg Prod.fst (hnext n k (Or.inl hn)))
        refine ⟨nodes', hchain', ?_⟩
        intro n
        dsimp only
        rw [hmem' n, hchain.2 n]
        by_cases hn : n = curr
        · subst hn
          simp
        · rw [set2_of_ne s.snipped true (Or.inl hn)]
          simp [hn]
      · refine ⟨nodes, hchain.1.congr ?_, ?_⟩
        · intro n _ _
          exact congrArg Prod.fst (hnext n k (Or.inr hkl))
        · intro n
          dsimp only
          rw [hchain.2 n, set2_of_ne s.snipped true (Or.inr hkl)]
    height := h.height
    bound := h.bound
    ends := h.ends
    down := h.down
    frozen := by
      intro n k hn
      dsimp only at hn ⊢
      have hold : s.linked n k = true ∧ (s.next n k).2 = true := by
        rcases set2_true.mp hn with ⟨rfl, rfl⟩ | hn
        · exact ⟨linked, by rw [marked]⟩
        · exact h.frozen n k hn
      refine ⟨hold.1, ?_⟩
      rw [hnext]
      · exact hold.2
      · by_contra hsame
        push Not at hsame
        obtain ⟨rfl, rfl⟩ := hsame
        simp [old] at hold
    closed := by
      intro n k hn hnt
      dsimp only
      by_cases hsame : n = pred ∧ k = l
      · obtain ⟨rfl, rfl⟩ := hsame
        exact ⟨q, by simp, hqlinked, hqhead⟩
      · rw [hnext n k (by tauto)]
        exact h.closed n k hn hnt
    sentinels := by
      intro k
      dsimp only
      constructor
      · by_cases hsame : c.head = pred ∧ k = l
        · obtain ⟨rfl, rfl⟩ := hsame
          simp
        · rw [hnext c.head k (by tauto)]
          exact (h.sentinels k).1
      · rw [hnext c.tail k (Or.inl notTail.symm)]
        exact (h.sentinels k).2
    known := h.known }

theorem HeapInv.init (h : HeapInv c s) {node : Node} {height : Nat}
    (unlinked : ∀ l, s.linked node l = false) (fits : height ≤ c.topLevel + 1) :
    HeapInv c { s with
      height := update s.height node height
      nonSnippedLevel := update s.nonSnippedLevel node height } := by
  have hne {n : Node} {l : Nat} (hn : s.linked n l = true) : n ≠ node := by
    rintro rfl
    rw [unlinked l] at hn
    cases hn
  have huncounted (l : Nat) : s.counted node l = false := by
    by_contra hc
    exact hne (h.frozen node l (h.counted node l (by simpa using hc))).1 rfl
  exact {
    chain := h.chain
    height := by
      intro n l hn
      dsimp only
      rw [update_of_ne (hne hn)]
      exact h.height n l hn
    bound := by
      intro n
      dsimp only
      by_cases hn : n = node
      · subst hn
        rw [update_self]
        exact fits
      · rw [update_of_ne hn]
        exact h.bound n
    ends := h.ends
    down := h.down
    frozen := h.frozen
    closed := h.closed
    sentinels := h.sentinels
    known := h.known
    counted := h.counted
    count := by
      intro n
      by_cases hn : n = node
      · subst hn
        simp [State.countedLevels, huncounted]
      · simp only [State.countedLevels, update_of_ne hn]
        exact h.count n
    handed := by
      intro n hn
      dsimp only
      obtain ⟨hpos, hall⟩ := h.handed n hn
      have hnn : n ≠ node := by
        rintro rfl
        have := hall 0 hpos
        rw [huncounted 0] at this
        cases this
      rw [update_of_ne hnn]
      exact ⟨hpos, hall⟩
    once := h.once }

theorem HeapInv.countDown (h : HeapInv c s) {n : Node} {l : Nat}
    (snipped : s.snipped n l = true) (uncounted : s.counted n l = false) :
    CountInv { s with
      nonSnippedLevel := update s.nonSnippedLevel n (wsub 64 (s.nonSnippedLevel n) 1)
      counted := set2 s.counted n l true } := by
  have hlt : l < s.height n := h.height n l (h.frozen n l snipped).1
  have hpos := h.pos_of_uncounted snipped uncounted
  have hsmall : s.nonSnippedLevel n ≤ 255 := by
    have h1 := h.count n
    have h2 := h.bound n
    have h3 := c.fits
    omega
  have hsub : wsub 64 (s.nonSnippedLevel n) 1 = s.nonSnippedLevel n - 1 := by
    unfold wsub
    omega
  constructor
  · intro m k hm
    dsimp only at hm ⊢
    rcases set2_true.mp hm with ⟨rfl, rfl⟩ | hm
    · exact snipped
    · exact h.counted m k hm
  · intro m
    by_cases hm : m = n
    · subst hm
      have hinsert : (Finset.range (s.height m)).filter
          (fun k => set2 s.counted m l true m k = true) = insert l (s.countedLevels m) := by
        ext k
        simp only [State.countedLevels, Finset.mem_filter, Finset.mem_range, Finset.mem_insert,
          set2_true, true_and]
        constructor
        · rintro ⟨hk, rfl | hc⟩
          · exact Or.inl rfl
          · exact Or.inr ⟨hk, hc⟩
        · rintro (rfl | ⟨hk, hc⟩)
          · exact ⟨hlt, Or.inl rfl⟩
          · exact ⟨hk, Or.inr hc⟩
      have hnot : l ∉ s.countedLevels m := by simp [State.countedLevels, uncounted]
      have hcount := h.count m
      unfold State.countedLevels
      dsimp only
      rw [hinsert, update_self, Finset.card_insert_of_notMem hnot, hsub]
      omega
    · have hsame (k : Nat) : set2 s.counted n l true m k = s.counted m k :=
        set2_of_ne s.counted true (Or.inl hm)
      simp only [State.countedLevels, hsame, update_of_ne hm]
      exact h.count m
  · intro m hm
    obtain ⟨hp, hall⟩ := h.handed m hm
    exact ⟨hp, fun k hk => set2_true.mpr (Or.inr (hall k hk))⟩
  · exact h.once

/-- Every effect keeps the shape of the levels and the counters. -/
theorem Effect.heapInv {s' : State Tid Node Key} {tasks : List (Task Node)}
    (e : Effect c s tasks s') (h : HeapInv c s) : HeapInv c s' := by
  cases e with
  | none => exact h
  | add node fresh =>
    refine { h with known := ?_ }
    intro n l hn
    rcases h.known n l hn with hadded | hend
    · left
      by_cases hne : n = node
      · subst hne
        exact update_self _ _ _
      · dsimp only
        rw [update_of_ne hne]
        exact hadded
    · exact Or.inr hend
  | init node height mine unlinked fits => exact h.init unlinked fits
  | write node l v mine notHead notTail unlinked =>
    exact { h.toLinksInv.write v notHead notTail unlinked, h.toCountInv with }
  | mark node l succ notHead notTail old =>
    exact { h.toLinksInv.mark notHead notTail old, h.toCountInv with }
  | link node pred succ height l mine below around old ready known =>
    exact { h.toLinksInv.link below around old ready known, h.toCountInv with }
  | snip pred curr succ l level predLinked notTail linked old marked =>
    refine { h.toLinksInv.snip predLinked notTail linked old marked, h.toCountInv with
      counted := ?_ }
    intro n k hn
    exact set2_true.mpr (Or.inr (h.counted n k hn))
  | count n l mine snipped uncounted =>
    exact { h.toLinksInv, h.countDown snipped uncounted with }
  | hand n mine first pos all =>
    refine { h with handed := ?_, once := List.nodup_cons.mpr ⟨first, h.once⟩ }
    intro m hm
    rcases List.mem_cons.mp hm with rfl | hm
    · exact ⟨pos, all⟩
    · exact h.handed m hm

end Heap

end Libvsync.Map.Skiplist
