import Libvsync.Map.ListsetLfInv

/-!
What one step of the lock-free list set does: how it touches the list, what
it does to the set, and what the thread has seen when it gets to its next
place. A search remembers a gap: two nodes between which no unmarked node lay
at some moment of the call. A lookup, which does not look at the marks on its
way, remembers a node that was in the list at some moment of the call.
-/

namespace Libvsync.Map.ListsetLf

open Libvsync.Core Function

variable {Tid Node Key : Type}

section Members

variable [LinearOrder Key] [DecidableEq Node] {c : Config Node Key} {s : State Tid Node Key}

theorem ListInv.reaches_iff (h : ListInv c s) {n : Node} :
    Reaches s.pointer c.head n ↔ InChain s n := by
  obtain ⟨nodes, hchain, hmem⟩ := h.chain
  have hend : s.pointer c.tail = none := congrArg Prod.fst h.sentinels.2
  constructor
  · intro hreach
    exact (hmem n).mp (hchain.reaches_mem hend hreach)
  · intro hn
    exact hchain.mem_reaches ((hmem n).mpr hn)

theorem ListInv.member_iff (h : ListInv c s) {n : Node} :
    Member c s n ↔ NodeOk c s n ∧ (s.next n).2 = false := by
  unfold Member
  rw [h.reaches_iff]
  constructor
  · rintro ⟨hchain, hmark, notHead, notTail⟩
    exact ⟨⟨hchain.1, notHead, notTail⟩, hmark⟩
  · rintro ⟨hn, hmark⟩
    exact ⟨h.inChain hn.linked hmark, hmark, hn.notHead, hn.notTail⟩

theorem Member.rank_eq {n : Node} (h : Member c s n) : c.rank n = rankOf (c.key n) :=
  Config.rank_of_ne h.2.2.1 h.2.2.2

theorem ListInv.grows (h : ListInv c s) {n m : Node} (hlinked : s.linked n = true)
    (hnext : (s.next n).1 = some m) : c.rank n < c.rank m := by
  have hne : n ≠ c.tail := by
    rintro rfl
    rw [h.sentinels.2] at hnext
    cases hnext
  obtain ⟨m', hm', -, hgrow⟩ := h.closed n hlinked hne
  rw [hnext] at hm'
  cases hm'
  exact hgrow

theorem ListInv.sorted (h : ListInv c s) {nodes : List Node}
    (hchain : Chain s.pointer c.head c.tail nodes)
    (hmem : ∀ n, n ∈ nodes ↔ InChain s n) :
    nodes.Pairwise (fun a b => c.rank a < c.rank b) := by
  apply hchain.sorted
  intro a ha b hab
  exact h.grows ((hmem a).mp ha).1 hab

theorem ListInv.unique (h : ListInv c s) {n m : Node} (hn : InChain s n) (hm : InChain s m)
    (hrank : c.rank n = c.rank m) : n = m := by
  obtain ⟨nodes, hchain, hmem⟩ := h.chain
  have hsorted := h.sorted hchain hmem
  obtain ⟨before, after, rfl⟩ := List.append_of_mem ((hmem n).mpr hn)
  rw [List.pairwise_append, List.pairwise_cons] at hsorted
  rcases List.mem_append.mp ((hmem m).mpr hm) with hm | hm
  · have hlt := hsorted.2.2 m hm n (by simp)
    exact absurd hrank.symm hlt.ne
  · rcases List.mem_cons.mp hm with rfl | hm
    · rfl
    · exact absurd hrank (hsorted.2.1.1 m hm).ne

/-- No node of the set lies strictly between two nodes. -/
def Clear (c : Config Node Key) (p q : Node) (s : State Tid Node Key) : Prop :=
  ∀ n, Member c s n → ¬ (c.rank p < c.rank n ∧ c.rank n < c.rank q)

/-- Nothing lies between neighbours of the chain, marked or not. -/
theorem ListInv.between (h : ListInv c s) {p q n : Node} (hp : InChain s p)
    (hnext : (s.next p).1 = some q) (hn : InChain s n) :
    ¬ (c.rank p < c.rank n ∧ c.rank n < c.rank q) := by
  obtain ⟨nodes, hchain, hmem⟩ := h.chain
  have hsorted := h.sorted hchain hmem
  have hne : p ≠ c.tail := by
    rintro rfl
    rw [h.sentinels.2] at hnext
    cases hnext
  obtain ⟨m, before, after, rfl, hm⟩ := hchain.split ((hmem p).mpr hp) hne
  have hm : (s.next p).1 = some m := hm
  rw [hnext] at hm
  cases hm
  rintro ⟨hleft, hright⟩
  rw [List.pairwise_append, List.pairwise_cons, List.pairwise_cons] at hsorted
  rcases List.mem_append.mp ((hmem n).mpr hn) with hn | hn
  · exact lt_asymm hleft (hsorted.2.2 n hn p (by simp))
  · rcases List.mem_cons.mp hn with rfl | hn
    · exact lt_irrefl _ hleft
    · rcases List.mem_cons.mp hn with rfl | hn
      · exact lt_irrefl _ hright
      · exact lt_asymm hright (hsorted.2.1.2.1 n hn)

theorem ListInv.clear (h : ListInv c s) {p q : Node} (hp : InChain s p)
    (hnext : (s.next p).1 = some q) : Clear c p q s := by
  intro n hn
  exact h.between hp hnext (h.reaches_iff.mp hn.1)

theorem ListInv.next_inChain (h : ListInv c s) {p q : Node} (hp : InChain s p)
    (hnext : (s.next p).1 = some q) : InChain s q := by
  rw [← h.reaches_iff] at hp ⊢
  exact hp.tail hnext

theorem ListInv.clear_marked (h : ListInv c s) {p m q : Node} (hp : InChain s p)
    (hpm : (s.next p).1 = some m) (hm : InChain s m) (hmq : s.next m = (some q, true)) :
    Clear c p q s := by
  rintro n hn ⟨hleft, hright⟩
  have hchain := h.reaches_iff.mp hn.1
  rcases lt_trichotomy (c.rank n) (c.rank m) with hlt | heq | hgt
  · exact h.between hp hpm hchain ⟨hleft, hlt⟩
  · have hmark := hn.2.1
    rw [h.unique hchain hm heq, hmq] at hmark
    cases hmark
  · exact h.between hm (congrArg Prod.fst hmq) hchain ⟨hgt, hright⟩

theorem Clear.absent {p q : Node} {k : Key} (h : Clear c p q s) (hp : c.rank p < rankOf k)
    (hq : rankOf k < c.rank q) : ¬ Present c k s := by
  rintro ⟨n, hn, rfl⟩
  rw [← hn.rank_eq] at hp hq
  exact h n hn ⟨hp, hq⟩

/-- While a marked node with the key is in the chain, the key is not in the
set. -/
theorem ListInv.absent_of_marked (h : ListInv c s) {n : Node} (hn : InChain s n)
    (notHead : n ≠ c.head) (notTail : n ≠ c.tail) (hmark : (s.next n).2 = true) :
    ¬ Present c (c.key n) s := by
  rintro ⟨m, hm, hkey⟩
  have hrank : c.rank m = c.rank n := by
    rw [hm.rank_eq, hkey, Config.rank_of_ne notHead notTail]
  have hm' := hm.2.1
  rw [h.unique (h.reaches_iff.mp hm.1) hn hrank, hmark] at hm'
  cases hm'

theorem ListInv.present (h : ListInv c s) {n : Node} (hn : NodeOk c s n)
    (hmark : (s.next n).2 = false) : Present c (c.key n) s :=
  ⟨n, h.member_iff.mpr ⟨hn, hmark⟩, rfl⟩

end Members

/-- What an operation has done to the set. -/
inductive Change (Node Key : Type) where
  | added (key : Key) (node : Node)
  | removed (key : Key)

def Pc.done : Pc Node Key → Option (Change Node Key)
  | .addRet key node true => some (.added key node)
  | .removeDetach key _ _ _ | .removeRetire key _ | .removeRet key true => some (.removed key)
  | _ => none

theorem Pc.busy_of_done {pc : Pc Node Key} {ch : Change Node Key} (h : pc.done = some ch) :
    pc ≠ .idle := by
  rintro rfl
  cases h

section Defs

variable [LinearOrder Key]

/-- The node enters the set, which did not have its key. -/
structure Adds (c : Config Node Key) (k : Key) (node : Node) (s s' : State Tid Node Key) :
    Prop where
  absent : ¬ Present c k s
  key : c.key node = k
  members : ∀ n, Member c s' n ↔ n = node ∨ Member c s n

/-- The node leaves the set. -/
structure Removes (c : Config Node Key) (k : Key) (node : Node) (s s' : State Tid Node Key) :
    Prop where
  member : Member c s node
  key : c.key node = k
  members : ∀ n, Member c s' n ↔ Member c s n ∧ n ≠ node

def Change.Holds (c : Config Node Key) (s s' : State Tid Node Key) : Change Node Key → Prop
  | .added k node => Adds c k node s s'
  | .removed k => ∃ node, Removes c k node s s'

theorem Change.Holds.goto [DecidableEq Tid] {c : Config Node Key} {s s' : State Tid Node Key}
    {ch : Change Node Key} (h : ch.Holds c s s') (t : Tid) (pc : Pc Node Key) :
    ch.Holds c s (s'.goto t pc) := by
  cases ch with
  | added k node => exact ⟨h.absent, h.key, h.members⟩
  | removed k =>
    obtain ⟨node, hnode⟩ := h
    exact ⟨node, hnode.member, hnode.key, hnode.members⟩

/-- The effect of a step on the set: only the two compare-and-swaps that settle
an operation change it. -/
inductive Does (c : Config Node Key) (s s' : State Tid Node Key) (pc pc' : Pc Node Key) : Prop
  | nothing (same : ∀ n, Member c s' n ↔ Member c s n)
      (done : pc'.done = none ∨ pc'.done = pc.done)
  | change (ch : Change Node Key) (before : pc.done = none) (now : pc'.done = some ch)
      (holds : ch.Holds c s s')

/-- The step does not unlink, for a call of `vlistset_add`, the last node of
the list when that node has the key of the call. -/
def SnipOk (c : Config Node Key) (s : State Tid Node Key) : Pc Node Key → Prop
  | .findSnip key (.add _) pred curr (some succ) =>
    s.next pred = (some curr, false) → succ = c.tail → c.key curr ≠ key
  | _ => True

variable [DecidableEq Node]

/-- What a thread has seen at some moment of its call when it is at a place. -/
def Seen (c : Config Node Key) : Pc Node Key → State Tid Node Key → Prop
  | .findRead _ _ pred curr, s => Clear c pred curr s
  | .findRetire key caller pred curr (some succ), s =>
    Clear c pred succ s ∧ ∀ node, caller = .add node → succ = c.tail → c.key curr ≠ key
  | .getNext _ curr, s | .getMark _ curr, s => InChain s curr
  | .addRet key _ false, s => Present c key s
  | .removeRet key false, s | .getRet key none, s => ¬ Present c key s
  | .getRet key (some n), s => Member c s n ∧ c.key n = key
  | _, _ => True

/-- How a thread at `pc` comes to know that `P` held at some moment of its
call: it holds in the state `s` of the step, it follows from what had been
seen, or it follows from an old link that is still to be read. -/
inductive Learns (c : Config Node Key) (s : State Tid Node Key) (pc : Pc Node Key)
    (P : State Tid Node Key → Prop) : Prop
  | now (holds : P s)
  | kept (follows : ∀ s₀, Seen c pc s₀ → P s₀)
  | followed (n : Node) (was : ∀ s₀ : State Tid Node Key, Seen c pc s₀ → InChain s₀ n)
      (follows : ∀ s₀, ListInv c s₀ → InChain s₀ n → s₀.next n = s.next n → P s₀)

theorem Learns.mono {c : Config Node Key} {s : State Tid Node Key} {pc : Pc Node Key}
    {P Q : State Tid Node Key → Prop} (h : Learns c s pc P) (hPQ : ∀ s₀, P s₀ → Q s₀) :
    Learns c s pc Q := by
  cases h with
  | now holds => exact .now (hPQ s holds)
  | kept follows => exact .kept (fun s₀ hs₀ => hPQ s₀ (follows s₀ hs₀))
  | followed n was follows =>
    exact .followed n was (fun s₀ hinv hn hnext => hPQ s₀ (follows s₀ hinv hn hnext))

/-- How the tasks of a thread change in a step. -/
inductive TaskMove (s s' : State Tid Node Key) (old new : List (Task Node)) : Prop
  | keep (sub : new.Sublist old)
      (inUse : ∀ node, Task.add node ∈ new → s'.inUse node = s.inUse node)
  | start (node : Node) (none : old = []) (one : new = [.add node])
      (fresh : s.inUse node = false) (known : s'.inUse node = true)
  | snipped (n : Node) (more : new = .hand n :: old) (fresh : s.snipped n = false)
      (inUse : s'.inUse = s.inUse)

/-- A step of a thread: an effect on the list, a new place with what it needs,
and what this does to the set. -/
structure Moves (c : Config Node Key) (s s' : State Tid Node Key) (pc pc' : Pc Node Key) :
    Prop where
  effect : Effect c s pc.tasks s'
  ok : PcOk c s' pc'
  tasks : TaskMove s s' pc.tasks pc'.tasks
  does : Does c s s' pc pc'

end Defs

section Set

theorem snip_marks [DecidableEq Node] {s : State Tid Node Key} {pred curr : Node}
    (succ : Option Node) (old : s.next pred = (some curr, false)) (n : Node) :
    (update s.next pred (succ, false) n).2 = (s.next n).2 := by
  by_cases hn : n = pred
  · subst hn
    simp [old]
  · rw [update_of_ne hn]

variable [LinearOrder Key] [DecidableEq Node] {c : Config Node Key}
  {s s' : State Tid Node Key} {tasks : List (Task Node)}

/-- A step that leaves the marks of the linked nodes alone leaves the set
alone. -/
theorem Effect.same (e : Effect c s tasks s') (h : ListInv c s) (hlinked : s'.linked = s.linked)
    (hmarks : ∀ n, s.linked n = true → (s'.next n).2 = (s.next n).2) (n : Node) :
    Member c s' n ↔ Member c s n := by
  rw [h.member_iff, (e.listInv h).member_iff]
  constructor
  · rintro ⟨hn, hmark⟩
    have hl : s.linked n = true := by
      rw [← hlinked]
      exact hn.linked
    rw [hmarks n hl] at hmark
    exact ⟨⟨hl, hn.notHead, hn.notTail⟩, hmark⟩
  · rintro ⟨hn, hmark⟩
    rw [hmarks n hn.linked]
    exact ⟨⟨by rw [hlinked]; exact hn.linked, hn.notHead, hn.notTail⟩, hmark⟩

/-- The compare-and-swap that links a node adds it. -/
theorem ListInv.adds (h : ListInv c s) {k : Key} {node pred curr : Node}
    (new : NewOk c s k node) (gap : GapOk c s k pred curr)
    (old : s.next pred = (some curr, false)) (ready : s.next node = (some curr, false))
    (known : s.inUse node = true) :
    Adds c k node s { s with
      next := update s.next pred (some node, false)
      linked := update s.linked node true } := by
  have hunlinked := new.unlinked
  have hne : node ≠ pred := by
    rintro rfl
    rw [gap.linked] at hunlinked
    cases hunlinked
  have hafter := h.link new gap old ready known
  constructor
  · have hclear := h.clear (h.inChain gap.linked (by rw [old])) (congrArg Prod.fst old)
    exact hclear.absent gap.below gap.above
  · exact new.key
  · intro n
    rw [h.member_iff, hafter.member_iff]
    by_cases hn : n = node
    · subst hn
      simp only [true_or, iff_true]
      refine ⟨⟨update_self _ _ _, new.notHead, new.notTail⟩, ?_⟩
      rw [update_of_ne hne, ready]
    · have hmark := snip_marks (some node) old n
      constructor
      · rintro ⟨hok, hm⟩
        have hl := (update_true.mp hok.linked).resolve_left hn
        exact Or.inr ⟨⟨hl, hok.notHead, hok.notTail⟩, by rw [← hmark]; exact hm⟩
      · rintro (heq | ⟨hok, hm⟩)
        · exact absurd heq hn
        · exact ⟨⟨update_true.mpr (Or.inr hok.linked), hok.notHead, hok.notTail⟩,
            hmark.trans hm⟩

/-- The compare-and-swap that marks a node removes it. -/
theorem ListInv.removes (h : ListInv c s) {k : Key} {node : Node} {succ : Option Node}
    (hnode : NodeOk c s node) (hkey : c.key node = k) (old : s.next node = (succ, false)) :
    Removes c k node s { s with next := update s.next node (succ, true) } := by
  have hafter := h.mark hnode.notHead hnode.notTail old
  constructor
  · exact h.member_iff.mpr ⟨hnode, by rw [old]⟩
  · exact hkey
  · intro n
    rw [h.member_iff, hafter.member_iff]
    by_cases hn : n = node
    · subst hn
      simp
    · dsimp only
      rw [update_of_ne hn]
      constructor
      · rintro ⟨hok, hm⟩
        exact ⟨⟨⟨hok.linked, hok.notHead, hok.notTail⟩, hm⟩, hn⟩
      · rintro ⟨⟨hok, hm⟩, -⟩
        exact ⟨⟨hok.linked, hok.notHead, hok.notTail⟩, hm⟩

end Set

section Step

variable [DecidableEq Tid] [LinearOrder Key] [DecidableEq Node] {c : Config Node Key}
  {s s₁ : State Tid Node Key}

/-- A thread that was at `pc` in `s` goes to a new place, with nothing done to
the set yet. -/
def Goes (c : Config Node Key) (s s₁ : State Tid Node Key) (t : Tid) (pc : Pc Node Key)
    (tasks : List (Task Node)) (s' : State Tid Node Key) : Prop :=
  ∃ pc', s' = s₁.goto t pc' ∧ PcOk c s₁ pc' ∧ pc'.tasks.Sublist tasks ∧ pc'.done = none ∧
    Learns c s pc (Seen c pc')

theorem findReturn_goes {t : Tid} {pc : Pc Node Key} {k : Key} {caller : Caller Node}
    {pred curr : Node} (hcaller : CallerOk c s₁ k caller) (hpred : PredOk c s₁ k pred)
    (hlinked : s₁.linked curr = true) (habove : rankOf k ≤ c.rank curr)
    (habsent : rankOf k < c.rank curr → Learns c s pc (fun s₀ => ¬ Present c k s₀))
    (hpresent : ∀ node, caller = .add node → curr ≠ c.tail → c.key curr = k →
      Learns c s pc (Present c k)) :
    Goes c s s₁ t pc caller.tasks (s₁.findReturn c t k caller pred curr) := by
  have notHead : curr ≠ c.head := by
    rintro rfl
    exact not_lt.mpr habove (c.rank_head k)
  have hgap (hother : curr = c.tail ∨ c.cmpFun curr k ≠ 0) : rankOf k < c.rank curr := by
    apply lt_of_le_of_ne habove
    intro heq
    by_cases htail : curr = c.tail
    · rw [htail] at heq
      exact absurd heq (c.rank_tail k).ne
    · have hzero := (Config.rank_eq_iff notHead htail).mp heq.symm
      rcases hother with h | h
      · exact htail h
      · exact h hzero
  unfold State.findReturn
  cases caller with
  | add node =>
    dsimp only
    split
    · rename_i hfound
      have hkey := (c.cmp_zero curr k).mp hfound.2
      exact ⟨.addRet k node false, rfl, fun _ => hcaller.unlinked, List.Sublist.refl _, rfl,
        hpresent node rfl hfound.1 hkey⟩
    · rename_i hother
      have hlt := hgap (by tauto)
      exact ⟨.addWrite k node pred curr, rfl, ⟨hcaller, hpred, hlinked, hlt⟩,
        List.Sublist.refl _, rfl, .now trivial⟩
  | remove =>
    dsimp only
    split
    · rename_i hother
      exact ⟨.removeRet k false, rfl, trivial, List.Sublist.refl _, rfl,
        habsent (hgap hother)⟩
    · rename_i hfound
      push Not at hfound
      exact ⟨.removeRead k pred curr, rfl, ⟨hpred, ⟨hlinked, notHead, hfound.1⟩,
        (c.cmp_zero curr k).mp hfound.2⟩, List.Sublist.refl _, rfl, .now trivial⟩

theorem findLoop_goes {t : Tid} {pc : Pc Node Key} {k : Key} {caller : Caller Node}
    {pred curr : Node} (hcaller : CallerOk c s₁ k caller) (hpred : PredOk c s₁ k pred)
    (hlinked : s₁.linked curr = true) (hgrow : c.rank pred < c.rank curr)
    (hclear : Learns c s pc (Clear c pred curr)) :
    Goes c s s₁ t pc caller.tasks (s₁.findLoop c t k caller pred (some curr)) := by
  unfold State.findLoop
  dsimp only
  split
  · rename_i htail
    subst htail
    have hlt := c.rank_tail k
    apply findReturn_goes hcaller hpred hlinked hlt.le
    · intro _
      exact hclear.mono (fun s₀ h => h.absent hpred.below hlt)
    · intro node _ hne
      exact absurd rfl hne
  · rename_i htail
    exact ⟨.findRead k caller pred curr, rfl,
      ⟨hcaller, hpred, hlinked, Config.ne_head_of_lt hgrow, htail⟩, List.Sublist.refl _, rfl,
      hclear⟩

/-- The loop of a lookup that has come to `curr`. -/
theorem getLoop_goes {t : Tid} {pc : Pc Node Key} {k : Key} {curr : Node}
    (hlinked : s₁.linked curr = true) (notHead : curr ≠ c.head)
    (hin : Learns c s pc (fun s₀ => InChain s₀ curr))
    (habsent : rankOf k < c.rank curr → Learns c s pc (fun s₀ => ¬ Present c k s₀)) :
    Goes c s s₁ t pc [] (s₁.getLoop c t k (some curr)) := by
  unfold State.getLoop
  dsimp only
  split
  · rename_i h
    exact ⟨.getNext k curr, rfl, ⟨⟨hlinked, notHead, h.1⟩, (c.cmp_neg curr k).mp h.2⟩,
      List.Sublist.refl _, rfl, hin⟩
  · rename_i hnext
    split
    · rename_i h
      exact ⟨.getMark k curr, rfl, ⟨⟨hlinked, notHead, h.1⟩, (c.cmp_zero curr k).mp h.2⟩,
        List.Sublist.refl _, rfl, hin⟩
    · rename_i hzero
      refine ⟨.getRet k none, rfl, trivial, List.Sublist.refl _, rfl, habsent ?_⟩
      by_cases htail : curr = c.tail
      · subst htail
        exact c.rank_tail k
      · rcases lt_trichotomy (c.rank curr) (rankOf k) with hlt | heq | hgt
        · exact absurd ⟨htail, (Config.rank_lt_iff notHead htail).mp hlt⟩ hnext
        · exact absurd ⟨htail, (Config.rank_eq_iff notHead htail).mp heq⟩ hzero
        · exact hgt

/-- A step in full: what it does and what has been seen behind it. -/
def Acts (c : Config Node Key) (s : State Tid Node Key) (t : Tid) (pc : Pc Node Key)
    (s' : State Tid Node Key) : Prop :=
  ∃ s₁ pc', s' = s₁.goto t pc' ∧ Moves c s s₁ pc pc' ∧
    (SnipOk c s pc → Learns c s pc (Seen c pc'))

theorem Goes.acts {t : Tid} {pc : Pc Node Key} {tasks : List (Task Node)}
    {s' : State Tid Node Key} (h : Goes c s s₁ t pc tasks s') (e : Effect c s pc.tasks s₁)
    (hsub : tasks.Sublist pc.tasks) (hinUse : s₁.inUse = s.inUse)
    (hsame : ∀ n, Member c s₁ n ↔ Member c s n) : Acts c s t pc s' := by
  obtain ⟨pc', rfl, hok, htasks, hdone, hlearns⟩ := h
  refine ⟨s₁, pc', rfl, ⟨e, hok, .keep (htasks.trans hsub) ?_, .nothing hsame (Or.inl hdone)⟩,
    fun _ => hlearns⟩
  intro node _
  rw [hinUse]

/-- A step that touches nothing shared. -/
theorem Goes.acts_none {t : Tid} {pc : Pc Node Key} {s' : State Tid Node Key}
    (h : Goes c s s t pc pc.tasks s') : Acts c s t pc s' :=
  h.acts .none (List.Sublist.refl _) rfl (fun _ => Iff.rfl)

theorem findRead_acts {t : Tid} {s' : State Tid Node Key} (h : ListInv c s) {k : Key}
    {caller : Caller Node} {pred curr : Node} (hpc : s.pc t = .findRead k caller pred curr)
    (hok : PcOk c s (.findRead k caller pred curr)) (hstep : nextStep c s t = some s') :
    Acts c s t (.findRead k caller pred curr) s' := by
  obtain ⟨hcaller, hpred, hcurr⟩ := hok
  obtain ⟨succ, marked, hnext⟩ : ∃ succ marked, s.next curr = (succ, marked) := ⟨_, _, rfl⟩
  cases marked with
  | true =>
    simp only [nextStep, hpc, hnext, Option.some.injEq] at hstep
    subst hstep
    apply Goes.acts_none
    exact ⟨.findSnip k caller pred curr succ, rfl, ⟨hcaller, hpred, hcurr, hnext⟩,
      List.Sublist.refl _, rfl, .now trivial⟩
  | false =>
    simp only [nextStep, hpc, hnext, Option.some.injEq] at hstep
    subst hstep
    apply Goes.acts_none
    unfold State.findForward
    split
    · rename_i hstop
      have hcmp := hstop.resolve_left hcurr.notTail
      have habove : rankOf k ≤ c.rank curr := by
        rw [← not_lt, Config.rank_lt_iff hcurr.notHead hcurr.notTail, not_lt]
        exact hcmp
      apply findReturn_goes hcaller hpred hcurr.linked habove
      · intro hlt
        exact .kept (fun s₀ hclear => hclear.absent hpred.below hlt)
      · rintro node - - rfl
        exact .now (h.present hcurr (by rw [hnext]))
    · rename_i hgo
      push Not at hgo
      have hbelow := (Config.rank_lt_iff hcurr.notHead hcurr.notTail).mpr hgo.2
      obtain ⟨m, hm, hmlinked, hgrow⟩ := h.closed curr hcurr.linked hcurr.notTail
      have hsucc : succ = some m := by
        rw [hnext] at hm
        exact hm
      subst hsucc
      apply findLoop_goes hcaller ⟨hcurr.linked, hbelow⟩ hmlinked hgrow
      exact .now (h.clear (h.inChain hcurr.linked (by rw [hnext])) hm)

theorem findSnip_acts {t : Tid} {s' : State Tid Node Key} (h : ListInv c s) {k : Key}
    {caller : Caller Node} {pred curr : Node} {succ : Option Node}
    (hpc : s.pc t = .findSnip k caller pred curr succ)
    (hok : PcOk c s (.findSnip k caller pred curr succ)) (hstep : nextStep c s t = some s') :
    Acts c s t (.findSnip k caller pred curr succ) s' := by
  obtain ⟨hcaller, hpred, hcurr, hnext⟩ := hok
  simp only [nextStep, hpc] at hstep
  split at hstep <;> cases hstep
  · rename_i hold
    have e : Effect c s (Pc.findSnip k caller pred curr succ).tasks { s with
        next := update s.next pred (succ, false)
        snipped := update s.snipped curr true } :=
      .snip pred curr succ hpred.linked hcurr hpred.notTail hold hnext
    have hfresh := h.not_snipped hpred.linked hpred.notTail hold
    have hchain := h.inChain hpred.linked (by rw [hold])
    refine ⟨_, .findRetire k caller pred curr succ, rfl, ⟨e, ?_, .snipped curr rfl hfresh rfl,
      .nothing (e.same h rfl (fun n _ => snip_marks _ hold n)) (Or.inl rfl)⟩, ?_⟩
    · refine ⟨hcaller.congr rfl, hpred.frame e.keeps, hcurr.frame e.keeps, ?_,
        update_self _ _ _, ?_⟩
      · rw [e.next_eq hcurr.linked (by rw [hnext])]
        exact hnext
      · intro hmem
        rw [h.handed curr hmem] at hfresh
        cases hfresh
    · intro hsnip
      obtain ⟨m, hm, -, -⟩ := h.closed curr hcurr.linked hcurr.notTail
      have hsucc : succ = some m := by
        rw [hnext] at hm
        exact hm
      subst hsucc
      refine .now ⟨?_, ?_⟩
      · exact h.clear_marked hchain (congrArg Prod.fst hold) ⟨hcurr.linked, hfresh⟩ hnext
      · rintro node rfl
        exact hsnip hold
  · apply Goes.acts_none
    exact ⟨.findStart k caller, rfl, hcaller, List.Sublist.refl _, rfl, .now trivial⟩

/-- Behind the retire callback the search goes on at the successor, or stops
when that is the tail. -/
theorem findRetire_acts {t : Tid} {s' : State Tid Node Key} (h : ListInv c s) {k : Key}
    {caller : Caller Node} {pred curr : Node} {succ : Option Node}
    (hpc : s.pc t = .findRetire k caller pred curr succ)
    (hok : PcOk c s (.findRetire k caller pred curr succ)) (hstep : nextStep c s t = some s') :
    Acts c s t (.findRetire k caller pred curr succ) s' := by
  obtain ⟨hcaller, hpred, hcurr, hnext, hsnipped, hfirst⟩ := hok
  obtain ⟨m, hm, hmlinked, hgrow⟩ := h.closed curr hcurr.linked hcurr.notTail
  have hsucc : succ = some m := by
    rw [hnext] at hm
    exact hm
  subst hsucc
  have e : Effect c s (Pc.findRetire k caller pred curr (some m)).tasks
      { s with handed := curr :: s.handed } :=
    .hand curr (by simp [Pc.tasks]) hfirst hsnipped
  have hcaller' : CallerOk c { s with handed := curr :: s.handed } k caller :=
    hcaller.congr rfl
  have hpred' := hpred.frame e.keeps
  have hcurr' := hcurr.frame e.keeps
  have hlt := c.rank_tail k
  simp only [nextStep, hpc] at hstep
  suffices hgoes : Goes c s { s with handed := curr :: s.handed } t
      (.findRetire k caller pred curr (some m)) caller.tasks s' by
    exact hgoes.acts e (List.sublist_cons_self _ _) rfl (e.same h rfl (fun _ _ => rfl))
  split at hstep <;> cases hstep
  · rename_i htail
    cases htail
    unfold State.findForward
    split
    · rename_i hstop
      have hcmp := hstop.resolve_left hcurr.notTail
      have habove : rankOf k ≤ c.rank curr := by
        rw [← not_lt, Config.rank_lt_iff hcurr.notHead hcurr.notTail, not_lt]
        exact hcmp
      apply findReturn_goes hcaller' hpred' hcurr'.linked habove
      · intro _
        exact .kept (fun s₀ hseen => hseen.1.absent hpred.below hlt)
      · intro node hadd _ hkey
        exact .kept (fun s₀ hseen => absurd hkey (hseen.2 node hadd rfl))
    · rename_i hgo
      push Not at hgo
      have hbelow := (Config.rank_lt_iff hcurr.notHead hcurr.notTail).mpr hgo.2
      simp only [State.findLoop, if_true]
      apply findReturn_goes hcaller' ⟨hcurr'.linked, hbelow⟩ hmlinked hlt.le
      · intro _
        exact .kept (fun s₀ hseen => hseen.1.absent hpred.below hlt)
      · intro node _ hne
        exact absurd rfl hne
  · rename_i htail
    have hne : m ≠ c.tail := by
      rintro rfl
      exact htail rfl
    exact ⟨.findRead k caller pred m, rfl,
      ⟨hcaller', hpred', hmlinked, Config.ne_head_of_lt hgrow, hne⟩,
      List.Sublist.refl _, rfl, .kept (fun s₀ hseen => hseen.1)⟩

theorem add_acts {t : Tid} {s' : State Tid Node Key} (h : ListInv c s) {k : Key}
    {node pred curr : Node} (hpc : s.pc t = .addCas k node pred curr)
    (hok : PcOk c s (.addCas k node pred curr)) (hinUse : s.inUse node = true)
    (hstep : nextStep c s t = some s') : Acts c s t (.addCas k node pred curr) s' := by
  obtain ⟨hnew, hgap, hready⟩ := hok
  simp only [nextStep, hpc] at hstep
  split at hstep <;> cases hstep
  · rename_i hold
    refine ⟨_, .addRet k node true, rfl, ⟨?_, ?_, .keep (List.nil_sublist _) (by simp [Pc.tasks]),
      .change (.added k node) rfl rfl (h.adds hnew hgap hold hready hinUse)⟩,
      fun _ => .now trivial⟩
    · exact .link k node pred curr (by simp [Pc.tasks]) hnew hgap hold hready hinUse
    · intro hfalse
      cases hfalse
  · apply Goes.acts_none
    exact ⟨.findStart k (.add node), rfl, hnew, List.Sublist.refl _, rfl, .now trivial⟩

theorem remove_acts {t : Tid} {s' : State Tid Node Key} (h : ListInv c s) {k : Key}
    {pred curr : Node} {succ : Option Node} (hpc : s.pc t = .removeMark k pred curr succ)
    (hok : PcOk c s (.removeMark k pred curr succ)) (hstep : nextStep c s t = some s') :
    Acts c s t (.removeMark k pred curr succ) s' := by
  obtain ⟨hpred, hcurr, hkey⟩ := hok
  simp only [nextStep, hpc] at hstep
  split at hstep <;> cases hstep
  · rename_i hold
    have e : Effect c s (Pc.removeMark k pred curr succ : Pc Node Key).tasks { s with
        next := update s.next curr (succ, true) } := .mark curr succ hcurr hold
    exact ⟨_, .removeDetach k pred curr succ, rfl,
      ⟨e, ⟨hpred.frame e.keeps, hcurr.frame e.keeps, update_self _ _ _⟩,
        .keep (List.Sublist.refl _) (fun _ _ => rfl),
        .change (.removed k) rfl rfl ⟨curr, h.removes hcurr hkey hold⟩⟩,
      fun _ => .now trivial⟩
  · apply Goes.acts_none
    exact ⟨.findStart k .remove, rfl, trivial, List.Sublist.refl _, rfl, .now trivial⟩

theorem detach_acts {t : Tid} {s' : State Tid Node Key} (h : ListInv c s) {k : Key}
    {pred curr : Node} {succ : Option Node} (hpc : s.pc t = .removeDetach k pred curr succ)
    (hok : PcOk c s (.removeDetach k pred curr succ)) (hstep : nextStep c s t = some s') :
    Acts c s t (.removeDetach k pred curr succ) s' := by
  obtain ⟨hpred, hcurr, hnext⟩ := hok
  simp only [nextStep, hpc] at hstep
  split at hstep <;> cases hstep
  · rename_i hold
    have e : Effect c s (Pc.removeDetach k pred curr succ).tasks { s with
        next := update s.next pred (succ, false)
        snipped := update s.snipped curr true } :=
      .snip pred curr succ hpred.linked hcurr hpred.notTail hold hnext
    have hfresh := h.not_snipped hpred.linked hpred.notTail hold
    refine ⟨_, .removeRetire k curr, rfl, ⟨e, ⟨update_self _ _ _, ?_⟩,
      .snipped curr rfl hfresh rfl,
      .nothing (e.same h rfl (fun n _ => snip_marks _ hold n)) (Or.inr rfl)⟩,
      fun _ => .now trivial⟩
    intro hmem
    rw [h.handed curr hmem] at hfresh
    cases hfresh
  · exact ⟨s, .removeRet k true, rfl, ⟨.none, trivial,
      .keep (List.Sublist.refl _) (fun _ _ => rfl), .nothing (fun _ => Iff.rfl) (Or.inr rfl)⟩,
      fun _ => .now trivial⟩

theorem nextStep_acts {t : Tid} {s' : State Tid Node Key} (h : ListInv c s)
    (hok : PcOk c s (s.pc t))
    (hinUse : ∀ node, Task.add node ∈ (s.pc t).tasks → s.inUse node = true)
    (hstep : nextStep c s t = some s') : Acts c s t (s.pc t) s' := by
  obtain ⟨first, hfirst, hfirstLinked, hfirstGrow⟩ := h.closed c.head h.ends.1 c.distinct
  have hhead : InChain s c.head := h.inChain h.ends.1 h.sentinels.1
  cases hpc : s.pc t with
  | idle | crashed => simp [nextStep, hpc] at hstep
  | findStart k caller =>
    rw [hpc] at hok
    simp only [nextStep, hpc, hfirst, Option.some.injEq] at hstep
    subst hstep
    apply Goes.acts_none
    apply findLoop_goes hok ⟨h.ends.1, c.rank_head k⟩ hfirstLinked hfirstGrow
    exact .now (h.clear hhead hfirst)
  | findRead k caller pred curr =>
    rw [hpc] at hok
    exact findRead_acts h hpc hok hstep
  | findSnip k caller pred curr succ =>
    rw [hpc] at hok
    exact findSnip_acts h hpc hok hstep
  | findRetire k caller pred curr succ =>
    rw [hpc] at hok
    exact findRetire_acts h hpc hok hstep
  | addWrite k node pred curr =>
    rw [hpc] at hok
    obtain ⟨hnew, hgap⟩ := hok
    simp only [nextStep, hpc, Option.some.injEq] at hstep
    subst hstep
    have e : Effect c s (Pc.addWrite k node pred curr).tasks { s with
        next := update s.next node (some curr, false) } :=
      .write node curr (by simp [Pc.tasks]) hnew.notHead hnew.notTail hnew.unlinked
    have hsame : ∀ n, s.linked n = true →
        (update s.next node (some curr, false) n).2 = (s.next n).2 := by
      intro n hn
      rw [update_of_ne]
      rintro rfl
      rw [hnew.unlinked] at hn
      cases hn
    refine Goes.acts ?_ e (List.Sublist.refl _) rfl (e.same h rfl hsame)
    exact ⟨.addCas k node pred curr, rfl,
      ⟨⟨hnew.unlinked, hnew.notHead, hnew.notTail, hnew.key⟩, hgap.frame e.keeps,
        update_self _ _ _⟩, List.Sublist.refl _, rfl, .now trivial⟩
  | addCas k node pred curr =>
    rw [hpc] at hok
    exact add_acts h hpc hok (hinUse node (by simp [hpc, Pc.tasks])) hstep
  | removeRead k pred curr =>
    rw [hpc] at hok
    simp only [nextStep, hpc, Option.some.injEq] at hstep
    subst hstep
    apply Goes.acts_none
    exact ⟨.removeMark k pred curr _, rfl, hok, List.Sublist.refl _, rfl, .now trivial⟩
  | removeMark k pred curr succ =>
    rw [hpc] at hok
    exact remove_acts h hpc hok hstep
  | removeDetach k pred curr succ =>
    rw [hpc] at hok
    exact detach_acts h hpc hok hstep
  | removeRetire k curr =>
    rw [hpc] at hok
    simp only [nextStep, hpc, Option.some.injEq] at hstep
    subst hstep
    have e : Effect c s (Pc.removeRetire k curr).tasks
        { s with handed := curr :: s.handed } :=
      .hand curr (by simp [Pc.tasks]) hok.2 hok.1
    exact ⟨_, .removeRet k true, rfl, ⟨e, trivial,
      .keep (List.nil_sublist _) (fun _ _ => rfl),
      .nothing (e.same h rfl (fun _ _ => rfl)) (Or.inr rfl)⟩, fun _ => .now trivial⟩
  | getStart k =>
    simp only [nextStep, hpc, hfirst, Option.some.injEq] at hstep
    subst hstep
    apply Goes.acts_none
    apply getLoop_goes hfirstLinked (Config.ne_head_of_lt hfirstGrow)
    · exact .now (h.next_inChain hhead hfirst)
    · intro hlt
      exact .now ((h.clear hhead hfirst).absent (c.rank_head k) hlt)
  | getNext k curr =>
    rw [hpc] at hok
    obtain ⟨hcurr, hbelow⟩ := hok
    obtain ⟨m, hm, hmlinked, hgrow⟩ := h.closed curr hcurr.linked hcurr.notTail
    simp only [nextStep, hpc, hm, Option.some.injEq] at hstep
    subst hstep
    have hrank : c.rank curr < rankOf k := by
      rw [Config.rank_lt_iff hcurr.notHead hcurr.notTail, c.cmp_neg]
      exact hbelow
    apply Goes.acts_none
    apply getLoop_goes hmlinked (Config.ne_head_of_lt hgrow)
    · refine .followed curr (fun _ hseen => hseen) ?_
      intro s₀ h₀ hin hnext
      exact h₀.next_inChain hin (by rw [hnext]; exact hm)
    · intro hlt
      refine .followed curr (fun _ hseen => hseen) ?_
      intro s₀ h₀ hin hnext
      exact (h₀.clear hin (by rw [hnext]; exact hm)).absent hrank hlt
  | getMark k curr =>
    rw [hpc] at hok
    obtain ⟨hcurr, rfl⟩ := hok
    simp only [nextStep, hpc, Option.some.injEq] at hstep
    subst hstep
    apply Goes.acts_none
    split
    · rename_i hmark
      refine ⟨.getRet _ none, rfl, trivial, List.Sublist.refl _, rfl,
        .followed curr (fun _ hseen => hseen) ?_⟩
      intro s₀ h₀ hin hnext
      exact h₀.absent_of_marked hin hcurr.notHead hcurr.notTail (by rw [hnext]; exact hmark)
    · rename_i hmark
      exact ⟨.getRet _ (some curr), rfl, trivial, List.Sublist.refl _, rfl,
        .now ⟨h.member_iff.mpr ⟨hcurr, by simpa using hmark⟩, rfl⟩⟩
  | addRet k node ok =>
    rw [hpc] at hok
    simp only [nextStep, hpc, Option.some.injEq] at hstep
    subst hstep
    cases ok with
    | true =>
      apply Goes.acts_none
      exact ⟨.idle, rfl, trivial, List.Sublist.refl _, rfl, .now trivial⟩
    | false =>
      have e : Effect c s (Pc.addRet k node false).tasks
          { s with inUse := update s.inUse node false } :=
        .drop node (by simp [Pc.tasks]) (hok rfl)
      exact ⟨_, .idle, rfl, ⟨e, trivial, .keep (List.nil_sublist _) (by simp [Pc.tasks]),
        .nothing (e.same h rfl (fun _ _ => rfl)) (Or.inl rfl)⟩, fun _ => .now trivial⟩
  | removeRet k ok | getRet k result =>
    simp only [nextStep, hpc, Option.some.injEq] at hstep
    subst hstep
    apply Goes.acts_none
    exact ⟨.idle, rfl, trivial, List.Sublist.refl _, rfl, .now trivial⟩

theorem beginCall_acts {t : Tid} {s' : State Tid Node Key} {a : Act Tid Node Key}
    (h : ListInv c s) (hidle : s.pc t = .idle) (hstep : beginCall c s t a = some s') :
    ∃ s₁ pc', s' = s₁.goto t pc' ∧ Moves c s s₁ (s.pc t) pc' ∧ pc'.done = none ∧
      ∀ s₀ : State Tid Node Key, Seen c pc' s₀ := by
  rw [hidle]
  cases a with
  | add u k node =>
    simp only [beginCall] at hstep
    split at hstep <;> cases hstep
    rename_i hcan
    obtain ⟨hfresh, notHead, notTail, hkey⟩ := hcan
    have hunlinked : s.linked node = false := by
      by_contra hlinked
      rcases h.known node (by simpa using hlinked) with hused | hend | hend
      · rw [hfresh] at hused
        cases hused
      · exact notHead hend
      · exact notTail hend
    have e : Effect c s (Pc.idle : Pc Node Key).tasks
        { s with inUse := update s.inUse node true } := .take node hfresh
    exact ⟨_, .findStart k (.add node), rfl, ⟨e, ⟨hunlinked, notHead, notTail, hkey⟩,
      .start node rfl rfl hfresh (update_self _ _ _),
      .nothing (e.same h rfl (fun _ _ => rfl)) (Or.inl rfl)⟩, rfl, fun _ => trivial⟩
  | remove u k =>
    simp only [beginCall, Option.some.injEq] at hstep
    subst hstep
    exact ⟨s, .findStart k .remove, rfl, ⟨.none, trivial,
      .keep (List.Sublist.refl _) (fun _ _ => rfl),
      .nothing (fun _ => Iff.rfl) (Or.inl rfl)⟩, rfl, fun _ => trivial⟩
  | get u k =>
    simp only [beginCall, Option.some.injEq] at hstep
    subst hstep
    exact ⟨s, .getStart k, rfl, ⟨.none, trivial,
      .keep (List.Sublist.refl _) (fun _ _ => rfl),
      .nothing (fun _ => Iff.rfl) (Or.inl rfl)⟩, rfl, fun _ => trivial⟩
  | step u => simp [beginCall] at hstep

end Step

end Libvsync.Map.ListsetLf
