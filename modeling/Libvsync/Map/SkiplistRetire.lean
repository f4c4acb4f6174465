import Libvsync.Map.SkiplistHeap

/-!
The retire discipline of the skiplist. A node is linked at each of its levels
once, from the bottom up, by the thread that adds it; it is snipped at each
level at most once, and the thread that snipped it counts that level down
once. The last of these counts hands the node to `fun_retire`.
-/

namespace Libvsync.Map.Skiplist

open Libvsync.Core Function

variable {Tid Node Key : Type}

/-- How the tasks of a thread change in a step. -/
inductive TaskMove (s s' : State Tid Node Key) (old new : List (Task Node)) : Prop
  | keep (sub : new.Sublist old)
  | start (node : Node) (none : old = []) (one : new = [.add node])
      (fresh : s.added node = false) (known : s'.added node = true)
  | snipped (n : Node) (l : Nat) (more : new = .count n l :: old)
      (fresh : s.snipped n l = false)
  | last (n : Node) (l : Nat) (rest : List (Task Node)) (was : old = .count n l :: rest)
      (now : new = .hand n :: rest) (fresh : s.counted n l = false)

theorem Caller.mem_tasks {caller : Caller Node} {x : Task Node} (h : x ∈ caller.tasks) :
    ∃ node, x = .add node := by
  cases caller with
  | add node height | link node height level => exact ⟨node, by simpa [Caller.tasks] using h⟩
  | remove expected | detach => simp [Caller.tasks] at h

section Tasks

variable {c : Config Node Key} {s : State Tid Node Key}

theorem PcOk.of_count {pc : Pc Node Key} (h : PcOk c s pc) {n : Node} {l : Nat}
    (hmem : Task.count n l ∈ pc.tasks) : s.snipped n l = true ∧ s.counted n l = false := by
  have hno (caller : Caller Node) : Task.count n l ∉ caller.tasks := by
    intro hx
    obtain ⟨node, hnode⟩ := Caller.mem_tasks hx
    cases hnode
  cases pc with
  | findDec f curr =>
    rcases List.mem_cons.mp hmem with heq | hmem
    · cases heq
      exact ⟨h.2.1, h.2.2⟩
    · exact absurd hmem (hno _)
  | findRetire f curr =>
    rcases List.mem_cons.mp hmem with heq | hmem
    · cases heq
    · exact absurd hmem (hno _)
  | findLevel f | findCurr f curr | findSnip f curr succ | findReload f =>
    exact absurd hmem (hno _)
  | _ => simp [Pc.tasks] at hmem

theorem PcOk.of_hand {pc : Pc Node Key} (h : PcOk c s pc) {n : Node}
    (hmem : Task.hand n ∈ pc.tasks) : ∀ l < s.height n, s.counted n l = true := by
  have hno (caller : Caller Node) : Task.hand n ∉ caller.tasks := by
    intro hx
    obtain ⟨node, hnode⟩ := Caller.mem_tasks hx
    cases hnode
  cases pc with
  | findRetire f curr =>
    rcases List.mem_cons.mp hmem with heq | hmem
    · cases heq
      exact h.2.2.2
    · exact absurd hmem (hno _)
  | findDec f curr =>
    rcases List.mem_cons.mp hmem with heq | hmem
    · cases heq
    · exact absurd hmem (hno _)
  | findLevel f | findCurr f curr | findSnip f curr succ | findReload f =>
    exact absurd hmem (hno _)
  | _ => simp [Pc.tasks] at hmem

/-- A node whose levels have all been counted down is on no level. -/
theorem HeapInv.unreachable (h : HeapInv c s) {n : Node}
    (hall : ∀ l < s.height n, s.counted n l = true) {l : Nat} (hl : l ≤ c.topLevel) :
    ¬ Reaches (s.level l) c.head n := by
  intro hreach
  obtain ⟨nodes, hchain, hmem⟩ := h.chain l hl
  have hend : s.level l c.tail = none := by
    simp only [State.level, (h.sentinels l).2]
  have hin := (hmem n).mp (hchain.reaches_mem hend hreach)
  have hsnipped := h.counted n l (hall l (h.height n l hin.1))
  rw [hsnipped] at hin
  cases hin.2

theorem TaskMove.apart [DecidableEq Tid] {t : Tid} {s' : State Tid Node Key}
    {content : Tid → List (Task Node)} {pc' : Pc Node Key}
    (move : TaskMove s s' (s.pc t).tasks pc'.tasks) (h : Inv c s)
    (hothers : ∀ u, u ≠ t → content u = (s.pc u).tasks) (hself : content t = pc'.tasks) :
    Apart content := by
  cases move with
  | keep sub =>
    apply h.tasks.drop hothers
    rw [hself]
    exact sub
  | start node none one fresh =>
    refine h.tasks.take (n := .add node) hothers ?_ ?_
    · rw [hself, one, none]
    · intro u hu
      rw [h.added u node hu] at fresh
      cases fresh
  | snipped n l more fresh =>
    refine h.tasks.take (n := .count n l) hothers ?_ ?_
    · rw [hself, more]
    · intro u hu
      rw [((h.pc u).of_count hu).1] at fresh
      cases fresh
  | last n l rest was now fresh =>
    have hcount := (h.pc t).of_count (n := n) (l := l) (by simp [was])
    have hlt := h.heap.height n l (h.heap.frozen n l hcount.1).1
    have hfresh (u : Tid) : Task.hand n ∉ (s.pc u).tasks := by
      intro hu
      rw [(h.pc u).of_hand hu l hlt] at fresh
      cases fresh
    -- the level is given back first, then the node taken
    have hmid : Apart (update (fun u => (s.pc u).tasks) t rest) := by
      apply h.tasks.drop (p := t)
      · intro u hu
        exact update_of_ne hu _ _
      · rw [update_self, was]
        exact List.sublist_cons_self _ _
    refine hmid.take (n := .hand n) (p := t) ?_ ?_ ?_
    · intro u hu
      rw [hothers u hu, update_of_ne hu]
    · rw [hself, now, update_self]
    · intro u hu
      by_cases hut : u = t
      · subst hut
        rw [update_self] at hu
        exact hfresh u (by rw [was]; exact List.mem_cons_of_mem _ hu)
      · rw [update_of_ne hut] at hu
        exact hfresh u hu

end Tasks

section Calls

variable [DecidableEq Tid] {c : Config Node Key} {s : State Tid Node Key}

/-- A thread goes to a new place that holds, with no new task. -/
def Goes (c : Config Node Key) (s : State Tid Node Key) (t : Tid) (tasks : List (Task Node))
    (s' : State Tid Node Key) : Prop :=
  ∃ pc', s' = s.goto t pc' ∧ PcOk c s pc' ∧ pc'.tasks.Sublist tasks

theorem retry_goes (h : LinksInv c s) (t : Tid) {f : Find Node Key}
    (hcaller : CallerOk c s f.caller) : Goes c s t f.caller.tasks (s.retry c t f) := by
  have hhead := (h.ends c.topLevel (Nat.le_refl _)).1
  have hheight : s.height c.head ≠ 0 := by
    have := h.height c.head c.topLevel hhead
    omega
  refine ⟨.findLevel { f with pred := c.head, level := c.topLevel }, ?_, ?_, ?_⟩
  · simp only [State.retry, if_neg hheight]
  · constructor
    · exact Nat.le_refl _
    · exact hhead
    · exact c.distinct
    · intro l hl htop
      exact absurd htop (Nat.not_le.mpr hl)
    · exact hcaller
  · exact List.Sublist.refl _

theorem find_goes (h : LinksInv c s) (t : Tid) {key : Key} {specific : Option Node}
    (caller : Caller Node) (hcaller : CallerOk c s caller) :
    Goes c s t caller.tasks (s.find c t key specific caller) :=
  retry_goes (f := { key := key, specific := specific, caller := caller, pred := c.head
                     level := c.topLevel, preds := fun _ => c.head, succs := fun _ => c.head })
    h t hcaller

theorem removeNode_goes (h : LinksInv c s) (t : Tid) {key : Key} {node : Node}
    (hlinked : s.linked node 0 = true) (notHead : node ≠ c.head) (notTail : node ≠ c.tail)
    (tasks : List (Task Node)) : Goes c s t tasks (s.removeNode t key node) := by
  have hheight := h.height node 0 hlinked
  have hne : s.height node ≠ 0 := by omega
  refine ⟨.markRead key node (s.height node - 1), ?_, ?_, List.nil_sublist _⟩
  · simp only [State.removeNode, if_neg hne]
  · exact ⟨hlinked, notHead, notTail, by omega⟩

theorem marked_goes (h : LinksInv c s) (t : Tid) {key : Key} {node : Node} {level : Nat}
    (hnode : Removable c s node level) (iMarkedIt : Bool) :
    Goes c s t [] (s.marked c t key node level iMarkedIt) := by
  unfold State.marked
  split
  · cases iMarkedIt with
    | true => exact find_goes h t .detach trivial
    | false => exact ⟨.removeRet false, rfl, trivial, List.Sublist.refl _⟩
  · refine ⟨.markRead key node (level - 1), rfl, ?_, List.Sublist.refl _⟩
    have := hnode.lt
    exact ⟨hnode.bottom, hnode.notHead, hnode.notTail, by omega⟩

/-- The place of one thread does not matter for another. -/
theorem PcOk.goto {pc : Pc Node Key} (h : PcOk c s pc) (t : Tid) (pc' : Pc Node Key) :
    PcOk c (s.goto t pc') pc := by
  cases pc with
  | findLevel f | findReload f => exact FindOk.congr h rfl rfl
  | findCurr f curr | findSnip f curr succ | findDec f curr | findRetire f curr =>
    exact ⟨h.1.congr rfl rfl, h.2⟩
  | addSet a level | addLink a | linkCas a level => exact ⟨h.1.congr rfl rfl, h.2⟩
  | linkRead a level | linkSet a level curSucc mark => exact AddingOk.congr h rfl rfl
  | markRead key node level | markCas key node level succ =>
    exact ⟨h.bottom, h.notHead, h.notTail, h.lt⟩
  | _ => exact h

end Calls

variable [DecidableEq Node]

/-- A step of thread `t`: an effect on the shared state and a new place with
what it needs. -/
structure Moves (c : Config Node Key) (s s' : State Tid Node Key) (pc pc' : Pc Node Key) :
    Prop where
  effect : Effect c s pc.tasks s'
  ok : PcOk c s' pc'
  tasks : TaskMove s s' pc.tasks pc'.tasks

section Shared

variable {c : Config Node Key} {s : State Tid Node Key}

theorem Effect.pc_eq {s' : State Tid Node Key} {tasks : List (Task Node)}
    (e : Effect c s tasks s') : s'.pc = s.pc := by
  cases e <;> rfl

/-- The last level that is counted down was the last one left. -/
theorem HeapInv.all_counted (h : HeapInv c s) {n : Node} {l : Nat}
    (snipped : s.snipped n l = true) (uncounted : s.counted n l = false)
    (hone : s.nonSnippedLevel n = 1) :
    n ∉ s.handed ∧ 0 < s.height n ∧
      ∀ k < s.height n, set2 s.counted n l true n k = true := by
  have hlt := h.height n l (h.frozen n l snipped).1
  refine ⟨?_, by omega, ?_⟩
  · intro hmem
    have := (h.handed n hmem).2 l hlt
    rw [uncounted] at this
    cases this
  · intro k hk
    have hcount := (h.countDown snipped uncounted).count n
    dsimp only [State.countedLevels] at hcount
    rw [update_self, hone] at hcount
    have hzero : wsub 64 1 1 = 0 := rfl
    rw [hzero, Nat.add_zero] at hcount
    have hfull := Finset.card_filter_eq_iff.mp (hcount.trans (Finset.card_range _).symm)
    exact hfull k (Finset.mem_range.mpr hk)

theorem vskiplistInit_inv (c : Config Node Key) :
    Inv c (vskiplistInit c : State Tid Node Key) where
  heap := {
    chain := by
      intro l hl
      refine ⟨[c.head, c.tail], ?_, ?_⟩
      · constructor
        · simp [State.level, vskiplistInit, hl]
        · rfl
        · rfl
        · simp [c.distinct]
      · intro n
        simp [vskiplistInit, hl]
    height := by
      intro n l hn
      simp only [vskiplistInit, decide_eq_true_eq] at hn ⊢
      rw [if_pos hn.1]
      omega
    bound := by
      intro n
      simp only [vskiplistInit]
      split <;> omega
    ends := by
      intro l hl
      simp [vskiplistInit, hl]
    down := by
      intro n l k hn hk
      simp only [vskiplistInit, decide_eq_true_eq] at hn ⊢
      exact ⟨hn.1, hk.trans hn.2⟩
    frozen := by simp [vskiplistInit]
    closed := by
      intro n l hn hne
      simp only [vskiplistInit, decide_eq_true_eq] at hn ⊢
      have hhead : n = c.head := hn.1.resolve_right hne
      exact ⟨c.tail, by simp [hhead, hn.2], ⟨Or.inr rfl, hn.2⟩, c.distinct.symm⟩
    sentinels := by
      intro l
      constructor
      · simp only [vskiplistInit]
        split <;> rfl
      · simp [vskiplistInit, c.distinct.symm]
    known := by
      intro n l hn
      simp only [vskiplistInit, decide_eq_true_eq] at hn ⊢
      exact Or.inr hn.1
    counted := by simp [vskiplistInit]
    count := by
      intro n
      simp [State.countedLevels, vskiplistInit]
    handed := by simp [vskiplistInit]
    once := by simp [vskiplistInit] }
  pc := fun _ => trivial
  tasks := Apart.empty (fun _ => rfl)
  added := by
    intro t node hmem
    simp [vskiplistInit, Pc.tasks] at hmem

end Shared

section Step

variable [DecidableEq Tid] {c : Config Node Key} {s : State Tid Node Key} {f : Find Node Key}

theorem findReturn_goes (h : LinksInv c s) (t : Tid) {curr : Node} (hcaller : CallerOk c s f.caller)
    (haround : ∀ l ≤ c.topLevel, Neighbours c s l (f.preds l) (f.succs l))
    (hlinked : s.linked curr 0 = true) (notHead : curr ≠ c.head) :
    Goes c s t f.caller.tasks (s.findReturn c t f curr) := by
  unfold State.findReturn
  cases hc : f.caller with
  | add node height =>
    rw [hc] at hcaller
    dsimp only
    split
    · exact ⟨.addRet false (some curr), rfl, trivial, List.nil_sublist _⟩
    · refine ⟨.addSet ⟨f.key, node, height, f.preds, f.succs⟩ 0, rfl, ?_,
        List.Sublist.refl _⟩
      exact ⟨⟨hcaller, haround⟩, hcaller.lt, by simp⟩
  | link node height level =>
    rw [hc] at hcaller
    exact ⟨.linkRead ⟨f.key, node, height, f.preds, f.succs⟩ level, rfl,
      ⟨hcaller, haround⟩, List.Sublist.refl _⟩
  | remove expected =>
    dsimp only
    split
    · rename_i hfound
      exact removeNode_goes h t hlinked notHead hfound.1.1 _
    · exact ⟨.removeRet false, rfl, trivial, List.nil_sublist _⟩
  | detach => exact ⟨.removeRet true, rfl, trivial, List.nil_sublist _⟩

theorem findDown_goes (h : LinksInv c s) (t : Tid) {curr : Node} (hfind : FindOk c s f)
    (hlinked : s.linked curr f.level = true) (notHead : curr ≠ c.head) :
    Goes c s t f.caller.tasks (s.findDown c t f curr) := by
  have haround (l : Nat) (hl : f.level ≤ l) (htop : l ≤ c.topLevel) :
      Neighbours c s l (update f.preds f.level f.pred l)
        (update f.succs f.level curr l) := by
    by_cases heq : l = f.level
    · subst heq
      simp only [update_self]
      exact ⟨hfind.pred, hfind.notTail, hlinked, notHead⟩
    · simp only [update_of_ne heq]
      exact hfind.above l (by omega) htop
  unfold State.findDown
  dsimp only
  split
  · rename_i hzero
    rw [hzero] at hlinked
    refine findReturn_goes h t (f := { f with
        preds := update f.preds f.level f.pred
        succs := update f.succs f.level curr }) hfind.caller ?_ hlinked notHead
    intro l htop
    exact haround l (by omega) htop
  · rename_i hpos
    refine ⟨.findLevel { f with
        preds := update f.preds f.level f.pred
        succs := update f.succs f.level curr
        level := f.level - 1 }, rfl, ?_, List.Sublist.refl _⟩
    constructor
    · have := hfind.level
      dsimp only
      omega
    · exact h.down f.pred f.level (f.level - 1) hfind.pred (Nat.sub_le _ _)
    · exact hfind.notTail
    · intro l hl htop
      dsimp only at hl
      exact haround l (by omega) htop
    · exact hfind.caller

theorem linkNext_goes (t : Tid) {a : Adding Node Key} {level : Nat}
    (hadding : AddingOk c s a level) :
    let s₁ := { s with
      next := set2 s.next (a.preds level) level (some a.node, false)
      linked := set2 s.linked a.node level true }
    Goes c s₁ t [.add a.node] (s₁.linkNext t a (level + 1)) := by
  intro s₁
  unfold State.linkNext
  split
  · rename_i hlt
    refine ⟨.linkRead a (level + 1), rfl, ?_, List.Sublist.refl _⟩
    have hnode := hadding.node
    constructor
    · refine ⟨hnode.heightEq, hlt, hnode.notHead, hnode.notTail, ?_⟩
      intro l
      have hl := hnode.iff l
      rw [set2_true, hl]
      simp only [true_and]
      omega
    · intro l hl
      have haround := hadding.around l hl
      exact ⟨set2_true.mpr (Or.inr haround.predLinked), haround.notTail,
        set2_true.mpr (Or.inr haround.succLinked), haround.notHead⟩
  · exact ⟨.addRet true none, rfl, trivial, List.nil_sublist _⟩

variable {s' : State Tid Node Key}

/-- The effect of a step and the place it leads to, as one move. -/
theorem Goes.moves {t : Tid} {s₁ : State Tid Node Key} {pc : Pc Node Key}
    (goes : Goes c s₁ t pc.tasks s') (e : Effect c s pc.tasks s₁) :
    ∃ s₁ pc', s' = s₁.goto t pc' ∧ Moves c s s₁ pc pc' := by
  obtain ⟨pc', rfl, hok, hsub⟩ := goes
  exact ⟨s₁, pc', rfl, e, hok, .keep hsub⟩

theorem findStep_moves {t : Tid} (heap : HeapInv c s) {curr : Node}
    (hpc : s.pc t = .findCurr f curr) (hok : PcOk c s (.findCurr f curr))
    (hstep : nextStep c s t = some s') :
    ∃ s₁ pc', s' = s₁.goto t pc' ∧ Moves c s s₁ (.findCurr f curr) pc' := by
  obtain ⟨hfind, hlinked, notHead⟩ := hok
  obtain ⟨succ, marked, hnext⟩ : ∃ succ marked, s.next curr f.level = (succ, marked) :=
    ⟨_, _, rfl⟩
  cases marked with
  | true =>
    simp only [nextStep, hpc, hnext, Option.some.injEq] at hstep
    subst hstep
    exact ⟨s, _, rfl, .none, ⟨hfind, hlinked, notHead, hnext⟩, .keep (List.Sublist.refl _)⟩
  | false =>
    simp only [nextStep, hpc, hnext, if_neg notHead] at hstep
    split at hstep
    · rename_i hforward
      obtain ⟨m, hm, hmlinked, hmhead⟩ := heap.closed curr f.level hlinked hforward.1
      rw [hnext] at hm
      dsimp only at hm
      subst hm
      cases hstep
      refine ⟨s, _, rfl, .none, ⟨?_, hmlinked, hmhead⟩, .keep (List.Sublist.refl _)⟩
      exact ⟨hfind.level, hlinked, hforward.1, hfind.above, hfind.caller⟩
    · cases hstep
      exact (findDown_goes heap.toLinksInv t hfind hlinked notHead).moves .none

theorem nextStep_moves {t : Tid} (heap : HeapInv c s) (hok : PcOk c s (s.pc t))
    (hadded : ∀ node, Task.add node ∈ (s.pc t).tasks → s.added node = true)
    (hstep : nextStep c s t = some s') :
    ∃ s₁ pc', s' = s₁.goto t pc' ∧ Moves c s s₁ (s.pc t) pc' := by
  have links := heap.toLinksInv
  cases hpc : s.pc t with
  | idle | failed message => simp [nextStep, hpc] at hstep
  | addInit key node height =>
    rw [hpc] at hok
    obtain ⟨_, h1, h2, h3, h4, hun⟩ := hok
    simp only [nextStep, hpc, if_pos h4, Option.some.injEq] at hstep
    subst hstep
    have e : Effect c s (Pc.addInit key node height).tasks { s with
        height := update s.height node height
        nonSnippedLevel := update s.nonSnippedLevel node height } :=
      .init node height (by simp [Pc.tasks]) hun h4
    apply Goes.moves _ e
    apply find_goes (e.heapInv heap).toLinksInv t (.add node height)
    exact ⟨update_self _ _ _, h3, h1, h2, by simp [hun]⟩
  | findLevel f =>
    rw [hpc] at hok
    have hlt := heap.height f.pred f.level hok.pred
    obtain ⟨m, hm, hmlinked, hmhead⟩ := heap.closed f.pred f.level hok.pred hok.notTail
    simp only [nextStep, hpc, if_pos hlt, hm, Option.some.injEq] at hstep
    subst hstep
    exact ⟨s, _, rfl, .none, ⟨hok, hmlinked, hmhead⟩, .keep (List.Sublist.refl _)⟩
  | findCurr f curr =>
    rw [hpc] at hok
    exact findStep_moves heap hpc hok hstep
  | findSnip f curr succ =>
    rw [hpc] at hok
    obtain ⟨hfind, hlinked, notHead, hnext⟩ := hok
    simp only [nextStep, hpc] at hstep
    split at hstep <;> cases hstep
    · rename_i hold
      have e : Effect c s (Pc.findSnip f curr succ : Pc Node Key).tasks { s with
          next := set2 s.next f.pred f.level (succ, false)
          snipped := set2 s.snipped curr f.level true } :=
        .snip f.pred curr succ f.level hfind.level hfind.pred hfind.notTail hlinked hold hnext
      have hfresh := links.not_snipped hfind.level hfind.pred hfind.notTail hold
      refine ⟨_, .findDec f curr, rfl, e, ⟨hfind.congr rfl rfl, by simp, ?_⟩,
        .snipped curr f.level rfl hfresh⟩
      by_contra hcounted
      rw [heap.counted curr f.level (by simpa using hcounted)] at hfresh
      cases hfresh
    · exact (retry_goes links t hfind.caller).moves .none
  | findDec f curr =>
    rw [hpc] at hok
    obtain ⟨hfind, hsnipped, huncounted⟩ := hok
    have hpos := heap.pos_of_uncounted hsnipped huncounted
    have hne : s.nonSnippedLevel curr ≠ 0 := by omega
    have hlinked := heap.frozen curr f.level hsnipped
    have e : Effect c s (Pc.findDec f curr : Pc Node Key).tasks { s with
        nonSnippedLevel :=
          update s.nonSnippedLevel curr (wsub 64 (s.nonSnippedLevel curr) 1)
        counted := set2 s.counted curr f.level true } :=
      .count curr f.level (by simp [Pc.tasks]) hsnipped huncounted
    simp only [nextStep, hpc, if_neg hne] at hstep
    split at hstep
    · rename_i hone
      have notHead : curr ≠ c.head := by
        rintro rfl
        rw [(heap.sentinels f.level).1] at hlinked
        cases hlinked.2
      have notTail : curr ≠ c.tail := by
        rintro rfl
        rw [(heap.sentinels f.level).2] at hlinked
        cases hlinked.2
      rw [if_neg notHead, if_neg notTail] at hstep
      cases hstep
      exact ⟨_, .findRetire f curr, rfl, e,
        ⟨hfind.congr rfl rfl, heap.all_counted hsnipped huncounted hone⟩,
        .last curr f.level f.caller.tasks rfl rfl huncounted⟩
    · cases hstep
      exact ⟨_, .findReload f, rfl, e, hfind.congr rfl rfl,
        .keep (List.sublist_cons_self _ _)⟩
  | findRetire f curr =>
    rw [hpc] at hok
    obtain ⟨hfind, hfirst, hpos, hall⟩ := hok
    simp only [nextStep, hpc, Option.some.injEq] at hstep
    subst hstep
    exact ⟨_, .findReload f, rfl, .hand curr (by simp [Pc.tasks]) hfirst hpos hall,
      hfind.congr rfl rfl, .keep (List.sublist_cons_self _ _)⟩
  | findReload f =>
    rw [hpc] at hok
    obtain ⟨m, hm, hmlinked, hmhead⟩ := heap.closed f.pred f.level hok.pred hok.notTail
    simp only [nextStep, hpc, hm, Option.some.injEq] at hstep
    subst hstep
    exact ⟨s, _, rfl, .none, ⟨hok, hmlinked, hmhead⟩, .keep (List.Sublist.refl _)⟩
  | addSet a level =>
    rw [hpc] at hok
    obtain ⟨hadding, hlevel, hset⟩ := hok
    have hun : s.linked a.node level = false := by simpa using hadding.node.iff level
    have e : Effect c s (Pc.addSet a level : Pc Node Key).tasks { s with
        next := set2 s.next a.node level (some (a.succs level), false) } :=
      .write a.node level _ (by simp [Pc.tasks]) hadding.node.notHead hadding.node.notTail hun
    have hbottom : (set2 s.next a.node level (some (a.succs level), false) a.node 0).1 =
        some (a.succs 0) := by
      by_cases hzero : level = 0
      · subst hzero
        rw [set2_self]
      · rw [set2_of_ne s.next _ (Or.inr (Ne.symm hzero))]
        exact hset (Nat.pos_of_ne_zero hzero)
    simp only [nextStep, hpc] at hstep
    split at hstep <;> cases hstep
    · rename_i hnext
      exact ⟨_, .addSet a (level + 1), rfl, e,
        ⟨hadding.congr rfl rfl, hnext, fun _ => hbottom⟩, .keep (List.Sublist.refl _)⟩
    · exact ⟨_, .addLink a, rfl, e, ⟨hadding.congr rfl rfl, hbottom⟩,
        .keep (List.Sublist.refl _)⟩
  | addLink a =>
    rw [hpc] at hok
    obtain ⟨hadding, hready⟩ := hok
    simp only [nextStep, hpc] at hstep
    split at hstep <;> cases hstep
    · rename_i hold
      have hknown := hadded a.node (by simp [hpc, Pc.tasks])
      exact (linkNext_goes t hadding).moves (.link a.node (a.preds 0) (a.succs 0) a.height 0
        (by simp [Pc.tasks]) hadding.node (hadding.around 0 (Nat.zero_le _)) hold hready
        hknown)
    · exact Goes.moves (find_goes links t (.add a.node a.height) hadding.node) .none
  | linkRead a level =>
    rw [hpc] at hok
    simp only [nextStep, hpc] at hstep
    split at hstep <;> cases hstep
    · rename_i hready
      exact ⟨s, .linkCas a level, rfl, .none, ⟨hok, hready⟩, .keep (List.Sublist.refl _)⟩
    · exact ⟨s, _, rfl, .none, hok, .keep (List.Sublist.refl _)⟩
  | linkSet a level curSucc mark =>
    rw [hpc] at hok
    have hadding : AddingOk c s a level := hok
    have hun : s.linked a.node level = false := by simpa using hadding.node.iff level
    simp only [nextStep, hpc] at hstep
    split at hstep <;> cases hstep
    · exact ⟨_, .linkCas a level, rfl,
        .write a.node level _ (by simp [Pc.tasks]) hadding.node.notHead hadding.node.notTail
          hun,
        ⟨hadding.congr rfl rfl, by simp⟩, .keep (List.Sublist.refl _)⟩
    · exact ⟨s, .linkRead a level, rfl, .none, hadding, .keep (List.Sublist.refl _)⟩
  | linkCas a level =>
    rw [hpc] at hok
    obtain ⟨hadding, hready⟩ := hok
    have hlevel : level ≤ c.topLevel := by
      have h1 := heap.bound a.node
      have h2 := hadding.node.lt
      have h3 := hadding.node.heightEq
      omega
    simp only [nextStep, hpc] at hstep
    split at hstep <;> cases hstep
    · rename_i hold
      have hknown := hadded a.node (by simp [hpc, Pc.tasks])
      exact (linkNext_goes t hadding).moves (.link a.node (a.preds level) (a.succs level)
        a.height level (by simp [Pc.tasks]) hadding.node (hadding.around level hlevel) hold
        hready hknown)
    · exact Goes.moves (find_goes links t (.link a.node a.height level)
        hadding.node) .none
  | markRead key node level =>
    rw [hpc] at hok
    simp only [nextStep, hpc] at hstep
    split at hstep <;> cases hstep
    · exact Goes.moves (marked_goes links t hok false) .none
    · exact ⟨s, _, rfl, .none, hok, .keep (List.Sublist.refl _)⟩
  | markCas key node level succ =>
    rw [hpc] at hok
    have hnode : Removable c s node level := hok
    simp only [nextStep, hpc] at hstep
    split at hstep <;> cases hstep
    · rename_i hold
      have e : Effect c s (Pc.markCas key node level succ).tasks { s with
          next := set2 s.next node level (succ, true) } :=
        .mark node level succ hnode.notHead hnode.notTail hold
      apply Goes.moves _ e
      apply marked_goes (e.heapInv heap).toLinksInv t
      exact ⟨hnode.bottom, hnode.notHead, hnode.notTail, hnode.lt⟩
    · exact ⟨s, _, rfl, .none, hok, .keep (List.Sublist.refl _)⟩
  | lookupLevel key acceptNext pred level =>
    rw [hpc] at hok
    obtain ⟨hlevel, hlinked, notTail⟩ := hok
    obtain ⟨m, hm, hmlinked, hmhead⟩ := heap.closed pred level hlinked notTail
    simp only [nextStep, hpc, hm, Option.some.injEq] at hstep
    subst hstep
    exact ⟨s, _, rfl, .none, ⟨hlevel, hlinked, notTail, hmlinked, hmhead⟩,
      .keep (List.Sublist.refl _)⟩
  | lookupCurr key acceptNext pred level curr =>
    rw [hpc] at hok
    obtain ⟨hlevel, hlinked, notTail, hcurr, notHead⟩ := hok
    obtain ⟨succ, marked, hnext⟩ : ∃ succ marked, s.next curr level = (succ, marked) :=
      ⟨_, _, rfl⟩
    cases marked with
    | true =>
      have hne : curr ≠ c.tail := by
        rintro rfl
        rw [(heap.sentinels level).2] at hnext
        cases hnext
      simp only [nextStep, hpc, hnext, Option.some.injEq] at hstep
      subst hstep
      exact ⟨s, _, rfl, .none, ⟨hlevel, hlinked, notTail, hcurr, hne⟩,
        .keep (List.Sublist.refl _)⟩
    | false =>
      simp only [nextStep, hpc, hnext, if_neg notHead] at hstep
      split at hstep
      · rename_i hforward
        obtain ⟨m, hm, hmlinked, hmhead⟩ := heap.closed curr level hcurr hforward.1
        rw [hnext] at hm
        dsimp only at hm
        subst hm
        cases hstep
        exact ⟨s, _, rfl, .none, ⟨hlevel, hcurr, hforward.1, hmlinked, hmhead⟩,
          .keep (List.Sublist.refl _)⟩
      · split at hstep <;> cases hstep
        · exact ⟨s, _, rfl, .none, trivial, .keep (List.Sublist.refl _)⟩
        · exact ⟨s, _, rfl, .none,
            ⟨(Nat.sub_le _ _).trans hlevel, heap.down pred level _ hlinked (Nat.sub_le _ _),
              notTail⟩, .keep (List.Sublist.refl _)⟩
  | lookupSkip key acceptNext pred level curr =>
    rw [hpc] at hok
    obtain ⟨hlevel, hlinked, notTail, hcurr, hne⟩ := hok
    obtain ⟨m, hm, hmlinked, hmhead⟩ := heap.closed curr level hcurr hne
    simp only [nextStep, hpc, hm, Option.some.injEq] at hstep
    subst hstep
    exact ⟨s, _, rfl, .none, ⟨hlevel, hlinked, notTail, hmlinked, hmhead⟩,
      .keep (List.Sublist.refl _)⟩
  | addRet ok outNode | removeRet ok | lookupRet result =>
    simp only [nextStep, hpc, Option.some.injEq] at hstep
    subst hstep
    exact ⟨s, .idle, rfl, .none, trivial, .keep (List.Sublist.refl _)⟩

theorem beginCall_moves {t : Tid} {a : Act Tid Node Key} (heap : HeapInv c s)
    (hidle : s.pc t = .idle) (hstep : beginCall c s t a = some s') :
    ∃ s₁ pc', s' = s₁.goto t pc' ∧ Moves c s s₁ (s.pc t) pc' := by
  have links := heap.toLinksInv
  have hhead := (heap.ends c.topLevel (Nat.le_refl _)).1
  rw [hidle]
  cases a with
  | add u key node height =>
    simp only [beginCall] at hstep
    split at hstep <;> cases hstep
    rename_i hcan
    obtain ⟨hfresh, notHead, notTail, hpos, hfits⟩ := hcan
    have hun (l : Nat) : s.linked node l = false := by
      by_contra hlinked
      rcases heap.known node l (by simpa using hlinked) with hadded | hend | hend
      · rw [hfresh] at hadded
        cases hadded
      · exact notHead hend
      · exact notTail hend
    exact ⟨_, .addInit key node height, rfl, .add node hfresh,
      ⟨update_self _ _ _, notHead, notTail, hpos, hfits, hun⟩,
      .start node rfl rfl hfresh (update_self _ _ _)⟩
  | remove u key =>
    simp only [beginCall, Option.some.injEq] at hstep
    subst hstep
    exact Goes.moves (find_goes links t (.remove none) trivial) .none
  | removeNode u key node =>
    simp only [beginCall, Option.some.injEq] at hstep
    subst hstep
    exact Goes.moves (find_goes links t (.remove (some node)) trivial) .none
  | lookup u key | lookupNext u key =>
    simp only [beginCall, Option.some.injEq] at hstep
    subst hstep
    exact ⟨s, _, rfl, .none, ⟨Nat.le_refl _, hhead, c.distinct⟩,
      .keep (List.Sublist.refl _)⟩
  | step u => simp [beginCall] at hstep

end Step

section Run

variable [DecidableEq Tid] {c : Config Node Key} {s : State Tid Node Key}

theorem Moves.inv {t : Tid} {s₁ : State Tid Node Key} {pc' : Pc Node Key}
    (m : Moves c s s₁ (s.pc t) pc') (h : Inv c s) : Inv c (s₁.goto t pc') := by
  have hself : (s₁.goto t pc').pc t = pc' := update_self _ _ _
  have hothers (u : Tid) (hu : u ≠ t) : (s₁.goto t pc').pc u = s.pc u := by
    simp only [State.goto, update_of_ne hu, m.effect.pc_eq]
  constructor
  · exact { m.effect.heapInv h.heap with }
  · intro u
    by_cases hu : u = t
    · subst hu
      rw [hself]
      exact m.ok.goto u pc'
    · rw [hothers u hu]
      apply PcOk.goto
      apply (h.pc u).frame h.heap m.effect
      intro x hx hmine
      exact hu (h.tasks.unique u t x hx hmine)
  · apply m.tasks.apart h
    · intro u hu
      rw [hothers u hu]
    · rw [hself]
  · intro u node hmem
    by_cases hu : u = t
    · subst hu
      rw [hself] at hmem
      cases m.tasks with
      | keep sub => exact m.effect.added_mono (h.added u node (sub.subset hmem))
      | start n none one fresh known =>
        rw [one] at hmem
        simp only [List.mem_singleton, Task.add.injEq] at hmem
        subst hmem
        exact known
      | snipped n l more fresh =>
        rw [more] at hmem
        have hold : Task.add node ∈ (s.pc u).tasks := by simpa using hmem
        exact m.effect.added_mono (h.added u node hold)
      | last n l rest was now fresh =>
        rw [now] at hmem
        have hold : Task.add node ∈ (s.pc u).tasks := by
          rw [was]
          simpa using hmem
        exact m.effect.added_mono (h.added u node hold)
    · rw [hothers u hu] at hmem
      exact m.effect.added_mono (h.added u node hmem)

theorem step_inv {s' : State Tid Node Key} {a : Act Tid Node Key} (h : Inv c s)
    (hstep : step c s a = some s') : Inv c s' := by
  cases a with
  | step t =>
    obtain ⟨s₁, pc', rfl, hmoves⟩ := nextStep_moves h.heap (h.pc t) (h.added t) hstep
    exact hmoves.inv h
  | _ =>
    simp only [step] at hstep
    split at hstep
    · rename_i hidle
      obtain ⟨s₁, pc', rfl, hmoves⟩ := beginCall_moves h.heap hidle hstep
      exact hmoves.inv h
    · cases hstep

/-- The retire discipline, for any threads, heights and interleaving: a node is
handed to `fun_retire` at most once; when it is, and ever after, it has been
linked and snipped at each of its levels and is reachable from head on no
level; and no assertion fails. -/
theorem retire_discipline {past : List (State Tid Node Key × Act Tid Node Key)}
    (run : (machine Tid c).Run past s) :
    s.handed.Nodup ∧
    (∀ t f n, s.pc t = .findRetire f n → n ∉ s.handed) ∧
    (∀ n, n ∈ s.handed ∨ (∃ t f, s.pc t = .findRetire f n) →
      0 < s.height n ∧
      (∀ l < s.height n, s.linked n l = true ∧ s.snipped n l = true) ∧
      ∀ l ≤ c.topLevel, ¬ Reaches (s.level l) c.head n) ∧
    ∀ t message, s.pc t ≠ .failed message := by
  have h : Inv c s := by
    apply run.invariant
    · rintro s rfl
      exact vskiplistInit_inv c
    · intro s a s' h hstep
      exact step_inv h hstep
  refine ⟨h.heap.once, ?_, ?_, ?_⟩
  · intro t f n hpc
    have hok := h.pc t
    rw [hpc] at hok
    exact hok.2.1
  · intro n hn
    have hall : 0 < s.height n ∧ ∀ l < s.height n, s.counted n l = true := by
      rcases hn with hhanded | ⟨t, f, hpc⟩
      · exact h.heap.handed n hhanded
      · have hok := h.pc t
        rw [hpc] at hok
        exact hok.2.2
    refine ⟨hall.1, ?_, ?_⟩
    · intro l hl
      have hsnipped := h.heap.counted n l (hall.2 l hl)
      exact ⟨(h.heap.frozen n l hsnipped).1, hsnipped⟩
    · intro l hl
      exact h.heap.unreachable hall.2 hl
  · intro t message hpc
    have hok := h.pc t
    rw [hpc] at hok
    exact hok

/-- Two levels, with nodes and keys compared as numbers. -/
def twoLevels : Config Nat Nat where
  head := 0
  tail := 1
  distinct := by decide
  funCmp n k := (n : Int) - k
  topLevel := 1
  fits := by decide

/-- Node 5 is added at both levels and removed, up to the call of `fun_retire`. -/
def addThenRemove : List (Act Unit Nat Nat) :=
  List.flatten [
    .add () 5 5 2 :: List.replicate 11 (.step ()),
    .remove () 5 :: List.replicate 19 (.step ())]

theorem retire_discipline_two_levels :
    ∃ past s, (machine Unit twoLevels).Run past s ∧ s.handed = [5] ∧ s.height 5 = 2 ∧
      (∀ l < 2, s.linked 5 l = true ∧ s.snipped 5 l = true) ∧
      ¬ Reaches (s.level 0) 0 5 ∧ ¬ Reaches (s.level 1) 0 5 := by
  let M := machine Unit twoLevels
  have hend : (M.exec (vskiplistInit twoLevels) addThenRemove).map
      (fun s => (s.handed, s.height 5)) = some ([5], 2) := by
    decide +kernel
  obtain ⟨s, hexec, hs⟩ := Option.map_eq_some_iff.mp hend
  obtain ⟨hhanded, hheight⟩ := Prod.mk.inj hs
  obtain ⟨past, run⟩ : ∃ past, M.Run past s := ⟨_, (Machine.Run.start rfl).exec hexec⟩
  obtain ⟨_, _, hretired, _⟩ := retire_discipline run
  obtain ⟨_, hlevels, hoff⟩ := hretired 5 (Or.inl (by simp [hhanded]))
  rw [hheight] at hlevels
  exact ⟨past, s, run, hhanded, hheight, hlevels, hoff 0 (by decide), hoff 1 (by decide)⟩

end Run

end Libvsync.Map.Skiplist
