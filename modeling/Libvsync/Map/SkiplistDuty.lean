import Libvsync.Core.Duty
import Libvsync.Map.SkiplistRetire

/-!
What the calls of the skiplist leave done. A node that is linked at the bottom gets linked on all
its levels, a node that is marked on some level gets marked on all of them, every snip is counted,
and a node whose levels are all counted is handed over: each by the thread that began it, before
its call returns.
-/

namespace Libvsync.Map.Skiplist

open Libvsync.Core Function

variable {Tid Node Key : Type} {c : Config Node Key} {s s' : State Tid Node Key} {t : Tid}

def State.isMarked (s : State Tid Node Key) (n : Node) (l : Nat) : Prop := (s.next n l).2 = true

theorem State.not_isMarked {s : State Tid Node Key} {n : Node} {l : Nat}
    (hunmarked : (s.next n l).2 = false) : ¬ s.isMarked n l := by
  rw [State.isMarked, hunmarked]
  exact Bool.false_ne_true

/-- The node that a removal is marking. -/
def Pc.marking : Pc Node Key → Option Node
  | .markRead _ node _ | .markCas _ node _ _ => some node
  | _ => none

/-- A node is marked from the top, so that it is marked above the level where its removal is. -/
def Pc.MarkedAbove (s : State Tid Node Key) : Pc Node Key → Prop
  | .markRead _ node level | .markCas _ node level _ =>
    ∀ k, level < k → k < s.height node → s.isMarked node k
  | _ => True

/-- A step that writes nothing: a thread gives up no work. -/
structure Keeps (s : State Tid Node Key) (pc pc' : Pc Node Key) : Prop where
  counts : ∀ n l, Task.count n l ∉ pc.tasks
  hands : ∀ n, Task.hand n ∉ pc.tasks
  adds : ∀ n, Task.add n ∈ pc.tasks → Task.add n ∈ pc'.tasks ∨ s.linked n 0 = false
  marks : ∀ n, pc.marking = some n → pc'.marking = some n ∨ s.isMarked n 0
  above : pc.MarkedAbove s → pc'.MarkedAbove s

section Keeps

variable {pc pc' : Pc Node Key}

theorem Caller.count_not_mem (caller : Caller Node) (n : Node) (l : Nat) :
    Task.count n l ∉ caller.tasks := by
  intro hmem
  obtain ⟨node, hnode⟩ := Caller.mem_tasks hmem
  cases hnode

theorem Caller.hand_not_mem (caller : Caller Node) (n : Node) :
    Task.hand n ∉ caller.tasks := by
  intro hmem
  obtain ⟨node, hnode⟩ := Caller.mem_tasks hmem
  cases hnode

theorem Pc.markedAbove_of_none (h : pc.marking = none) : pc.MarkedAbove s := by
  cases pc with
  | markRead key node level | markCas key node level succ => cases h
  | _ => trivial

/-- A thread that adds or searches goes on. -/
theorem Keeps.of_caller (caller : Caller Node) (htasks : pc.tasks = caller.tasks)
    (hmarking : pc.marking = none)
    (hadds : ∀ n, Task.add n ∈ caller.tasks → Task.add n ∈ pc'.tasks ∨ s.linked n 0 = false)
    (habove : pc'.MarkedAbove s) : Keeps s pc pc' where
  counts n l := htasks ▸ caller.count_not_mem n l
  hands n := htasks ▸ caller.hand_not_mem n
  adds n hn := hadds n (htasks ▸ hn)
  marks n hn := by
    rw [hmarking] at hn
    cases hn
  above _ := habove

theorem Keeps.of_nothing (htasks : pc.tasks = []) (hmarking : pc.marking = none)
    (habove : pc'.MarkedAbove s) : Keeps s pc pc' where
  counts n l := by simp [htasks]
  hands n := by simp [htasks]
  adds n hn := by simp [htasks] at hn
  marks n hn := by
    rw [hmarking] at hn
    cases hn
  above _ := habove

theorem Keeps.of_marking (htasks : pc.tasks = [])
    (hmarks : ∀ n, pc.marking = some n → pc'.marking = some n ∨ s.isMarked n 0)
    (habove : pc.MarkedAbove s → pc'.MarkedAbove s) : Keeps s pc pc' where
  counts n l := by simp [htasks]
  hands n := by simp [htasks]
  adds n hn := by simp [htasks] at hn
  marks := hmarks
  above := habove

end Keeps

variable [DecidableEq Node]

/-- What a step of thread `t` writes, and where it leads. -/
inductive Writes (c : Config Node Key) (s : State Tid Node Key) (t : Tid) :
    State Tid Node Key → Pc Node Key → Prop
  | walk (pc' : Pc Node Key) (keeps : Keeps s (s.pc t) pc') : Writes c s t s pc'
  | begin (key : Key) (node : Node) (height : Nat) (idle : s.pc t = .idle) :
      Writes c s t { s with added := update s.added node true }
        (.addInit key node height)
  | init (key : Key) (node : Node) (height : Nat) (f : Find Node Key)
      (place : s.pc t = .addInit key node height) (caller : f.caller = .add node height) :
      Writes c s t { s with
        height := update s.height node height
        nonSnippedLevel := update s.nonSnippedLevel node height } (.findLevel f)
  | snip (f : Find Node Key) (curr : Node) (succ : Option Node)
      (place : s.pc t = .findSnip f curr succ)
      (old : s.next f.pred f.level = (some curr, false)) :
      Writes c s t { s with
        next := set2 s.next f.pred f.level (succ, false)
        snipped := set2 s.snipped curr f.level true } (.findDec f curr)
  | count (f : Find Node Key) (curr : Node) (pc' : Pc Node Key)
      (place : s.pc t = .findDec f curr)
      (goes : s.nonSnippedLevel curr = 1 ∧ pc' = .findRetire f curr ∨
        s.nonSnippedLevel curr ≠ 1 ∧ pc' = .findReload f) :
      Writes c s t { s with
        nonSnippedLevel :=
          update s.nonSnippedLevel curr (wsub 64 (s.nonSnippedLevel curr) 1)
        counted := set2 s.counted curr f.level true } pc'
  | hand (f : Find Node Key) (curr : Node) (place : s.pc t = .findRetire f curr) :
      Writes c s t { s with handed := curr :: s.handed } (.findReload f)
  | set (a : Adding Node Key) (level : Nat) (pc' : Pc Node Key)
      (place : s.pc t = .addSet a level)
      (goes : pc' = .addSet a (level + 1) ∨ pc' = .addLink a) :
      Writes c s t { s with next := set2 s.next a.node level (some (a.succs level), false) } pc'
  | reset (a : Adding Node Key) (level : Nat) (curSucc : Option Node) (mark : Bool)
      (place : s.pc t = .linkSet a level curSucc mark)
      (old : s.next a.node level = (curSucc, mark)) :
      Writes c s t { s with next := set2 s.next a.node level (some (a.succs level), mark) }
        (.linkCas a level)
  | link (a : Adding Node Key) (level : Nat) (pc' : Pc Node Key)
      (place : s.pc t = .addLink a ∧ level = 0 ∨ s.pc t = .linkCas a level)
      (old : s.next (a.preds level) level = (some (a.succs level), false))
      (goes : level + 1 < a.height ∧ pc' = .linkRead a (level + 1) ∨
        a.height ≤ level + 1 ∧ pc' = .addRet true none) :
      Writes c s t { s with
        next := set2 s.next (a.preds level) level (some a.node, false)
        linked := set2 s.linked a.node level true } pc'
  | mark (key : Key) (node : Node) (level : Nat) (succ : Option Node) (pc' : Pc Node Key)
      (place : s.pc t = .markCas key node level succ) (old : s.next node level = (succ, false))
      (goes : level = 0 ∧ pc'.marking = none ∨
        ∃ below, level = below + 1 ∧ pc' = .markRead key node below) :
      Writes c s t { s with next := set2 s.next node level (succ, true) } pc'

section Places

variable [DecidableEq Tid]

omit [DecidableEq Node] in
@[simp] theorem goto_pc (s : State Tid Node Key) (t : Tid) (pc : Pc Node Key) :
    (s.goto t pc).pc t = pc :=
  update_self ..

variable {f : Find Node Key} {a : Adding Node Key} {key : Key} {node curr : Node} {level : Nat}

section

omit [DecidableEq Node]

theorem retry_eq (hsafe : ∀ message, (s.retry c t f).pc t ≠ .failed message) :
    s.retry c t f = s.goto t (.findLevel { f with pred := c.head, level := c.topLevel }) := by
  unfold State.retry at hsafe ⊢
  split at hsafe
  · exact absurd (goto_pc ..) (hsafe _)
  · rename_i hheight
    exact if_neg hheight

theorem find_eq {specific : Option Node} {caller : Caller Node}
    (hsafe : ∀ message, (s.find c t key specific caller).pc t ≠ .failed message) :
    s.find c t key specific caller = s.goto t (.findLevel
      { key := key, specific := specific, caller := caller, pred := c.head, level := c.topLevel
        preds := fun _ => c.head, succs := fun _ => c.head }) :=
  retry_eq hsafe

theorem removeNode_eq (hsafe : ∀ message, (s.removeNode t key node).pc t ≠ .failed message) :
    s.height node ≠ 0 ∧
      s.removeNode t key node = s.goto t (.markRead key node (s.height node - 1)) := by
  unfold State.removeNode at hsafe ⊢
  split at hsafe
  · exact absurd (goto_pc ..) (hsafe _)
  · rename_i hheight
    exact ⟨hheight, if_neg hheight⟩

theorem marked_keeps {i : Bool}
    (hsafe : ∀ message, (s.marked c t key node level i).pc t ≠ .failed message) :
    ∃ pc', s.marked c t key node level i = s.goto t pc' ∧
      (level = 0 ∧ pc'.marking = none ∨
        ∃ below, level = below + 1 ∧ pc' = .markRead key node below) := by
  unfold State.marked at hsafe ⊢
  cases level with
  | zero =>
    cases i with
    | true => exact ⟨_, find_eq hsafe, .inl ⟨rfl, rfl⟩⟩
    | false => exact ⟨_, rfl, .inl ⟨rfl, rfl⟩⟩
  | succ below => exact ⟨_, rfl, .inr ⟨below, rfl, rfl⟩⟩

theorem linkNext_keeps (s : State Tid Node Key) (t : Tid) (a : Adding Node Key) (level : Nat) :
    ∃ pc', s.linkNext t a level = s.goto t pc' ∧
      (level < a.height ∧ pc' = .linkRead a level ∨
        a.height ≤ level ∧ pc' = .addRet true none) := by
  unfold State.linkNext
  split
  · rename_i hlt
    exact ⟨_, rfl, .inl ⟨hlt, rfl⟩⟩
  · rename_i hnot
    exact ⟨_, rfl, .inr ⟨Nat.le_of_not_lt hnot, rfl⟩⟩

end

theorem findReturn_keeps (hcaller : CallerOk c s f.caller)
    (hsafe : ∀ message, (s.findReturn c t f curr).pc t ≠ .failed message) :
    ∃ pc', s.findReturn c t f curr = s.goto t pc' ∧ pc'.MarkedAbove s ∧
      ∀ n, Task.add n ∈ f.caller.tasks → Task.add n ∈ pc'.tasks ∨ s.linked n 0 = false := by
  unfold State.findReturn at hsafe ⊢
  cases hf : f.caller with
  | add node height =>
    rw [hf] at hcaller
    have hun : s.linked node 0 = false := by simpa using hcaller.iff 0
    dsimp only
    split
    · refine ⟨_, rfl, trivial, fun n hn => .inr ?_⟩
      rw [Task.add.inj (List.mem_singleton.mp hn)]
      exact hun
    · exact ⟨_, rfl, trivial, fun n hn => .inl hn⟩
  | link node height level => exact ⟨_, rfl, trivial, fun n hn => .inl hn⟩
  | remove expected =>
    rw [hf] at hsafe
    dsimp only at hsafe ⊢
    split at hsafe
    · rename_i hfound
      rw [if_pos hfound]
      obtain ⟨_, heq⟩ := removeNode_eq hsafe
      refine ⟨_, heq, fun k hk hlt => ?_, fun n hn => absurd hn List.not_mem_nil⟩
      omega
    · rename_i hnot
      rw [if_neg hnot]
      exact ⟨_, rfl, trivial, fun n hn => absurd hn List.not_mem_nil⟩
  | detach => exact ⟨_, rfl, trivial, fun n hn => absurd hn List.not_mem_nil⟩

theorem findDown_keeps (hcaller : CallerOk c s f.caller)
    (hsafe : ∀ message, (s.findDown c t f curr).pc t ≠ .failed message) :
    ∃ pc', s.findDown c t f curr = s.goto t pc' ∧ pc'.MarkedAbove s ∧
      ∀ n, Task.add n ∈ f.caller.tasks → Task.add n ∈ pc'.tasks ∨ s.linked n 0 = false := by
  unfold State.findDown at hsafe ⊢
  dsimp only at hsafe ⊢
  split at hsafe
  · rename_i hzero
    rw [if_pos hzero]
    exact findReturn_keeps hcaller hsafe
  · rename_i hpos
    rw [if_neg hpos]
    exact ⟨_, rfl, trivial, fun n hn => .inl hn⟩

end Places

section Step

variable [DecidableEq Tid]

/-- A step that writes nothing. -/
theorem Keeps.writes {pc pc' : Pc Node Key} (hpc : s.pc t = pc) (h : Keeps s pc pc') :
    ∃ s₁ pc₁, s.goto t pc' = s₁.goto t pc₁ ∧ Writes c s t s₁ pc₁ :=
  ⟨s, pc', rfl, .walk pc' (hpc ▸ h)⟩

theorem findStep_writes {f : Find Node Key} {curr : Node} (hpc : s.pc t = .findCurr f curr)
    (hcaller : CallerOk c s f.caller) (hstep : nextStep c s t = some s')
    (hsafe : ∀ message, s'.pc t ≠ .failed message) :
    ∃ s₁ pc', s' = s₁.goto t pc' ∧ Writes c s t s₁ pc' := by
  have hkeeps {pc' : Pc Node Key} (habove : pc'.MarkedAbove s)
      (hadds : ∀ n, Task.add n ∈ f.caller.tasks →
        Task.add n ∈ pc'.tasks ∨ s.linked n 0 = false) : Keeps s (.findCurr f curr) pc' :=
    .of_caller f.caller rfl rfl hadds habove
  obtain ⟨succ, marked, hnext⟩ : ∃ succ marked, s.next curr f.level = (succ, marked) :=
    ⟨_, _, rfl⟩
  cases marked with
  | true =>
    simp only [nextStep, hpc, hnext, Option.some.injEq] at hstep
    subst hstep
    exact Keeps.writes hpc (hkeeps trivial fun n hn => .inl hn)
  | false =>
    simp only [nextStep, hpc, hnext] at hstep
    split at hstep
    · cases hstep
      exact absurd (goto_pc ..) (hsafe _)
    · split at hstep
      · cases succ with
        | none =>
          cases hstep
          exact absurd (goto_pc ..) (hsafe _)
        | some succ =>
          cases hstep
          exact Keeps.writes hpc (hkeeps trivial fun n hn => .inl hn)
      · cases hstep
        obtain ⟨pc', heq, habove, hadds⟩ := findDown_keeps hcaller hsafe
        rw [heq]
        exact (hkeeps habove hadds).writes hpc

/-- Every step of a call writes in one of these ways. -/
theorem nextStep_writes (hok : PcOk c s (s.pc t)) (hstep : nextStep c s t = some s')
    (hsafe : ∀ message, s'.pc t ≠ .failed message) :
    ∃ s₁ pc', s' = s₁.goto t pc' ∧ Writes c s t s₁ pc' := by
  cases hpc : s.pc t with
  | idle => simp [nextStep, hpc] at hstep
  | failed message => simp [nextStep, hpc] at hstep
  | addInit key node height =>
    simp only [nextStep, hpc] at hstep
    split at hstep <;> cases hstep
    · exact ⟨_, _, find_eq hsafe, .init key node height _ hpc rfl⟩
    · exact absurd (goto_pc ..) (hsafe _)
  | findLevel f =>
    simp only [nextStep, hpc] at hstep
    split at hstep
    · split at hstep <;> cases hstep
      · exact Keeps.writes hpc (.of_caller f.caller rfl rfl (fun n hn => .inl hn) trivial)
      · exact absurd (goto_pc ..) (hsafe _)
    · cases hstep
      exact absurd (goto_pc ..) (hsafe _)
  | findCurr f curr =>
    rw [hpc] at hok
    exact findStep_writes hpc hok.1.caller hstep hsafe
  | findSnip f curr succ =>
    simp only [nextStep, hpc] at hstep
    split at hstep <;> cases hstep
    · rename_i hold
      exact ⟨_, _, rfl, .snip f curr succ hpc hold⟩
    · rw [retry_eq hsafe]
      exact Keeps.writes hpc (.of_caller f.caller rfl rfl (fun n hn => .inl hn) trivial)
  | findDec f curr =>
    simp only [nextStep, hpc] at hstep
    split at hstep
    · cases hstep
      exact absurd (goto_pc ..) (hsafe _)
    · split at hstep
      · rename_i hone
        split at hstep
        · cases hstep
          exact absurd (goto_pc ..) (hsafe _)
        · split at hstep <;> cases hstep
          · exact absurd (goto_pc ..) (hsafe _)
          · exact ⟨_, _, rfl, .count f curr _ hpc (.inl ⟨hone, rfl⟩)⟩
      · rename_i hmany
        cases hstep
        exact ⟨_, _, rfl, .count f curr _ hpc (.inr ⟨hmany, rfl⟩)⟩
  | findRetire f curr =>
    simp only [nextStep, hpc, Option.some.injEq] at hstep
    subst hstep
    exact ⟨_, _, rfl, .hand f curr hpc⟩
  | findReload f =>
    simp only [nextStep, hpc] at hstep
    split at hstep <;> cases hstep
    · exact Keeps.writes hpc (.of_caller f.caller rfl rfl (fun n hn => .inl hn) trivial)
    · exact absurd (goto_pc ..) (hsafe _)
  | addSet a level =>
    simp only [nextStep, hpc] at hstep
    split at hstep <;> cases hstep
    · exact ⟨_, _, rfl, .set a level _ hpc (.inl rfl)⟩
    · exact ⟨_, _, rfl, .set a level _ hpc (.inr rfl)⟩
  | addLink a =>
    simp only [nextStep, hpc] at hstep
    split at hstep <;> cases hstep
    · rename_i hold
      obtain ⟨pc', heq, hgoes⟩ := linkNext_keeps { s with
        next := set2 s.next (a.preds 0) 0 (some a.node, false)
        linked := set2 s.linked a.node 0 true } t a 1
      exact ⟨_, pc', heq, .link a 0 pc' (.inl ⟨hpc, rfl⟩) hold hgoes⟩
    · rw [find_eq hsafe]
      exact Keeps.writes hpc
        (.of_caller (.add a.node a.height) rfl rfl (fun n hn => .inl hn) trivial)
  | linkRead a level =>
    have hkeeps (pc' : Pc Node Key) (htasks : pc'.tasks = [.add a.node])
        (habove : pc'.MarkedAbove s) : Keeps s (.linkRead a level) pc' :=
      .of_caller (.add a.node a.height) rfl rfl (fun n hn => .inl (htasks ▸ hn)) habove
    simp only [nextStep, hpc] at hstep
    split at hstep <;> cases hstep
    · exact Keeps.writes hpc (hkeeps _ rfl trivial)
    · exact Keeps.writes hpc (hkeeps _ rfl trivial)
  | linkSet a level curSucc mark =>
    simp only [nextStep, hpc] at hstep
    split at hstep <;> cases hstep
    · rename_i hold
      exact ⟨_, _, rfl, .reset a level curSucc mark hpc hold⟩
    · exact Keeps.writes hpc
        (.of_caller (.add a.node a.height) rfl rfl (fun n hn => .inl hn) trivial)
  | linkCas a level =>
    simp only [nextStep, hpc] at hstep
    split at hstep <;> cases hstep
    · rename_i hold
      obtain ⟨pc', heq, hgoes⟩ := linkNext_keeps { s with
        next := set2 s.next (a.preds level) level (some a.node, false)
        linked := set2 s.linked a.node level true } t a (level + 1)
      exact ⟨_, pc', heq, .link a level pc' (.inr hpc) hold hgoes⟩
    · rw [find_eq hsafe]
      exact Keeps.writes hpc
        (.of_caller (.link a.node a.height level) rfl rfl (fun n hn => .inl hn) trivial)
  | markRead key node level =>
    obtain ⟨succ, marked, hnext⟩ : ∃ succ marked, s.next node level = (succ, marked) :=
      ⟨_, _, rfl⟩
    cases marked with
    | true =>
      have hmarked : s.isMarked node level := by rw [State.isMarked, hnext]
      simp only [nextStep, hpc, hnext, Option.some.injEq] at hstep
      subst hstep
      obtain ⟨pc', heq, hgoes⟩ := marked_keeps hsafe
      rw [heq]
      refine Keeps.writes hpc (.of_marking rfl (fun n hn => ?_) fun habove => ?_)
      · rcases hgoes with ⟨rfl, hnone⟩ | ⟨below, rfl, rfl⟩
        · cases hn
          exact .inr hmarked
        · exact .inl hn
      · rcases hgoes with ⟨rfl, hnone⟩ | ⟨below, rfl, rfl⟩
        · exact Pc.markedAbove_of_none hnone
        · intro k hk hlt
          rcases Nat.eq_or_lt_of_le hk with rfl | hk
          · exact hmarked
          · exact habove k hk hlt
    | false =>
      simp only [nextStep, hpc, hnext, Option.some.injEq] at hstep
      subst hstep
      exact Keeps.writes hpc (.of_marking rfl (fun n hn => .inl hn) id)
  | markCas key node level succ =>
    simp only [nextStep, hpc] at hstep
    split at hstep <;> cases hstep
    · rename_i hold
      obtain ⟨pc', heq, hgoes⟩ := marked_keeps hsafe
      exact ⟨_, pc', heq, .mark key node level succ pc' hpc hold hgoes⟩
    · exact Keeps.writes hpc (.of_marking rfl (fun n hn => .inl hn) id)
  | lookupLevel key acceptNext pred level =>
    have hkeeps (pc' : Pc Node Key) (habove : pc'.MarkedAbove s) :
        Keeps s (.lookupLevel key acceptNext pred level) pc' :=
      .of_nothing rfl rfl habove
    simp only [nextStep, hpc] at hstep
    split at hstep <;> cases hstep
    · exact Keeps.writes hpc (hkeeps _ trivial)
    · exact Keeps.writes hpc (hkeeps _ trivial)
  | lookupCurr key acceptNext pred level curr =>
    have hkeeps (pc' : Pc Node Key) (habove : pc'.MarkedAbove s) :
        Keeps s (.lookupCurr key acceptNext pred level curr) pc' :=
      .of_nothing rfl rfl habove
    simp only [nextStep, hpc] at hstep
    split at hstep
    · cases hstep
      exact Keeps.writes hpc (hkeeps _ trivial)
    · split at hstep
      · cases hstep
        exact Keeps.writes hpc (hkeeps _ trivial)
      · split at hstep
        · split at hstep <;> cases hstep
          · exact Keeps.writes hpc (hkeeps _ trivial)
          · exact Keeps.writes hpc (hkeeps _ trivial)
        · split at hstep <;> cases hstep
          · exact Keeps.writes hpc (hkeeps _ trivial)
          · exact Keeps.writes hpc (hkeeps _ trivial)
  | lookupSkip key acceptNext pred level curr =>
    have hkeeps (pc' : Pc Node Key) (habove : pc'.MarkedAbove s) :
        Keeps s (.lookupSkip key acceptNext pred level curr) pc' :=
      .of_nothing rfl rfl habove
    simp only [nextStep, hpc] at hstep
    split at hstep <;> cases hstep
    · exact Keeps.writes hpc (hkeeps _ trivial)
    · exact Keeps.writes hpc (hkeeps _ trivial)
  | addRet ok outNode | removeRet ok | lookupRet result =>
    simp only [nextStep, hpc, Option.some.injEq] at hstep
    subst hstep
    exact Keeps.writes hpc (.of_nothing rfl rfl trivial)

theorem beginCall_writes {a : Act Tid Node Key} (hidle : s.pc t = .idle)
    (hstep : beginCall c s t a = some s') (hsafe : ∀ message, s'.pc t ≠ .failed message) :
    ∃ s₁ pc', s' = s₁.goto t pc' ∧ Writes c s t s₁ pc' := by
  have hkeeps (pc' : Pc Node Key) (habove : pc'.MarkedAbove s) : Keeps s .idle pc' :=
    .of_nothing rfl rfl habove
  cases a with
  | add u key node height =>
    simp only [beginCall] at hstep
    split at hstep <;> cases hstep
    exact ⟨_, _, rfl, .begin key node height hidle⟩
  | remove u key | removeNode u key node =>
    simp only [beginCall, Option.some.injEq] at hstep
    subst hstep
    rw [find_eq hsafe]
    exact Keeps.writes hidle (hkeeps _ trivial)
  | lookup u key | lookupNext u key =>
    simp only [beginCall, Option.some.injEq] at hstep
    subst hstep
    exact Keeps.writes hidle (hkeeps _ trivial)
  | step u => simp [beginCall] at hstep

theorem step_safe {a : Act Tid Node Key} (h : Inv c s) (hstep : step c s a = some s')
    (message : String) : s'.pc a.thread ≠ .failed message := by
  intro hfailed
  have hok := (step_inv h hstep).pc a.thread
  rw [hfailed] at hok
  exact hok

theorem step_writes {a : Act Tid Node Key} (h : Inv c s) (hstep : step c s a = some s') :
    ∃ s₁ pc', s' = s₁.goto a.thread pc' ∧ Writes c s a.thread s₁ pc' := by
  have hsafe := step_safe h hstep
  cases a with
  | step t => exact nextStep_writes (h.pc t) hstep hsafe
  | _ =>
    simp only [step] at hstep
    split at hstep
    · rename_i hidle
      exact beginCall_writes hidle hstep hsafe
    · cases hstep

end Step

namespace Writes

variable {s₁ : State Tid Node Key} {pc' : Pc Node Key}

theorem linked_mono (w : Writes c s t s₁ pc') {n : Node} {l : Nat}
    (h : s.linked n l = true) : s₁.linked n l = true := by
  cases w with
  | link => exact set2_true.mpr (.inr h)
  | _ => exact h

theorem height_eq (hinv : Inv c s) (w : Writes c s t s₁ pc') {n : Node} {l : Nat}
    (h : s.linked n l = true) : s₁.height n = s.height n := by
  cases w with
  | init key node height f place =>
    have hok := hinv.pc t
    rw [place] at hok
    refine update_of_ne ?_ _ _
    rintro rfl
    rw [hok.2.2.2.2.2 l] at h
    cases h
  | _ => rfl

theorem pc_eq (w : Writes c s t s₁ pc') : s₁.pc = s.pc := by
  cases w <;> rfl

theorem set2_mark {f : Node → Nat → Option Node × Bool} {n m : Node} {l k : Nat}
    {v : Option Node × Bool} (h : v.2 = (f n l).2) : (set2 f n l v m k).2 = (f m k).2 := by
  rcases Classical.em (m = n ∧ k = l) with ⟨rfl, rfl⟩ | hne
  · rw [set2_self, h]
  · rw [set2_of_ne f v (by tauto)]

theorem isMarked_of_ne {node n : Node} {level l : Nat} (v : Option Node × Bool)
    (h : n ≠ node ∨ l ≠ level) :
    State.isMarked { s with next := set2 s.next node level v } n l ↔ s.isMarked n l := by
  rw [State.isMarked, State.isMarked]
  dsimp only
  rw [set2_of_ne s.next v h]

theorem isMarked_cases (w : Writes c s t s₁ pc') {n : Node} {l : Nat} (h : s₁.isMarked n l) :
    s.isMarked n l ∨ ∃ key succ, s.pc t = .markCas key n l succ := by
  cases w with
  | snip f curr succ place old => exact .inl ((set2_mark (by rw [old])).symm.trans h)
  | set a level pc' place =>
    rcases Classical.em (n = a.node ∧ l = level) with ⟨rfl, rfl⟩ | hne
    · exact absurd h (by simp [State.isMarked])
    · exact .inl ((isMarked_of_ne _ (by tauto)).mp h)
  | reset a level curSucc mark place old => exact .inl ((set2_mark (by rw [old])).symm.trans h)
  | link a level pc' place old => exact .inl ((set2_mark (by rw [old])).symm.trans h)
  | mark key node level succ pc' place =>
    rcases Classical.em (n = node ∧ l = level) with ⟨rfl, rfl⟩ | hne
    · exact .inr ⟨key, succ, place⟩
    · exact .inl ((isMarked_of_ne _ (by tauto)).mp h)
  | _ => exact .inl h

theorem mark_self {node : Node} {level : Nat} {succ : Option Node} :
    State.isMarked { s with next := set2 s.next node level (succ, true) } node level :=
  congrArg Prod.snd (set2_self s.next node level (succ, true))

theorem isMarked_mono (hinv : Inv c s) (hfresh : ∀ n l, s.isMarked n l → s.linked n 0 = true)
    (w : Writes c s t s₁ pc') {n : Node} {l : Nat} (h : s.isMarked n l) : s₁.isMarked n l := by
  cases w with
  | snip f curr succ place old => exact (set2_mark (by rw [old])).trans h
  | set a level pc' place =>
    have hok := hinv.pc t
    rw [place] at hok
    have hun : s.linked a.node 0 = false := by simpa using hok.1.node.iff 0
    have hne : n ≠ a.node := by
      rintro rfl
      rw [hfresh _ l h] at hun
      cases hun
    exact (isMarked_of_ne _ (.inl hne)).mpr h
  | reset a level curSucc mark place old => exact (set2_mark (by rw [old])).trans h
  | link a level pc' place old => exact (set2_mark (by rw [old])).trans h
  | mark key node level succ pc' place old =>
    rcases Classical.em (n = node ∧ l = level) with ⟨rfl, rfl⟩ | hne
    · exact mark_self
    · exact (isMarked_of_ne _ (by tauto)).mpr h
  | _ => exact h

end Writes

/-- What threads have begun and not completed is theirs to do. -/
structure DutyInv (s : State Tid Node Key) : Prop where
  fresh : ∀ n l, s.isMarked n l → s.linked n 0 = true
  inside : ∀ n l, s.isMarked n l → l < s.height n
  down : ∀ n l k, s.isMarked n l → l ≤ k → k < s.height n → s.isMarked n k
  above : ∀ t, (s.pc t).MarkedAbove s
  snips : Covered (fun x : Node × Nat => s.snipped x.1 x.2 = true)
    (fun x => s.counted x.1 x.2 = true) (fun t x => Task.count x.1 x.2 ∈ (s.pc t).tasks)
  hands : Covered (fun n => 0 < s.height n ∧ ∀ l < s.height n, s.counted n l = true)
    (fun n => n ∈ s.handed) (fun t n => Task.hand n ∈ (s.pc t).tasks)
  adds : Covered (fun n => s.linked n 0 = true)
    (fun n => ∀ l < s.height n, s.linked n l = true) (fun t n => Task.add n ∈ (s.pc t).tasks)
  marks : Covered (fun n => ∃ l, s.isMarked n l) (fun n => s.isMarked n 0)
    (fun t n => (s.pc t).marking = some n)

section Duties

variable [DecidableEq Tid] {s₁ : State Tid Node Key} {pc' : Pc Node Key}

theorem Writes.others (w : Writes c s t s₁ pc') {u : Tid} (hu : u ≠ t) :
    (s₁.goto t pc').pc u = s.pc u := by
  rw [← w.pc_eq]
  exact update_of_ne hu _ _

theorem Writes.snips (d : DutyInv s) (w : Writes c s t s₁ pc') :
    Covered (fun x : Node × Nat => s₁.snipped x.1 x.2 = true)
      (fun x => s₁.counted x.1 x.2 = true)
      (fun u x => Task.count x.1 x.2 ∈ ((s₁.goto t pc').pc u).tasks) := by
  refine d.snips.step (t := t) (fun u x hu hx => ?_) (fun x hx => ?_) (fun x _ hx => ?_)
    fun x _ hx => ?_
  · rw [w.others hu]
    exact hx
  · rw [goto_pc]
    cases w with
    | snip f curr succ place old =>
      rcases set2_true.mp hx with ⟨h1, h2⟩ | hx
      · rw [h1, h2]
        exact .inr (.inr List.mem_cons_self)
      · exact .inl hx
    | _ => exact .inl hx
  · cases w with
    | count => exact set2_true.mpr (.inr hx)
    | _ => exact hx
  · cases w with
    | walk pc' keeps => exact absurd hx (keeps.counts x.1 x.2)
    | count f curr pc' place =>
      rw [place] at hx
      rcases List.mem_cons.mp hx with heq | hx
      · obtain ⟨h1, h2⟩ := Task.count.inj heq
        exact .inl (set2_true.mpr (.inl ⟨h1, h2⟩))
      · exact absurd hx (f.caller.count_not_mem _ _)
    | hand f curr place =>
      rw [place] at hx
      rcases List.mem_cons.mp hx with heq | hx
      · cases heq
      · exact absurd hx (f.caller.count_not_mem _ _)
    | snip f curr succ place =>
      rw [place] at hx
      exact absurd hx (f.caller.count_not_mem _ _)
    | link a level pc' place =>
      rcases place with ⟨place, -⟩ | place <;> simp [place, Pc.tasks] at hx
    | begin key node height place | init key node height f place | set a level pc' place
    | reset a level curSucc mark place | mark key node level succ pc' place =>
      simp [place, Pc.tasks] at hx

theorem Writes.hands (hinv : Inv c s) (hheap : HeapInv c s₁) (d : DutyInv s)
    (w : Writes c s t s₁ pc') :
    Covered (fun n => 0 < s₁.height n ∧ ∀ l < s₁.height n, s₁.counted n l = true)
      (fun n => n ∈ s₁.handed) (fun u n => Task.hand n ∈ ((s₁.goto t pc').pc u).tasks) := by
  refine d.hands.step (t := t) (fun u n hu hn => ?_) (fun n hn => ?_) (fun n _ hn => ?_)
    fun n _ hn => ?_
  · rw [w.others hu]
    exact hn
  · rw [goto_pc]
    cases w with
    | init key node height f place =>
      rcases Classical.em (n = node) with rfl | hne
      · -- a node that is linked nowhere has no level that is counted
        have hok := hinv.pc t
        rw [place] at hok
        have hcounted := hinv.heap.counted n 0 (hn.2 0 hn.1)
        have hlinked := (hinv.heap.frozen n 0 hcounted).1
        rw [hok.2.2.2.2.2 0] at hlinked
        cases hlinked
      · have hheight : update s.height node height n = s.height n :=
          update_of_ne hne _ _
        dsimp only at hn
        rw [hheight] at hn
        exact .inl hn
    | count f curr pc' place goes =>
      rcases Classical.em (n = curr) with rfl | hne
      · -- with every level counted nothing is left
        have hcount := hheap.count n
        have hall : (State.countedLevels _ n).card = s.height n :=
          (congrArg Finset.card (Finset.filter_true_of_mem fun l hl =>
            hn.2 l (Finset.mem_range.mp hl))).trans (Finset.card_range _)
        rw [hall] at hcount
        have hok := hinv.pc t
        rw [place] at hok
        have hpos := hinv.heap.pos_of_uncounted hok.2.1 hok.2.2
        have hsmall := hinv.heap.count n
        have hbound := hinv.heap.bound n
        have hfits := c.fits
        dsimp only at hcount
        rw [update_self, wsub] at hcount
        rcases goes with ⟨_, rfl⟩ | ⟨hmany, _⟩
        · exact .inr (.inr List.mem_cons_self)
        · omega
      · refine .inl ⟨hn.1, fun l hl => ?_⟩
        have hcounted := hn.2 l hl
        dsimp only at hcounted
        rwa [set2_of_ne s.counted true (.inl hne)] at hcounted
    | _ => exact .inl hn
  · cases w with
    | hand => exact List.mem_cons_of_mem _ hn
    | _ => exact hn
  · cases w with
    | walk pc' keeps => exact absurd hn (keeps.hands n)
    | count f curr pc' place =>
      rw [place] at hn
      rcases List.mem_cons.mp hn with heq | hn
      · cases heq
      · exact absurd hn (f.caller.hand_not_mem _)
    | hand f curr place =>
      rw [place] at hn
      rcases List.mem_cons.mp hn with heq | hn
      · rw [Task.hand.inj heq]
        exact .inl List.mem_cons_self
      · exact absurd hn (f.caller.hand_not_mem _)
    | snip f curr succ place =>
      rw [place] at hn
      exact absurd hn (f.caller.hand_not_mem _)
    | link a level pc' place =>
      rcases place with ⟨place, -⟩ | place <;> simp [place, Pc.tasks] at hn
    | begin key node height place | init key node height f place | set a level pc' place
    | reset a level curSucc mark place | mark key node level succ pc' place =>
      simp [place, Pc.tasks] at hn

omit [DecidableEq Tid] in
/-- With its last level linked a node is linked on all of them. -/
theorem linked_last (hinv : Inv c s) {a : Adding Node Key} {level : Nat}
    (hplace : s.pc t = .addLink a ∧ level = 0 ∨ s.pc t = .linkCas a level)
    (hlast : a.height ≤ level + 1) :
    ∀ l < s.height a.node, set2 s.linked a.node level true a.node l = true := by
  have hok := hinv.pc t
  have hnode : LinkedBelow c s a.node a.height level := by
    rcases hplace with ⟨hplace, rfl⟩ | hplace
    · rw [hplace] at hok
      exact hok.1.node
    · rw [hplace] at hok
      exact hok.1.node
  intro l hl
  rw [hnode.heightEq] at hl
  rcases Nat.lt_or_eq_of_le (Nat.le_of_lt_succ (hl.trans_le hlast)) with hlt | rfl
  · exact set2_true.mpr (.inr ((hnode.iff l).mpr hlt))
  · exact set2_true.mpr (.inl ⟨rfl, rfl⟩)

theorem Writes.adds (hinv : Inv c s) (d : DutyInv s) (w : Writes c s t s₁ pc') :
    Covered (fun n => s₁.linked n 0 = true)
      (fun n => ∀ l < s₁.height n, s₁.linked n l = true)
      (fun u n => Task.add n ∈ ((s₁.goto t pc').pc u).tasks) := by
  refine d.adds.step (t := t) (fun u n hu hn => ?_) (fun n hn => ?_) (fun n hold hn l hl => ?_)
    fun n hold hn => ?_
  · rw [w.others hu]
    exact hn
  · rw [goto_pc]
    cases w with
    | link a level pc' place old goes =>
      rcases set2_true.mp hn with ⟨rfl, rfl⟩ | hn
      · rcases goes with ⟨_, rfl⟩ | ⟨hlast, rfl⟩
        · exact .inr (.inr List.mem_cons_self)
        · refine .inr (.inl ?_)
          exact linked_last hinv place hlast
      · exact .inl hn
    | _ => exact .inl hn
  · rw [w.height_eq hinv hold] at hl
    exact w.linked_mono (hn l hl)
  · rw [goto_pc]
    cases w with
    | walk pc' keeps =>
      refine .inr ((keeps.adds n hn).resolve_right fun hun => ?_)
      rw [hun] at hold
      cases hold
    | begin key node height place | mark key node level succ pc' place =>
      simp [place, Pc.tasks] at hn
    | init key node height f place caller =>
      rw [place] at hn
      refine .inr ?_
      rw [Pc.tasks, caller]
      exact hn
    | snip f curr succ place =>
      rw [place] at hn
      exact .inr (List.mem_cons_of_mem _ hn)
    | count f curr pc' place goes =>
      rw [place] at hn
      have hn : Task.add n ∈ f.caller.tasks := by simpa [Pc.tasks] using hn
      rcases goes with ⟨_, rfl⟩ | ⟨_, rfl⟩
      · exact .inr (List.mem_cons_of_mem _ hn)
      · exact .inr hn
    | hand f curr place =>
      rw [place] at hn
      exact .inr (by simpa [Pc.tasks] using hn)
    | set a level pc' place goes =>
      rw [place] at hn
      rcases goes with rfl | rfl <;> exact .inr hn
    | reset a level curSucc mark place =>
      rw [place] at hn
      exact .inr hn
    | link a level pc' place old goes =>
      have hmine : n = a.node := by
        rcases place with ⟨place, -⟩ | place <;> simpa [place, Pc.tasks] using hn
      rcases goes with ⟨_, rfl⟩ | ⟨hlast, rfl⟩
      · exact .inr (by simp [Pc.tasks, hmine])
      · rw [hmine]
        exact .inl (linked_last hinv place hlast)

theorem Writes.marked (hinv : Inv c s) (d : DutyInv s) (w : Writes c s t s₁ pc') :
    Covered (fun n => ∃ l, s₁.isMarked n l) (fun n => s₁.isMarked n 0)
      (fun u n => ((s₁.goto t pc').pc u).marking = some n) := by
  refine d.marks.step (t := t) (fun u n hu hn => ?_) (fun n hn => ?_)
    (fun n _ hn => w.isMarked_mono hinv d.fresh hn) fun n _ hn => ?_
  · rw [w.others hu]
    exact hn
  · rw [goto_pc]
    obtain ⟨l, hl⟩ := hn
    rcases w.isMarked_cases hl with hold | ⟨key, succ, hplace⟩
    · exact .inl ⟨l, hold⟩
    · cases w with
      | walk pc' keeps => exact .inl ⟨l, hl⟩
      | mark key node level succ pc' place old goes =>
        rw [place] at hplace
        cases hplace
        rcases goes with ⟨rfl, _⟩ | ⟨below, rfl, rfl⟩
        · exact .inr (.inl hl)
        · exact .inr (.inr rfl)
      | link a level pc' place =>
        rcases place with ⟨place, -⟩ | place <;> simp [place] at hplace
      | begin key node height place | init key node height f place | set a level pc' place
      | reset a level curSucc mark place | snip f curr succ place | count f curr pc' place
      | hand f curr place => simp [place] at hplace
  · rw [goto_pc]
    cases w with
    | walk pc' keeps => exact (keeps.marks n hn).symm
    | mark key node level succ pc' place old goes =>
      rw [place] at hn
      cases hn
      rcases goes with ⟨rfl, _⟩ | ⟨below, rfl, rfl⟩
      · exact .inl (Writes.mark_self)
      · exact .inr rfl
    | link a level pc' place =>
      rcases place with ⟨place, -⟩ | place <;> simp [place, Pc.marking] at hn
    | begin key node height place | init key node height f place | set a level pc' place
    | reset a level curSucc mark place | snip f curr succ place | count f curr pc' place
    | hand f curr place => simp [place, Pc.marking] at hn

omit [DecidableEq Node] in
theorem Pc.markedAbove_goto {pc : Pc Node Key} (h : pc.MarkedAbove s) :
    pc.MarkedAbove (s.goto t pc') := by
  cases pc with
  | markRead key node level | markCas key node level succ => exact h
  | _ => trivial

theorem Writes.above (hinv : Inv c s) (d : DutyInv s) (w : Writes c s t s₁ pc') (u : Tid) :
    ((s₁.goto t pc').pc u).MarkedAbove (s₁.goto t pc') := by
  refine Pc.markedAbove_goto ?_
  rcases Classical.em (u = t) with rfl | hu
  · rw [goto_pc]
    cases w with
    | walk pc' keeps => exact keeps.above (d.above u)
    | mark key node level succ pc' place old goes =>
      rcases goes with ⟨_, hnone⟩ | ⟨below, rfl, rfl⟩
      · exact Pc.markedAbove_of_none hnone
      · have habove := d.above u
        rw [place] at habove
        intro k hk hlt
        rcases Nat.eq_or_lt_of_le hk with rfl | hk
        · exact Writes.mark_self
        · exact (Writes.mark key node _ succ _ place old (.inr ⟨below, rfl, rfl⟩)).isMarked_mono
            hinv d.fresh (habove k hk hlt)
    | count f curr pc' place goes =>
      rcases goes with ⟨_, rfl⟩ | ⟨_, rfl⟩ <;> trivial
    | set a level pc' place goes => rcases goes with rfl | rfl <;> trivial
    | link a level pc' place old goes => rcases goes with ⟨_, rfl⟩ | ⟨_, rfl⟩ <;> trivial
    | _ => trivial
  · rw [w.others hu]
    have habove := d.above u
    have hok := hinv.pc u
    cases hpc : s.pc u with
    | markRead key node level | markCas key node level succ =>
      rw [hpc] at habove hok
      intro k hk hlt
      rw [w.height_eq hinv hok.bottom] at hlt
      exact w.isMarked_mono hinv d.fresh (habove k hk hlt)
    | _ => trivial

theorem Writes.dutyInv (hinv : Inv c s) (hheap : HeapInv c s₁) (d : DutyInv s)
    (w : Writes c s t s₁ pc') : DutyInv (s₁.goto t pc') where
  fresh n l h := by
    rcases w.isMarked_cases h with hold | ⟨key, succ, hplace⟩
    · exact w.linked_mono (d.fresh n l hold)
    · have hok := hinv.pc t
      rw [hplace] at hok
      exact w.linked_mono hok.bottom
  inside n l h := by
    rcases w.isMarked_cases h with hold | ⟨key, succ, hplace⟩
    · exact (d.inside n l hold).trans_eq (w.height_eq hinv (d.fresh n l hold)).symm
    · have hok := hinv.pc t
      rw [hplace] at hok
      exact hok.lt.trans_eq (w.height_eq hinv hok.bottom).symm
  down n l k h hle hlt := by
    rcases w.isMarked_cases h with hold | ⟨key, succ, hplace⟩
    · have hlt := hlt.trans_eq (w.height_eq hinv (d.fresh n l hold))
      exact w.isMarked_mono hinv d.fresh (d.down n l k hold hle hlt)
    · have hok := hinv.pc t
      have habove := d.above t
      rw [hplace] at hok habove
      rcases Nat.eq_or_lt_of_le hle with rfl | hk
      · exact h
      · have hlt := hlt.trans_eq (w.height_eq hinv hok.bottom)
        exact w.isMarked_mono hinv d.fresh (habove k hk hlt)
  above := w.above hinv d
  snips := w.snips d
  hands := w.hands hinv hheap d
  adds := w.adds hinv d
  marks := w.marked hinv d

omit [DecidableEq Tid] in
theorem vskiplistInit_dutyInv (c : Config Node Key) :
    DutyInv (vskiplistInit c : State Tid Node Key) := by
  have hclean (n : Node) (l : Nat) : ¬ (vskiplistInit c : State Tid Node Key).isMarked n l := by
    simp only [State.isMarked, vskiplistInit]
    split <;> exact Bool.false_ne_true
  constructor
  · exact fun n l h => absurd h (hclean n l)
  · exact fun n l h => absurd h (hclean n l)
  · exact fun n l k h => absurd h (hclean n l)
  · exact fun t => trivial
  · exact fun x hx => absurd hx Bool.false_ne_true
  · exact fun n hn => absurd (hn.2 0 hn.1) Bool.false_ne_true
  · intro n hn
    refine .inl fun l hl => ?_
    simp only [vskiplistInit, decide_eq_true_eq] at hn hl ⊢
    rw [if_pos hn.1] at hl
    exact ⟨hn.1, Nat.le_of_lt_succ hl⟩
  · rintro n ⟨l, hl⟩
    exact absurd hl (hclean n l)

theorem step_dutyInv {a : Act Tid Node Key} (hinv : Inv c s) (d : DutyInv s)
    (hstep : step c s a = some s') : DutyInv s' := by
  have hheap := (step_inv hinv hstep).heap
  obtain ⟨s₁, pc', rfl, w⟩ := step_writes hinv hstep
  exact w.dutyInv hinv { hheap with } d

end Duties

end Libvsync.Map.Skiplist
