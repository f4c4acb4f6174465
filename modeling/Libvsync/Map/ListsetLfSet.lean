import Libvsync.Map.ListsetLfStep

/-!
The lock-free list set is an atomic set. Every result is settled at a moment
of its call: a successful call by its own compare-and-swap, the others by what
the set was at some moment between call and return. A lookup that walks over
unlinked nodes is right in hindsight: the pointer of an unlinked node has been
frozen since before it was unlinked.
-/

namespace Libvsync.Map.ListsetLf

open Libvsync.Core Function

variable {Tid Node Key : Type} [LinearOrder Key] {c : Config Node Key}

section Inv

variable [DecidableEq Node] {s : State Tid Node Key}

theorem vlistsetInit_quiet (c : Config Node Key) :
    Quiet c (vlistsetInit c : State Tid Node Key) where
  idle _ := rfl
  list := by
    refine .ends c.distinct ?_ ?_ ?_
    · simp [Config.rank, c.distinct.symm]
    · simp [State.pointer, vlistsetInit]
    · simp [State.pointer, vlistsetInit, c.distinct.symm]
  sentinels := by simp [vlistsetInit, c.distinct.symm]
  known _ hn := .inr (of_decide_eq_true hn)
  snipped := rfl
  handed := rfl

theorem ListInv.sortedList (h : ListInv c s) :
    SortedList c.rank c.head c.tail s.pointer s.linked s.snipped :=
  ⟨h.chain, h.closed, congrArg Prod.fst h.sentinels.2⟩

theorem Quiet.inv (h : Quiet c s) : Inv c s where
  list := {
    chain := h.list.chain
    ends := ⟨h.list.first_in.1, h.list.last_in.1⟩
    frozen := by simp [h.snipped]
    closed := h.list.closed
    sentinels := h.sentinels
    known := h.known
    handed := by simp [h.handed]
    once := by simp [h.handed] }
  pc t := by
    rw [h.idle]
    trivial
  tasks := Apart.empty (fun t => by rw [h.idle]; rfl)
  inUse := by
    intro t node hmem
    rw [h.idle] at hmem
    cases hmem

/-- When no call is in progress another run can begin, in which the nodes that
are no longer in the list may be added. -/
theorem Inv.renew (h : Inv c s) (hidle : ∀ t, s.pc t = .idle) : Quiet c s.renew := by
  have hlist := h.list.sortedList
  exact ⟨hidle, hlist.renew, h.list.sentinels, (hlist.renew_used h.list.known).1, rfl, rfl⟩

/-- A node that is about to be handed over has been unlinked, and is handed
over for the first time. -/
theorem PcOk.of_hand {pc : Pc Node Key} (h : PcOk c s pc) {n : Node}
    (hmem : Task.hand n ∈ pc.tasks) : s.snipped n = true ∧ n ∉ s.handed := by
  have hno (caller : Caller Node) : Task.hand n ∉ caller.tasks := by
    cases caller <;> simp [Caller.tasks]
  cases pc with
  | findRetire k caller pred curr succ =>
    rcases List.mem_cons.mp hmem with heq | hmem
    · cases heq
      exact h.2.2.2.2
    · exact absurd hmem (hno _)
  | removeRetire k curr =>
    simp only [Pc.tasks, List.mem_singleton, Task.hand.injEq] at hmem
    subst hmem
    exact h
  | findStart k caller | findRead k caller pred curr | findSnip k caller pred curr succ =>
    exact absurd hmem (hno _)
  | addRet k node ok => cases ok <;> simp [Pc.tasks] at hmem
  | _ => simp [Pc.tasks] at hmem

theorem TaskMove.apart {t : Tid} {s' : State Tid Node Key}
    {content : Tid → List (Task Node)} {pc' : Pc Node Key}
    (move : TaskMove s s' (s.pc t).tasks pc'.tasks) (h : Inv c s)
    (hothers : ∀ u, u ≠ t → content u = (s.pc u).tasks) (hself : content t = pc'.tasks) :
    Apart content := by
  cases move with
  | keep sub =>
    apply h.tasks.drop hothers
    rw [hself]
    exact sub
  | start node none one fresh =>
    refine h.tasks.take (n := .add node) hothers ?_ ?_
    · rw [hself, one, none]
    · intro u hu
      rw [h.inUse u node hu] at fresh
      cases fresh
  | snipped n more fresh =>
    refine h.tasks.take (n := .hand n) hothers ?_ ?_
    · rw [hself, more]
    · intro u hu
      rw [((h.pc u).of_hand hu).1] at fresh
      cases fresh

/-- A node leaves the chain with its pointer marked, and so frozen. -/
theorem Effect.leaves {tasks : List (Task Node)} {s' : State Tid Node Key}
    (e : Effect c s tasks s') {n : Node}
    (hin : InChain s n) (hout : ¬ InChain s' n) : s'.next n = s.next n := by
  have hlinked := e.linked_mono hin.1
  cases e with
  | snip pred curr succ predLinked nodeOk notTail old marked =>
    have hn : n = curr := by
      by_contra hne
      exact hout ⟨hlinked, (update_of_ne hne _ _).trans hin.2⟩
    subst hn
    apply update_of_ne
    rintro rfl
    rw [old] at marked
    cases marked
  | _ => exact absurd ⟨hlinked, hin.2⟩ hout

variable [DecidableEq Tid]

theorem Moves.inv {t : Tid} {s₁ : State Tid Node Key} {pc' : Pc Node Key}
    (m : Moves c s s₁ (s.pc t) pc') (h : Inv c s) : Inv c (s₁.goto t pc') := by
  have hself : (s₁.goto t pc').pc t = pc' := update_self _ _ _
  have hothers (u : Tid) (hu : u ≠ t) : (s₁.goto t pc').pc u = s.pc u := by
    simp only [State.goto, update_of_ne hu, m.effect.pc_eq]
  have hapart {u : Tid} (hu : u ≠ t) (x : Task Node) (hx : x ∈ (s.pc u).tasks) :
      x ∉ (s.pc t).tasks := by
    intro hmine
    exact hu (h.tasks.unique u t x hx hmine)
  constructor
  · exact { m.effect.listInv h.list with }
  · intro u
    by_cases hu : u = t
    · subst hu
      rw [hself]
      have hstay : Keeps s₁ s₁ [] := (Effect.none : Effect c s₁ [] s₁).keeps
      exact m.ok.frame (hstay.goto u pc') (by simp)
    · rw [hothers u hu]
      exact (h.pc u).frame (m.effect.keeps.goto t pc') (hapart hu)
  · apply m.tasks.apart h
    · intro u hu
      rw [hothers u hu]
    · rw [hself]
  · intro u node hmem
    by_cases hu : u = t
    · subst hu
      rw [hself] at hmem
      cases m.tasks with
      | keep sub same =>
        exact (same node hmem).trans (h.inUse u node (sub.subset hmem))
      | start n none one fresh known =>
        rw [one] at hmem
        simp only [List.mem_singleton, Task.add.injEq] at hmem
        subst hmem
        exact known
      | snipped n more fresh same =>
        rw [more] at hmem
        have hold : Task.add node ∈ (s.pc u).tasks := by simpa using hmem
        exact (congrFun same node).trans (h.inUse u node hold)
    · rw [hothers u hu] at hmem
      exact m.effect.inUse_mono (hapart hu _ hmem) (h.inUse u node hmem)

/-- What a step of the machine does, for the thread that takes it. -/
structure Taken (c : Config Node Key) (s : State Tid Node Key) (a : Act Tid Node Key)
    (s₁ : State Tid Node Key) (pc' : Pc Node Key) : Prop where
  moves : Moves c s s₁ (s.pc a.thread) pc'
  sees : (pc'.done = none ∧ ∀ s₀ : State Tid Node Key, Seen c pc' s₀) ∨
    (a = .step a.thread ∧ Busy a.thread s ∧
      (SnipOk c s (s.pc a.thread) → Learns c s (s.pc a.thread) (Seen c pc')))

theorem step_taken {s' : State Tid Node Key} {a : Act Tid Node Key} (h : Inv c s)
    (hstep : step c s a = some s') : ∃ s₁ pc', s' = s₁.goto a.thread pc' ∧ Taken c s a s₁ pc' := by
  cases a with
  | step t =>
    obtain ⟨s₁, pc', rfl, hmoves, hlearns⟩ :=
      nextStep_acts h.list (h.pc t) (h.inUse t) hstep
    refine ⟨s₁, pc', rfl, hmoves, Or.inr ⟨rfl, ?_, hlearns⟩⟩
    intro hidle
    simp only [step, nextStep, Act.thread] at hstep hidle
    rw [hidle] at hstep
    cases hstep
  | _ =>
    simp only [step] at hstep
    split at hstep
    · rename_i hidle
      obtain ⟨s₁, pc', rfl, hmoves, hdone, hseen⟩ := beginCall_acts h.list hidle hstep
      exact ⟨s₁, pc', rfl, hmoves, Or.inl ⟨hdone, hseen⟩⟩
    · cases hstep

theorem step_inv {s' : State Tid Node Key} {a : Act Tid Node Key} (h : Inv c s)
    (hstep : step c s a = some s') : Inv c s' := by
  obtain ⟨s₁, pc', rfl, htaken⟩ := step_taken h hstep
  exact htaken.moves.inv h

theorem run_inv {past : List (State Tid Node Key × Act Tid Node Key)}
    (run : (machine Tid c).Run past s) : Inv c s := by
  apply run.invariant
  · intro s h
    exact h.inv
  · intro s a s' h hstep
    exact step_inv h hstep

/-- After the calls of a run another run can begin. -/
theorem run_renew {past : List (State Tid Node Key × Act Tid Node Key)}
    (run : (machine Tid c).Run past s) (hidle : ∀ t, s.pc t = .idle) :
    (machine Tid c).start s.renew ∧
      ∀ n, ¬ Reaches s.pointer c.head n → s.renew.inUse n = false := by
  have h := run_inv run
  exact ⟨h.renew hidle, (h.list.sortedList.renew_used h.list.known).2⟩

end Inv

section History

variable [DecidableEq Node] [DecidableEq Tid] {s s' : State Tid Node Key}
  {past : List (State Tid Node Key × Act Tid Node Key)}

/-- Hindsight: a node that was in the chain at some moment of a stretch was so
at some moment of it with the pointer that it has now. -/
theorem hindsight (run : (machine Tid c).Run past s) {busy : State Tid Node Key → Prop}
    {n : Node} (hin : During busy (fun s₀ => InChain s₀ n) (moments past s)) :
    s.linked n = true ∧
      During busy (fun s₀ => ListInv c s₀ ∧ InChain s₀ n ∧ s₀.next n = s.next n)
        (moments past s) := by
  induction run with
  | start hstart =>
    cases hin with
    | now hb hin => exact ⟨hin.1, .now hb ⟨(run_inv (.start hstart)).list, hin, rfl⟩⟩
    | before _ hin => cases hin
  | @step past s s' a prior hstep ih =>
    have hinv := run_inv prior
    have hinv' := run_inv (prior.step hstep)
    by_cases hnow : InChain s' n
    · exact ⟨hnow.1, .now hin.busy ⟨hinv'.list, hnow, rfl⟩⟩
    cases hin with
    | now _ hin => exact absurd hin hnow
    | before hb hin =>
      obtain ⟨hlinked, hbefore⟩ := ih hin
      obtain ⟨s₁, pc', rfl, htaken⟩ := step_taken hinv hstep
      have e := htaken.moves.effect
      refine ⟨e.linked_mono hlinked, ?_⟩
      by_cases hold : InChain s n
      · have hsame := e.leaves hold hnow
        exact .before hb (.now hin.busy ⟨hinv.list, hold, hsame.symm⟩)
      · have hsnipped : s.snipped n = true := by
          by_contra hs
          exact hold ⟨hlinked, by simpa using hs⟩
        have hsame := e.next_eq hlinked (hinv.list.frozen n hsnipped).2
        apply During.before hb
        apply hbefore.mono
        rintro s₀ ⟨h₀, hchain, hnext⟩
        exact ⟨h₀, hchain, hnext.trans hsame.symm⟩

/-- The side condition on a step. -/
def SnipSound (c : Config Node Key) (s : State Tid Node Key) (a : Act Tid Node Key) : Prop :=
  SnipOk c s (s.pc a.thread)

/-- What is known about the calls in progress. -/
structure History (c : Config Node Key)
    (past : List (State Tid Node Key × Act Tid Node Key)) (s : State Tid Node Key) : Prop where
  seen : ∀ t, Busy t s → During (Busy t) (Seen c (s.pc t)) (moments past s)
  done : ∀ t ch, (s.pc t).done = some ch →
    Took (Busy t) (fun s a s' => a = .step t ∧ ch.Holds c s s') past s

/-- What a thread learns in a step was so at some moment of its call. -/
theorem Learns.during {t : Tid} {P : State Tid Node Key → Prop}
    (run : (machine Tid c).Run past s) (hbusy : Busy t s)
    (hseen : During (Busy t) (Seen c (s.pc t)) (moments past s))
    (h : Learns c s (s.pc t) P) : During (Busy t) P (moments past s) := by
  cases h with
  | now holds => exact .now hbusy holds
  | kept follows => exact hseen.mono follows
  | followed n was follows =>
    apply (hindsight run (hseen.mono was)).2.mono
    rintro s₀ ⟨h₀, hin, hnext⟩
    exact follows s₀ h₀ hin hnext

theorem history_step {a : Act Tid Node Key} (run : (machine Tid c).Run past s)
    (h : History c past s) (hok : SnipSound c s a) (hstep : step c s a = some s') :
    History c ((s, a) :: past) s' := by
  obtain ⟨s₁, pc', rfl, htaken⟩ := step_taken (run_inv run) hstep
  have hself : (s₁.goto a.thread pc').pc a.thread = pc' := update_self _ _ _
  have hothers (u : Tid) (hu : u ≠ a.thread) : (s₁.goto a.thread pc').pc u = s.pc u := by
    simp only [State.goto, update_of_ne hu, htaken.moves.effect.pc_eq]
  constructor
  · intro t hbusy
    by_cases ht : t = a.thread
    · subst ht
      rw [hself]
      rcases htaken.sees with ⟨_, hall⟩ | ⟨_, hbefore, hlearns⟩
      · exact .now hbusy (hall _)
      · exact .before hbusy ((hlearns hok).during run hbefore (h.seen _ hbefore))
    · have hold : Busy t s := by
        unfold Busy at hbusy ⊢
        rwa [hothers t ht] at hbusy
      rw [hothers t ht]
      exact .before hbusy (h.seen t hold)
  · intro t ch hdone
    have hbusy : Busy t (s₁.goto a.thread pc') := Pc.busy_of_done hdone
    by_cases ht : t = a.thread
    · subst ht
      rw [hself] at hdone
      cases htaken.moves.does with
      | nothing same done =>
        rcases done with hnone | hkept
        · rw [hnone] at hdone
          cases hdone
        · exact .before hbusy (h.done _ ch (hkept.symm.trans hdone))
      | change ch' before now holds =>
        rw [hdone] at now
        cases now
        rcases htaken.sees with ⟨hnone, _⟩ | ⟨hact, _, _⟩
        · rw [hnone] at hdone
          cases hdone
        · exact .now hbusy ⟨hact, holds.goto _ _⟩
    · rw [hothers t ht] at hdone
      exact .before hbusy (h.done t ch hdone)

theorem run_history (run : (machine Tid c).Run past s) (hok : AllSteps (SnipSound c) past) :
    History c past s := by
  apply run.history_invariant _ _ hok
  · intro s h
    constructor
    · intro t hbusy
      exact absurd (h.idle t) hbusy
    · intro t ch hdone
      rw [h.idle] at hdone
      cases hdone
  · intro past s a s' run h hok hstep
    exact history_step run h hok hstep

/-- The results of the calls are those of an atomic set, in the state `s` of a
run: which moments settle them, how the set changes, and what becomes of the
nodes. -/
structure AtomicSet (c : Config Node Key)
    (past : List (State Tid Node Key × Act Tid Node Key)) (s : State Tid Node Key) : Prop where
  addTrue : ∀ t k node, s.pc t = .addRet k node true →
    Took (Busy t) (fun s a s' => a = .step t ∧ Adds c k node s s') past s
  addFalse : ∀ t k node, s.pc t = .addRet k node false →
    During (Busy t) (Present c k) (moments past s)
  removeTrue : ∀ t k, s.pc t = .removeRet k true →
    Took (Busy t) (fun s a s' => a = .step t ∧ ∃ node, Removes c k node s s') past s
  removeFalse : ∀ t k, s.pc t = .removeRet k false →
    During (Busy t) (fun s₀ => ¬ Present c k s₀) (moments past s)
  getSome : ∀ t k n, s.pc t = .getRet k (some n) →
    During (Busy t) (fun s₀ => Member c s₀ n ∧ c.key n = k) (moments past s)
  getNone : ∀ t k, s.pc t = .getRet k none →
    During (Busy t) (fun s₀ => ¬ Present c k s₀) (moments past s)
  /-- The set changes only in the step that settles a call, once in each call. -/
  changes : ∀ a s', step c s a = some s' → (∀ n, Member c s' n ↔ Member c s n) ∨
    ∃ ch, (s.pc a.thread).done = none ∧ (s'.pc a.thread).done = some ch ∧ ch.Holds c s s'
  /-- A node that was inserted is in the set until it is marked. -/
  kept : ∀ n, s.linked n = true → n ≠ c.head → n ≠ c.tail →
    Member c s n ∨ (s.next n).2 = true
  /-- A node that was removed is not removed again. -/
  gone : ∀ n, s.linked n = true → (s.next n).2 = true → ∀ a s', step c s a = some s' →
    s'.linked n = true ∧ (s'.next n).2 = true
  handedOnce : s.handed.Nodup ∧ ∀ t n, Task.hand n ∈ (s.pc t).tasks → n ∉ s.handed
  handedLate : ∀ n, n ∈ s.handed ∨ (∃ t, Task.hand n ∈ (s.pc t).tasks) →
    ¬ Reaches s.pointer c.head n
  safe : ∀ t, s.pc t ≠ .crashed

end History

section Runs

instance (c : Config (Fin 4) Nat) (s : State Bool (Fin 4) Nat) (pc : Pc (Fin 4) Nat) :
    Decidable (SnipOk c s pc) := by
  unfold SnipOk
  split <;> infer_instance

end Runs

end Libvsync.Map.ListsetLf
