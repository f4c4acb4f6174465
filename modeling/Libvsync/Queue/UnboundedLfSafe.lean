import Libvsync.Core.Queue
import Libvsync.Queue.UnboundedLfInv

/-!
What follows for whole runs: the data come out in the order of the appends, a
retired node is behind both the head and the tail, and NULL is returned only by a
dequeue that met an empty queue.
-/

namespace Libvsync.Queue.UnboundedLf

open Libvsync.Core Function

variable {Tid Node Data : Type} [DecidableEq Tid] [DecidableEq Node]
  {sentinel : Node} {s s' : State Tid Node Data} {nodes : List Node} {t : Tid}

variable {a : Act Tid Node Data}

theorem Inv.step (h : Inv sentinel s nodes) (hok : NotSeen s a)
    (hstep : step sentinel s a = some s') : ∃ nodes', Inv sentinel s' nodes' := by
  cases a with
  | enq t qnode data =>
    simp only [UnboundedLf.step] at hstep
    split at hstep
    · rename_i hidle
      split at hstep
      · cases hstep
      · rename_i hnew
        cases hstep
        obtain ⟨hsentinel, hnew⟩ := not_or.mp hnew
        exact ⟨nodes, h.enq hidle hsentinel (Bool.eq_false_iff.mpr hnew) hok⟩
    · cases hstep
  | deq t =>
    simp only [UnboundedLf.step] at hstep
    split at hstep
    · rename_i hidle
      cases hstep
      exact ⟨nodes, h.goto (by rw [hidle]; rfl) (by rw [hidle]; rfl) trivial⟩
    · cases hstep
  | step t => exact h.nextStep hstep

section

omit [DecidableEq Tid]

theorem vqueueUbInit_inv (sentinel : Node) (next : Node → Option Node)
    (data : Node → Option Data) :
    Inv sentinel (vqueueUbInit sentinel next data : State Tid Node Data) [sentinel] where
  chain := ⟨rfl, update_self ..⟩
  tail := List.mem_singleton_self _
  pending := rfl
  values := rfl
  data := nofun
  apart := by
    refine ⟨?_, ?_⟩
    · intro p
      cases p with
      | none => exact List.nodup_singleton _
      | some t => exact List.nodup_nil
    · intro p q n hp hq
      cases p with
      | none =>
        cases q with
        | none => rfl
        | some t => cases hq
      | some t => cases hp
  inside n := by
    constructor
    · exact nofun
    · rintro ⟨hn, p, hp⟩
      cases p with
      | none => exact absurd (List.mem_singleton.mp hp) hn
      | some t => cases hp
  count n hn := by
    refine ⟨?_, fun _ => rfl⟩
    rintro (hin | ⟨t, ht⟩)
    · exact absurd (List.mem_singleton.mp hin) hn
    · cases ht
  unused _ := nofun
  pc _ := trivial

/-- Everything appended has been dequeued. -/
def Empty (s : State Tid Node Data) : Prop := s.order.length = s.deqs.length

/-- A head without a next node: nothing is in the queue. -/
theorem Inv.empty (h : Inv sentinel s nodes) (hnone : s.next s.head = none) : Empty s := by
  obtain ⟨rest, hrest, hlinked⟩ := h.chain.of_some
  rw [hnone] at hlinked
  have hpending := h.pending
  rw [hrest, hlinked.of_none] at hpending
  have hdrop : s.order.drop s.deqs.length = [] :=
    List.map_eq_nil_iff.mp (List.cons.inj hpending).2.symm
  have hle := List.drop_eq_nil_iff.mp hdrop
  have hlen := congrArg List.length h.values
  rw [List.length_take, List.length_map] at hlen
  rw [Empty]
  omega

theorem swing_pc (s : State Tid Node Data) (last next : Node) :
    (s.swing last next).pc = s.pc ∧ (s.swing last next).head = s.head ∧
      (s.swing last next).order = s.order ∧ (s.swing last next).deqs = s.deqs := by
  rw [State.swing]
  split <;> exact ⟨rfl, rfl, rfl, rfl⟩

end

/-- What a step of `t` does to the head and to a dequeue of `t` that may find the
queue empty. -/
structure DeqStep (s s' : State Tid Node Data) (t : Tid) : Prop where
  others : ∀ u, u ≠ t → s'.pc u = s.pc u
  head : s'.head = s.head ∨ ∃ next data, s.pc t = .deqCas s.head next data ∧ s'.head = next
  check : ∀ first last, s'.pc t = .deqCheck first last none →
    s.next first = none ∧ s'.head = s.head ∧ s'.order = s.order ∧ s'.deqs = s.deqs
  ret : s'.pc t = .deqRet none →
    (∃ last, s.pc t = .deqCheck s.head last none) ∨ (∃ next, s.pc t = .deqCas s.head next none) ∨
      ∃ first, s.pc t = .deqRetire first none

omit [DecidableEq Node] in
theorem deqStep_goto {s₁ : State Tid Node Data} {pc : Pc Node Data} (hpc : s₁.pc = s.pc)
    (hhead : s₁.head = s.head) (hcheck : ∀ first last, pc ≠ .deqCheck first last none)
    (hret : pc ≠ .deqRet none) : DeqStep s (s₁.goto t pc) t := by
  have hself : (s₁.goto t pc).pc t = pc := update_self ..
  refine ⟨fun u hu => ?_, .inl hhead, fun first last hat => ?_, fun hat => ?_⟩
  · rw [goto_pc, update_of_ne hu, hpc]
  · rw [hself] at hat
    exact absurd hat (hcheck first last)
  · rw [hself] at hat
    exact absurd hat hret

theorem nextStep_deqStep (hstep : nextStep sentinel s t = some s') : DeqStep s s' t := by
  rw [nextStep] at hstep
  cases hat : s.pc t with
  | idle | failed _ =>
    rw [hat] at hstep
    cases hstep
  | enqData _ _ | enqNull _ _ | enqTail _ _ | enqNext _ _ _ | deqHead | deqTail _ | deqData _ _
  | deqRet _ =>
    rw [hat] at hstep
    cases hstep
    exact deqStep_goto rfl rfl (by rintro _ _ ⟨⟩) (by rintro ⟨⟩)
  | enqCheck qnode data last next =>
    simp only [hat] at hstep
    split at hstep
    · cases next <;> cases hstep <;> exact deqStep_goto rfl rfl (by rintro _ _ ⟨⟩) (by rintro ⟨⟩)
    · cases hstep
      exact deqStep_goto rfl rfl (by rintro _ _ ⟨⟩) (by rintro ⟨⟩)
  | enqCas _ _ _ =>
    simp only [hat] at hstep
    split at hstep <;> cases hstep <;> exact deqStep_goto rfl rfl (by rintro _ _ ⟨⟩) (by rintro ⟨⟩)
  | enqSwing qnode _ last | enqHelp qnode data last next | deqHelp last next =>
    rw [hat] at hstep
    cases hstep
    exact deqStep_goto (swing_pc ..).1 (swing_pc ..).2.1 (by rintro _ _ ⟨⟩) (by rintro ⟨⟩)
  | deqNext first last =>
    rw [hat] at hstep
    cases hstep
    have hself : (s.goto t (.deqCheck first last (s.next first))).pc t =
        .deqCheck first last (s.next first) := update_self ..
    refine ⟨fun u hu => update_of_ne hu .., .inl rfl, fun f l hf => ?_, fun hret => ?_⟩
    · rw [hself] at hf
      injection hf with hfirst _ hnone
      subst hfirst
      exact ⟨hnone, rfl, rfl, rfl⟩
    · rw [hself] at hret
      cases hret
  | deqCheck first last next =>
    simp only [hat] at hstep
    split at hstep
    · rename_i hhead
      split at hstep
      · cases next with
        | none =>
          cases hstep
          have hself : (s.goto t (.deqRet none)).pc t = .deqRet none :=
            update_self ..
          refine ⟨fun u hu => update_of_ne hu .., .inl rfl, fun f l hf => ?_,
            fun _ => .inl ⟨last, by rw [hhead, hat]⟩⟩
          rw [hself] at hf
          cases hf
        | some next =>
          cases hstep
          exact deqStep_goto rfl rfl (by rintro _ _ ⟨⟩) (by rintro ⟨⟩)
      · cases next <;> cases hstep <;> exact deqStep_goto rfl rfl (by rintro _ _ ⟨⟩) (by rintro ⟨⟩)
    · cases hstep
      exact deqStep_goto rfl rfl (by rintro _ _ ⟨⟩) (by rintro ⟨⟩)
  | deqCas first next data =>
    simp only [hat] at hstep
    split at hstep
    · rename_i hhead
      subst hhead
      cases hstep
      refine ⟨fun u hu => update_of_ne hu .., .inr ⟨next, data, hat, rfl⟩,
        fun f l hf => ?_, fun hret => ?_⟩
      · rw [goto_pc, update_self] at hf
        split at hf <;> cases hf
      · rw [goto_pc, update_self] at hret
        split at hret
        · cases hret
          exact .inr (.inl ⟨next, hat⟩)
        · cases hret
    · cases hstep
      exact deqStep_goto rfl rfl (by rintro _ _ ⟨⟩) (by rintro ⟨⟩)
  | deqRetire first data =>
    rw [hat] at hstep
    cases hstep
    refine ⟨fun u hu => update_of_ne hu .., .inl rfl, fun f l hf => ?_, fun hret => ?_⟩
    · rw [goto_pc, update_self] at hf
      cases hf
    · rw [goto_pc, update_self] at hret
      cases hret
      exact .inr (.inr ⟨first, hat⟩)

theorem step_deqStep (hstep : step sentinel s a = some s') : DeqStep s s' a.thread := by
  cases a with
  | enq t qnode data =>
    simp only [step] at hstep
    split at hstep
    · split at hstep
      · cases hstep
      · cases hstep
        exact deqStep_goto rfl rfl nofun nofun
    · cases hstep
  | deq t =>
    simp only [step] at hstep
    split at hstep
    · cases hstep
      exact deqStep_goto rfl rfl nofun nofun
    · cases hstep
  | step t => exact nextStep_deqStep hstep

/-- A dequeue that has found no next node behind what is still the head, or that
returns NULL, met an empty queue. -/
structure History (past : List (State Tid Node Data × Act Tid Node Data))
    (s : State Tid Node Data) : Prop where
  check : ∀ t first last, s.pc t = .deqCheck first last none → first = s.head →
    During (fun s => s.pc t ≠ .idle) Empty (moments past s)
  ret : ∀ t, s.pc t = .deqRet none →
    During (fun s => s.pc t ≠ .idle) Empty (moments past s)

omit [DecidableEq Tid] in
/-- What is the head after a step and was read as the head before it was the head
before the step. -/
theorem Inv.head_back (h : Inv sentinel s nodes) (hstep : DeqStep s s' t) {n : Node}
    (hn : HeadOrGone s nodes n) (heq : n = s'.head) : n = s.head := by
  rcases hstep.head with hsame | ⟨next, data, hat, hhead⟩
  · exact heq.trans hsame
  · rcases hn with hhead' | hgone
    · exact hhead'
    · have hpc := h.pc t
      rw [hat] at hpc
      have hmem := List.mem_of_mem_tail (h.chain.next_mem h.head_mem hpc.2.2.1)
      exact absurd (heq.trans hhead ▸ hmem) hgone.1

variable {past : List (State Tid Node Data × Act Tid Node Data)}

theorem History.step (hist : History past s) (h : Inv sentinel s nodes)
    (hstep : DeqStep s s' a.thread) : History ((s, a) :: past) s' := by
  constructor
  · intro t first last hat heq
    have hbusy : s'.pc t ≠ .idle := by rw [hat]; rintro ⟨⟩
    by_cases ht : t = a.thread
    · subst ht
      obtain ⟨hnone, hhead, horder, hdeqs⟩ := hstep.check first last hat
      refine .now hbusy ?_
      rw [Empty, horder, hdeqs]
      exact h.empty (heq.trans hhead ▸ hnone)
    · have hat' : s.pc t = .deqCheck first last none := (hstep.others t ht).symm.trans hat
      have hpc := h.pc t
      rw [hat'] at hpc
      exact .before hbusy (hist.check t first last hat' (h.head_back hstep hpc.1 heq))
  · intro t hat
    have hbusy : s'.pc t ≠ .idle := by rw [hat]; rintro ⟨⟩
    by_cases ht : t = a.thread
    · subst ht
      have hpc := h.pc a.thread
      rcases hstep.ret hat with ⟨last, hat'⟩ | ⟨next, hat'⟩ | ⟨first, hat'⟩
      · exact .before hbusy (hist.check _ s.head last hat' rfl)
      · rw [hat'] at hpc
        obtain ⟨v, hv, -⟩ := hpc.2.2.2 rfl
        cases hv
      · rw [hat'] at hpc
        exact absurd rfl hpc.2
    · exact .before hbusy (hist.ret t ((hstep.others t ht).symm.trans hat))

/-- What a call will return, once that is fixed. -/
def Pc.settled : Pc Node Data → Option (QueueCall Data × QueueResult Data)
  | .enqSwing _ data _ => some (.enq data, .done)
  | .deqRetire _ data | .deqRet data => some (.deq, .taken data)
  | _ => none

def view : View (State Tid Node Data) Tid (List Data) (QueueCall Data) (QueueResult Data) :=
  .ofPlaces (fun s => waiting s.order s.deqs.length) State.pc .idle Pc.settled rfl

theorem Inv.nextStep_moves (h : Inv sentinel s nodes) (hist : History past s)
    (hstep : UnboundedLf.nextStep sentinel s t = some s') : Moves view queueSpec t past s s' := by
  have hlength : s.deqs.length ≤ s.order.length := by
    have hlen := congrArg List.length h.values
    rw [List.length_take, List.length_map] at hlen
    omega
  have hpc := h.pc t
  rw [UnboundedLf.nextStep] at hstep
  cases hat : s.pc t with
  | idle | failed _ =>
    rw [hat] at hstep
    cases hstep
  | enqData _ _ | enqNull _ _ | enqTail _ _ | enqNext _ _ _ | deqHead | deqTail _ | deqNext _ _
  | deqData _ _ | deqRetire _ _ =>
    rw [hat] at hstep
    cases hstep
    exact .walkTo rfl rfl (.inl (by rw [hat]; rfl))
  | deqRet _ =>
    rw [hat] at hstep
    cases hstep
    exact .walkTo rfl rfl (.inr rfl)
  | enqCheck qnode data last next =>
    simp only [hat] at hstep
    split at hstep
    · cases next <;> cases hstep <;> exact .walkTo rfl rfl (.inl (by rw [hat]; rfl))
    · cases hstep
      exact .walkTo rfl rfl (.inl (by rw [hat]; rfl))
  | enqCas qnode data last =>
    simp only [hat] at hstep
    split at hstep <;> cases hstep
    · exact .settleTo (.enq data) .done rfl (by rw [hat]; rfl) rfl (waiting_enq hlength)
    · exact .walkTo rfl rfl (.inl (by rw [hat]; rfl))
  | enqSwing qnode data last =>
    rw [hat] at hstep
    cases hstep
    obtain ⟨hpcs, -, horder, hdeqs⟩ := swing_pc s last qnode
    refine .walkTo (congrArg (update · t _) hpcs) ?_ (.inr rfl)
    exact congrArg₂ waiting horder (congrArg List.length hdeqs)
  | enqHelp qnode data last next | deqHelp last next =>
    rw [hat] at hstep
    cases hstep
    obtain ⟨hpcs, -, horder, hdeqs⟩ := swing_pc s last next
    refine .walkTo (congrArg (update · t _) hpcs) ?_ (.inl (by rw [hat]; rfl))
    exact congrArg₂ waiting horder (congrArg List.length hdeqs)
  | deqCheck first last next =>
    simp only [hat] at hstep
    split at hstep
    · rename_i hhead
      split at hstep
      · cases next with
        | none =>
          cases hstep
          -- the queue was empty when the next node was read
          have hwas := hist.check t first last hat hhead.symm
          have hself : (s.goto t (.deqRet none)).pc t = .deqRet none :=
            update_self ..
          have hbefore : view.settled t s = none := congrArg Pc.settled hat
          refine ⟨.remember .deq (.taken none) rfl hbefore (congrArg Pc.settled hself)
            (hwas.mono ?_), fun u hu => congrArg Pc.settled (update_of_ne hu ..)⟩
          intro s₀ hempty
          exact ⟨waiting_nil.mpr hempty.le, rfl⟩
        | some next =>
          cases hstep
          exact .walkTo rfl rfl (.inl (by rw [hat]; rfl))
      · cases next <;> cases hstep <;> exact .walkTo rfl rfl (.inl (by rw [hat]; rfl))
    · cases hstep
      exact .walkTo rfl rfl (.inl (by rw [hat]; rfl))
  | deqCas first next data =>
    simp only [hat] at hstep
    split at hstep
    · rename_i hhead
      cases hstep
      rw [hat] at hpc
      obtain ⟨v, rfl, hfirst⟩ := hpc.2.2.2 hhead.symm
      refine .settleTo .deq (.taken (some v)) rfl (by rw [hat]; rfl) ?_ (queueSpec_taken _ hfirst)
      split <;> rfl
    · cases hstep
      exact .walkTo rfl rfl (.inl (by rw [hat]; rfl))

theorem Inv.step_moves (h : Inv sentinel s nodes) (hist : History past s)
    (hstep : UnboundedLf.step sentinel s a = some s') :
    Moves view queueSpec a.thread past s s' := by
  cases a with
  | enq t qnode data =>
    simp only [UnboundedLf.step] at hstep
    split at hstep
    · rename_i hidle
      split at hstep <;> cases hstep
      exact .walkTo rfl rfl (.inl (congrArg Pc.settled hidle).symm)
    · cases hstep
  | deq t =>
    simp only [UnboundedLf.step] at hstep
    split at hstep
    · rename_i hidle
      cases hstep
      exact .walkTo rfl rfl (.inl (congrArg Pc.settled hidle).symm)
    · cases hstep
  | step t => exact h.nextStep_moves hist hstep

theorem nextStep_answers (hstep : nextStep sentinel s t = some s') (hidle : s'.pc t = .idle) :
    ∃ x, (s.pc t).settled = some x := by
  rw [nextStep] at hstep
  cases hat : s.pc t with
  | enqSwing _ _ _ | deqRet _ => exact ⟨_, rfl⟩
  | _ =>
    exfalso
    simp only [hat] at hstep
    repeat' split at hstep
    all_goals cases hstep
    all_goals
      rw [goto_pc, update_self] at hidle
      cases hidle

variable {next : Node → Option Node} {data : Node → Option Data}
  {past : List (State Tid Node Data × Act Tid Node Data)}

theorem run_inv (run : (machine Tid Node Data sentinel next data).Run past s)
    (hok : AllSteps NotSeen past) : (∃ nodes, Inv sentinel s nodes) ∧ History past s := by
  refine run.history_invariant
    (I := fun past s => (∃ nodes, Inv sentinel s nodes) ∧ History past s) ?_ ?_ hok
  · rintro s rfl
    exact ⟨⟨_, vqueueUbInit_inv sentinel next data⟩, nofun, nofun⟩
  · rintro past s a s' - ⟨⟨nodes, h⟩, hist⟩ hallowed hstep
    exact ⟨h.step hallowed hstep, hist.step h (step_deqStep hstep)⟩

theorem run_linear (run : (machine Tid Node Data sentinel next data).Run past s)
    (hok : AllSteps NotSeen past) :
    Linear (machine Tid Node Data sentinel next data) Act.thread view queueSpec past s := by
  apply run.linear _ _ hok
  · rintro s rfl t
    rfl
  · intro past s a s' run hok hstep
    obtain ⟨⟨nodes, h⟩, hist⟩ := run_inv run hok
    exact h.step_moves hist hstep

theorem run_answers : Answers (machine Tid Node Data sentinel next data) Act.thread view s := by
  refine .ofPlaces fun a s' hstep hbusy hidle => ?_
  cases a with
  | enq t _ _ | deq t =>
    change s.pc t ≠ .idle at hbusy
    simp only [machine, step] at hstep
    cases hstep
  | step t => exact nextStep_answers hstep hidle

/-- The calls are atomic operations of a queue: each enqueue appends its data, and each dequeue
takes out the data that it returns, in the order of the appends. The nodes from the head on are
the old head and those appended and not dequeued; the tail is one of them, and a node that is
being retired is not. -/
structure Safe (sentinel : Node) (next : Node → Option Node) (data : Node → Option Data)
    (past : List (State Tid Node Data × Act Tid Node Data)) (s : State Tid Node Data) : Prop where
  linear : Linear (machine Tid Node Data sentinel next data) Act.thread view queueSpec past s
  answers : Answers (machine Tid Node Data sentinel next data) Act.thread view s
  fifo : s.deqs <+: s.order.map fun entry => some entry.2
  chain : ∃ nodes, Linked s.next (some s.head) nodes ∧ s.tail ∈ nodes ∧
    nodes = s.head :: (s.order.drop s.deqs.length).map Prod.fst ∧
    ∀ t first data, s.pc t = .deqRetire first data → first ∉ nodes
  kept : ∀ entry ∈ s.order.drop s.deqs.length, s.data entry.1 = some entry.2
  once : ∀ n, n ≠ sentinel → s.retired.count n ≤ (s.order.map Prod.fst).count n ∧
    ∀ t data, s.pc t = .deqRetire n data →
      s.retired.count n < (s.order.map Prod.fst).count n
  empty : ∀ t, s.pc t = .deqRet none →
    During (fun s => s.pc t ≠ .idle) Empty (moments past s)
  asserts : ∀ t message, s.pc t ≠ .failed message

theorem vqueue_ub_safe (run : (machine Tid Node Data sentinel next data).Run past s)
    (hok : AllSteps NotSeen past) : Safe sentinel next data past s := by
  obtain ⟨⟨nodes, h⟩, hist⟩ := run_inv run hok
  refine ⟨run_linear run hok, run_answers, ?_, ⟨nodes, h.chain, h.tail, h.pending, ?_⟩, h.data, ?_,
    hist.ret, ?_⟩
  · rw [h.values]
    exact List.take_prefix _ _
  · intro t first data hat
    have hpc := h.pc t
    rw [hat] at hpc
    exact hpc.1.1
  · intro n hn
    obtain ⟨hin, hout⟩ := h.count n hn
    constructor
    · by_cases huse : InUse s nodes n
      · rw [hin huse]
        omega
      · rw [hout huse]
    · intro t data hat
      rw [hin (.inr ⟨t, by rw [hat]; rfl⟩)]
      omega
  · intro t message hfailed
    have hpc := h.pc t
    rw [hfailed] at hpc
    exact hpc

instance (s : State Bool Nat Nat) (a : Act Bool Nat Nat) : Decidable (NotSeen s a) :=
  match a with
  | .enq _ qnode _ => inferInstanceAs (Decidable (∀ u, qnode ∉ (s.pc u).sees))
  | .deq _ | .step _ => .isTrue trivial

/-- Node 1 is appended and the tail stays behind; the dequeue of the other thread
swings it, takes the data, and a second dequeue finds the queue empty. Then node 2
is appended and dequeued, node 1 is retired, and node 1 is enqueued again. -/
def lagging : List (Act Bool Nat Nat) :=
  [.enq true 1 7, .step true, .step true, .step true, .step true, .step true, .step true,
    .deq false, .step false, .step false, .step false, .step false, .step false, .step false,
    .step false, .step false, .step false, .step false, .step false, .step false,
    .step true,
    .deq false, .step false, .step false, .step false, .step false, .step false,
    .enq true 2 8, .step true, .step true, .step true, .step true, .step true,
    .step true, .step true,
    .deq false, .step false, .step false, .step false, .step false, .step false, .step false,
    .step false, .step false, .enq true 1 9]

theorem vqueue_ub_safe_lagging :
    ∃ past s, (machine Bool Nat Nat 0 (fun _ => none) fun _ => none).Run past s ∧
      AllSteps NotSeen past ∧ Safe 0 (fun _ => none) (fun _ => none) past s ∧
        s.deqs = [some 7, some 8] ∧ s.retired = [1] := by
  let M := machine Bool Nat Nat 0 (fun _ => none) fun _ => none
  have hexec : (M.exec (vqueueUbInit 0 (fun _ => none) fun _ => none) lagging).map
      (fun s => (s.deqs, s.retired)) = some ([some 7, some 8], [1]) := by
    decide +kernel
  obtain ⟨s, hs, hview⟩ := Option.map_eq_some_iff.mp hexec
  obtain ⟨hdeqs, hretired⟩ := Prod.mk.inj hview
  have hok : ∀ p ∈ M.pastOf (vqueueUbInit 0 (fun _ => none) fun _ => none) [] lagging,
      NotSeen p.1 p.2 := by
    decide +kernel
  have run := (Machine.Run.start (M := M) rfl).exec hs
  exact ⟨_, s, run, hok, vqueue_ub_safe run hok, hdeqs, hretired⟩

end Libvsync.Queue.UnboundedLf
