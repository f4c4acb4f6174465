import Libvsync.Core.Linear
import Mathlib.Data.BitVec

/-!
The portable versions of the atomic operations. Where a processor has no instruction for an
operation, it is a loop around reads and a compare-and-swap of the word. Such a loop is an
atomic operation all the same: it takes effect in the step that reads the value it returns.
A read, a compare-and-swap and every operation with an instruction of its own is one step.
-/

namespace Libvsync.Atomic.Fallback

open Libvsync.Core

variable {w : Nat}

/-- The conditions of `await_le`, `await_lt`, `await_ge` and `await_gt`. -/
inductive Cmp where
  | le
  | lt
  | ge
  | gt
  deriving DecidableEq

def Cmp.holds : Cmp → BitVec w → BitVec w → Bool
  | .le, old, c => old.ule c
  | .lt, old, c => old.ult c
  | .ge, old, c => c.ule old
  | .gt, old, c => c.ult old

/-- What the operations that end in `_add`, `_sub` and `_set` store. -/
inductive Upd where
  | add
  | sub
  | set
  deriving DecidableEq

def Upd.apply : Upd → BitVec w → BitVec w → BitVec w
  | .add, old, v => old + v
  | .sub, old, v => old - v
  | .set, _, v => v

/-- A call. `rmw f` is an operation with an instruction of its own, such as a write or a
`get_add`: it stores `f` of the old value, which it returns. -/
inductive Op (w : Nat) where
  | rmw (f : BitVec w → BitVec w)
  | getMax (v : BitVec w)
  | maxGet (v : BitVec w)
  | awaitNeq (c : BitVec w)
  | awaitEq (c : BitVec w)
  | await (cmp : Cmp) (c : BitVec w)
  | awaitNeqUpd (upd : Upd) (c v : BitVec w)
  | awaitEqUpd (upd : Upd) (c v : BitVec w)
  | awaitUpd (cmp : Cmp) (upd : Upd) (c v : BitVec w)

/-- Where a call stands. `spin` has a value in hand that it waits to see replaced, `cas` is
about to compare the word with the value in hand. -/
inductive Pc (w : Nat) where
  | idle
  | start (op : Op w)
  | spin (op : Op w) (cur : BitVec w)
  | cas (op : Op w) (old : BitVec w)
  | ret (op : Op w) (result : BitVec w)

/-- The value that a call returns, given the value of the word that it took effect at. -/
def Op.result : Op w → BitVec w → BitVec w
  | .maxGet v, old => if v.ule old then old else v
  | _, old => old

/-- The third argument of the compare-and-swap. -/
def Op.stores : Op w → BitVec w → BitVec w
  | .getMax v, _ | .maxGet v, _ => v
  | .awaitNeqUpd upd _ v, old | .awaitEqUpd upd _ v, old | .awaitUpd _ upd _ v, old =>
    upd.apply old v
  | _, old => old

/-- What the loop does with a value that was read. -/
def Op.loop (op : Op w) (cur : BitVec w) : Pc w :=
  match op with
  | .rmw _ => .ret op cur
  | .getMax v | .maxGet v => if v.ule cur then .ret op (op.result cur) else .cas op cur
  | .awaitNeq c => if cur = c then .start op else .ret op cur
  | .awaitEq c => if cur = c then .ret op cur else .spin op cur
  | .await cmp c => if cmp.holds cur c then .ret op cur else .spin op cur
  | .awaitNeqUpd _ c _ => if cur = c then .start op else .cas op cur
  | .awaitEqUpd _ c _ => if cur = c then .cas op cur else .start op
  | .awaitUpd cmp _ c _ => if cmp.holds cur c then .cas op cur else .spin op cur

/-- After a failed compare-and-swap: some loops go on with the value that it has read, the
others read again. -/
def Op.retry (op : Op w) (cur : BitVec w) : Pc w :=
  match op with
  | .awaitNeqUpd _ _ _ | .awaitEqUpd _ _ _ => .start op
  | _ => op.loop cur

/-- The next access of the word by a call, and where the call stands then. -/
def access (word : BitVec w) : Pc w → Option (BitVec w × Pc w)
  | .idle | .ret _ _ => none
  | .start (.rmw f) => some (f word, .ret (.rmw f) word)
  | .start op => some (word, op.loop word)
  -- `vatomic_await_eq` returns the last value before the one that it waits for.
  | .spin (.awaitEq c) last =>
    some (word, if word = c then .ret (.awaitEq c) last else .spin (.awaitEq c) word)
  -- `vatomic_await_neq` of the value in hand
  | .spin op cur => some (word, if word = cur then .spin op cur else op.loop word)
  | .cas op old =>
    if word = old then some (op.stores old, .ret op (op.result old))
    else some (word, op.retry word)

structure State (Tid : Type) (w : Nat) where
  word : BitVec w
  pc : Tid → Pc w

inductive Act (Tid : Type) (w : Nat) where
  | call (t : Tid) (op : Op w)
  | next (t : Tid)
  | leave (t : Tid)

variable {Tid : Type} [DecidableEq Tid]

def State.goto (s : State Tid w) (t : Tid) (word : BitVec w) (pc : Pc w) : State Tid w :=
  ⟨word, Function.update s.pc t pc⟩

def step (s : State Tid w) : Act Tid w → Option (State Tid w)
  | .call t op =>
    match s.pc t with
    | .idle => some (s.goto t s.word (.start op))
    | _ => none
  | .next t => (access s.word (s.pc t)).map fun p => s.goto t p.1 p.2
  | .leave t =>
    match s.pc t with
    | .ret _ _ => some (s.goto t s.word .idle)
    | _ => none

/-- Threads that work on one word, which begins with any value. -/
def machine (Tid : Type) [DecidableEq Tid] (w : Nat) : Machine (State Tid w) (Act Tid w) where
  start s := ∀ t, s.pc t = .idle
  step := step

def Act.thread : Act Tid w → Tid
  | .call t _ | .next t | .leave t => t

/-- The values of the word at which a call may take effect. -/
def Op.ready : Op w → BitVec w → Bool
  | .rmw _, _ | .getMax _, _ | .maxGet _, _ => true
  | .awaitNeq c, old | .awaitNeqUpd _ c _, old => old != c
  | .awaitEq c, old | .awaitEqUpd _ c _, old => old == c
  | .await cmp c, old | .awaitUpd cmp _ c _, old => cmp.holds old c

/-- The new value of the word. -/
def Op.update : Op w → BitVec w → BitVec w
  | .rmw f, old => f old
  | .getMax v, old | .maxGet v, old => if v.ule old then old else v
  | .awaitNeq _, old | .awaitEq _, old | .await _ _, old => old
  | .awaitNeqUpd upd _ v, old | .awaitEqUpd upd _ v, old | .awaitUpd _ upd _ v, old =>
    upd.apply old v

/-- The operation as one step. What `await_eq` returns is not part of it. -/
def spec (word : BitVec w) (op : Op w) (result word' : BitVec w) : Prop :=
  op.ready word = true ∧ word' = op.update word ∧
    (result = op.result word ∨ ∃ c, op = .awaitEq c)

def Pc.settled : Pc w → Option (Op w × BitVec w)
  | .ret op result => some (op, result)
  | _ => none

/-- The call that is in progress. -/
def Pc.op : Pc w → Option (Op w)
  | .idle => none
  | .start op | .spin op _ | .cas op _ | .ret op _ => some op

def view : View (State Tid w) Tid (BitVec w) (Op w) (BitVec w) where
  abs s := s.word
  busy t s := s.pc t ≠ .idle
  settled t s := (s.pc t).settled
  settled_busy t s x h hidle := by
    rw [hidle] at h
    cases h

/-- The value in hand of a loop that spins does not meet the condition; a compare-and-swap
expects a value that does, and stores what the operation makes of it. -/
def PcOk : Pc w → Prop
  | .spin op cur => op.ready cur = false
  | .cas op old => op.ready old = true ∧ op.stores old = op.update old ∧ ∀ f, op ≠ .rmw f
  | _ => True

/-- The value of the word is good enough for the call to end. -/
inductive Outcome (op : Op w) (word : BitVec w) : BitVec w → Pc w → Prop
  | wait {pc : Pc w} (unsettled : pc.settled = none) (same : pc.op = some op) (ok : PcOk pc) :
      Outcome op word word pc
  | done {word' result : BitVec w} (meets : spec word op result word') :
      Outcome op word word' (.ret op result)

theorem Op.loop_outcome (op : Op w) (hop : ∀ f, op ≠ .rmw f) (word : BitVec w) :
    Outcome op word word (op.loop word) := by
  cases op with
  | rmw f => exact absurd rfl (hop f)
  | getMax v | maxGet v =>
    dsimp only [Op.loop]
    split
    · apply Outcome.done
      refine ⟨rfl, ?_, .inl rfl⟩
      rw [Op.update, if_pos ‹_›]
    · apply Outcome.wait rfl rfl
      refine ⟨rfl, ?_, hop⟩
      rw [Op.update, if_neg ‹_›, Op.stores]
  | awaitNeq c =>
    dsimp only [Op.loop]
    split
    · exact .wait rfl rfl trivial
    · exact .done ⟨bne_iff_ne.mpr ‹_›, rfl, .inl rfl⟩
  | awaitEq c =>
    dsimp only [Op.loop]
    split
    · exact .done ⟨beq_iff_eq.mpr ‹_›, rfl, .inl rfl⟩
    · exact .wait rfl rfl (beq_eq_false_iff_ne.mpr ‹_›)
  | await cmp c =>
    dsimp only [Op.loop]
    split
    · exact .done ⟨‹_›, rfl, .inl rfl⟩
    · exact .wait rfl rfl (Bool.eq_false_iff.mpr ‹_›)
  | awaitNeqUpd upd c v =>
    dsimp only [Op.loop]
    split
    · exact .wait rfl rfl trivial
    · exact .wait rfl rfl ⟨bne_iff_ne.mpr ‹_›, rfl, hop⟩
  | awaitEqUpd upd c v =>
    dsimp only [Op.loop]
    split
    · exact .wait rfl rfl ⟨beq_iff_eq.mpr ‹_›, rfl, hop⟩
    · exact .wait rfl rfl trivial
  | awaitUpd cmp upd c v =>
    dsimp only [Op.loop]
    split
    · exact .wait rfl rfl ⟨‹_›, rfl, hop⟩
    · exact .wait rfl rfl (Bool.eq_false_iff.mpr ‹_›)

theorem Op.retry_outcome (op : Op w) (hop : ∀ f, op ≠ .rmw f) (word : BitVec w) :
    Outcome op word word (op.retry word) := by
  unfold Op.retry
  split
  · exact .wait rfl rfl trivial
  · exact .wait rfl rfl trivial
  · exact op.loop_outcome hop word

/-- What the next access of a call does. -/
theorem access_outcome {word word' : BitVec w} {pc pc' : Pc w} (hok : PcOk pc)
    (h : access word pc = some (word', pc')) :
    ∃ op, pc.op = some op ∧ pc.settled = none ∧ Outcome op word word' pc' := by
  cases pc with
  | idle => cases h
  | ret op result => cases h
  | start op =>
    refine ⟨op, rfl, rfl, ?_⟩
    by_cases hrmw : ∃ f, op = .rmw f
    · obtain ⟨f, rfl⟩ := hrmw
      cases h
      exact .done ⟨rfl, rfl, .inl rfl⟩
    · have hop : ∀ f, op ≠ .rmw f := not_exists.mp hrmw
      have hread : access word (.start op) = some (word, op.loop word) := by
        cases op with
        | rmw f => exact absurd rfl (hop f)
        | _ => rfl
      rw [hread] at h
      cases h
      exact op.loop_outcome hop word
  | spin op cur =>
    refine ⟨op, rfl, rfl, ?_⟩
    have hop : ∀ f, op ≠ .rmw f := by
      rintro f rfl
      cases hok
    by_cases heq : ∃ c, op = .awaitEq c
    · obtain ⟨c, rfl⟩ := heq
      dsimp only [access] at h
      split at h
      · cases h
        exact .done ⟨beq_iff_eq.mpr ‹_›, rfl, .inr ⟨c, rfl⟩⟩
      · cases h
        exact .wait rfl rfl (beq_eq_false_iff_ne.mpr ‹_›)
    · have hread : access word (.spin op cur) =
          some (word, if word = cur then .spin op cur else op.loop word) := by
        cases op with
        | awaitEq c => exact absurd ⟨c, rfl⟩ heq
        | _ => rfl
      rw [hread] at h
      split at h
      · cases h
        exact .wait rfl rfl hok
      · cases h
        exact op.loop_outcome hop word
  | cas op old =>
    refine ⟨op, rfl, rfl, ?_⟩
    obtain ⟨hready, hstores, hop⟩ := hok
    dsimp only [access] at h
    split at h
    · cases h
      subst word
      exact .done ⟨hready, hstores, .inl rfl⟩
    · cases h
      exact op.retry_outcome hop word

variable {s s' : State Tid w} {t u : Tid}

theorem goto_pc_of_ne (s : State Tid w) (word : BitVec w) (pc : Pc w) (h : u ≠ t) :
    (s.goto t word pc).pc u = s.pc u :=
  Function.update_of_ne h _ _

theorem goto_pc_self (s : State Tid w) (t : Tid) (word : BitVec w) (pc : Pc w) :
    (s.goto t word pc).pc t = pc :=
  Function.update_self ..

/-- A step moves the thread of its label: a call begins, accesses the word or ends. -/
theorem step_cases {a : Act Tid w} (h : step s a = some s') :
    (∃ op, s.pc a.thread = .idle ∧ s' = s.goto a.thread s.word (.start op)) ∨
    (∃ word' pc', access s.word (s.pc a.thread) = some (word', pc') ∧
      s' = s.goto a.thread word' pc') ∨
    (∃ op result, s.pc a.thread = .ret op result ∧ s' = s.goto a.thread s.word .idle) := by
  cases a with
  | call t op =>
    dsimp only [step] at h
    split at h
    · exact .inl ⟨op, ‹_›, (Option.some.inj h).symm⟩
    · cases h
  | next t =>
    obtain ⟨p, hp, hs⟩ := Option.map_eq_some_iff.mp h
    exact .inr (.inl ⟨p.1, p.2, hp, hs.symm⟩)
  | leave t =>
    dsimp only [step] at h
    split at h
    · exact .inr (.inr ⟨_, _, ‹_›, (Option.some.inj h).symm⟩)
    · cases h

theorem PcOk.goto (hpcs : ∀ u, PcOk (s.pc u)) {word : BitVec w} {pc : Pc w} (hpc : PcOk pc)
    (u : Tid) : PcOk ((s.goto t word pc).pc u) := by
  by_cases hu : u = t
  · rw [hu, goto_pc_self]
    exact hpc
  · rw [goto_pc_of_ne s word pc hu]
    exact hpcs u

theorem Outcome.ok {op : Op w} {word word' : BitVec w} {pc : Pc w}
    (h : Outcome op word word' pc) : PcOk pc := by
  cases h with
  | wait _ _ ok => exact ok
  | done _ => trivial

theorem Outcome.busy {op : Op w} {word word' : BitVec w} {pc : Pc w}
    (h : Outcome op word word' pc) : pc ≠ .idle := by
  rintro rfl
  cases h with
  | wait _ same => cases same

variable {past : List (State Tid w × Act Tid w)}

theorem Run.pcOk (run : (machine Tid w).Run past s) : ∀ u, PcOk (s.pc u) := by
  apply run.invariant (I := fun s => ∀ u, PcOk (s.pc u))
  · intro s hstart u
    rw [hstart u]
    trivial
  · intro s a s' hpcs hstep
    rcases step_cases hstep with ⟨op, -, rfl⟩ | ⟨word', pc', haccess, rfl⟩ | ⟨op, r, -, rfl⟩
    · exact PcOk.goto hpcs trivial
    · obtain ⟨op, -, -, houtcome⟩ := access_outcome (hpcs a.thread) haccess
      exact PcOk.goto hpcs houtcome.ok
    · exact PcOk.goto hpcs trivial

theorem goto_settled_of_ne (s : State Tid w) (word : BitVec w) (pc : Pc w) (h : u ≠ t) :
    view.settled u (s.goto t word pc) = view.settled u s :=
  congrArg Pc.settled (goto_pc_of_ne s word pc h)

theorem goto_settled_self (s : State Tid w) (t : Tid) (word : BitVec w) (pc : Pc w) :
    view.settled t (s.goto t word pc) = pc.settled :=
  congrArg Pc.settled (goto_pc_self s t word pc)

/-- Each step moves one call, and the word changes only in a step that settles it. -/
theorem step_moves {a : Act Tid w} (hpcs : ∀ u, PcOk (s.pc u)) (hstep : step s a = some s') :
    Moves view spec a.thread past s s' := by
  rcases step_cases hstep with ⟨op, hidle, rfl⟩ | ⟨word', pc', haccess, rfl⟩ | ⟨op, r, hret, rfl⟩
  · constructor
    · refine Move.walk rfl ?_
      rw [goto_settled_self]
      show none = (s.pc a.thread).settled
      rw [hidle]
      rfl
    · intro u hu
      exact goto_settled_of_ne s _ _ hu
  · obtain ⟨op, -, hbefore, houtcome⟩ := access_outcome (hpcs a.thread) haccess
    constructor
    · cases houtcome with
      | wait unsettled =>
        refine Move.walk rfl ?_
        rw [goto_settled_self]
        exact unsettled.trans hbefore.symm
      | @done _ result meets =>
        refine Move.settle op result hbefore ?_ meets
        rw [goto_settled_self]
        rfl
    · intro u hu
      exact goto_settled_of_ne s _ _ hu
  · constructor
    · refine Move.leave rfl ?_
      intro hbusy
      exact hbusy (goto_pc_self s _ _ _)
    · intro u hu
      exact goto_settled_of_ne s _ _ hu

/-- A call takes effect in a step of its own: none has its result from an earlier moment. -/
theorem Run.took (run : (machine Tid w).Run past s) {op : Op w} {r : BitVec w}
    (h : view.settled t s = some (op, r)) :
    Took (view.busy t) (fun s a s' => a.thread = t ∧ spec s.word op r s'.word) past s := by
  induction run with
  | @start s hstart =>
    have hidle : (s.pc t).settled = some (op, r) := h
    rw [hstart t] at hidle
    cases hidle
  | @step past s s' a prior hstep ih =>
    have hbusy : view.busy t s' := view.settled_busy t s' _ h
    rcases step_cases hstep with ⟨op', -, rfl⟩ | ⟨word', pc', haccess, rfl⟩ | ⟨op', r', -, rfl⟩ <;>
      by_cases ht : t = a.thread
    · rw [ht, goto_settled_self] at h
      cases h
    · rw [goto_settled_of_ne s _ _ ht] at h
      exact .before hbusy (ih h)
    · rw [ht, goto_settled_self] at h
      obtain ⟨op', -, -, houtcome⟩ := access_outcome (Run.pcOk prior a.thread) haccess
      cases houtcome with
      | wait unsettled =>
        rw [unsettled] at h
        cases h
      | done meets =>
        cases h
        exact .now hbusy ⟨ht.symm, meets⟩
    · rw [goto_settled_of_ne s _ _ ht] at h
      exact .before hbusy (ih h)
    · rw [ht, goto_settled_self] at h
      cases h
    · rw [goto_settled_of_ne s _ _ ht] at h
      exact .before hbusy (ih h)

theorem step_answers {a : Act Tid w} (hpcs : ∀ u, PcOk (s.pc u)) (hstep : step s a = some s')
    (hbusy : view.busy a.thread s) :
    view.busy a.thread s' ∨ ∃ x, view.settled a.thread s = some x := by
  rcases step_cases hstep with ⟨op, hidle, -⟩ | ⟨word', pc', haccess, rfl⟩ | ⟨op, r, hret, -⟩
  · exact absurd hidle hbusy
  · obtain ⟨op, -, -, houtcome⟩ := access_outcome (hpcs a.thread) haccess
    left
    show (s.goto a.thread word' pc').pc a.thread ≠ .idle
    rw [goto_pc_self]
    exact houtcome.busy
  · right
    refine ⟨(op, r), ?_⟩
    show (s.pc a.thread).settled = _
    rw [hret]
    rfl

/-- Thread `t`, with the others standing still, returns from its call. -/
def Returns (s : State Tid w) (t : Tid) (op : Op w) : Prop :=
  ∃ s' result, (machine Tid w).Steps (.next t) s s' ∧ s'.pc t = .ret op result

theorem Returns.head {op : Op w} {word' : BitVec w} {pc' : Pc w}
    (haccess : access s.word (s.pc t) = some (word', pc')) (h : Returns (s.goto t word' pc') t op) :
    Returns s t op := by
  obtain ⟨last, result, hsteps, hret⟩ := h
  have hstep : (machine Tid w).step s (.next t) = some (s.goto t word' pc') := by
    show (access s.word (s.pc t)).map _ = _
    rw [haccess]
    rfl
  exact ⟨last, result, hsteps.head hstep, hret⟩

theorem Returns.of_ret {op : Op w} {result : BitVec w} (h : s.pc t = .ret op result) :
    Returns s t op :=
  ⟨s, result, Relation.ReflTransGen.refl, h⟩

/-- A call that has read a value which is good enough compares the word with it or is done. -/
theorem Op.loop_ready {op : Op w} {word : BitVec w} (hready : op.ready word = true) :
    (∃ result, op.loop word = .ret op result) ∨ op.loop word = .cas op word := by
  cases op with
  | rmw f => exact .inl ⟨word, rfl⟩
  | getMax v | maxGet v =>
    dsimp only [Op.loop]
    split
    · exact .inl ⟨_, rfl⟩
    · exact .inr rfl
  | awaitNeq c => exact .inl ⟨word, if_neg (bne_iff_ne.mp hready)⟩
  | awaitEq c => exact .inl ⟨word, if_pos (beq_iff_eq.mp hready)⟩
  | await cmp c => exact .inl ⟨word, if_pos hready⟩
  | awaitNeqUpd upd c v => exact .inr (if_neg (bne_iff_ne.mp hready))
  | awaitEqUpd upd c v => exact .inr (if_pos (beq_iff_eq.mp hready))
  | awaitUpd cmp upd c v => exact .inr (if_pos hready)

theorem returns_of_cas {op : Op w} (h : s.pc t = .cas op s.word) : Returns s t op := by
  have haccess : access s.word (s.pc t) =
      some (op.stores s.word, .ret op (op.result s.word)) := by
    rw [h]
    exact if_pos rfl
  apply Returns.head haccess
  exact .of_ret (goto_pc_self s t _ _)

theorem returns_of_loop {op : Op w} (hready : op.ready s.word = true)
    (h : s.pc t = op.loop s.word) : Returns s t op := by
  rcases Op.loop_ready hready with ⟨result, hloop⟩ | hloop
  · exact .of_ret (h.trans hloop)
  · exact returns_of_cas (h.trans hloop)

theorem returns_of_start {op : Op w} (hready : op.ready s.word = true)
    (h : s.pc t = .start op) : Returns s t op := by
  by_cases hrmw : ∃ f, op = .rmw f
  · obtain ⟨f, rfl⟩ := hrmw
    have haccess : access s.word (s.pc t) = some (f s.word, .ret (.rmw f) s.word) := by
      rw [h]
      rfl
    apply Returns.head haccess
    exact .of_ret (goto_pc_self s t _ _)
  · have haccess : access s.word (s.pc t) = some (s.word, op.loop s.word) := by
      rw [h]
      cases op with
      | rmw f => exact absurd ⟨f, rfl⟩ hrmw
      | _ => rfl
    apply Returns.head haccess
    exact returns_of_loop hready (goto_pc_self s t _ _)

theorem returns_of_spin {op : Op w} {cur : BitVec w} (hok : PcOk (.spin op cur))
    (hready : op.ready s.word = true) (h : s.pc t = .spin op cur) : Returns s t op := by
  have hne : s.word ≠ cur := by
    rintro rfl
    exact Bool.false_ne_true (hok.symm.trans hready)
  by_cases heq : ∃ c, op = .awaitEq c
  · obtain ⟨c, rfl⟩ := heq
    have haccess : access s.word (s.pc t) = some (s.word, .ret (.awaitEq c) cur) := by
      rw [h]
      exact congrArg (fun pc => some (s.word, pc)) (if_pos (beq_iff_eq.mp hready))
    apply Returns.head haccess
    exact .of_ret (goto_pc_self s t _ _)
  · have haccess : access s.word (s.pc t) = some (s.word, op.loop s.word) := by
      rw [h]
      cases op with
      | awaitEq c => exact absurd ⟨c, rfl⟩ heq
      | _ => exact congrArg (fun pc => some (s.word, pc)) (if_neg hne)
    apply Returns.head haccess
    exact returns_of_loop hready (goto_pc_self s t _ _)

theorem returns_of_ready {op : Op w} (hok : PcOk (s.pc t)) (hop : (s.pc t).op = some op)
    (hready : op.ready s.word = true) : Returns s t op := by
  rcases hpc : s.pc t with _ | op' | ⟨op', cur⟩ | ⟨op', old⟩ | ⟨op', result⟩
  · rw [hpc] at hop
    cases hop
  · rw [hpc] at hop
    cases hop
    exact returns_of_start hready hpc
  · rw [hpc] at hop hok
    cases hop
    exact returns_of_spin hok hready hpc
  · rw [hpc] at hop
    cases hop
    by_cases hsame : s.word = old
    · subst old
      exact returns_of_cas hpc
    · have haccess : access s.word (s.pc t) = some (s.word, op.retry s.word) := by
        rw [hpc]
        exact if_neg hsame
      apply Returns.head haccess
      unfold Op.retry
      split
      · exact returns_of_start hready (goto_pc_self s t _ _)
      · exact returns_of_start hready (goto_pc_self s t _ _)
      · exact returns_of_loop hready (goto_pc_self s t _ _)
  · rw [hpc] at hop
    cases hop
    exact .of_ret hpc

/-- The word was changed in a step that `t` did not take, since the loop of `t` has read the value
`old` that it is about to compare with the word. -/
def Disturbed (past : List (State Tid w × Act Tid w)) (s : State Tid w) (t : Tid) (op : Op w)
    (old : BitVec w) : Prop :=
  Took (fun s => s.pc t = .cas op old) (fun s a s' => a.thread ≠ t ∧ s'.word ≠ s.word) past s

theorem Op.loop_cas {op op' : Op w} {cur old : BitVec w} (h : op.loop cur = .cas op' old) :
    cur = old := by
  cases op <;> dsimp only [Op.loop] at h <;> first | (split at h) | skip
  all_goals cases h
  all_goals rfl

theorem Op.retry_cas {op op' : Op w} {cur old : BitVec w} (h : op.retry cur = .cas op' old) :
    cur = old := by
  unfold Op.retry at h
  split at h
  · cases h
  · cases h
  · exact Op.loop_cas h

/-- A compare-and-swap expects what was read last. -/
theorem access_cas {word word' old : BitVec w} {pc : Pc w} {op : Op w}
    (h : access word pc = some (word', .cas op old)) : word' = old := by
  cases pc with
  | idle => cases h
  | ret op' result => cases h
  | start op' =>
    by_cases hrmw : ∃ f, op' = .rmw f
    · obtain ⟨f, rfl⟩ := hrmw
      cases h
    · have hread : access word (.start op') = some (word, op'.loop word) := by
        cases op' with
        | rmw f => exact absurd ⟨f, rfl⟩ hrmw
        | _ => rfl
      obtain ⟨rfl, hloop⟩ := Prod.mk.inj (Option.some.inj (hread.symm.trans h))
      exact Op.loop_cas hloop
  | spin op' cur =>
    by_cases heq : ∃ c, op' = .awaitEq c
    · obtain ⟨c, rfl⟩ := heq
      dsimp only [access] at h
      split at h <;> cases h
    · have hread : access word (.spin op' cur) =
          some (word, if word = cur then .spin op' cur else op'.loop word) := by
        cases op' with
        | awaitEq c => exact absurd ⟨c, rfl⟩ heq
        | _ => rfl
      obtain ⟨rfl, hloop⟩ := Prod.mk.inj (Option.some.inj (hread.symm.trans h))
      split at hloop
      · cases hloop
      · exact Op.loop_cas hloop
  | cas op' old' =>
    dsimp only [access] at h
    split at h
    · cases h
    · obtain ⟨rfl, hretry⟩ := Prod.mk.inj (Option.some.inj h)
      exact Op.retry_cas hretry

/-- A compare-and-swap fails only when another thread has changed the word since it was read. -/
theorem Run.disturbed (run : (machine Tid w).Run past s) {op : Op w} {old : BitVec w}
    (h : s.pc t = .cas op old) (hchanged : s.word ≠ old) : Disturbed past s t op old := by
  induction run with
  | start hstart =>
    rw [hstart t] at h
    cases h
  | @step past s s' a prior hstep ih =>
    by_cases ht : t = a.thread
    · exfalso
      rcases step_cases hstep with ⟨op', -, rfl⟩ | ⟨word', pc', haccess, rfl⟩ | ⟨op', r, -, rfl⟩
      · rw [ht, goto_pc_self] at h
        cases h
      · rw [ht, goto_pc_self] at h
        subst h
        exact hchanged (access_cas haccess)
      · rw [ht, goto_pc_self] at h
        cases h
    · have hpc : s.pc t = .cas op old := by
        rcases step_cases hstep with ⟨op', -, rfl⟩ | ⟨word', pc', -, rfl⟩ | ⟨op', r, -, rfl⟩ <;>
          rwa [goto_pc_of_ne s _ _ ht] at h
      by_cases hword : s'.word = s.word
      · rw [hword] at hchanged
        exact .before h (ih hpc hchanged)
      · exact .now h ⟨Ne.symm ht, hword⟩

/-- What callers of the operations rely on. -/
structure Indivisible (past : List (State Tid w × Act Tid w)) (s : State Tid w) : Prop where
  /-- A call takes effect in one step, at a value of the word that it may take effect at. -/
  linear : Linear (machine Tid w) Act.thread view spec past s
  /-- A call whose condition is met returns when the other threads stand still. -/
  returns : ∀ t op, (s.pc t).op = some op → op.ready s.word = true → Returns s t op
  /-- The step in which it takes effect is one of its own. -/
  own : ∀ t op r, view.settled t s = some (op, r) → Took (view.busy t)
    (fun s a s' => a.thread = t ∧ spec s.word op r s'.word) past s
  /-- A call returns only when it has taken effect. -/
  answers : Answers (machine Tid w) Act.thread view s
  /-- A compare-and-swap fails only when another thread has changed the word since it was read. -/
  disturbed : ∀ t op old, s.pc t = .cas op old → s.word ≠ old → Disturbed past s t op old

/-- For any number of threads, any mix of operations on a word of any width and every
interleaving, the loops are atomic operations. -/
theorem fallback_atomic {past : List (State Tid w × Act Tid w)}
    (run : (machine Tid w).Run past s) : Indivisible past s := by
  constructor
  · apply run.linear_always
    · intro s hstart t
      show (s.pc t).settled = none
      rw [hstart t]
      rfl
    · intro past s a s' run hstep
      exact step_moves (Run.pcOk run) hstep
  · intro t op hop hready
    exact returns_of_ready (Run.pcOk run t) hop hready
  · intro t op r hsettled
    exact Run.took run hsettled
  · intro a s' hstep hbusy
    exact step_answers (Run.pcOk run) hstep hbusy
  · intro t op old hpc hchanged
    exact Run.disturbed run hpc hchanged

/-- Thread 0 waits to subtract two from a semaphore with one unit while thread 1 adds two. -/
def acquireOnRelease : List (Act Nat 32) :=
  [.call 0 (.awaitUpd .ge .sub 2 2), .next 0, .next 0, .call 1 (.rmw fun old => old + 2), .next 1,
    .next 0, .next 0]

/-- The semaphore has one unit. -/
def oneUnit : State Nat 32 := ⟨1, fun _ => .idle⟩

theorem acquireOnRelease_runs : ((machine Nat 32).exec oneUnit acquireOnRelease).isSome := by
  decide

theorem fallback_atomic_acquire :
    Indivisible ((machine Nat 32).pastOf oneUnit [] acquireOnRelease)
      (((machine Nat 32).exec oneUnit acquireOnRelease).get acquireOnRelease_runs) :=
  fallback_atomic (Machine.run_of_exec (fun _ => rfl) acquireOnRelease_runs)

/-- Thread 0 took its units in the step in which it saw three. -/
example : ((machine Nat 32).exec oneUnit acquireOnRelease).map
    (fun s => (s.word, (s.pc 0).settled.map Prod.snd)) = some (1, some 3) := by
  decide

end Libvsync.Atomic.Fallback
