import Libvsync.Map.SkiplistOrder

/-!
The calls of the skiplist. A place belongs to one call, with the arguments of the call among its
local variables, and a call is settled from the step on in which it links its node at the bottom or
marks the bottom pointer of one.
-/

namespace Libvsync.Map.Skiplist

open Libvsync.Core

variable {Tid Node Key : Type}

/-- The call is a removal that may take this node. -/
def Act.Takes (call : Act Tid Node Key) (t : Tid) (key : Key) (node : Node) : Prop :=
  call = .remove t key ∨ call = .removeNode t key node

def Act.IsRemoval (call : Act Tid Node Key) (t : Tid) (key : Key) : Prop :=
  ∃ node, call.Takes t key node

def Caller.Serves (call : Act Tid Node Key) (t : Tid) (key : Key) (specific : Option Node) :
    Caller Node → Prop
  | .add node height | .link node height _ => call = .add t key node height
  | .remove none => call = .remove t key ∧ specific = none
  | .remove (some node) => call = .removeNode t key node
  | .detach => call.IsRemoval t key

/-- A lookup, or a lookup of the next key. -/
def lookupCall (t : Tid) (key : Key) : Bool → Act Tid Node Key
  | false => .lookup t key
  | true => .lookupNext t key

/-- A node that a lookup may return. -/
structure Suits [LE Key] (keyOf : Node → Key) (key : Key) (acceptNext : Bool) (n : Node) :
    Prop where
  least : key ≤ keyOf n
  exact : acceptNext = false → keyOf n = key

/-- The place belongs to this call of thread `t`. -/
def Pc.Serves [LE Key] (keyOf : Node → Key) (call : Act Tid Node Key) (t : Tid) :
    Pc Node Key → Prop
  | .idle | .failed _ => False
  | .addInit key node height => call = .add t key node height
  | .findLevel f | .findCurr f _ | .findSnip f _ _ | .findDec f _ | .findRetire f _
  | .findReload f => f.caller.Serves call t f.key f.specific
  | .addSet a _ | .addLink a | .linkRead a _ | .linkSet a _ _ _ | .linkCas a _ =>
    call = .add t a.key a.node a.height
  | .markRead key node _ | .markCas key node _ _ => call.Takes t key node ∧ keyOf node = key
  | .lookupLevel key acceptNext _ _ | .lookupCurr key acceptNext _ _ _
  | .lookupSkip key acceptNext _ _ _ => call = lookupCall t key acceptNext
  | .addRet ok outNode => ∃ key node height, call = .add t key node height ∧
      (ok = false → ∃ m, outNode = some m ∧ keyOf m = key)
  | .removeRet _ => ∃ key, call.IsRemoval t key
  | .lookupRet result => ∃ key acceptNext, call = lookupCall t key acceptNext ∧
      ∀ n, result = some n → Suits keyOf key acceptNext n

def Caller.settled : Caller Node → Bool
  | .link _ _ _ | .detach => true
  | .add _ _ | .remove _ => false

/-- The call has changed the map. -/
def Pc.settled : Pc Node Key → Bool
  | .findLevel f | .findCurr f _ | .findSnip f _ _ | .findDec f _ | .findRetire f _
  | .findReload f => f.caller.settled
  | .linkRead _ _ | .linkSet _ _ _ _ | .linkCas _ _ => true
  | .addRet ok _ | .removeRet ok => ok
  | _ => false

section Step

variable [DecidableEq Node] {c : Config Node Key} {s s' : State Tid Node Key} {t : Tid}
variable {call : Act Tid Node Key} {keyOf : Node → Key} {f : Find Node Key} {curr : Node}
variable {settled : Bool}

/-- The compare-and-swap that the thread is about to do changes the map. -/
def Pc.settles (s : State Tid Node Key) : Pc Node Key → Bool
  | .addLink a => s.next (a.preds 0) 0 = (some (a.succs 0), false)
  | .markCas _ node 0 succ => s.next node 0 = (succ, false)
  | _ => false

/-- A place of this call, which is settled there or not. -/
structure Continues [LE Key] (keyOf : Node → Key) (call : Act Tid Node Key) (t : Tid)
    (settled : Bool) (pc : Pc Node Key) : Prop where
  serves : pc.Serves keyOf call t
  settled : pc.settled = settled

variable [DecidableEq Tid] [LinearOrder Key]

section

omit [DecidableEq Node]

theorem retry_continues (hserves : f.caller.Serves call t f.key f.specific)
    (hsafe : ∀ message, (s.retry c t f).pc t ≠ .failed message) :
    Continues keyOf call t f.caller.settled ((s.retry c t f).pc t) := by
  rw [retry_eq hsafe, goto_pc]
  exact ⟨hserves, rfl⟩

theorem find_continues {key : Key} {specific : Option Node} (caller : Caller Node)
    (hserves : caller.Serves call t key specific)
    (hsafe : ∀ message, (s.find c t key specific caller).pc t ≠ .failed message) :
    Continues keyOf call t caller.settled ((s.find c t key specific caller).pc t) := by
  rw [find_eq hsafe, goto_pc]
  exact ⟨hserves, rfl⟩

theorem linkNext_continues {a : Adding Node Key} {level : Nat}
    (hserves : call = .add t a.key a.node a.height) :
    Continues keyOf call t true ((s.linkNext t a level).pc t) := by
  unfold State.linkNext
  split <;> rw [goto_pc]
  · exact ⟨hserves, rfl⟩
  · exact ⟨⟨a.key, a.node, a.height, hserves, nofun⟩, rfl⟩

/-- A removal is settled by the mark of the bottom pointer. -/
theorem marked_continues {key : Key} {node : Node} {level : Nat} {i : Bool}
    (htakes : call.Takes t key node) (hkey : keyOf node = key)
    (hsafe : ∀ message, (s.marked c t key node level i).pc t ≠ .failed message) :
    Continues keyOf call t (i && level == 0) ((s.marked c t key node level i).pc t) := by
  cases level with
  | zero =>
    cases i with
    | true => exact find_continues .detach ⟨node, htakes⟩ hsafe
    | false =>
      rw [State.marked, if_pos rfl, if_neg Bool.false_ne_true, goto_pc]
      exact ⟨⟨key, node, htakes⟩, rfl⟩
  | succ level =>
    rw [State.marked, if_neg (Nat.succ_ne_zero level), goto_pc, Bool.and_comm]
    exact ⟨⟨htakes, hkey⟩, rfl⟩

end

theorem findReturn_continues (ho : Ordered c keyOf)
    (hserves : f.caller.Serves call t f.key f.specific)
    (hsafe : ∀ message, (s.findReturn c t f curr).pc t ≠ .failed message) :
    Continues keyOf call t f.caller.settled ((s.findReturn c t f curr).pc t) := by
  unfold State.findReturn at hsafe ⊢
  cases hf : f.caller with
  | add node height =>
    rw [hf] at hserves
    have hcall : call = .add t f.key node height := hserves
    dsimp only
    split <;> rw [goto_pc]
    · rename_i hfound
      exact ⟨⟨f.key, node, height, hcall, fun _ => ⟨curr, rfl, (ho.eq _ _).mp hfound.2⟩⟩, rfl⟩
    · exact ⟨hcall, rfl⟩
  | link node height level =>
    rw [hf] at hserves
    rw [goto_pc]
    exact ⟨hserves, rfl⟩
  | remove expected =>
    rw [hf] at hserves hsafe
    have htakes (hexpected : expected = none ∨ expected = some curr) :
        call.Takes t f.key curr := by
      rcases hexpected with rfl | rfl
      · exact .inl hserves.1
      · exact .inr hserves
    dsimp only at hsafe ⊢
    split at hsafe
    · rename_i hfound
      rw [if_pos hfound, (removeNode_eq hsafe).2, goto_pc]
      exact ⟨⟨htakes hfound.2, (ho.eq _ _).mp hfound.1.2⟩, rfl⟩
    · rename_i hnot
      rw [if_neg hnot, goto_pc]
      cases expected with
      | none => exact ⟨⟨f.key, curr, .inl hserves.1⟩, rfl⟩
      | some node => exact ⟨⟨f.key, node, .inr hserves⟩, rfl⟩
  | detach =>
    rw [hf] at hserves
    rw [goto_pc]
    exact ⟨⟨f.key, hserves⟩, rfl⟩

theorem findDown_continues (ho : Ordered c keyOf)
    (hserves : f.caller.Serves call t f.key f.specific)
    (hsafe : ∀ message, (s.findDown c t f curr).pc t ≠ .failed message) :
    Continues keyOf call t f.caller.settled ((s.findDown c t f curr).pc t) := by
  unfold State.findDown at hsafe ⊢
  dsimp only at hsafe ⊢
  split at hsafe
  · rename_i hzero
    rw [if_pos hzero]
    refine findReturn_continues ho ?_ hsafe
    exact hserves
  · rename_i hpos
    rw [if_neg hpos, goto_pc]
    exact ⟨hserves, rfl⟩

/-- A step of a call returns from it or leads to a place of the call, and settles it with one of
two compare-and-swaps. -/
theorem nextStep_continues (ho : Ordered c keyOf) (hserves : (s.pc t).Serves keyOf call t)
    (hstep : nextStep c s t = some s') (hsafe : ∀ message, s'.pc t ≠ .failed message) :
    (s.pc t).settles s = false ∧ s'.pc t = .idle ∨
      Continues keyOf call t ((s.pc t).settles s || (s.pc t).settled) (s'.pc t) := by
  cases hpc : s.pc t with
  | idle | failed message => simp [nextStep, hpc] at hstep
  | addRet ok outNode | removeRet ok | lookupRet result =>
    simp only [nextStep, hpc, Option.some.injEq] at hstep
    subst hstep
    exact .inl ⟨rfl, goto_pc ..⟩
  | addInit key node height =>
    rw [hpc] at hserves
    simp only [nextStep, hpc] at hstep
    split at hstep <;> cases hstep
    · exact .inr (find_continues (.add node height) hserves hsafe)
    · exact absurd (goto_pc ..) (hsafe _)
  | findLevel f =>
    rw [hpc] at hserves
    simp only [nextStep, hpc] at hstep
    split at hstep
    · split at hstep <;> cases hstep
      · rw [goto_pc]
        exact .inr ⟨hserves, rfl⟩
      · exact absurd (goto_pc ..) (hsafe _)
    · cases hstep
      exact absurd (goto_pc ..) (hsafe _)
  | findCurr f curr =>
    rw [hpc] at hserves
    simp only [nextStep, hpc] at hstep
    split at hstep
    · cases hstep
      rw [goto_pc]
      exact .inr ⟨hserves, rfl⟩
    · split at hstep
      · cases hstep
        exact absurd (goto_pc ..) (hsafe _)
      · split at hstep
        · split at hstep <;> cases hstep
          · rw [goto_pc]
            exact .inr ⟨hserves, rfl⟩
          · exact absurd (goto_pc ..) (hsafe _)
        · cases hstep
          exact .inr (findDown_continues ho hserves hsafe)
  | findSnip f curr succ =>
    rw [hpc] at hserves
    simp only [nextStep, hpc] at hstep
    split at hstep <;> cases hstep
    · rw [goto_pc]
      exact .inr ⟨hserves, rfl⟩
    · exact .inr (retry_continues hserves hsafe)
  | findDec f curr =>
    rw [hpc] at hserves
    simp only [nextStep, hpc] at hstep
    split at hstep
    · cases hstep
      exact absurd (goto_pc ..) (hsafe _)
    · split at hstep
      · split at hstep
        · cases hstep
          exact absurd (goto_pc ..) (hsafe _)
        · split at hstep <;> cases hstep
          · exact absurd (goto_pc ..) (hsafe _)
          · rw [goto_pc]
            exact .inr ⟨hserves, rfl⟩
      · cases hstep
        rw [goto_pc]
        exact .inr ⟨hserves, rfl⟩
  | findRetire f curr =>
    rw [hpc] at hserves
    simp only [nextStep, hpc, Option.some.injEq] at hstep
    subst hstep
    rw [goto_pc]
    exact .inr ⟨hserves, rfl⟩
  | findReload f | lookupLevel key acceptNext pred level
  | lookupSkip key acceptNext pred level curr =>
    rw [hpc] at hserves
    simp only [nextStep, hpc] at hstep
    split at hstep <;> cases hstep
    · rw [goto_pc]
      exact .inr ⟨hserves, rfl⟩
    · exact absurd (goto_pc ..) (hsafe _)
  | addSet a level | linkRead a level | linkSet a level curSucc mark =>
    rw [hpc] at hserves
    simp only [nextStep, hpc] at hstep
    split at hstep <;> cases hstep <;> rw [goto_pc] <;> exact .inr ⟨hserves, rfl⟩
  | addLink a =>
    rw [hpc] at hserves
    simp only [nextStep, hpc] at hstep
    split at hstep <;> cases hstep
    · rename_i hold
      rw [Pc.settles, decide_eq_true hold]
      exact .inr (linkNext_continues hserves)
    · rename_i hold
      rw [Pc.settles, decide_eq_false hold]
      exact .inr (find_continues (.add a.node a.height) hserves hsafe)
  | linkCas a level =>
    rw [hpc] at hserves
    simp only [nextStep, hpc] at hstep
    split at hstep <;> cases hstep
    · exact .inr (linkNext_continues hserves)
    · exact .inr (find_continues (.link a.node a.height level) hserves hsafe)
  | markRead key node level =>
    rw [hpc] at hserves
    simp only [nextStep, hpc] at hstep
    split at hstep <;> cases hstep
    · exact .inr (marked_continues hserves.1 hserves.2 hsafe)
    · rw [goto_pc]
      exact .inr ⟨hserves, rfl⟩
  | markCas key node level succ =>
    rw [hpc] at hserves
    simp only [nextStep, hpc] at hstep
    split at hstep <;> cases hstep
    · rename_i hold
      have hcontinues := marked_continues hserves.1 hserves.2 hsafe
      cases level with
      | zero =>
        rw [Pc.settles, decide_eq_true hold]
        exact .inr hcontinues
      | succ level => exact .inr hcontinues
    · rename_i hold
      rw [goto_pc]
      cases level with
      | zero =>
        rw [Pc.settles, decide_eq_false hold]
        exact .inr ⟨hserves, rfl⟩
      | succ level => exact .inr ⟨hserves, rfl⟩
  | lookupCurr key acceptNext pred level curr =>
    rw [hpc] at hserves
    simp only [nextStep, hpc] at hstep
    split at hstep
    · cases hstep
      rw [goto_pc]
      exact .inr ⟨hserves, rfl⟩
    · split at hstep
      · cases hstep
        exact absurd (goto_pc ..) (hsafe _)
      · split at hstep
        · split at hstep <;> cases hstep
          · rw [goto_pc]
            exact .inr ⟨hserves, rfl⟩
          · exact absurd (goto_pc ..) (hsafe _)
        · rename_i hstop
          split at hstep <;> cases hstep <;> rw [goto_pc]
          · refine .inr ⟨⟨key, acceptNext, hserves, fun n hn => ?_⟩, rfl⟩
            obtain ⟨⟨htail, hmatch⟩, heq⟩ := Option.ite_none_right_eq_some.mp hn
            obtain rfl := Option.some.inj heq
            constructor
            · exact not_lt.mp fun hlt => hstop ⟨htail, (ho.lt _ _).mpr hlt⟩
            · rintro rfl
              exact (ho.eq _ _).mp (hmatch.resolve_right Bool.false_ne_true)
          · exact .inr ⟨hserves, rfl⟩

end Step

end Libvsync.Map.Skiplist
