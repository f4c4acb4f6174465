import Libvsync.Map.SkiplistCalls
import Libvsync.Map.SkiplistWalk

/-!
What the calls of the skiplist have seen. Each place of a call stands for a fact about some moment
of the call: a search or a lookup remembers where it stands, a removal that the node it marks was in
the map, and a call that fails what it fails for.
-/

namespace Libvsync.Map.Skiplist

open Libvsync.Core

variable {Tid Node Key : Type} [DecidableEq Tid] [DecidableEq Node] [LinearOrder Key]
variable {c : Config Node Key} {keyOf : Node → Key} {s s' : State Tid Node Key} {t : Tid}
variable {call : Act Tid Node Key} {f : Find Node Key} {curr : Node}
variable {busy : State Tid Node Key → Prop}
variable {past : List (State Tid Node Key × Act Tid Node Key)}

omit [DecidableEq Tid] in
/-- What a thread at this place of the call has seen. -/
def Seen (c : Config Node Key) (keyOf : Node → Key) (call : Act Tid Node Key) :
    Pc Node Key → State Tid Node Key → Prop
  | .findLevel f, s | .findDec f _, s | .findRetire f _, s | .findReload f, s =>
    Behind c keyOf f.key f.pred s
  | .findCurr f curr, s => Near c keyOf f.key f.pred f.level curr s
  | .markRead _ node _, s | .markCas _ node _ _, s => Present c s node
  | .lookupLevel key _ pred _, s => Behind c keyOf key pred s
  | .lookupCurr key _ pred level curr, s => Near c keyOf key pred level curr s
  | .lookupSkip key _ pred level curr, s => Passing c keyOf key pred level curr s
  | .addRet false outNode, s => ∀ m, outNode = some m → Present c s m
  | .removeRet false, s => ∀ t key, call = .remove t key → Absent c keyOf key s
  | .lookupRet none, s => ∀ t key, call = .lookup t key → Absent c keyOf key s
  | .lookupRet (some n), s => Present c s n
  | _, _ => True

/-- A search begins at head. -/
theorem retry_sees {s₁ : State Tid Node Key} (h : LinksInv c s) (hbusy : busy s)
    (hsafe : ∀ message, (s₁.retry c t f).pc t ≠ .failed message) :
    During busy (Seen c keyOf call ((s₁.retry c t f).pc t)) (moments past s) := by
  rw [retry_eq hsafe, goto_pc]
  exact .now hbusy h.head_behind

theorem find_sees {s₁ : State Tid Node Key} {key : Key} {specific : Option Node}
    {caller : Caller Node} (h : LinksInv c s) (hbusy : busy s)
    (hsafe : ∀ message, (s₁.find c t key specific caller).pc t ≠ .failed message) :
    During busy (Seen c keyOf call ((s₁.find c t key specific caller).pc t)) (moments past s) :=
  retry_sees h hbusy hsafe

theorem linkNext_sees {s₁ : State Tid Node Key} {a : Adding Node Key} {level : Nat}
    (hbusy : busy s) :
    During busy (Seen c keyOf call ((s₁.linkNext t a level).pc t)) (moments past s) := by
  unfold State.linkNext
  split <;> rw [goto_pc] <;> exact .now hbusy trivial

/-- A search ends at an unmarked node of the bottom level. -/
theorem findReturn_sees (ho : Ordered c keyOf)
    (hserves : f.caller.Serves call t f.key f.specific) (hlinked : s.linked curr 0 = true)
    (hunmarked : (s.next curr 0).2 = false) (hhead : curr ≠ c.head)
    (hstop : ¬ (curr ≠ c.tail ∧ c.funCmp curr f.key < 0 ∧ f.specific ≠ some curr))
    (hseen : During busy (Near c keyOf f.key f.pred 0 curr) (moments past s))
    (hsafe : ∀ message, (s.findReturn c t f curr).pc t ≠ .failed message) :
    During busy (Seen c keyOf call ((s.findReturn c t f curr).pc t)) (moments past s) := by
  have hpresent (htail : curr ≠ c.tail) : During busy (Present c · curr) (moments past s) :=
    .now hseen.busy ⟨hhead, htail, hlinked, State.not_isMarked hunmarked⟩
  unfold State.findReturn at hsafe ⊢
  cases hf : f.caller with
  | add node height =>
    dsimp only
    split <;> rw [goto_pc]
    · rename_i hfound
      refine (hpresent hfound.1).mono ?_
      rintro s₀ h₀ m ⟨⟩
      exact h₀
    · exact .now hseen.busy trivial
  | link node height level =>
    rw [goto_pc]
    exact .now hseen.busy trivial
  | remove expected =>
    rw [hf] at hserves hsafe
    dsimp only at hsafe ⊢
    split at hsafe
    · rename_i hfound
      rw [if_pos hfound, (removeNode_eq hsafe).2, goto_pc]
      exact hpresent hfound.1.1
    · rename_i hnot
      rw [if_neg hnot, goto_pc]
      cases expected with
      | none =>
        obtain ⟨rfl, hspecific⟩ := hserves
        rw [hspecific] at hstop
        have hle : keyRank f.key ≤ c.rank keyOf curr := ho.stop_le hhead fun hbelow =>
          hstop ⟨hbelow.1, hbelow.2, (Option.some_ne_none curr).symm⟩
        have hne : keyRank f.key ≠ c.rank keyOf curr := by
          intro heq
          have htail : curr ≠ c.tail := by
            rintro rfl
            exact (key_lt_last c.distinct).ne heq
          exact hnot ⟨⟨htail, (ho.rank_eq hhead htail).mp heq.symm⟩, .inl rfl⟩
        refine hseen.mono ?_
        rintro s₀ h₀ t key ⟨⟩
        exact h₀.absent (lt_of_le_of_ne hle hne)
      | some node =>
        have hcall : call = .removeNode t f.key node := hserves
        subst hcall
        exact .now hseen.busy nofun
  | detach =>
    rw [goto_pc]
    exact .now hseen.busy trivial

theorem findDown_sees (ho : Ordered c keyOf)
    (hserves : f.caller.Serves call t f.key f.specific) (hlinked : s.linked curr f.level = true)
    (hunmarked : (s.next curr f.level).2 = false) (hhead : curr ≠ c.head)
    (hstop : ¬ (curr ≠ c.tail ∧ c.funCmp curr f.key < 0 ∧ f.specific ≠ some curr))
    (hseen : During busy (Near c keyOf f.key f.pred f.level curr) (moments past s))
    (hsafe : ∀ message, (s.findDown c t f curr).pc t ≠ .failed message) :
    During busy (Seen c keyOf call ((s.findDown c t f curr).pc t)) (moments past s) := by
  unfold State.findDown at hsafe ⊢
  dsimp only at hsafe ⊢
  split at hsafe
  · rename_i hzero
    rw [if_pos hzero]
    rw [hzero] at hlinked hunmarked hseen
    refine findReturn_sees ho ?_ hlinked hunmarked hhead ?_ ?_ hsafe
    · exact hserves
    · exact hstop
    · exact hseen
  · rename_i hpos
    obtain ⟨below, hlevel⟩ := Nat.exists_eq_succ_of_ne_zero hpos
    rw [if_neg hpos, goto_pc]
    rw [hlevel] at hseen
    exact hseen

/-- The next level of a removal: at the bottom the node has been in the map before, and is marked
by another removal now. -/
theorem marked_sees (ho : Ordered c keyOf) (run : (machine Tid c).Run past s)
    (hsound : AllSteps (fun _ a => a.Sound keyOf) past) {key : Key} {node : Node} {level : Nat}
    (htakes : call.Takes t key node) (hkey : keyOf node = key)
    (hmarked : s.isMarked node level)
    (hseen : During busy (Present c · node) (moments past s)) :
    During busy (Seen c keyOf call ((s.marked c t key node level false).pc t))
      (moments past s) := by
  cases level with
  | zero =>
    rw [State.marked, if_pos rfl, if_neg Bool.false_ne_true, goto_pc]
    refine ((absent_of_marked ho run hsound hseen).2 hmarked).mono ?_
    rintro s₀ h₀ u k rfl
    rcases htakes with heq | heq
    · cases heq
      rw [← hkey]
      exact h₀
    · cases heq
  | succ level =>
    rw [State.marked, if_neg (Nat.succ_ne_zero level), goto_pc]
    exact hseen

theorem findCurr_sees (ho : Ordered c keyOf) (h : Good c keyOf s)
    (hpc : s.pc t = .findCurr f curr) (hserves : f.caller.Serves call t f.key f.specific)
    (hseen : During busy (Near c keyOf f.key f.pred f.level curr) (moments past s))
    (hstep : nextStep c s t = some s') (hsafe : ∀ message, s'.pc t ≠ .failed message) :
    During busy (Seen c keyOf call (s'.pc t)) (moments past s) := by
  have hok := h.inv.pc t
  rw [hpc] at hok
  obtain ⟨-, hlinked, hhead⟩ := hok
  simp only [nextStep, hpc] at hstep
  split at hstep
  · cases hstep
    rw [goto_pc]
    exact .now hseen.busy trivial
  · rename_i succ hread
    have hunmarked : (s.next curr f.level).2 = false := congrArg Prod.snd hread
    rw [if_neg hhead] at hstep
    split at hstep
    · rename_i hforward
      have hbelow := (ho.rank_lt hhead hforward.1).mpr hforward.2.1
      split at hstep <;> cases hstep
      · rw [goto_pc]
        exact .now hseen.busy (h.near hlinked hunmarked hbelow (congrArg Prod.fst hread))
      · exact absurd (goto_pc ..) (hsafe _)
    · rename_i hstop
      cases hstep
      exact findDown_sees ho hserves hlinked hunmarked hhead hstop hseen hsafe

theorem lookupCurr_sees (ho : Ordered c keyOf) (run : (machine Tid c).Run past s)
    (hsound : AllSteps (fun _ a => a.Sound keyOf) past) {key : Key} {acceptNext : Bool}
    {pred : Node} {level : Nat} (hpc : s.pc t = .lookupCurr key acceptNext pred level curr)
    (hcall : call = lookupCall t key acceptNext)
    (hseen : During busy (Near c keyOf key pred level curr) (moments past s))
    (hstep : nextStep c s t = some s') (hsafe : ∀ message, s'.pc t ≠ .failed message) :
    During busy (Seen c keyOf call (s'.pc t)) (moments past s) := by
  have h := run_good ho run hsound
  have hok := h.inv.pc t
  rw [hpc] at hok
  obtain ⟨-, -, -, hlinked, hhead⟩ := hok
  simp only [nextStep, hpc] at hstep
  split at hstep
  · rename_i hread
    cases hstep
    rw [goto_pc]
    exact passing_of_marked ho run hsound hseen (congrArg Prod.snd hread)
  · rename_i succ hread
    have hunmarked : (s.next curr level).2 = false := congrArg Prod.snd hread
    rw [if_neg hhead] at hstep
    split at hstep
    · rename_i hforward
      have hbelow := (ho.rank_lt hhead hforward.1).mpr hforward.2
      split at hstep <;> cases hstep
      · rw [goto_pc]
        exact .now hseen.busy (h.near hlinked hunmarked hbelow (congrArg Prod.fst hread))
      · exact absurd (goto_pc ..) (hsafe _)
    · rename_i hstop
      split at hstep <;> cases hstep <;> rw [goto_pc]
      · rename_i hzero
        subst hzero
        split
        · rename_i hfound
          exact .now hseen.busy ⟨hhead, hfound.1, hlinked, State.not_isMarked hunmarked⟩
        · rename_i hnot
          refine hseen.mono ?_
          rintro s₀ h₀ u k rfl
          cases acceptNext with
          | true => cases hcall
          | false =>
            cases hcall
            refine h₀.absent (lt_of_le_of_ne (ho.stop_le hhead hstop) fun heq => ?_)
            have htail : curr ≠ c.tail := by
              rintro rfl
              exact (key_lt_last c.distinct).ne heq
            exact hnot ⟨htail, .inl ((ho.rank_eq hhead htail).mp heq.symm)⟩
      · rename_i hpos
        obtain ⟨below, rfl⟩ := Nat.exists_eq_succ_of_ne_zero hpos
        exact hseen

/-- What a thread has seen in its call carries over to its next place. -/
theorem nextStep_sees (ho : Ordered c keyOf) (run : (machine Tid c).Run past s)
    (hsound : AllSteps (fun _ a => a.Sound keyOf) past) (hserves : (s.pc t).Serves keyOf call t)
    (hseen : During busy (Seen c keyOf call (s.pc t)) (moments past s))
    (hstep : nextStep c s t = some s') :
    During busy (Seen c keyOf call (s'.pc t)) (moments past s) := by
  have h := run_good ho run hsound
  have hlinks := h.inv.heap.toLinksInv
  have hsafe : ∀ message, s'.pc t ≠ .failed message := step_safe (a := .step t) h.inv hstep
  have hbusy := hseen.busy
  cases hpc : s.pc t with
  | idle | failed message => simp [nextStep, hpc] at hstep
  | addRet ok outNode | removeRet ok | lookupRet result =>
    simp only [nextStep, hpc, Option.some.injEq] at hstep
    subst hstep
    rw [goto_pc]
    exact .now hbusy trivial
  | addInit key node height =>
    simp only [nextStep, hpc] at hstep
    split at hstep <;> cases hstep
    · exact find_sees hlinks hbusy hsafe
    · exact absurd (goto_pc ..) (hsafe _)
  | findLevel f =>
    rw [hpc] at hseen
    simp only [nextStep, hpc] at hstep
    split at hstep
    · split at hstep <;> cases hstep
      · rename_i hnext
        rw [goto_pc]
        exact near_of_read ho run hsound hseen hnext
      · exact absurd (goto_pc ..) (hsafe _)
    · cases hstep
      exact absurd (goto_pc ..) (hsafe _)
  | findCurr f curr =>
    rw [hpc] at hserves hseen
    exact findCurr_sees ho h hpc hserves hseen hstep hsafe
  | findSnip f curr succ =>
    have hok := h.inv.pc t
    have hsorted := h.pcs t
    rw [hpc] at hok hsorted
    simp only [nextStep, hpc] at hstep
    split at hstep <;> cases hstep
    · rename_i hold
      rw [goto_pc]
      exact .now hbusy (h.behind hok.1.pred (congrArg Prod.snd hold) hsorted.below)
    · exact retry_sees hlinks hbusy hsafe
  | findDec f curr =>
    rw [hpc] at hseen
    simp only [nextStep, hpc] at hstep
    split at hstep
    · cases hstep
      exact absurd (goto_pc ..) (hsafe _)
    · split at hstep
      · split at hstep
        · cases hstep
          exact absurd (goto_pc ..) (hsafe _)
        · split at hstep <;> cases hstep
          · exact absurd (goto_pc ..) (hsafe _)
          · rw [goto_pc]
            exact hseen
      · cases hstep
        rw [goto_pc]
        exact hseen
  | findRetire f curr =>
    rw [hpc] at hseen
    simp only [nextStep, hpc, Option.some.injEq] at hstep
    subst hstep
    rw [goto_pc]
    exact hseen
  | findReload f | lookupLevel key acceptNext pred level =>
    rw [hpc] at hseen
    simp only [nextStep, hpc] at hstep
    split at hstep <;> cases hstep
    · rename_i hnext
      rw [goto_pc]
      exact near_of_read ho run hsound hseen hnext
    · exact absurd (goto_pc ..) (hsafe _)
  | addSet a level | linkRead a level | linkSet a level curSucc mark =>
    simp only [nextStep, hpc] at hstep
    split at hstep <;> cases hstep <;> rw [goto_pc] <;> exact .now hbusy trivial
  | addLink a | linkCas a level =>
    simp only [nextStep, hpc] at hstep
    split at hstep <;> cases hstep
    · exact linkNext_sees hbusy
    · exact find_sees hlinks hbusy hsafe
  | markRead key node level =>
    rw [hpc] at hserves hseen
    simp only [nextStep, hpc] at hstep
    split at hstep <;> cases hstep
    · rename_i hread
      exact marked_sees ho run hsound hserves.1 hserves.2 (congrArg Prod.snd hread) hseen
    · rw [goto_pc]
      exact hseen
  | markCas key node level succ =>
    rw [hpc] at hseen
    simp only [nextStep, hpc] at hstep
    split at hstep <;> cases hstep
    · cases level with
      | zero => exact find_sees hlinks hbusy hsafe
      | succ level =>
        rw [State.marked, if_neg (Nat.succ_ne_zero level), goto_pc]
        exact hseen
    · rw [goto_pc]
      exact hseen
  | lookupCurr key acceptNext pred level curr =>
    rw [hpc] at hserves hseen
    exact lookupCurr_sees ho run hsound hpc hserves hseen hstep hsafe
  | lookupSkip key acceptNext pred level curr =>
    rw [hpc] at hseen
    simp only [nextStep, hpc] at hstep
    split at hstep <;> cases hstep
    · rename_i hnext
      rw [goto_pc]
      exact near_of_skip ho run hsound hseen hnext
    · exact absurd (goto_pc ..) (hsafe _)

end Libvsync.Map.Skiplist
