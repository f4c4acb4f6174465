import Libvsync.Core.Sentinel
import Libvsync.Map.SkiplistDuty

/-!
The order of the skiplist. With a comparison that orders the keys, and nodes that are added under
their keys, the pointers of every level lead to keys that are not smaller, and those of the bottom
level to greater ones.
-/

namespace Libvsync.Map.Skiplist

open Libvsync.Core Function

variable {Tid Node Key : Type} [DecidableEq Node] [LinearOrder Key]
variable {c : Config Node Key} {keyOf : Node → Key}

/-- The comparison orders the keys of the nodes. -/
structure Ordered (c : Config Node Key) (keyOf : Node → Key) : Prop where
  lt : ∀ n k, c.funCmp n k < 0 ↔ keyOf n < k
  eq : ∀ n k, c.funCmp n k = 0 ↔ keyOf n = k

def Config.rank (c : Config Node Key) (keyOf : Node → Key) (n : Node) : WithBot (WithTop Key) :=
  sentinelRank c.head c.tail keyOf n

/-- A key lies between two nodes. -/
structure Between (c : Config Node Key) (keyOf : Node → Key) (k : Key) (pred succ : Node) :
    Prop where
  below : c.rank keyOf pred < keyRank k
  above : keyRank k ≤ c.rank keyOf succ

/-- A node is searched for in order to be added under its key. -/
def Caller.Sorted (keyOf : Node → Key) (key : Key) (specific : Option Node) :
    Caller Node → Prop
  | .add node _ => keyOf node = key ∧ specific = none
  | .link node _ level => keyOf node = key ∧ specific = none ∧ 0 < level
  | .remove _ | .detach => True

structure FindSorted (c : Config Node Key) (keyOf : Node → Key) (f : Find Node Key) : Prop where
  below : c.rank keyOf f.pred < keyRank f.key
  above : f.specific = none → ∀ l, f.level < l → l ≤ c.topLevel →
    Between c keyOf f.key (f.preds l) (f.succs l)
  caller : f.caller.Sorted keyOf f.key f.specific

structure AddingSorted (c : Config Node Key) (keyOf : Node → Key) (a : Adding Node Key) :
    Prop where
  key : keyOf a.node = a.key
  around : ∀ l ≤ c.topLevel, Between c keyOf a.key (a.preds l) (a.succs l)

def PcSorted (c : Config Node Key) (keyOf : Node → Key) : Pc Node Key → Prop
  | .addInit key node _ => keyOf node = key
  | .findLevel f | .findCurr f _ | .findSnip f _ _ | .findDec f _ | .findRetire f _
  | .findReload f => FindSorted c keyOf f
  | .addSet a _ | .addLink a =>
    AddingSorted c keyOf a ∧ keyRank a.key < c.rank keyOf (a.succs 0)
  | .linkRead a level | .linkSet a level _ _ | .linkCas a level =>
    AddingSorted c keyOf a ∧ 0 < level
  | _ => True

/-- Pointers lead on, at the bottom strictly. -/
def SortInv (c : Config Node Key) (keyOf : Node → Key) (s : State Tid Node Key) : Prop :=
  ∀ n l m, s.linked n l = true → (s.next n l).1 = some m →
    c.rank keyOf n ≤ c.rank keyOf m ∧ (l = 0 → c.rank keyOf n < c.rank keyOf m)

section Rank

variable {n : Node} {k : Key}

theorem Ordered.rank_lt (ho : Ordered c keyOf) (hhead : n ≠ c.head) (htail : n ≠ c.tail) :
    c.rank keyOf n < keyRank k ↔ c.funCmp n k < 0 := by
  rw [Config.rank, sentinelRank_of_ne hhead htail, keyRank_lt, ho.lt]

theorem Ordered.rank_eq (ho : Ordered c keyOf) (hhead : n ≠ c.head) (htail : n ≠ c.tail) :
    c.rank keyOf n = keyRank k ↔ c.funCmp n k = 0 := by
  rw [Config.rank, sentinelRank_of_ne hhead htail, ho.eq, le_antisymm_iff, keyRank_le,
    keyRank_le, ← le_antisymm_iff]

/-- A search stops at a node that is not below its key. -/
theorem Ordered.stop_le (ho : Ordered c keyOf) (hhead : n ≠ c.head)
    (hstop : ¬ (n ≠ c.tail ∧ c.funCmp n k < 0)) : keyRank k ≤ c.rank keyOf n := by
  rcases Classical.em (n = c.tail) with rfl | htail
  · exact (key_lt_last c.distinct).le
  · exact not_lt.mp fun hlt => hstop ⟨htail, (ho.rank_lt hhead htail).mp hlt⟩

end Rank

section Step

variable [DecidableEq Tid] {s s' : State Tid Node Key} {t : Tid} {f : Find Node Key}
variable {curr : Node}

theorem retry_sorted (hcaller : f.caller.Sorted keyOf f.key f.specific) :
    PcSorted c keyOf ((s.retry c t f).pc t) := by
  unfold State.retry
  split
  · rw [goto_pc]
    trivial
  · rw [goto_pc]
    exact ⟨first_lt_key, fun _ l hl htop => absurd htop (Nat.not_le.mpr hl), hcaller⟩

theorem find_sorted {key : Key} {specific : Option Node} {caller : Caller Node}
    (hcaller : caller.Sorted keyOf key specific) :
    PcSorted c keyOf ((s.find c t key specific caller).pc t) :=
  retry_sorted (f := { key := key, specific := specific, caller := caller, pred := c.head
                       level := c.topLevel, preds := fun _ => c.head, succs := fun _ => c.head })
    hcaller

theorem marked_sorted {key : Key} {node : Node} {level : Nat} {i : Bool} :
    PcSorted c keyOf ((s.marked c t key node level i).pc t) := by
  unfold State.marked
  split
  · split
    · exact find_sorted trivial
    · rw [goto_pc]
      trivial
  · rw [goto_pc]
    trivial

theorem linkNext_sorted {a : Adding Node Key} (ha : AddingSorted c keyOf a) (level : Nat) :
    PcSorted c keyOf ((s.linkNext t a (level + 1)).pc t) := by
  unfold State.linkNext
  split
  · rw [goto_pc]
    exact ⟨ha, Nat.succ_pos level⟩
  · rw [goto_pc]
    trivial

theorem findReturn_sorted (ho : Ordered c keyOf) (hcaller : f.caller.Sorted keyOf f.key f.specific)
    (haround : f.specific = none → ∀ l ≤ c.topLevel,
      Between c keyOf f.key (f.preds l) (f.succs l))
    (hcurr : f.succs 0 = curr) (notHead : curr ≠ c.head) :
    PcSorted c keyOf ((s.findReturn c t f curr).pc t) := by
  unfold State.findReturn
  cases hf : f.caller with
  | add node height =>
    rw [hf] at hcaller
    have haround := haround hcaller.2
    dsimp only
    split
    · rw [goto_pc]
      trivial
    · rename_i hnot
      rw [goto_pc]
      refine ⟨⟨hcaller.1, haround⟩, ?_⟩
      dsimp only
      rw [hcurr]
      have hle := (haround 0 (Nat.zero_le _)).above
      rw [hcurr] at hle
      refine lt_of_le_of_ne hle fun heq => ?_
      have htail : curr ≠ c.tail := by
        rintro rfl
        exact (key_lt_last c.distinct).ne heq
      exact hnot ⟨htail, (ho.rank_eq notHead htail).mp heq.symm⟩
  | link node height level =>
    rw [hf] at hcaller
    rw [goto_pc]
    exact ⟨⟨hcaller.1, haround hcaller.2.1⟩, hcaller.2.2⟩
  | remove expected =>
    dsimp only
    split
    · unfold State.removeNode
      split <;> rw [goto_pc] <;> trivial
    · rw [goto_pc]
      trivial
  | detach =>
    rw [goto_pc]
    trivial

theorem findDown_sorted (ho : Ordered c keyOf) (hf : FindSorted c keyOf f)
    (notHead : curr ≠ c.head)
    (hstop : ¬ (curr ≠ c.tail ∧ c.funCmp curr f.key < 0 ∧ f.specific ≠ some curr)) :
    PcSorted c keyOf ((s.findDown c t f curr).pc t) := by
  have haround (hnone : f.specific = none) (l : Nat) (hl : f.level ≤ l) (htop : l ≤ c.topLevel) :
      Between c keyOf f.key (update f.preds f.level f.pred l)
        (update f.succs f.level curr l) := by
    rcases Nat.eq_or_lt_of_le hl with rfl | hlt
    · rw [update_self, update_self]
      refine ⟨hf.below, ho.stop_le notHead fun ⟨htail, hcmp⟩ => hstop ⟨htail, hcmp, ?_⟩⟩
      rw [hnone]
      exact Option.some_ne_none curr ∘ Eq.symm
    · rw [update_of_ne hlt.ne', update_of_ne hlt.ne']
      exact hf.above hnone l hlt htop
  unfold State.findDown
  dsimp only
  split
  · rename_i hzero
    refine findReturn_sorted ho hf.caller (fun hnone l htop => ?_) ?_ notHead
    · exact haround hnone l (hzero ▸ Nat.zero_le l) htop
    · dsimp only
      rw [hzero, update_self]
  · rename_i hpos
    rw [goto_pc]
    refine ⟨hf.below, fun hnone l hl htop => haround hnone l ?_ htop, hf.caller⟩
    dsimp only at hl
    omega

/-- A thread keeps its key, and what it has found around it. -/
theorem nextStep_sorted (ho : Ordered c keyOf) (h : PcSorted c keyOf (s.pc t))
    (hstep : nextStep c s t = some s') : PcSorted c keyOf (s'.pc t) := by
  cases hpc : s.pc t with
  | idle => simp [nextStep, hpc] at hstep
  | failed message => simp [nextStep, hpc] at hstep
  | addInit key node height =>
    rw [hpc] at h
    simp only [nextStep, hpc] at hstep
    split at hstep <;> cases hstep
    · exact find_sorted ⟨h, rfl⟩
    · rw [goto_pc]
      trivial
  | findLevel f =>
    rw [hpc] at h
    simp only [nextStep, hpc] at hstep
    split at hstep
    · split at hstep <;> cases hstep <;> rw [goto_pc]
      · exact h
      · trivial
    · cases hstep
      rw [goto_pc]
      trivial
  | findCurr f curr =>
    rw [hpc] at h
    have hf : FindSorted c keyOf f := h
    simp only [nextStep, hpc] at hstep
    split at hstep
    · cases hstep
      rw [goto_pc]
      exact hf
    · split at hstep
      · cases hstep
        rw [goto_pc]
        trivial
      · rename_i notHead
        split at hstep
        · rename_i hforward
          split at hstep <;> cases hstep <;> rw [goto_pc]
          · exact ⟨(ho.rank_lt notHead hforward.1).mpr hforward.2.1, hf.above, hf.caller⟩
          · trivial
        · rename_i hstop
          cases hstep
          exact findDown_sorted ho hf notHead hstop
  | findSnip f curr succ =>
    rw [hpc] at h
    simp only [nextStep, hpc] at hstep
    split at hstep <;> cases hstep
    · rw [goto_pc]
      exact h
    · exact retry_sorted (FindSorted.caller h)
  | findDec f curr =>
    rw [hpc] at h
    simp only [nextStep, hpc] at hstep
    split at hstep
    · cases hstep
      rw [goto_pc]
      trivial
    · split at hstep
      · split at hstep
        · cases hstep
          rw [goto_pc]
          trivial
        · split at hstep <;> cases hstep <;> rw [goto_pc]
          · trivial
          · exact h
      · cases hstep
        rw [goto_pc]
        exact h
  | findRetire f curr =>
    rw [hpc] at h
    simp only [nextStep, hpc, Option.some.injEq] at hstep
    subst hstep
    rw [goto_pc]
    exact h
  | findReload f =>
    rw [hpc] at h
    simp only [nextStep, hpc] at hstep
    split at hstep <;> cases hstep <;> rw [goto_pc]
    · exact h
    · trivial
  | addSet a level | linkRead a level | linkSet a level curSucc mark =>
    rw [hpc] at h
    simp only [nextStep, hpc] at hstep
    split at hstep <;> cases hstep <;> rw [goto_pc] <;> exact h
  | addLink a =>
    rw [hpc] at h
    simp only [nextStep, hpc] at hstep
    split at hstep <;> cases hstep
    · exact linkNext_sorted h.1 0
    · exact find_sorted ⟨h.1.key, rfl⟩
  | linkCas a level =>
    rw [hpc] at h
    simp only [nextStep, hpc] at hstep
    split at hstep <;> cases hstep
    · exact linkNext_sorted h.1 level
    · exact find_sorted ⟨h.1.key, rfl, h.2⟩
  | markRead key node level | markCas key node level succ =>
    simp only [nextStep, hpc] at hstep
    split at hstep <;> cases hstep
    · exact marked_sorted
    · rw [goto_pc]
      trivial
  | lookupLevel key acceptNext pred level | lookupSkip key acceptNext pred level curr =>
    simp only [nextStep, hpc] at hstep
    split at hstep <;> cases hstep <;> rw [goto_pc] <;> trivial
  | lookupCurr key acceptNext pred level curr =>
    simp only [nextStep, hpc] at hstep
    split at hstep
    · cases hstep
      rw [goto_pc]
      trivial
    · split at hstep
      · cases hstep
        rw [goto_pc]
        trivial
      · split at hstep
        · split at hstep <;> cases hstep <;> rw [goto_pc] <;> trivial
        · split at hstep <;> cases hstep <;> rw [goto_pc] <;> trivial
  | addRet ok outNode | removeRet ok | lookupRet result =>
    simp only [nextStep, hpc, Option.some.injEq] at hstep
    subst hstep
    rw [goto_pc]
    trivial

/-- A node is added under its key. -/
def Act.Sound (keyOf : Node → Key) : Act Tid Node Key → Prop
  | .add _ key node _ => keyOf node = key
  | _ => True

theorem beginCall_sorted {a : Act Tid Node Key} (hsound : a.Sound keyOf)
    (hstep : beginCall c s t a = some s') : PcSorted c keyOf (s'.pc t) := by
  cases a with
  | add u key node height =>
    simp only [beginCall] at hstep
    split at hstep <;> cases hstep
    rw [goto_pc]
    exact hsound
  | remove u key | removeNode u key node =>
    simp only [beginCall, Option.some.injEq] at hstep
    subst hstep
    exact find_sorted trivial
  | lookup u key | lookupNext u key =>
    simp only [beginCall, Option.some.injEq] at hstep
    subst hstep
    rw [goto_pc]
    trivial
  | step u => simp [beginCall] at hstep

theorem step_sorted {a : Act Tid Node Key} (ho : Ordered c keyOf) (hsound : a.Sound keyOf)
    (h : PcSorted c keyOf (s.pc a.thread)) (hstep : step c s a = some s') :
    PcSorted c keyOf (s'.pc a.thread) := by
  cases a with
  | step t => exact nextStep_sorted ho h hstep
  | _ =>
    simp only [step] at hstep
    split at hstep
    · exact beginCall_sorted hsound hstep
    · cases hstep

section

omit [DecidableEq Tid]

/-- Pointers of nodes that are not linked do not matter. -/
theorem SortInv.set_unlinked (h : SortInv c keyOf s) {node : Node} {level : Nat}
    (hun : s.linked node level = false) (v : Option Node × Bool) :
    SortInv c keyOf { s with next := set2 s.next node level v } := by
  intro n l m hn hm
  dsimp only at hn hm
  rw [set2_of_ne s.next v] at hm
  · exact h n l m hn hm
  · by_contra hsame
    push Not at hsame
    obtain ⟨rfl, rfl⟩ := hsame
    rw [hun] at hn
    cases hn

theorem SortInv.link (h : SortInv c keyOf s) {a : Adding Node Key} {level : Nat}
    (hnode : LinkedBelow c s a.node a.height level)
    (haround : Neighbours c s level (a.preds level) (a.succs level))
    (hready : (s.next a.node level).1 = some (a.succs level)) (ha : AddingSorted c keyOf a)
    (htop : level ≤ c.topLevel)
    (hstrict : level = 0 → keyRank a.key < c.rank keyOf (a.succs level)) :
    SortInv c keyOf { s with
      next := set2 s.next (a.preds level) level (some a.node, false)
      linked := set2 s.linked a.node level true } := by
  have hrank : c.rank keyOf a.node = keyRank a.key := by
    rw [Config.rank, sentinelRank_of_ne hnode.notHead hnode.notTail, ha.key]
  have hun : s.linked a.node level = false := by simpa using hnode.iff level
  have hne : a.node ≠ a.preds level := by
    intro heq
    have hlinked := haround.predLinked
    rw [← heq, hun] at hlinked
    cases hlinked
  have hbetween := ha.around level htop
  intro n l m hn hm
  dsimp only at hn hm
  rcases set2_true.mp hn with ⟨rfl, rfl⟩ | hn
  · rw [set2_of_ne s.next _ (.inl hne), hready] at hm
    cases hm
    rw [hrank]
    exact ⟨hbetween.above, hstrict⟩
  · rcases Classical.em (n = a.preds level ∧ l = level) with ⟨rfl, rfl⟩ | hother
    · rw [set2_self] at hm
      cases hm
      rw [hrank]
      exact ⟨hbetween.below.le, fun _ => hbetween.below⟩
    · rw [set2_of_ne s.next _ (by tauto)] at hm
      exact h n l m hn hm

end

theorem Writes.sortInv {s₁ : State Tid Node Key} {pc' : Pc Node Key} (hinv : Inv c s)
    (hsorted : PcSorted c keyOf (s.pc t)) (h : SortInv c keyOf s) (w : Writes c s t s₁ pc') :
    SortInv c keyOf (s₁.goto t pc') := by
  have hok := hinv.pc t
  cases w with
  | snip f curr succ place old =>
    rw [place] at hok
    obtain ⟨hfind, hlinked, -, hnext⟩ := hok
    intro n l m hn hm
    dsimp only [State.goto] at hn hm
    rcases Classical.em (n = f.pred ∧ l = f.level) with ⟨rfl, rfl⟩ | hother
    · rw [set2_self] at hm
      have hfirst := h f.pred f.level curr hfind.pred (congrArg Prod.fst old)
      have hsecond := h curr f.level m hlinked ((congrArg Prod.fst hnext).trans hm)
      exact ⟨hfirst.1.trans hsecond.1, fun hl => (hfirst.2 hl).trans (hsecond.2 hl)⟩
    · rw [set2_of_ne s.next _ (by tauto)] at hm
      exact h n l m hn hm
  | set a level pc' place goes =>
    rw [place] at hok
    exact h.set_unlinked (by simpa using hok.1.node.iff level) _
  | reset a level curSucc mark place old =>
    rw [place] at hok
    exact h.set_unlinked (by simpa using hok.node.iff level) _
  | link a level pc' place old goes =>
    rcases place with ⟨place, rfl⟩ | place
    · rw [place] at hok hsorted
      exact h.link hok.1.node (hok.1.around 0 (Nat.zero_le _)) hok.2 hsorted.1
        (Nat.zero_le _) fun _ => hsorted.2
    · rw [place] at hok hsorted
      have htop : level ≤ c.topLevel := by
        have hbound := hinv.heap.bound a.node
        have hlt := hok.1.node.lt
        have hheight := hok.1.node.heightEq
        omega
      exact h.link hok.1.node (hok.1.around level htop) hok.2 hsorted.1 htop fun hzero =>
        absurd hzero hsorted.2.ne'
  | mark key node level succ pc' place old goes =>
    intro n l m hn hm
    dsimp only [State.goto] at hn hm
    refine h n l m hn (Eq.trans ?_ hm)
    rcases Classical.em (n = node ∧ l = level) with ⟨rfl, rfl⟩ | hother
    · rw [set2_self, old]
    · rw [set2_of_ne s.next _ (by tauto)]
  | _ => exact h

end Step

section Run

variable [DecidableEq Tid] {s s' : State Tid Node Key}

/-- What holds in every state, with nodes that are added under their keys. -/
structure Good (c : Config Node Key) (keyOf : Node → Key) (s : State Tid Node Key) : Prop where
  inv : Inv c s
  duty : DutyInv s
  sort : SortInv c keyOf s
  pcs : ∀ t, PcSorted c keyOf (s.pc t)

theorem step_good {a : Act Tid Node Key} (ho : Ordered c keyOf) (hsound : a.Sound keyOf)
    (h : Good c keyOf s) (hstep : step c s a = some s') : Good c keyOf s' := by
  have hsorted := step_sorted ho hsound (h.pcs a.thread) hstep
  have hinv := step_inv h.inv hstep
  have hduty := step_dutyInv h.inv h.duty hstep
  obtain ⟨s₁, pc', rfl, w⟩ := step_writes h.inv hstep
  refine ⟨hinv, hduty, w.sortInv h.inv (h.pcs a.thread) h.sort, fun u => ?_⟩
  rcases Classical.em (u = a.thread) with rfl | hu
  · exact hsorted
  · rw [w.others hu]
    exact h.pcs u

omit [DecidableEq Tid] in
theorem vskiplistInit_good (c : Config Node Key) (keyOf : Node → Key) :
    Good c keyOf (vskiplistInit c : State Tid Node Key) where
  inv := vskiplistInit_inv c
  duty := vskiplistInit_dutyInv c
  sort n l m hn hm := by
    simp only [vskiplistInit, decide_eq_true_eq] at hn hm
    split at hm
    · rename_i hhead
      cases hm
      have hlt : c.rank keyOf n < c.rank keyOf c.tail := by
        rw [hhead.1]
        exact first_lt_key.trans (key_lt_last (k := keyOf n) c.distinct)
      exact ⟨hlt.le, fun _ => hlt⟩
    · cases hm
  pcs t := trivial

theorem run_good {past : List (State Tid Node Key × Act Tid Node Key)} (ho : Ordered c keyOf)
    (run : (machine Tid c).Run past s) (hsound : AllSteps (fun _ a => a.Sound keyOf) past) :
    Good c keyOf s := by
  refine run.invariant_if (fun s hs => ?_) (fun s a s' h hok hstep => ?_) hsound
  · rw [hs]
    exact vskiplistInit_good c keyOf
  · exact step_good ho hok h hstep

end Run

end Libvsync.Map.Skiplist
