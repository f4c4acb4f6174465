import Libvsync.Core.Linear
import Libvsync.Map.SkiplistKeys

/-!
Walks along the skiplist while other threads work on it. A thread may stand on a node that has been
snipped, and what it reads there may lead to nodes that have been snipped as well. The pointer of a
snipped node has been frozen since it was on its level, so that a node that was on the bottom level
at some moment of a call was so at a moment of it with the pointer that it has now.
-/

namespace Libvsync.Map.Skiplist

open Libvsync.Core

variable {Tid Node Key : Type} {c : Config Node Key} {s s' : State Tid Node Key}
variable {l : Nat} {p q n : Node}

section Effects

variable [DecidableEq Node] {tasks : List (Task Node)}

/-- A node leaves a level with its pointer as it is. -/
theorem Effect.leaves (e : Effect c s tasks s') (hn : s.OnLevel l n) :
    s'.OnLevel l n ∨ s'.snipped n l = true ∧ s'.next n l = s.next n l := by
  rcases Bool.eq_false_or_eq_true (s'.snipped n l) with hsnipped | hon
  · have hmarked : (s.next n l).2 = true := by
      cases e with
      | snip pred curr succ k level predLinked notTail linked old marked =>
        rcases set2_true.mp hsnipped with ⟨rfl, rfl⟩ | hold
        · rw [marked]
        · exact absurd (hn.2.symm.trans hold) Bool.false_ne_true
      | _ => exact absurd (hn.2.symm.trans hsnipped) Bool.false_ne_true
    exact .inr ⟨hsnipped, e.next_eq hn.1 hmarked⟩
  · exact .inl ⟨e.linked_mono hn.1, hon⟩

theorem Effect.gone (e : Effect c s tasks s') (h : LinksInv c s) (hn : s.snipped n l = true) :
    s'.snipped n l = true ∧ s'.next n l = s.next n l := by
  obtain ⟨hlinked, hmarked⟩ := h.frozen n l hn
  exact ⟨e.snipped_mono hn, e.next_eq hlinked hmarked⟩

theorem step_effect [DecidableEq Tid] {a : Act Tid Node Key} (h : Inv c s)
    (hstep : step c s a = some s') :
    ∃ s₁ pc', s' = s₁.goto a.thread pc' ∧ Effect c s (s.pc a.thread).tasks s₁ := by
  cases a with
  | step t =>
    obtain ⟨s₁, pc', rfl, hmoves⟩ := nextStep_moves h.heap (h.pc t) (h.added t) hstep
    exact ⟨s₁, pc', rfl, hmoves.effect⟩
  | _ =>
    simp only [step] at hstep
    split at hstep
    · rename_i hidle
      obtain ⟨s₁, pc', rfl, hmoves⟩ := beginCall_moves h.heap hidle hstep
      exact ⟨s₁, pc', rfl, hmoves.effect⟩
    · cases hstep

end Effects

section Places

variable [DecidableEq Node] [LinearOrder Key] {keyOf : Node → Key} {k : Key}

/-- No node of the map has the key. -/
def Absent (c : Config Node Key) (keyOf : Node → Key) (k : Key) (s : State Tid Node Key) : Prop :=
  ∀ m, Present c s m → keyOf m ≠ k

/-- A node of the bottom level before the key. -/
structure Behind (c : Config Node Key) (keyOf : Node → Key) (k : Key) (n : Node)
    (s : State Tid Node Key) : Prop where
  on : s.OnLevel 0 n
  below : c.rank keyOf n < keyRank k

/-- What a walk has seen when it looks at `curr` on a level, behind `pred`. -/
def Near (c : Config Node Key) (keyOf : Node → Key) (k : Key) (pred : Node) :
    Nat → Node → State Tid Node Key → Prop
  | 0, curr, s => Absent c keyOf k s ∨ s.OnLevel 0 curr ∧ c.rank keyOf curr ≤ keyRank k
  | _ + 1, _, s => Behind c keyOf k pred s

/-- What a walk has seen when it steps over `curr`, which is marked. -/
def Passing (c : Config Node Key) (keyOf : Node → Key) (k : Key) (pred : Node) :
    Nat → Node → State Tid Node Key → Prop
  | 0, curr, s => Absent c keyOf k s ∨ Behind c keyOf k curr s
  | _ + 1, _, s => Behind c keyOf k pred s

theorem LinksInv.head_behind (h : LinksInv c s) : Behind c keyOf k c.head s :=
  ⟨h.head_on (Nat.zero_le _), first_lt_key⟩

/-- An unmarked node of a level is on the bottom level, unmarked. -/
theorem Good.unmarked_bottom (h : Good c keyOf s) (hn : s.linked n l = true)
    (hunmarked : (s.next n l).2 = false) : s.linked n 0 = true ∧ (s.next n 0).2 = false := by
  refine ⟨h.inv.heap.toLinksInv.bottom hn, Bool.eq_false_of_not_eq_true fun hmarked => ?_⟩
  exact State.not_isMarked hunmarked
    (h.duty.down n 0 l hmarked (Nat.zero_le l) (h.inv.heap.height n l hn))

theorem Good.behind (h : Good c keyOf s) (hn : s.linked n l = true)
    (hunmarked : (s.next n l).2 = false) (hbelow : c.rank keyOf n < keyRank k) :
    Behind c keyOf k n s := by
  obtain ⟨hlinked, hbottom⟩ := h.unmarked_bottom hn hunmarked
  exact ⟨h.inv.heap.toLinksInv.on_of_unmarked hlinked hbottom, hbelow⟩

theorem Good.absent_between (h : Good c keyOf s) (hp : Behind c keyOf k p s)
    (hnext : s.level 0 p = some q) (habove : keyRank k < c.rank keyOf q) :
    Absent c keyOf k s := by
  rintro m hm rfl
  have hgap := h.bottom.gap hp.on hnext (hm.on h.inv.heap.toLinksInv)
  rw [hm.rank_eq] at hgap
  rcases hgap with hle | hge
  · exact absurd hp.below (not_lt.mpr hle)
  · exact absurd habove (not_lt.mpr hge)

/-- A key is not in the map while a marked node of the bottom level has it. -/
theorem Good.absent_marked (h : Good c keyOf s) (hn : s.OnLevel 0 n) (hmarked : s.isMarked n 0)
    (hrank : c.rank keyOf n = keyRank k) : Absent c keyOf k s := by
  rintro m hm rfl
  have heq := h.bottom.rank_inj (hm.on h.inv.heap.toLinksInv) hn (hm.rank_eq.trans hrank.symm)
  rw [heq] at hm
  exact hm.unmarked hmarked

theorem Behind.near (hp : Behind c keyOf k p s) (h : Good c keyOf s)
    (hnext : s.level 0 p = some q) (pred : Node) : Near c keyOf k pred 0 q s := by
  rcases le_or_gt (c.rank keyOf q) (keyRank k) with hle | hgt
  · exact .inr ⟨h.bottom.next_in hp.on hnext, hle⟩
  · exact .inl (h.absent_between hp hnext hgt)

/-- A walk goes on to an unmarked node before the key, and looks at its neighbour. -/
theorem Good.near (h : Good c keyOf s) (hn : s.linked n l = true)
    (hunmarked : (s.next n l).2 = false) (hbelow : c.rank keyOf n < keyRank k)
    (hnext : s.level l n = some q) : Near c keyOf k n l q s := by
  have hbehind := h.behind hn hunmarked hbelow
  cases l with
  | zero => exact hbehind.near h hnext n
  | succ l => exact hbehind

/-- A walk that stops behind the key has not missed it. -/
theorem Near.absent (h : Near c keyOf k p 0 q s) (habove : keyRank k < c.rank keyOf q) :
    Absent c keyOf k s :=
  h.resolve_right fun hq => absurd habove (not_lt.mpr hq.2)

end Places

section Moments

variable [DecidableEq Tid] [DecidableEq Node] [LinearOrder Key] {keyOf : Node → Key} {k : Key}
variable {past : List (State Tid Node Key × Act Tid Node Key)} {busy : State Tid Node Key → Prop}
variable {pred curr succ : Node}

/-- Hindsight: a node that was on the bottom level at some moment of a stretch was so at a moment
of it with the pointer that it has now. -/
theorem hindsight (ho : Ordered c keyOf) (run : (machine Tid c).Run past s)
    (hsound : AllSteps (fun _ a => a.Sound keyOf) past)
    (hwas : During busy (·.OnLevel 0 n) (moments past s)) :
    s.linked n 0 = true ∧ During busy (fun s₀ => Good c keyOf s₀ ∧ s₀.OnLevel 0 n ∧
      s₀.next n 0 = s.next n 0) (moments past s) := by
  let gone (s₀ : State Tid Node Key) : Prop := s₀.snipped n 0 = true
  let content (s₀ : State Tid Node Key) := s₀.next n 0
  have hgoes : ∀ past s a s', (machine Tid c).Run past s →
      AllSteps (fun _ a => a.Sound keyOf) past → (machine Tid c).step s a = some s' →
      s.OnLevel 0 n → s'.OnLevel 0 n ∨ gone s' ∧ content s' = content s := by
    intro past s a s' run hsound hstep hon
    obtain ⟨s₁, pc', rfl, heffect⟩ := step_effect (run_good ho run hsound).inv hstep
    exact heffect.leaves hon
  have hstays : ∀ past s a s', (machine Tid c).Run past s →
      AllSteps (fun _ a => a.Sound keyOf) past → (machine Tid c).step s a = some s' →
      gone s → gone s' ∧ content s' = content s := by
    intro past s a s' run hsound hstep hgone
    have h := (run_good ho run hsound).inv
    obtain ⟨s₁, pc', rfl, heffect⟩ := step_effect h hstep
    exact heffect.gone h.heap.toLinksInv hgone
  obtain ⟨hplace, hmoment⟩ := run.hindsight_if hgoes hstays hsound hwas
  constructor
  · rcases hplace with hon | hgone
    · exact hon.1
    · exact ((run_good ho run hsound).inv.heap.frozen n 0 hgone).1
  · refine hmoment.mono ?_
    rintro s₀ ⟨⟨before, run₀, hsound₀⟩, hon, hcontent⟩
    exact ⟨run_good ho run₀ hsound₀, hon, hcontent⟩

/-- A walk reads the pointer of the node it has come to. -/
theorem near_of_read (ho : Ordered c keyOf) (run : (machine Tid c).Run past s)
    (hsound : AllSteps (fun _ a => a.Sound keyOf) past)
    (hpred : During busy (Behind c keyOf k pred) (moments past s))
    (hnext : s.level l pred = some curr) :
    During busy (Near c keyOf k pred l curr) (moments past s) := by
  cases l with
  | zero =>
    obtain ⟨_, _, _, hbehind⟩ := hpred.exists
    refine (hindsight ho run hsound (hpred.mono fun _ h₀ => h₀.on)).2.mono ?_
    rintro s₀ ⟨h₀, hon, hsame⟩
    have hthen : s₀.level 0 pred = some curr := (congrArg Prod.fst hsame).trans hnext
    exact Behind.near ⟨hon, hbehind.below⟩ h₀ hthen pred
  | succ l => exact hpred

/-- A walk sees that the node it looks at is marked. -/
theorem passing_of_marked (ho : Ordered c keyOf) (run : (machine Tid c).Run past s)
    (hsound : AllSteps (fun _ a => a.Sound keyOf) past)
    (hcurr : During busy (Near c keyOf k pred l curr) (moments past s))
    (hmarked : s.isMarked curr l) :
    During busy (Passing c keyOf k pred l curr) (moments past s) := by
  cases l with
  | zero =>
    rcases hcurr.or with habsent | hcurr
    · exact habsent.mono fun _ => .inl
    · obtain ⟨_, _, _, -, hle⟩ := hcurr.exists
      rcases hle.lt_or_eq with hlt | heq
      · exact hcurr.mono fun _ h₀ => .inr ⟨h₀.1, hlt⟩
      · refine (hindsight ho run hsound (hcurr.mono fun _ h₀ => h₀.1)).2.mono ?_
        rintro s₀ ⟨h₀, hon, hsame⟩
        exact .inl (h₀.absent_marked hon ((congrArg Prod.snd hsame).trans hmarked) heq)
  | succ l => exact hcurr

theorem near_of_skip (ho : Ordered c keyOf) (run : (machine Tid c).Run past s)
    (hsound : AllSteps (fun _ a => a.Sound keyOf) past)
    (hcurr : During busy (Passing c keyOf k pred l curr) (moments past s))
    (hnext : s.level l curr = some succ) :
    During busy (Near c keyOf k pred l succ) (moments past s) := by
  cases l with
  | zero =>
    rcases hcurr.or with habsent | hcurr
    · exact habsent.mono fun _ => .inl
    · exact (near_of_read ho run hsound hcurr hnext).mono fun _ h₀ => h₀
  | succ l => exact hcurr

/-- A node that was in the map and is marked now was removed in between, and then its key was not
in the map. -/
theorem absent_of_marked (ho : Ordered c keyOf) (run : (machine Tid c).Run past s)
    (hsound : AllSteps (fun _ a => a.Sound keyOf) past)
    (hwas : During busy (Present c · n) (moments past s)) :
    s.linked n 0 = true ∧
      (s.isMarked n 0 → During busy (Absent c keyOf (keyOf n)) (moments past s)) := by
  induction run with
  | start hstart =>
    cases hwas with
    | now _ hn => exact ⟨hn.linked, fun hmarked => absurd hmarked hn.unmarked⟩
    | before _ hwas => cases hwas
  | @step past s s' a prior hstep ih =>
    cases hwas with
    | now _ hn => exact ⟨hn.linked, fun hmarked => absurd hmarked hn.unmarked⟩
    | before hb hwas =>
      have h := run_good ho prior hsound.tail
      have h' := step_good ho hsound.head h hstep
      obtain ⟨hlinked, hremoved⟩ := ih hsound.tail hwas
      obtain ⟨_, _, _, hn⟩ := hwas.exists
      obtain ⟨s₁, pc', rfl, heffect⟩ := step_effect h.inv hstep
      refine ⟨heffect.linked_mono hlinked, fun hmarked => ?_⟩
      rcases Bool.eq_false_or_eq_true (s.next n 0).2 with hbefore | hunmarked
      · exact .before hb (hremoved hbefore)
      · refine .now hb (h'.absent_marked ?_ hmarked hn.rank_eq)
        have hon := h.inv.heap.toLinksInv.on_of_unmarked hlinked hunmarked
        rcases heffect.leaves hon with hstays | ⟨-, hsame⟩
        · exact hstays
        · have hmark : s₁.isMarked n 0 := hmarked
          rw [State.isMarked, hsame, hunmarked] at hmark
          cases hmark

end Moments

end Libvsync.Map.Skiplist
