import Libvsync.Bitmap.Bitmap

/-!
The range operations, alone and in any interleaving of the atomic steps of several threads. The
steps still to come of a call only give its own bits values, so what a bit ends with is decided
by the calls that address it.
-/

namespace Libvsync.Bitmap

open Libvsync.Core Function

variable {Tid : Type}

/-- `pending` holds the steps a thread has still to make of its call. -/
structure State (Tid : Type) where
  bitmap : VBitmap
  pending : Tid → List WordStep

inductive Label (Tid : Type) where
  | call (t : Tid) (op : Op)
  | word (t : Tid)

section Machine

variable [DecidableEq Tid]

def step (s : State Tid) : Label Tid → Option (State Tid)
  | .call t op =>
    if s.pending t = [] then
      (op.steps s.bitmap).map fun ws => { s with pending := update s.pending t ws }
    else none
  | .word t =>
    match s.pending t with
    | [] => none
    | w :: ws =>
      (s.bitmap.apply w).map fun b => ⟨b, update s.pending t ws⟩

def machine (Tid : Type) [DecidableEq Tid] (b : VBitmap) : Machine (State Tid) (Label Tid) where
  start s := s.bitmap = b ∧ ∀ t, s.pending t = []
  step := step

end Machine

/-- The value given by the last call that addresses the bit. -/
def lastValue (j : Nat) : List (State Tid × Label Tid) → Option Bool
  | [] => none
  | (_, .call _ op) :: past => if op.Addresses j then some op.value else lastValue j past
  | (_, .word _) :: past => lastValue j past

/-- The calls that address the bit are calls of `t`. -/
def OnlyBy (t : Tid) (j : Nat) (past : List (State Tid × Label Tid)) : Prop :=
  ∀ p ∈ past, ∀ u op, p.2 = .call u op → op.Addresses j → u = t

def Unaddressed (j : Nat) (past : List (State Tid × Label Tid)) : Prop :=
  ∀ p ∈ past, ∀ u op, p.2 = .call u op → ¬ op.Addresses j

theorem mem_update [DecidableEq Tid] {pending : Tid → List WordStep} {t u : Tid}
    {ws : List WordStep} {v : WordStep} (hv : v ∈ update pending t ws u) :
    u = t ∧ v ∈ ws ∨ v ∈ pending u := by
  by_cases hu : u = t
  · subst hu
    rw [update_self] at hv
    exact Or.inl ⟨rfl, hv⟩
  · rw [update_of_ne hu] at hv
    exact Or.inr hv

section Run

variable [DecidableEq Tid] {b : VBitmap} {past : List (State Tid × Label Tid)} {s s' : State Tid}

theorem step_call {t : Tid} {op : Op} (hs : step s (.call t op) = some s') :
    s.pending t = [] ∧ ∃ ws, op.steps s.bitmap = some ws ∧
      s' = ⟨s.bitmap, update s.pending t ws⟩ := by
  obtain ⟨hidle, hs⟩ := Option.ite_none_right_eq_some.mp hs
  obtain ⟨ws, hws, rfl⟩ := Option.map_eq_some_iff.mp hs
  exact ⟨hidle, ws, hws, rfl⟩

theorem step_word {t : Tid} (hs : step s (.word t) = some s') :
    ∃ w ws c, s.pending t = w :: ws ∧ s.bitmap.apply w = some c ∧
      s' = ⟨c, update s.pending t ws⟩ := by
  rw [step] at hs
  split at hs
  · cases hs
  · rename_i w ws hpending
    obtain ⟨c, hc, rfl⟩ := Option.map_eq_some_iff.mp hs
    exact ⟨w, ws, c, hpending, hc, rfl⟩

/-- A step to come was to come before, or is one of the call that begins. -/
theorem pending_of_step {a : Label Tid} (hs : step s a = some s') {u : Tid} {v : WordStep}
    (hv : v ∈ s'.pending u) :
    v ∈ s.pending u ∨ ∃ op ws, a = .call u op ∧ op.steps s.bitmap = some ws ∧ v ∈ ws := by
  cases a with
  | call t op =>
    obtain ⟨-, ws, hws, rfl⟩ := step_call hs
    rcases mem_update hv with ⟨rfl, hmem⟩ | hv
    · exact Or.inr ⟨op, ws, rfl, hws, hmem⟩
    · exact Or.inl hv
  | word t =>
    obtain ⟨w, ws, c, hpending, hc, rfl⟩ := step_word hs
    rcases mem_update hv with ⟨rfl, hmem⟩ | hv
    · rw [hpending]
      exact Or.inl (List.mem_cons_of_mem w hmem)
    · exact Or.inl hv

/-- The counts never change, and all steps to come are inside the array. -/
structure Inside (b : VBitmap) (s : State Tid) : Prop where
  mapsCnt : s.bitmap.mapsCnt = b.mapsCnt
  bitCnt : s.bitmap.bitCnt = b.bitCnt
  pending : ∀ t, ∀ w ∈ s.pending t, w.idx < b.mapsCnt

theorem inside (run : (machine Tid b).Run past s) : Inside b s := by
  refine run.invariant (I := Inside b) (fun s hstart => ?_) (fun s a s' hi hs => ?_)
  · obtain ⟨hbitmap, hidle⟩ := hstart
    refine ⟨by rw [hbitmap], by rw [hbitmap], fun t w hw => ?_⟩
    rw [hidle t] at hw
    cases hw
  · have hcounts : s'.bitmap.mapsCnt = s.bitmap.mapsCnt ∧
        s'.bitmap.bitCnt = s.bitmap.bitCnt := by
      cases a with
      | call t op =>
        obtain ⟨-, ws, hws, rfl⟩ := step_call hs
        exact ⟨rfl, rfl⟩
      | word t =>
        obtain ⟨w, ws, c, hpending, hc, rfl⟩ := step_word hs
        exact VBitmap.apply_counts hc
    refine ⟨hcounts.1.trans hi.mapsCnt, hcounts.2.trans hi.bitCnt, fun u v hv => ?_⟩
    rcases pending_of_step hs hv with hv | ⟨op, ws, -, hws, hv⟩
    · exact hi.pending u v hv
    · rw [← hi.mapsCnt]
      exact (Op.steps_settle hws).inside v hv

/-- No assertion fails on the way. -/
theorem word_isSome (run : (machine Tid b).Run past s) {t : Tid} (hbusy : s.pending t ≠ []) :
    (step s (.word t)).isSome := by
  obtain ⟨w, ws, hpending⟩ := List.exists_cons_of_ne_nil hbusy
  have hidx := (inside run).pending t w (by rw [hpending]; exact List.mem_cons_self)
  rw [← (inside run).mapsCnt] at hidx
  simp only [step, hpending, Option.isSome_map]
  exact VBitmap.apply_isSome hidx

/-- A step to come that gives the bit a value belongs to a call that addresses the bit. -/
theorem addressed_of_pending (run : (machine Tid b).Run past s) {j : Nat} {t : Tid}
    {w : WordStep} (hw : w ∈ s.pending t) (hgives : w.gives j ≠ none) :
    ∃ p ∈ past, ∃ op, p.2 = .call t op ∧ op.Addresses j := by
  induction run with
  | start hstart =>
    rw [hstart.2 t] at hw
    cases hw
  | @step past s s' a run hs ih =>
    rcases pending_of_step hs hw with hw | ⟨op, ws, rfl, hws, hw⟩
    · obtain ⟨p, hp, op, hcall⟩ := ih hw
      exact ⟨p, List.mem_cons_of_mem _ hp, op, hcall⟩
    · obtain ⟨value, hvalue⟩ := Option.ne_none_iff_exists'.mp hgives
      exact ⟨_, List.mem_cons_self, op, rfl,
        ((Op.steps_settle hws).only w hw j value hvalue).1⟩

/-- With the steps to come of the only thread that addresses it, the bit gets the value of the
last call. -/
theorem bit_given (run : (machine Tid b).Run past s) {t : Tid} {j : Nat}
    (honly : OnlyBy t j past) :
    (given j (s.pending t)).getD (s.bitmap.bit j) = (lastValue j past).getD (b.bit j) := by
  induction run with
  | start hstart =>
    rw [hstart.1, hstart.2 t]
    rfl
  | @step past s s' a run hs ih =>
    have ih := ih fun p hp => honly p (List.mem_cons_of_mem _ hp)
    cases a with
    | call u op =>
      obtain ⟨hidle, ws, hws, rfl⟩ := step_call hs
      have hgiven := (Op.steps_settle hws).given_eq j
      rw [lastValue]
      dsimp only
      by_cases haddressed : op.Addresses j
      · obtain rfl : u = t := honly _ List.mem_cons_self u op rfl haddressed
        rw [if_pos haddressed] at hgiven ⊢
        rw [update_self, hgiven]
        rfl
      · rw [if_neg haddressed] at hgiven ⊢
        by_cases hu : t = u
        · subst hu
          rw [hidle] at ih
          rw [update_self, hgiven]
          exact ih
        · rw [update_of_ne hu]
          exact ih
    | word u =>
      obtain ⟨w, ws, c, hpending, hc, rfl⟩ := step_word hs
      rw [lastValue, ← ih, VBitmap.apply_bit hc]
      dsimp only
      by_cases hu : t = u
      · subst hu
        rw [update_self, hpending, given]
        cases given j ws <;> rfl
      · have hnone : w.gives j = none := by
          by_contra hgives
          obtain ⟨p, hp, op, hcall, haddressed⟩ := addressed_of_pending run
            (by rw [hpending]; exact List.mem_cons_self) hgives
          exact hu (honly p (List.mem_cons_of_mem _ hp) u op hcall haddressed).symm
        rw [update_of_ne hu, hnone]
        rfl

theorem bit_unaddressed (run : (machine Tid b).Run past s) {j : Nat}
    (hnone : Unaddressed j past) : s.bitmap.bit j = b.bit j := by
  induction run with
  | start hstart => rw [hstart.1]
  | @step past s s' a run hs ih =>
    have ih := ih fun p hp => hnone p (List.mem_cons_of_mem _ hp)
    cases a with
    | call t op =>
      obtain ⟨-, ws, hws, rfl⟩ := step_call hs
      exact ih
    | word t =>
      obtain ⟨w, ws, c, hpending, hc, rfl⟩ := step_word hs
      have hgives : w.gives j = none := by
        by_contra hgives
        obtain ⟨p, hp, op, hcall, haddressed⟩ := addressed_of_pending run
          (by rw [hpending]; exact List.mem_cons_self) hgives
        exact hnone p (List.mem_cons_of_mem _ hp) t op hcall haddressed
      rw [VBitmap.apply_bit hc, hgives]
      exact ih

end Run

/-- The range operations change exactly their bits, and in any interleaving a bit that is
addressed by one thread ends with the value of that thread's last call. -/
theorem vbitmap_ranges (Tid : Type) [DecidableEq Tid] (b : VBitmap) :
    (∀ first last, first ≤ last → last < b.bitCnt →
      (∃ b', vbitmapSetRange b first last = some b' ∧
        ∀ j, b'.bit j = if first ≤ j ∧ j ≤ last then true else b.bit j) ∧
      (∃ b', vbitmapClrRange b first last = some b' ∧
        ∀ j, b'.bit j = if first ≤ j ∧ j ≤ last then false else b.bit j)) ∧
    (∀ past s, (machine Tid b).Run past s →
      (∀ t, s.pending t ≠ [] → ((machine Tid b).step s (.word t)).isSome) ∧
      ∀ j,
        (∀ t, OnlyBy t j past → s.pending t = [] →
          s.bitmap.bit j = (lastValue j past).getD (b.bit j)) ∧
        (Unaddressed j past → s.bitmap.bit j = b.bit j)) := by
  refine ⟨fun first last hle hlast => ⟨?_, ?_⟩, fun past s run => ⟨?_, fun j => ⟨?_, ?_⟩⟩⟩
  · exact @Op.run_bit (.setRange first last) b hle hlast
  · exact @Op.run_bit (.clrRange first last) b hle hlast
  · intro t hbusy
    exact word_isSome run hbusy
  · intro t honly hidle
    have hbit := bit_given run honly
    rw [hidle] at hbit
    exact hbit
  · intro hnone
    exact bit_unaddressed run hnone

example : ((vbitmapSetRange (vbitmapInit 200 false) 63 128).map fun b =>
    (List.range 192).filter b.bit) = some (List.range' 63 66) := by
  decide +kernel

end Libvsync.Bitmap
