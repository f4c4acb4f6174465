import Mathlib.Data.List.Nodup

/-!
Tables of reader-writer locks. A lock is held by one writer or by any number of
readers. What a thread holds is known from where it is in its code; `Held` ties
the table to that, so that two threads never work on a node unless both read.
-/

namespace Libvsync.Core

open Function

structure RwLock (Tid : Type) where
  writer : Option Tid
  readers : List Tid
  deriving DecidableEq

abbrev Locks (Id Tid : Type) := Id → RwLock Tid

variable {Id Tid : Type} [DecidableEq Id] [DecidableEq Tid]

namespace Locks

def free : RwLock Tid := ⟨none, []⟩

/-- A thread waits while the lock is taken; a reader shares it with readers. -/
def acquire (l : Locks Id Tid) (reading : Bool) (t : Tid) (i : Id) : Option (Locks Id Tid) :=
  match reading with
  | false =>
    if (l i).writer = none ∧ (l i).readers = [] then
      some (update l i ⟨some t, []⟩)
    else none
  | true =>
    if (l i).writer = none then
      some (update l i ⟨none, t :: (l i).readers⟩)
    else none

def release (l : Locks Id Tid) (reading : Bool) (t : Tid) (i : Id) : Locks Id Tid :=
  match reading with
  | false => update l i { l i with writer := none }
  | true => update l i { l i with readers := (l i).readers.erase t }

end Locks

/-- The locks that are taken are those the threads hold. -/
structure Held (l : Locks Id Tid) (reading : Tid → Bool) (holds : Tid → List Id) : Prop where
  writer : ∀ i t, (l i).writer = some t ↔ reading t = false ∧ i ∈ holds t
  readers : ∀ i t, t ∈ (l i).readers ↔ reading t = true ∧ i ∈ holds t
  excludes : ∀ i t, (l i).writer = some t → (l i).readers = []
  nodup : ∀ t, (holds t).Nodup
  once : ∀ i, (l i).readers.Nodup

namespace Held

variable {l l' : Locks Id Tid} {reading reading' : Tid → Bool} {holds holds' : Tid → List Id}
  {t u : Tid} {i : Id}

section

omit [DecidableEq Id] [DecidableEq Tid]

theorem apart (h : Held l reading holds) (hw : reading t = false) (hi : i ∈ holds t)
    (hu : u ≠ t) : i ∉ holds u := by
  intro hmem
  have hwriter : (l i).writer = some t := (h.writer i t).mpr ⟨hw, hi⟩
  cases hr : reading u with
  | false =>
    have hother : (l i).writer = some u := (h.writer i u).mpr ⟨hr, hmem⟩
    rw [hwriter] at hother
    cases hother
    exact hu rfl
  | true =>
    have hreader : u ∈ (l i).readers := (h.readers i u).mpr ⟨hr, hmem⟩
    rw [h.excludes i t hwriter] at hreader
    cases hreader

/-- No thread has changed what it holds, nor how. -/
theorem congr (h : Held l reading holds) (hreading : ∀ u, holds' u ≠ [] → reading' u = reading u)
    (hholds : ∀ u, (holds' u).Perm (holds u)) : Held l reading' holds' := by
  have hmem (u : Tid) (i : Id) : i ∈ holds' u ↔ i ∈ holds u := (hholds u).mem_iff
  have hmode (u : Tid) (i : Id) (b : Bool) :
      reading' u = b ∧ i ∈ holds' u ↔ reading u = b ∧ i ∈ holds u := by
    rw [hmem]
    constructor
    · rintro ⟨hb, hi⟩
      exact ⟨(hreading u (List.ne_nil_of_mem ((hmem u i).mpr hi))).symm.trans hb, hi⟩
    · rintro ⟨hb, hi⟩
      exact ⟨(hreading u (List.ne_nil_of_mem ((hmem u i).mpr hi))).trans hb, hi⟩
  refine ⟨?_, ?_, h.excludes, fun u => (hholds u).nodup_iff.mpr (h.nodup u), h.once⟩
  · intro i u
    rw [h.writer, hmode]
  · intro i u
    rw [h.readers, hmode]

end

section Moves

variable (hreading : ∀ u, u ≠ t → reading' u = reading u)
  (hholds : ∀ u, u ≠ t → holds' u = holds u)

include hreading hholds

omit [DecidableEq Id] [DecidableEq Tid] in
/-- Threads that do not move have the locks they had. -/
theorem others (b : Bool) (hu : u ≠ t) :
    reading' u = b ∧ i ∈ holds' u ↔ reading u = b ∧ i ∈ holds u := by
  rw [hreading u hu, hholds u hu]

/-- A reader could take a lock twice; it has to be a new one. -/
theorem acquire (h : Held l reading holds) (hacquire : l.acquire (reading' t) t i = some l')
    (hsame : holds t ≠ [] → reading' t = reading t) (hnew : reading' t = true → i ∉ holds t)
    (hown : (holds' t).Perm (i :: holds t)) : Held l' reading' holds' := by
  have hfree : (l i).writer = none ∧ (reading' t = false → (l i).readers = []) ∧
      l' = update l i
        ⟨if reading' t then none else some t, if reading' t then t :: (l i).readers else []⟩ := by
    cases hr : reading' t with
    | false =>
      simp only [hr, Locks.acquire] at hacquire
      split at hacquire
      · rename_i hfree
        cases hacquire
        exact ⟨hfree.1, fun _ => hfree.2, by simp⟩
      · cases hacquire
    | true =>
      simp only [hr, Locks.acquire] at hacquire
      split at hacquire
      · rename_i hfree
        cases hacquire
        exact ⟨hfree, by simp, by simp⟩
      · cases hacquire
  obtain ⟨hwriter, hreaders, rfl⟩ := hfree
  have hnew : i ∉ holds t := by
    intro hmem
    have hmode := hsame (List.ne_nil_of_mem hmem)
    cases hr : reading t with
    | false =>
      have hmine := (h.writer i t).mpr ⟨hr, hmem⟩
      rw [hwriter] at hmine
      cases hmine
    | true => exact hnew (hmode.trans hr) hmem
  have hmode (j : Id) (b : Bool) (hj : j ≠ i) :
      reading' t = b ∧ j ∈ holds' t ↔ reading t = b ∧ j ∈ holds t := by
    rw [hown.mem_iff, List.mem_cons, or_iff_right hj]
    constructor
    · rintro ⟨hb, hmem⟩
      exact ⟨(hsame (List.ne_nil_of_mem hmem)).symm.trans hb, hmem⟩
    · rintro ⟨hb, hmem⟩
      exact ⟨(hsame (List.ne_nil_of_mem hmem)).trans hb, hmem⟩
  have hiff (u : Tid) (j : Id) (b : Bool) (hj : j ≠ i) :
      reading' u = b ∧ j ∈ holds' u ↔ reading u = b ∧ j ∈ holds u := by
    by_cases hu : u = t
    · rw [hu]
      exact hmode j b hj
    · exact others hreading hholds b hu
  have hmine : i ∈ holds' t := hown.mem_iff.mpr (by simp)
  have hnobody (u : Tid) (hu : reading u = false) : i ∉ holds u := by
    intro hmem
    have hother := (h.writer i u).mpr ⟨hu, hmem⟩
    rw [hwriter] at hother
    cases hother
  constructor
  · intro j u
    by_cases hj : j = i
    · subst hj
      rw [update_self]
      by_cases hu : u = t
      · subst hu
        cases hr : reading' u <;> simp [hmine]
      · rw [others hreading hholds false hu]
        constructor
        · intro hsome
          split at hsome
          · cases hsome
          · cases hsome
            exact absurd rfl hu
        · rintro ⟨hr, hmem⟩
          exact absurd hmem (hnobody u hr)
    · rw [update_of_ne hj, h.writer, hiff u j false hj]
  · intro j u
    by_cases hj : j = i
    · subst hj
      rw [update_self]
      by_cases hu : u = t
      · subst hu
        cases hr : reading' u <;> simp [hmine]
      · rw [others hreading hholds true hu, ← h.readers]
        cases hr : reading' t with
        | false => simp [hreaders hr]
        | true => simp [hu]
    · rw [update_of_ne hj, h.readers, hiff u j true hj]
  · intro j u hsome
    by_cases hj : j = i
    · subst hj
      rw [update_self] at hsome ⊢
      cases hr : reading' t with
      | false => rfl
      | true => simp [hr] at hsome
    · rw [update_of_ne hj] at hsome ⊢
      exact h.excludes j u hsome
  · intro u
    by_cases hu : u = t
    · rw [hu, hown.nodup_iff, List.nodup_cons]
      exact ⟨hnew, h.nodup t⟩
    · rw [hholds u hu]
      exact h.nodup u
  · intro j
    by_cases hj : j = i
    · subst hj
      rw [update_self]
      cases hr : reading' t with
      | false => simp
      | true =>
        simp only [if_true, List.nodup_cons]
        refine ⟨?_, h.once j⟩
        rw [h.readers]
        exact fun hmem => hnew hmem.2
    · rw [update_of_ne hj]
      exact h.once j

theorem release (h : Held l reading holds) (hsame : reading' t = reading t)
    (hown : (holds t).Perm (i :: holds' t)) :
    Held (l.release (reading t) t i) reading' holds' := by
  have hmine : i ∈ holds t := hown.mem_iff.mpr (by simp)
  obtain ⟨hgone, hnodup⟩ := List.nodup_cons.mp (hown.nodup_iff.mp (h.nodup t))
  have hiff (u : Tid) (j : Id) (b : Bool) (hj : u = t → j ≠ i) :
      reading' u = b ∧ j ∈ holds' u ↔ reading u = b ∧ j ∈ holds u := by
    by_cases hu : u = t
    · subst hu
      rw [hsame, hown.mem_iff, List.mem_cons, or_iff_right (hj rfl)]
    · exact others hreading hholds b hu
  have hothers (j : Id) (hj : j ≠ i) : l.release (reading t) t i j = l j := by
    cases hr : reading t <;> simp [Locks.release, hj]
  have hnodup' (u : Tid) : (holds' u).Nodup := by
    by_cases hu : u = t
    · rw [hu]
      exact hnodup
    · rw [hholds u hu]
      exact h.nodup u
  cases hr : reading t with
  | false =>
    rw [hr] at hothers
    have hlock : (l.release false t i i).writer = none ∧ (l.release false t i i).readers = [] := by
      simp only [Locks.release, update_self, true_and]
      exact h.excludes i t ((h.writer i t).mpr ⟨hr, hmine⟩)
    have hnobody (u : Tid) : i ∉ holds' u := by
      by_cases hu : u = t
      · rw [hu]
        exact hgone
      · rw [hholds u hu]
        exact h.apart hr hmine hu
    refine ⟨?_, ?_, ?_, hnodup', ?_⟩
    · intro j u
      by_cases hj : j = i
      · subst hj
        simp [hlock.1, hnobody u]
      · rw [hothers j hj, h.writer, hiff u j false fun _ => hj]
    · intro j u
      by_cases hj : j = i
      · subst hj
        simp [hlock.2, hnobody u]
      · rw [hothers j hj, h.readers, hiff u j true fun _ => hj]
    · intro j u hsome
      by_cases hj : j = i
      · subst hj
        exact hlock.2
      · rw [hothers j hj] at hsome ⊢
        exact h.excludes j u hsome
    · intro j
      by_cases hj : j = i
      · subst hj
        simp [hlock.2]
      · rw [hothers j hj]
        exact h.once j
  | true =>
    rw [hr] at hothers
    have hread : t ∈ (l i).readers := (h.readers i t).mpr ⟨hr, hmine⟩
    have hwriter (u : Tid) : (l i).writer ≠ some u := by
      intro hsome
      rw [h.excludes i u hsome] at hread
      cases hread
    have hlock : l.release true t i i = { l i with readers := (l i).readers.erase t } := by
      simp [Locks.release]
    refine ⟨?_, ?_, ?_, hnodup', ?_⟩
    · intro j u
      by_cases hj : j = i
      · subst hj
        rw [hlock]
        constructor
        · intro hsome
          exact absurd hsome (hwriter u)
        · intro hmem
          by_cases hu : u = t
          · subst hu
            exact absurd hmem.2 hgone
          · exact absurd ((h.writer j u).mpr ((others hreading hholds false hu).mp hmem))
              (hwriter u)
      · rw [hothers j hj, h.writer, hiff u j false fun _ => hj]
    · intro j u
      by_cases hj : j = i
      · subst hj
        rw [hlock]
        dsimp only
        rw [(h.once j).mem_erase_iff, h.readers]
        by_cases hu : u = t
        · subst hu
          simp [hgone]
        · rw [others hreading hholds true hu]
          simp [hu]
      · rw [hothers j hj, h.readers, hiff u j true fun _ => hj]
    · intro j u hsome
      by_cases hj : j = i
      · subst hj
        rw [hlock] at hsome
        exact absurd hsome (hwriter u)
      · rw [hothers j hj] at hsome ⊢
        exact h.excludes j u hsome
    · intro j
      by_cases hj : j = i
      · subst hj
        rw [hlock]
        exact (h.once j).erase t
      · rw [hothers j hj]
        exact h.once j

end Moves

omit [DecidableEq Tid] in
theorem init (h : Held l reading holds) (hnobody : ∀ u, i ∉ holds u) :
    Held (update l i Locks.free) reading holds := by
  refine ⟨?_, ?_, ?_, h.nodup, ?_⟩
  · intro j u
    by_cases hj : j = i
    · subst hj
      simp [Locks.free, hnobody u]
    · rw [update_of_ne hj, h.writer]
  · intro j u
    by_cases hj : j = i
    · subst hj
      simp [Locks.free, hnobody u]
    · rw [update_of_ne hj, h.readers]
  · intro j u hsome
    by_cases hj : j = i
    · subst hj
      simp [Locks.free]
    · rw [update_of_ne hj] at hsome ⊢
      exact h.excludes j u hsome
  · intro j
    by_cases hj : j = i
    · subst hj
      simp [Locks.free]
    · rw [update_of_ne hj]
      exact h.once j

end Held

end Libvsync.Core
