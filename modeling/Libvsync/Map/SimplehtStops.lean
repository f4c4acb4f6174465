import Libvsync.Map.SimplehtClean

/-!
When the calls of the hash table return. An addition counts the slots that it visits. A search
of `vsimpleht_get` ends only at an empty slot or at its key, and a removal also when it is back
at its start, which it is not when the hash is no index: the masked index is compared with the
hash. A cleanup always comes to its end.
-/

namespace Libvsync.Map.Simpleht

open Libvsync.Core

variable {Key Value : Type} {c : Config Key} {t : Table Key Value} {k : Key} {v : Value}

/-- A search ends at its key or at an empty slot, if there is either. -/
theorem exists_stops (h : Stored c t k ∨ HasEmpty c t) : ∃ d < c.capacity, Stops c t k d := by
  classical
  by_cases hstored : Stored c t k
  · obtain ⟨i, hi, hkey⟩ := hstored
    have hat : t.keys (c.slot k (ringDist c.capacity (c.hashKey k) i)) = some k := by
      rw [Config.slot, add_ringDist c.capacity_pos, Nat.mod_eq_of_lt hi]
      exact hkey
    have hstop : ¬ Passes t k (c.slot k (ringDist c.capacity (c.hashKey k) i)) := by
      rintro ⟨p, hp, hne⟩
      exact hne (Option.some.inj (hp.symm.trans hat))
    have hex : ∃ d, ¬ Passes t k (c.slot k d) := ⟨_, hstop⟩
    refine ⟨Nat.find hex, ?_, fun d hd => not_not.mp (Nat.find_min hex hd), fun p hp => ?_⟩
    · exact lt_of_le_of_lt (Nat.find_min' hex hstop)
        (ringDist_lt c.capacity_pos (c.hashKey k) i)
    · by_contra hne
      exact Nat.find_spec hex ⟨p, hp, hne⟩
  · obtain ⟨d, hd, -, hstops⟩ := stops_empty hstored (h.resolve_left hstored)
    exact ⟨d, hd, hstops⟩

theorem settle_ok {i : Nat} (hkey : ∀ p ∈ t.keys i, c.cmpKey k p = 0) :
    ∃ t' r, settle c t k v i = .ok (t', r) ∧ r ≠ .tblFull := by
  unfold settle
  rw [check_true hkey]
  cases t.values i with
  | none => exact ⟨_, .ok, rfl, nofun⟩
  | some w => exact ⟨_, .keyExists, rfl, nofun⟩

/-- The loop of an addition at a slot where it does not go on. -/
theorem addLoop_settles {cnt index : Nat} (hstop : ∀ p ∈ t.keys (c.mask index), p = k) :
    ∃ t' r, addLoop c t k v (cnt + 1) index = .ok (t', r) ∧ r ≠ .tblFull := by
  have hsame (p : Key) (hp : p = k) : c.cmpKey k p = 0 := (c.cmp_zero k p).mpr hp.symm
  simp only [addLoop]
  cases hkey : t.keys (c.mask index) with
  | none =>
    refine settle_ok fun p hp => hsame p ?_
    dsimp only at hp
    rw [Function.update_self] at hp
    exact (Option.some.inj hp).symm
  | some p =>
    have hp := hsame p (hstop p hkey)
    simp only [hp, ne_eq, not_true_eq_false, if_false]
    exact settle_ok fun p hp => hsame p (hstop p hp)

theorem addLoop_returns (cnt index : Nat) : ∃ t' r, addLoop c t k v cnt index = .ok (t', r) := by
  induction cnt generalizing index with
  | zero => exact ⟨t, .tblFull, rfl⟩
  | succ cnt ih =>
    by_cases hstop : ∀ p ∈ t.keys (c.mask index), p = k
    · obtain ⟨t', r, heq, -⟩ := addLoop_settles hstop
      exact ⟨t', r, heq⟩
    · push Not at hstop
      obtain ⟨p, hp, hne⟩ := hstop
      have hcmp : c.cmpKey k p ≠ 0 := fun hzero => hne ((c.cmp_zero k p).mp hzero).symm
      simp only [addLoop, Option.mem_def.mp hp, if_pos hcmp]
      exact ih _

/-- An addition that meets its key or an empty slot does not find the table full. -/
theorem addLoop_room {d : Nat} (h : Stops c t k d) {cnt e index : Nat}
    (hindex : c.mask index = c.slot k e) (hle : e ≤ d) (hcnt : d < e + cnt) :
    ∃ t' r, addLoop c t k v cnt index = .ok (t', r) ∧ r ≠ .tblFull := by
  induction cnt generalizing e index with
  | zero => omega
  | succ cnt ih =>
    rcases Nat.lt_or_eq_of_le hle with hlt | rfl
    · obtain ⟨p, hp, hcmp⟩ := (h.before e hlt).cmp c
      simp only [addLoop, hindex, hp, if_pos hcmp]
      exact ih (c.mask_slot_succ k e) hlt (by omega)
    · refine addLoop_settles ?_
      rw [hindex]
      exact h.here

theorem cleanStep_returns {i : Nat} (hi : i < c.capacity) : ∃ t', cleanStep c t i = .ok t' := by
  unfold cleanStep
  cases hkey : t.keys i with
  | none => exact ⟨t, rfl⟩
  | some k =>
    cases hvalue : t.values i with
    | none => exact ⟨_, rfl⟩
    | some v =>
      obtain ⟨d, hd, hstops⟩ := exists_stops (c := c) (t := t) (.inl ⟨i, hi, hkey⟩)
      have hindex : c.mask (c.hashKey k) = c.slot k 0 := c.mask_eq _
      obtain ⟨t', r, hadd, hroom⟩ := addLoop_room (v := v) hstops hindex (Nat.zero_le d)
        (show d < 0 + c.capacity by omega)
      have hadd' : vsimplehtAdd c t k v = .ok (t', r) := hadd
      dsimp only
      rw [hadd', ok_bind]
      dsimp only
      rw [check_true hroom]
      exact ⟨_, rfl⟩

theorem cleanLoop_returns (start : Nat) (rest e : Nat) (t : Table Key Value) :
    ∃ t', cleanLoop c start rest e t = .ok t' := by
  induction rest generalizing e t with
  | zero => exact ⟨t, rfl⟩
  | succ rest ih =>
    have hlt : c.mask (e + start) < c.capacity := by
      rw [c.mask_eq]
      exact Nat.mod_lt _ c.capacity_pos
    obtain ⟨t', hstep⟩ := cleanStep_returns (t := t) hlt
    simp only [cleanLoop, hstep]
    exact ih _ _

theorem cleanup_returns (t : Table Key Value) : ∃ t', cleanup c t = .ok t' := by
  unfold cleanup
  split
  · exact ⟨t, rfl⟩
  · obtain ⟨t', hloop⟩ := cleanLoop_returns (c := c) (startIndex c t) c.capacity 0 t
    simp only [hloop]
    exact ⟨_, rfl⟩

theorem removeLoop_returns {d : Nat} (h : Stops c t k d) {fuel e : Nat} (hle : e ≤ d)
    (hfuel : d < e + fuel) : ∃ r, removeLoop c t k fuel (c.slot k e) = .ok r := by
  induction fuel generalizing e with
  | zero => omega
  | succ fuel ih =>
    simp only [removeLoop, c.mask_slot_succ]
    rcases Nat.lt_or_eq_of_le hle with hlt | rfl
    · obtain ⟨p, hp, hcmp⟩ := (h.before e hlt).cmp c
      simp only [hp, if_neg hcmp]
      split
      · exact ih hlt (by omega)
      · exact ⟨_, rfl⟩
    · cases hkey : t.keys (c.slot k e) with
      | none => exact ⟨_, rfl⟩
      | some p =>
        have hp := h.here p hkey
        simp only [(c.cmp_zero k p).mpr hp.symm, if_true]
        cases t.values (c.slot k e) with
        | none => exact ⟨_, rfl⟩
        | some w =>
          obtain ⟨t', hclean⟩ := cleanup_returns (c := c) { t with
            values := Function.update t.values (c.slot k e) none
            deletedCount := t.deletedCount + 1 }
          simp only [hclean]
          exact ⟨_, rfl⟩

/-- A removal that passes every slot and never comes back to its hash goes on for any number of
rounds. -/
theorem removeLoop_blocked (h : ∀ d, Passes t k (c.slot k d)) (hlarge : c.capacity ≤ c.hashKey k)
    (fuel e : Nat) : removeLoop c t k fuel (c.slot k e) = .error .blocked := by
  induction fuel generalizing e with
  | zero => rfl
  | succ fuel ih =>
    obtain ⟨p, hp, hcmp⟩ := (h e).cmp c
    have hturn : c.slot k (e + 1) ≠ c.hashKey k := by
      have hlt := c.slot_lt k (e + 1)
      omega
    simp only [removeLoop, c.mask_slot_succ, hp, if_neg hcmp, if_pos hturn]
    exact ih (e + 1)

/-- The call returns, and its search visits `capacity` slots at most. -/
def Returns (c : Config Key) (t : Table Key Value) (call : Call Key Value) : Prop :=
  ∃ r, object c t call = .ok r

theorem returns_get_iff : Returns c t (.get k) ↔ Stored c t k ∨ HasEmpty c t := by
  have hindex : c.mask (c.hashKey k) = c.slot k 0 := c.mask_eq _
  constructor
  · rintro ⟨r, hr⟩
    by_contra hnot
    obtain ⟨hstored, hempty⟩ := not_or.mp hnot
    have hblocked := getLoop_blocked (passes_all hstored hempty) hindex c.capacity
    simp only [object, vsimplehtGet, hblocked] at hr
    cases hr
  · intro hstop
    obtain ⟨d, hd, hstops⟩ := exists_stops hstop
    have hloop := getLoop_stops hstops hindex (Nat.zero_le _) (show d < 0 + c.capacity by omega)
    have hget : ∃ value, vsimplehtGet c t k = .ok value := by
      rw [vsimplehtGet, hloop]
      exact ⟨_, rfl⟩
    obtain ⟨value, hvalue⟩ := hget
    exact ⟨(t, .value value), by rw [object, hvalue]; rfl⟩

theorem returns_add (k : Key) (v : Value) : Returns c t (.add k v) := by
  obtain ⟨t', r, hadd⟩ := addLoop_returns (c := c) (t := t) (k := k) (v := v) c.capacity
    (c.hashKey k)
  have hadd' : vsimplehtAdd c t k v = .ok (t', r) := hadd
  exact ⟨(t', .ret r), by rw [object, hadd']; rfl⟩

theorem returns_remove_iff :
    Returns c t (.remove k) ↔ (Stored c t k ∨ HasEmpty c t) ∨ c.hashKey k < c.capacity := by
  have hindex : c.mask (c.hashKey k) = c.slot k 0 := c.mask_eq _
  have hreturn {r : Table Key Value × Ret}
      (hr : removeLoop c t k c.capacity (c.slot k 0) = .ok r) : Returns c t (.remove k) := by
    refine ⟨(r.1, .ret r.2), ?_⟩
    simp only [object, vsimplehtRemove, hindex, hr]
    rfl
  constructor
  · rintro ⟨r, hr⟩
    by_contra hnot
    obtain ⟨hstop, hlarge⟩ := not_or.mp hnot
    obtain ⟨hstored, hempty⟩ := not_or.mp hstop
    have hblocked := removeLoop_blocked (passes_all hstored hempty) (Nat.le_of_not_lt hlarge)
      c.capacity 0
    simp only [object, vsimplehtRemove, hindex, hblocked] at hr
    cases hr
  · intro h
    by_cases hstop : Stored c t k ∨ HasEmpty c t
    · obtain ⟨d, hd, hstops⟩ := exists_stops hstop
      obtain ⟨r, hr⟩ := removeLoop_returns hstops (Nat.zero_le d)
        (show d < 0 + c.capacity by omega)
      exact hreturn hr
    · obtain ⟨hstored, hempty⟩ := not_or.mp hstop
      exact hreturn (removeLoop_around (passes_all hstored hempty) (h.resolve_left hstop)
        (Nat.zero_add _) c.capacity_pos)

/-- In every table, reached or not, an addition returns, and a search and a removal return when
some slot has no key or the key is in a slot. Otherwise a search goes on for ever, and a removal
returns when the hash of the key is an index. -/
theorem simpleht_returns (c : Config Key) (t : Table Key Value) (k : Key) :
    (∀ v, Returns c t (.add k v)) ∧
    (Returns c t (.get k) ↔ Stored c t k ∨ HasEmpty c t) ∧
    (Returns c t (.get k) ∨ ∀ fuel, getLoop c t k fuel (c.hashKey k) = none) ∧
    ((Stored c t k ∨ HasEmpty c t) ∨ c.hashKey k < c.capacity → Returns c t (.remove k)) := by
  have hindex : c.mask (c.hashKey k) = c.slot k 0 := c.mask_eq _
  refine ⟨returns_add k, returns_get_iff, or_iff_not_imp_left.mpr fun hget fuel => ?_,
    returns_remove_iff.mpr⟩
  rw [returns_get_iff, not_or] at hget
  exact getLoop_blocked (passes_all hget.1 hget.2) hindex fuel

theorem simpleht_returns_full : ∃ t, (∃ results,
      Object.run (object fourSlots) vsimplehtInit fillFour = .ok (t, results)) ∧
    Returns fourSlots t (.add 5 50) ∧ Returns fourSlots t (.get 4) ∧
    Returns fourSlots t (.remove 4) := by
  refine ⟨_, ⟨_, rfl⟩, (simpleht_returns fourSlots _ 5).1 50,
    (simpleht_returns fourSlots _ 4).2.1.mpr (.inl ⟨1, by decide, rfl⟩),
    (simpleht_returns fourSlots _ 4).2.2.2 (.inr (by decide))⟩

/-- With every slot in use, the search for a key that is in none goes on for ever, and so does
its removal when its hash is no index. -/
theorem simpleht_search_endless : ∃ t, (∃ results,
      Object.run (object fourSlots) vsimplehtInit fillFour = .ok (t, results)) ∧
    ¬ Returns fourSlots t (.get 5) ∧ ¬ Returns fourSlots t (.remove 5) := by
  refine ⟨_, ⟨_, rfl⟩, ?_, ?_⟩
  · rintro ⟨r, hr⟩
    cases hr
  · rintro ⟨r, hr⟩
    cases hr

end Libvsync.Map.Simpleht
