import Libvsync.Map.Simpleht
import Mathlib.Data.Nat.Find

/-!
Probing in the hash table. Every key in the table is met by its own search
before an empty slot, so a search stops at the slot of its key or, when the key
has none, at an empty slot if there is one. Adding a key where its search stops
keeps this.
-/

namespace Libvsync.Map.Simpleht

open Libvsync.Core Function

variable {Key Value : Type} {c : Config Key} {t : Table Key Value}

section Probe

theorem Config.capacity_pos (c : Config Key) : 0 < c.capacity := Nat.two_pow_pos _

theorem Config.mask_eq (c : Config Key) (index : Nat) : c.mask index = index % c.capacity :=
  Nat.and_two_pow_sub_one_eq_mod index c.order

/-- The slot that the search for a key meets at a distance from its home. -/
def Config.slot (c : Config Key) (k : Key) (d : Nat) : Nat := (c.hashKey k + d) % c.capacity

theorem Config.slot_lt (c : Config Key) (k : Key) (d : Nat) : c.slot k d < c.capacity :=
  Nat.mod_lt _ c.capacity_pos

theorem Config.mask_slot_succ (c : Config Key) (k : Key) (d : Nat) :
    c.mask (c.slot k d + 1) = c.slot k (d + 1) := by
  rw [Config.mask_eq, Config.slot, Nat.mod_add_mod]
  rfl

/-- The search goes on at a slot with another key. -/
def Passes (t : Table Key Value) (k : Key) (i : Nat) : Prop := ∃ p, t.keys i = some p ∧ p ≠ k

theorem Passes.cmp {k : Key} {i : Nat} (h : Passes t k i) (c : Config Key) :
    ∃ p, t.keys i = some p ∧ c.cmpKey k p ≠ 0 := by
  obtain ⟨p, hp, hne⟩ := h
  refine ⟨p, hp, ?_⟩
  rw [Ne, c.cmp_zero]
  exact hne.symm

/-- The search for `k` first stops at distance `d`. -/
structure Stops (c : Config Key) (t : Table Key Value) (k : Key) (d : Nat) : Prop where
  before : ∀ d' < d, Passes t k (c.slot k d')
  here : ∀ p ∈ t.keys (c.slot k d), p = k

theorem getLoop_stops {k : Key} {d : Nat} (h : Stops c t k d) {fuel e index : Nat}
    (hindex : c.mask index = c.slot k e) (hle : e ≤ d) (hfuel : d < e + fuel) :
    getLoop c t k fuel index = some (match t.keys (c.slot k d) with
      | none => none
      | some _ => t.values (c.slot k d)) := by
  induction fuel generalizing e index with
  | zero => omega
  | succ fuel ih =>
    simp only [getLoop, hindex]
    rcases Nat.lt_or_eq_of_le hle with hlt | rfl
    · obtain ⟨p, hp, hcmp⟩ := (h.before e hlt).cmp c
      simp only [hp, if_neg hcmp]
      exact ih (c.mask_slot_succ k e) hlt (by omega)
    · cases hkey : t.keys (c.slot k e) with
      | none => rfl
      | some p =>
        have hp := h.here p hkey
        simp only [(c.cmp_zero k p).mpr hp.symm, if_true]

/-- A search that stops nowhere goes on for any number of rounds. -/
theorem getLoop_blocked {k : Key} (h : ∀ d, Passes t k (c.slot k d)) {e index : Nat}
    (hindex : c.mask index = c.slot k e) (fuel : Nat) : getLoop c t k fuel index = none := by
  induction fuel generalizing e index with
  | zero => rfl
  | succ fuel ih =>
    obtain ⟨p, hp, hcmp⟩ := (h e).cmp c
    simp only [getLoop, hindex, hp, if_neg hcmp]
    exact ih (c.mask_slot_succ k e)

/-- An entry is put in a slot. -/
def Table.put (t : Table Key Value) (i : Nat) (k : Key) (v : Value) : Table Key Value :=
  { t with
    keys := update t.keys i (some k)
    values := update t.values i (some v) }

/-- What adding a key does when its search stops at slot `i`. -/
def Table.addAt (t : Table Key Value) (i : Nat) (k : Key) (v : Value) : Table Key Value × Ret :=
  match t.values i with
  | none => (t.put i k v, .ok)
  | some _ => (t, .keyExists)

theorem settle_eq {k : Key} {v : Value} {i : Nat} {t₀ : Table Key Value}
    (hkeys : t₀.keys = update t.keys i (some k)) (hvalues : t₀.values = t.values)
    (hcount : t₀.deletedCount = t.deletedCount)
    (hold : t.values i ≠ none → t.keys i = some k) :
    settle c t₀ k v i = .ok (t.addAt i k v) := by
  have hassert : ∀ stored ∈ t₀.keys i, c.cmpKey k stored = 0 := by
    intro stored hstored
    rw [hkeys, update_self] at hstored
    cases hstored
    exact (c.cmp_zero k k).mpr rfl
  unfold settle Table.addAt
  rw [check_true hassert, hvalues]
  cases hv : t.values i with
  | none =>
    have hput : ({ t₀ with values := update t.values i (some v) } : Table Key Value) =
        t.put i k v := by
      simp only [Table.put, hkeys, hcount]
    exact congrArg (fun t => Except.ok (t, Ret.ok)) hput
  | some w =>
    have hkey : t.keys i = some k := hold (by simp [hv])
    have hsame : t₀ = t := by
      obtain ⟨keys, values, count⟩ := t
      obtain ⟨keys₀, values₀, count₀⟩ := t₀
      dsimp only at hkeys hvalues hcount hkey
      subst hkeys hvalues hcount
      simp only [← hkey, update_eq_self]
    rw [hsame]
    rfl

theorem addLoop_stops {k : Key} {v : Value} {d : Nat} (h : Stops c t k d)
    (hvalued : t.keys (c.slot k d) = none → t.values (c.slot k d) = none) {cnt e index : Nat}
    (hindex : c.mask index = c.slot k e) (hle : e ≤ d) (hcnt : d < e + cnt) :
    addLoop c t k v cnt index = .ok (t.addAt (c.slot k d) k v) := by
  induction cnt generalizing e index with
  | zero => omega
  | succ cnt ih =>
    simp only [addLoop, hindex]
    rcases Nat.lt_or_eq_of_le hle with hlt | rfl
    · obtain ⟨p, hp, hcmp⟩ := (h.before e hlt).cmp c
      simp only [hp, if_pos hcmp]
      exact ih (c.mask_slot_succ k e) hlt (by omega)
    · cases hkey : t.keys (c.slot k e) with
      | none =>
        refine settle_eq (t := t) rfl rfl rfl ?_
        intro hvalue
        exact absurd (hvalued hkey) hvalue
      | some p =>
        have hp := h.here p hkey
        subst hp
        simp only [(c.cmp_zero p p).mpr rfl, ne_eq, not_true_eq_false, if_false]
        apply settle_eq _ rfl rfl (fun _ => hkey)
        rw [← hkey, update_eq_self]

theorem addLoop_full {k : Key} {v : Value} (h : ∀ d, Passes t k (c.slot k d)) {e index : Nat}
    (hindex : c.mask index = c.slot k e) (cnt : Nat) :
    addLoop c t k v cnt index = .ok (t, .tblFull) := by
  induction cnt generalizing e index with
  | zero => rfl
  | succ cnt ih =>
    obtain ⟨p, hp, hcmp⟩ := (h e).cmp c
    simp only [addLoop, hindex, hp, if_pos hcmp]
    exact ih (c.mask_slot_succ k e)

/-- What removing a key does when its search stops at slot `i`. -/
def removeAt (c : Config Key) (t : Table Key Value) (i : Nat) :
    Except Fault (Table Key Value × Ret) :=
  match t.values i with
  | none => .ok (t, .keyDne)
  | some _ => do
      let t ← cleanup c { t with
        values := update t.values i none
        deletedCount := t.deletedCount + 1 }
      return (t, .ok)

/-- The loop of a removal comes to its end at distance `d`, or, when the hash
is itself an index, once around. -/
theorem removeLoop_stops {k : Key} {d : Nat} (h : Stops c t k d) (hd : d < c.capacity)
    (hvalued : t.keys (c.slot k d) = none → t.values (c.slot k d) = none) {fuel e : Nat}
    (hle : e ≤ d) (hfuel : d < e + fuel) :
    removeLoop c t k fuel (c.slot k e) = removeAt c t (c.slot k d) := by
  induction fuel generalizing e with
  | zero => omega
  | succ fuel ih =>
    simp only [removeLoop, c.mask_slot_succ]
    rcases Nat.lt_or_eq_of_le hle with hlt | rfl
    · obtain ⟨p, hp, hcmp⟩ := (h.before e hlt).cmp c
      have hturn : c.slot k (e + 1) ≠ c.hashKey k := by
        intro hround
        have hzero : (c.hashKey k + 0) % c.capacity = (c.hashKey k + (e + 1)) % c.capacity := by
          have hsmall : c.hashKey k < c.capacity := by
            rw [← hround]
            exact c.slot_lt k (e + 1)
          rw [Nat.add_zero, Nat.mod_eq_of_lt hsmall]
          exact hround.symm
        have := ring_inj c.capacity_pos (by omega) hzero
        omega
      simp only [hp, if_neg hcmp, if_pos hturn]
      exact ih hlt (by omega)
    · cases hkey : t.keys (c.slot k e) with
      | none => simp only [removeAt, hvalued hkey]
      | some p =>
        have hp := h.here p hkey
        subst hp
        change (if c.cmpKey p p = 0 then _ else _) = _
        rw [if_pos ((c.cmp_zero p p).mpr rfl)]
        unfold removeAt
        cases t.values (c.slot p e) <;> rfl

theorem removeLoop_around {k : Key} (h : ∀ d, Passes t k (c.slot k d))
    (hsmall : c.hashKey k < c.capacity) {fuel e : Nat} (he : e + fuel = c.capacity)
    (hfuel : 0 < fuel) : removeLoop c t k fuel (c.slot k e) = .ok (t, .keyDne) := by
  induction fuel generalizing e with
  | zero => omega
  | succ fuel ih =>
    obtain ⟨p, hp, hcmp⟩ := (h e).cmp c
    simp only [removeLoop, c.mask_slot_succ, hp, if_neg hcmp]
    split
    · rename_i hturn
      have hpos : 0 < fuel := by
        by_contra hzero
        apply hturn
        have hend : e + 1 = c.capacity := by omega
        rw [Config.slot, hend, Nat.add_mod_right, Nat.mod_eq_of_lt hsmall]
      exact ih (by omega) hpos
    · rfl

end Probe

section Invariant

/-- The entries of the table, without their order. -/
structure Entries (c : Config Key) (t : Table Key Value) (m : Key → Option Value) : Prop where
  distinct : ∀ i j k, i < c.capacity → j < c.capacity → t.keys i = some k →
    t.keys j = some k → i = j
  valued : ∀ i, t.keys i = none → t.values i = none
  map : ∀ k v, m k = some v ↔ ∃ i < c.capacity, t.keys i = some k ∧ t.values i = some v

/-- Every key is met by its own search. -/
structure TableInv (c : Config Key) (t : Table Key Value) (m : Key → Option Value) : Prop
    extends Entries c t m where
  path : ∀ i k, i < c.capacity → t.keys i = some k →
    ∃ d < c.capacity, c.slot k d = i ∧ ∀ d' < d, t.keys (c.slot k d') ≠ none

/-- The key has a slot, with a value or without. -/
def Stored (c : Config Key) (t : Table Key Value) (k : Key) : Prop :=
  ∃ i < c.capacity, t.keys i = some k

/-- Some slot has no key. -/
def HasEmpty (c : Config Key) (t : Table Key Value) : Prop := ∃ i < c.capacity, t.keys i = none

variable {m : Key → Option Value}

theorem passes_of_ne {k : Key} {i : Nat} (hsome : t.keys i ≠ none) (hne : t.keys i ≠ some k) :
    Passes t k i := by
  obtain ⟨p, hp⟩ := Option.ne_none_iff_exists'.mp hsome
  refine ⟨p, hp, ?_⟩
  rintro rfl
  exact hne hp

/-- The search for a key that is in the table stops at its slot. -/
theorem TableInv.stops_stored (h : TableInv c t m) {k : Key} {i : Nat} (hi : i < c.capacity)
    (hkey : t.keys i = some k) : ∃ d < c.capacity, c.slot k d = i ∧ Stops c t k d := by
  obtain ⟨d, hd, hslot, hpath⟩ := h.path i k hi hkey
  refine ⟨d, hd, hslot, ?_, ?_⟩
  · intro d' hd'
    apply passes_of_ne (hpath d' hd')
    intro hsame
    have heq := h.distinct _ _ k (c.slot_lt k d') hi hsame hkey
    rw [← hslot] at heq
    have := ring_inj (by omega) hd heq
    omega
  · intro p hp
    rw [hslot, hkey] at hp
    exact (Option.some.inj hp).symm

theorem passes_of_not_stored {k : Key} (hnot : ¬ Stored c t k) {d : Nat}
    (hsome : t.keys (c.slot k d) ≠ none) : Passes t k (c.slot k d) := by
  apply passes_of_ne hsome
  intro hsame
  exact hnot ⟨_, c.slot_lt k d, hsame⟩

/-- The search for a key that is not in the table stops at an empty slot, if
there is one. -/
theorem stops_empty {k : Key} (hnot : ¬ Stored c t k) (hempty : HasEmpty c t) :
    ∃ d < c.capacity, t.keys (c.slot k d) = none ∧ Stops c t k d := by
  classical
  obtain ⟨i, hi, hkey⟩ := hempty
  have hat : t.keys (c.slot k (ringDist c.capacity (c.hashKey k) i)) = none := by
    rw [Config.slot, add_ringDist c.capacity_pos, Nat.mod_eq_of_lt hi]
    exact hkey
  have hex : ∃ d, t.keys (c.slot k d) = none := ⟨_, hat⟩
  have hfirst := Nat.find_spec hex
  refine ⟨Nat.find hex, ?_, hfirst, ?_, ?_⟩
  · exact lt_of_le_of_lt (Nat.find_min' hex hat) (ringDist_lt c.capacity_pos _ _)
  · intro d' hd'
    exact passes_of_not_stored hnot (Nat.find_min hex hd')
  · intro p hp
    rw [hfirst] at hp
    cases hp

theorem passes_all {k : Key} (hnot : ¬ Stored c t k) (hfull : ¬ HasEmpty c t) (d : Nat) :
    Passes t k (c.slot k d) := by
  apply passes_of_not_stored hnot
  intro hnone
  exact hfull ⟨_, c.slot_lt k d, hnone⟩

theorem Entries.absent (h : Entries c t m) {k : Key} (hnot : ¬ Stored c t k) : m k = none := by
  cases hm : m k with
  | none => rfl
  | some v =>
    obtain ⟨i, hi, hkey, -⟩ := (h.map k v).mp hm
    exact absurd ⟨i, hi, hkey⟩ hnot

theorem Entries.value (h : Entries c t m) {k : Key} {i : Nat} (hi : i < c.capacity)
    (hkey : t.keys i = some k) : m k = t.values i := by
  cases hv : t.values i with
  | some v => exact (h.map k v).mpr ⟨i, hi, hkey, hv⟩
  | none =>
    cases hm : m k with
    | none => rfl
    | some v =>
      obtain ⟨j, hj, hkeyj, hvj⟩ := (h.map k v).mp hm
      rw [h.distinct j i k hj hi hkeyj hkey, hv] at hvj
      cases hvj

theorem get_eq (h : TableInv c t m) {k : Key} (hok : Stored c t k ∨ HasEmpty c t) :
    vsimplehtGet c t k = .ok (m k) := by
  have hindex : c.mask (c.hashKey k) = c.slot k 0 := c.mask_eq _
  by_cases hstored : Stored c t k
  · obtain ⟨i, hi, hkey⟩ := hstored
    obtain ⟨d, hd, rfl, hstops⟩ := h.stops_stored hi hkey
    unfold vsimplehtGet
    rw [getLoop_stops hstops hindex (Nat.zero_le _) (by omega)]
    simp only [hkey, h.value hi hkey]
  · obtain ⟨d, hd, hnone, hstops⟩ := stops_empty hstored (hok.resolve_left hstored)
    unfold vsimplehtGet
    rw [getLoop_stops hstops hindex (Nat.zero_le _) (by omega)]
    simp only [hnone, h.absent hstored]

theorem put_keys_ne_none {i j : Nat} {k : Key} {v : Value} (h : t.keys j ≠ none) :
    (t.put i k v).keys j ≠ none := by
  simp only [Table.put, update_apply]
  split
  · simp
  · exact h

variable [DecidableEq Key]

/-- An entry is put in the slot of its key, or in an empty slot when the key
has none. -/
theorem Entries.put (h : Entries c t m) {k : Key} (v : Value) {i : Nat} (hi : i < c.capacity)
    (hfree : ∀ p ∈ t.keys i, p = k) (honly : ∀ j < c.capacity, t.keys j = some k → j = i) :
    Entries c (t.put i k v) (update m k (some v)) where
  distinct := by
    intro a b p ha hb hka hkb
    simp only [Table.put, update_apply] at hka hkb
    split_ifs at hka hkb with h1 h2 h2
    · rw [h1, h2]
    · cases hka
      exact absurd (honly b hb hkb) h2
    · cases hkb
      exact absurd (honly a ha hka) h1
    · exact h.distinct a b p ha hb hka hkb
  valued := by
    intro j hj
    simp only [Table.put, update_apply] at hj ⊢
    split_ifs at hj ⊢ with h1
    exact h.valued j hj
  map := by
    intro p w
    by_cases hp : p = k
    · subst hp
      simp only [update_self, Option.some.injEq, Table.put]
      constructor
      · rintro rfl
        exact ⟨i, hi, update_self _ _ _, update_self _ _ _⟩
      · rintro ⟨j, hj, hkey, hval⟩
        by_cases hji : j = i
        · subst hji
          rw [update_self] at hval
          exact Option.some.inj hval
        · rw [update_of_ne hji] at hkey
          exact absurd (honly j hj hkey) hji
    · rw [update_of_ne hp, h.map p w]
      simp only [Table.put]
      constructor
      · rintro ⟨j, hj, hkey, hval⟩
        have hji : j ≠ i := by
          rintro rfl
          exact hp (hfree p hkey)
        exact ⟨j, hj, by rw [update_of_ne hji]; exact hkey,
          by rw [update_of_ne hji]; exact hval⟩
      · rintro ⟨j, hj, hkey, hval⟩
        have hji : j ≠ i := by
          rintro rfl
          rw [update_self] at hkey
          exact hp (Option.some.inj hkey).symm
        rw [update_of_ne hji] at hkey hval
        exact ⟨j, hj, hkey, hval⟩

theorem TableInv.put (h : TableInv c t m) {k : Key} (v : Value) {d : Nat} (hd : d < c.capacity)
    (hstops : Stops c t k d) (honly : ∀ j < c.capacity, t.keys j = some k → j = c.slot k d) :
    TableInv c (t.put (c.slot k d) k v) (update m k (some v)) where
  toEntries := h.toEntries.put v (c.slot_lt k d) hstops.here honly
  path := by
    intro i p hi hkey
    by_cases hid : i = c.slot k d
    · subst hid
      simp only [Table.put, update_self, Option.some.injEq] at hkey
      subst hkey
      refine ⟨d, hd, rfl, ?_⟩
      intro d' hd'
      apply put_keys_ne_none
      obtain ⟨q, hq, -⟩ := hstops.before d' hd'
      simp [hq]
    · simp only [Table.put, update_of_ne hid] at hkey
      obtain ⟨d', hlt, hslot, hpath⟩ := h.path i p hi hkey
      exact ⟨d', hlt, hslot, fun e he => put_keys_ne_none (hpath e he)⟩

/-- The finite map: which result a call may have and what becomes of the map.
A table without room may refuse a new key. -/
def mapSpec (m : Key → Option Value) : Call Key Value → Result Value → (Key → Option Value) → Prop
  | .add k v, r, m' =>
    match m k with
    | some _ => r = .ret .keyExists ∧ m' = m
    | none => (r = .ret .ok ∧ m' = update m k (some v)) ∨ (r = .ret .tblFull ∧ m' = m)
  | .get k, r, m' => r = .value (m k) ∧ m' = m
  | .remove k, r, m' =>
    match m k with
    | some _ => r = .ret .ok ∧ m' = update m k none
    | none => r = .ret .keyDne ∧ m' = m

theorem add_spec (h : TableInv c t m) (k : Key) (v : Value) :
    ∃ t' r m', vsimplehtAdd c t k v = .ok (t', r) ∧ mapSpec m (.add k v) (.ret r) m' ∧
      TableInv c t' m' := by
  have hindex : c.mask (c.hashKey k) = c.slot k 0 := c.mask_eq _
  have hstop {d : Nat} (hd : d < c.capacity) (hstops : Stops c t k d) :
      vsimplehtAdd c t k v = .ok (t.addAt (c.slot k d) k v) :=
    addLoop_stops hstops (h.valued _) hindex (Nat.zero_le _) (by omega)
  by_cases hstored : Stored c t k
  · obtain ⟨i, hi, hkey⟩ := hstored
    obtain ⟨d, hd, rfl, hstops⟩ := h.stops_stored hi hkey
    have hm := h.value hi hkey
    rw [hstop hd hstops]
    unfold Table.addAt
    cases hv : t.values (c.slot k d) with
    | none =>
      rw [hv] at hm
      refine ⟨_, _, _, rfl, ?_, h.put v hd hstops ?_⟩
      · simp [mapSpec, hm]
      · intro j hj hkeyj
        exact h.distinct j _ k hj hi hkeyj hkey
    | some w =>
      rw [hv] at hm
      exact ⟨_, _, m, rfl, by simp [mapSpec, hm], h⟩
  · have hm := h.absent hstored
    by_cases hempty : HasEmpty c t
    · obtain ⟨d, hd, hnone, hstops⟩ := stops_empty hstored hempty
      rw [hstop hd hstops]
      unfold Table.addAt
      rw [h.valued _ hnone]
      refine ⟨_, _, _, rfl, ?_, h.put v hd hstops ?_⟩
      · simp [mapSpec, hm]
      · intro j hj hkeyj
        exact absurd ⟨j, hj, hkeyj⟩ hstored
    · have hfull : vsimplehtAdd c t k v = .ok (t, .tblFull) :=
        addLoop_full (passes_all hstored hempty) hindex _
      exact ⟨t, .tblFull, m, hfull, by simp [mapSpec, hm], h⟩

end Invariant

end Libvsync.Map.Simpleht
