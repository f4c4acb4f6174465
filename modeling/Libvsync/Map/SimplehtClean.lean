import Libvsync.Map.SimplehtMap

/-!
The hash table refines a finite map as long as a search can end and a cleanup
starts at the beginning of a bucket. The cleanup works through the slots in the
order of their distance from where it starts. Behind it every key is met by its
own search again, provided that no search for an entry ahead of it begins
before the start.
-/

namespace Libvsync.Map.Simpleht

open Libvsync.Core Function

variable {Key Value : Type} {c : Config Key} {t : Table Key Value}

section Cleanup

variable {m : Key → Option Value}

/-- The slot at a distance from the start of the cleanup. -/
def Config.place (c : Config Key) (start j : Nat) : Nat := (start + j) % c.capacity

/-- The distance of a key's home from the start of the cleanup. -/
def Config.home (c : Config Key) (start : Nat) (k : Key) : Nat :=
  ringDist c.capacity start (c.hashKey k)

theorem Config.place_lt (c : Config Key) (start j : Nat) : c.place start j < c.capacity :=
  Nat.mod_lt _ c.capacity_pos

theorem Config.slot_eq_place (c : Config Key) (start : Nat) (k : Key) (d : Nat) :
    c.slot k d = c.place start (c.home start k + d) := by
  have hhome := add_ringDist c.capacity_pos start (c.hashKey k)
  unfold Config.slot Config.place Config.home
  rw [← Nat.add_assoc, Nat.add_mod, ← hhome, ← Nat.add_mod]

theorem Config.place_inj {start j j' : Nat} (hj : j < c.capacity) (hj' : j' < c.capacity)
    (h : c.place start j = c.place start j') : j = j' := ring_inj hj hj' h

/-- The cleanup has passed the slots at distances below `e`. -/
structure Cleaned (c : Config Key) (start : Nat) (m : Key → Option Value) (e : Nat)
    (t : Table Key Value) : Prop extends Entries c t m where
  passed : ∀ j < e, ∀ k, t.keys (c.place start j) = some k →
    t.values (c.place start j) ≠ none ∧ c.home start k ≤ j ∧
      ∀ j', c.home start k ≤ j' → j' < j → t.keys (c.place start j') ≠ none
  ahead : ∀ j < c.capacity, e ≤ j → ∀ k, t.keys (c.place start j) = some k →
    t.values (c.place start j) ≠ none → c.home start k ≤ j

/-- An entry moves to an empty slot. -/
def Table.move (t : Table Key Value) (i i' : Nat) (k : Key) (v : Value) : Table Key Value :=
  { t.put i' k v with
    keys := update (t.put i' k v).keys i none
    values := update (t.put i' k v).values i none }

theorem move_keys {i i' j : Nat} {k : Key} {v : Value} (hi : j ≠ i) (hi' : j ≠ i') :
    (t.move i i' k v).keys j = t.keys j := by
  simp only [Table.move, Table.put, update_of_ne hi, update_of_ne hi']

theorem move_values {i i' j : Nat} {k : Key} {v : Value} (hi : j ≠ i) (hi' : j ≠ i') :
    (t.move i i' k v).values j = t.values j := by
  simp only [Table.move, Table.put, update_of_ne hi, update_of_ne hi']

theorem move_old (t : Table Key Value) (i i' : Nat) (k : Key) (v : Value) :
    (t.move i i' k v).keys i = none ∧ (t.move i i' k v).values i = none := by
  simp [Table.move]

theorem move_new {i i' : Nat} {k : Key} {v : Value} (hne : i ≠ i') :
    (t.move i i' k v).keys i' = some k ∧ (t.move i i' k v).values i' = some v := by
  simp [Table.move, Table.put, update_of_ne hne.symm]

theorem Entries.move (h : Entries c t m) {k : Key} {v : Value} {i i' : Nat}
    (hi : i < c.capacity) (hi' : i' < c.capacity) (hkey : t.keys i = some k)
    (hvalue : t.values i = some v) (hfree : t.keys i' = none) :
    Entries c (t.move i i' k v) m := by
  have hne : i ≠ i' := by
    rintro rfl
    rw [hfree] at hkey
    cases hkey
  -- where a key of the new table was before
  have hwas (a : Nat) (p : Key) (hp : (t.move i i' k v).keys a = some p) :
      a ≠ i ∧ ((a = i' ∧ p = k) ∨ (a ≠ i' ∧ t.keys a = some p)) := by
    have hai : a ≠ i := by
      rintro rfl
      rw [(move_old t a i' k v).1] at hp
      cases hp
    refine ⟨hai, ?_⟩
    by_cases hai' : a = i'
    · subst hai'
      rw [(move_new hne).1] at hp
      exact Or.inl ⟨rfl, (Option.some.inj hp).symm⟩
    · rw [move_keys hai hai'] at hp
      exact Or.inr ⟨hai', hp⟩
  constructor
  · intro a b p ha hb hka hkb
    obtain ⟨hai, holda⟩ := hwas a p hka
    obtain ⟨hbi, holdb⟩ := hwas b p hkb
    rcases holda with ⟨rfl, rfl⟩ | ⟨_, holda⟩ <;> rcases holdb with ⟨rfl, hp⟩ | ⟨_, holdb⟩
    · rfl
    · exact absurd (h.distinct b i p hb hi holdb hkey) hbi
    · subst hp
      exact absurd (h.distinct a i p ha hi holda hkey) hai
    · exact h.distinct a b p ha hb holda holdb
  · intro a ha
    by_cases hai : a = i
    · subst hai
      exact (move_old t a i' k v).2
    · by_cases hai' : a = i'
      · subst hai'
        rw [(move_new hne).1] at ha
        cases ha
      · rw [move_keys hai hai'] at ha
        rw [move_values hai hai']
        exact h.valued a ha
  · intro p w
    rw [h.map p w]
    constructor
    · rintro ⟨a, ha, hka, hva⟩
      by_cases hai : a = i
      · subst hai
        rw [hkey] at hka
        rw [hvalue] at hva
        cases hka
        cases hva
        exact ⟨i', hi', move_new hne⟩
      · have hai' : a ≠ i' := by
          rintro rfl
          rw [hfree] at hka
          cases hka
        exact ⟨a, ha, by rw [move_keys hai hai']; exact hka,
          by rw [move_values hai hai']; exact hva⟩
    · rintro ⟨a, ha, hka, hva⟩
      obtain ⟨hai, hold⟩ := hwas a p hka
      rcases hold with ⟨rfl, rfl⟩ | ⟨hai', hka⟩
      · rw [(move_new hne).2] at hva
        cases hva
        exact ⟨i, hi, hkey, hvalue⟩
      · rw [move_values hai hai'] at hva
        exact ⟨a, ha, hka, hva⟩

/-- The key of a removed entry is deleted. -/
theorem Entries.clear (h : Entries c t m) {i : Nat} (hvalue : t.values i = none) :
    Entries c { t with keys := update t.keys i none } m where
  distinct := by
    intro a b p ha hb hka hkb
    simp only [update_apply] at hka hkb
    split_ifs at hka hkb
    exact h.distinct a b p ha hb hka hkb
  valued := by
    intro a ha
    simp only [update_apply] at ha
    split_ifs at ha with hai
    · rw [hai]
      exact hvalue
    · exact h.valued a ha
  map := by
    intro p w
    rw [h.map p w]
    simp only [update_apply]
    constructor
    · rintro ⟨a, ha, hka, hva⟩
      have hai : a ≠ i := by
        rintro rfl
        rw [hvalue] at hva
        cases hva
      exact ⟨a, ha, by rw [if_neg hai]; exact hka, hva⟩
    · rintro ⟨a, ha, hka, hva⟩
      split_ifs at hka
      exact ⟨a, ha, hka, hva⟩

variable {start e : Nat}

/-- The search for the entry at distance `e`, up to that entry. -/
theorem Cleaned.stops (h : Cleaned c start m e t) (he : e < c.capacity) {k : Key}
    (hkey : t.keys (c.place start e) = some k) {j : Nat} (hhome : c.home start k ≤ j) (hj : j ≤ e)
    (hbefore : ∀ j', c.home start k ≤ j' → j' < j → t.keys (c.place start j') ≠ none)
    (hhere : j < e → t.keys (c.place start j) = none) :
    Stops c t k (j - c.home start k) ∧ c.slot k (j - c.home start k) = c.place start j := by
  have hslot : c.slot k (j - c.home start k) = c.place start j := by
    rw [c.slot_eq_place start]
    congr 1
    omega
  refine ⟨⟨?_, ?_⟩, hslot⟩
  · intro d' hd'
    have hat : c.slot k d' = c.place start (c.home start k + d') := c.slot_eq_place start k d'
    rw [hat]
    apply passes_of_ne (hbefore _ (by omega) (by omega))
    intro hsame
    have heq := h.distinct _ _ k (c.place_lt _ _) (c.place_lt _ _) hsame hkey
    have := Config.place_inj (by omega) he heq
    omega
  · intro p hp
    rw [hslot] at hp
    rcases Nat.lt_or_eq_of_le hj with hlt | rfl
    · rw [hhere hlt] at hp
      cases hp
    · rw [hkey] at hp
      exact (Option.some.inj hp).symm

theorem Cleaned.add (h : Cleaned c start m e t) (he : e < c.capacity) {k : Key} (v : Value)
    (hkey : t.keys (c.place start e) = some k) {j : Nat} (hhome : c.home start k ≤ j) (hj : j ≤ e)
    (hbefore : ∀ j', c.home start k ≤ j' → j' < j → t.keys (c.place start j') ≠ none)
    (hhere : j < e → t.keys (c.place start j) = none) :
    vsimplehtAdd c t k v = .ok (t.addAt (c.place start j) k v) := by
  obtain ⟨hstops, hslot⟩ := h.stops he hkey hhome hj hbefore hhere
  have hindex : c.mask (c.hashKey k) = c.slot k 0 := c.mask_eq _
  rw [← hslot]
  exact addLoop_stops hstops (h.valued _) hindex (Nat.zero_le _) (by omega)

/-- The first slot for the entry at distance `e`: an empty one, or its own. -/
theorem exists_resettle {k : Key} (t : Table Key Value) (hhome : c.home start k ≤ e) :
    ∃ j, c.home start k ≤ j ∧ j ≤ e ∧
      (∀ j', c.home start k ≤ j' → j' < j → t.keys (c.place start j') ≠ none) ∧
      (j < e → t.keys (c.place start j) = none) := by
  classical
  by_cases hex : ∃ j, c.home start k ≤ j ∧ j < e ∧ t.keys (c.place start j) = none
  · obtain ⟨h1, h2, h3⟩ := Nat.find_spec hex
    refine ⟨Nat.find hex, h1, h2.le, ?_, fun _ => h3⟩
    intro j' hj' hlt hnone
    exact Nat.find_min hex hlt ⟨hj', by omega, hnone⟩
  · refine ⟨e, hhome, Nat.le_refl _, ?_, fun hlt => absurd hlt (Nat.lt_irrefl _)⟩
    intro j' hj' hlt hnone
    exact hex ⟨j', hj', hlt, hnone⟩

/-- An entry that has been passed keeps its path when other slots ahead change. -/
theorem Cleaned.resettled (h : Cleaned c start m e t) (he : e < c.capacity) {k : Key} {v : Value}
    (hkey : t.keys (c.place start e) = some k) (hvalue : t.values (c.place start e) = some v)
    {j : Nat} (hhome : c.home start k ≤ j) (hlt : j < e)
    (hbefore : ∀ j', c.home start k ≤ j' → j' < j → t.keys (c.place start j') ≠ none)
    (hfree : t.keys (c.place start j) = none) :
    Cleaned c start m (e + 1) (t.move (c.place start e) (c.place start j) k v) := by
  have hapart {a b : Nat} (ha : a < c.capacity) (hb : b < c.capacity) (hab : a ≠ b) :
      c.place start a ≠ c.place start b := fun heq => hab (Config.place_inj ha hb heq)
  have hkeep (a : Nat) (ha : a < e) (hsome : t.keys (c.place start a) ≠ none) :
      (t.move (c.place start e) (c.place start j) k v).keys (c.place start a) ≠ none := by
    have hae := hapart (by omega) he (show a ≠ e by omega)
    by_cases haj : a = j
    · subst haj
      rw [(move_new hae.symm).1]
      simp
    · rw [move_keys hae (hapart (by omega) (by omega) haj)]
      exact hsome
  refine { h.toEntries.move (c.place_lt _ _) (c.place_lt _ _) hkey hvalue hfree with
    passed := ?_, ahead := ?_ }
  · intro a ha p hp
    have hae : a ≠ e := by
      rintro rfl
      rw [(move_old t _ _ k v).1] at hp
      cases hp
    have hplace := hapart (show a < c.capacity by omega) he hae
    by_cases haj : a = j
    · subst haj
      rw [(move_new hplace.symm).1] at hp
      cases hp
      rw [(move_new hplace.symm).2]
      refine ⟨by simp, hhome, ?_⟩
      intro j' hj' hj'a
      exact hkeep j' (by omega) (hbefore j' hj' hj'a)
    · have hplacej := hapart (show a < c.capacity by omega) (show j < c.capacity by omega) haj
      rw [move_keys hplace hplacej] at hp
      rw [move_values hplace hplacej]
      obtain ⟨hv, hh, hpath⟩ := h.passed a (by omega) p hp
      refine ⟨hv, hh, ?_⟩
      intro j' hj' hj'a
      exact hkeep j' (by omega) (hpath j' hj' hj'a)
  · intro a ha hea p hp hv
    have hplace := hapart ha he (by omega)
    have hplacej := hapart ha (show j < c.capacity by omega) (by omega)
    rw [move_keys hplace hplacej] at hp
    rw [move_values hplace hplacej] at hv
    exact h.ahead a ha (by omega) p hp hv

theorem cleanStep_spec (h : Cleaned c start m e t) (he : e < c.capacity) :
    ∃ t', cleanStep c t (c.place start e) = .ok t' ∧ Cleaned c start m (e + 1) t' := by
  have hahead : ∀ a < c.capacity, e + 1 ≤ a → ∀ p, t.keys (c.place start a) = some p →
      t.values (c.place start a) ≠ none → c.home start p ≤ a :=
    fun a ha hea => h.ahead a ha (by omega)
  unfold cleanStep
  cases hkey : t.keys (c.place start e) with
  | none =>
    refine ⟨t, rfl, { h with passed := ?_, ahead := hahead }⟩
    intro a ha p hp
    rcases Nat.lt_succ_iff_lt_or_eq.mp ha with hlt | rfl
    · exact h.passed a hlt p hp
    · rw [hkey] at hp
      cases hp
  | some k =>
    cases hvalue : t.values (c.place start e) with
    | none =>
      refine ⟨_, rfl, { h.toEntries.clear hvalue with passed := ?_, ahead := ?_ }⟩
      · intro a ha p hp
        dsimp only at hp ⊢
        have hae : a ≠ e := by
          rintro rfl
          rw [update_self] at hp
          cases hp
        have hne {b : Nat} (hb : b < e) : c.place start b ≠ c.place start e := by
          intro heq
          have := Config.place_inj (by omega) he heq
          omega
        rw [update_of_ne (hne (by omega))] at hp
        obtain ⟨hv, hh, hpath⟩ := h.passed a (by omega) p hp
        refine ⟨hv, hh, ?_⟩
        intro j' hj' hlt
        rw [update_of_ne (hne (by omega))]
        exact hpath j' hj' hlt
      · intro a ha hea p hp hv
        dsimp only at hp hv
        rw [update_of_ne] at hp
        · exact hahead a ha hea p hp hv
        · intro heq
          have := Config.place_inj ha he heq
          omega
    | some v =>
      have hhome := h.ahead e he (Nat.le_refl _) k hkey (by simp [hvalue])
      obtain ⟨j, hj, hje, hbefore, hhere⟩ := exists_resettle t hhome
      have hadd := h.add he v hkey hj hje hbefore hhere
      dsimp only
      rw [hadd]
      rcases Nat.lt_or_eq_of_le hje with hlt | rfl
      · have hfree := hhere hlt
        have hat : t.addAt (c.place start j) k v = (t.put (c.place start j) k v, .ok) := by
          simp only [Table.addAt, h.valued _ hfree]
        rw [hat]
        exact ⟨_, rfl, h.resettled he hkey hvalue hj hlt hbefore hfree⟩
      · have hat : t.addAt (c.place start j) k v = (t, .keyExists) := by
          simp only [Table.addAt, hvalue]
        rw [hat]
        refine ⟨t, rfl, { h with passed := ?_, ahead := hahead }⟩
        intro a ha p hp
        rcases Nat.lt_succ_iff_lt_or_eq.mp ha with hlt | rfl
        · exact h.passed a hlt p hp
        · rw [hkey] at hp
          cases hp
          exact ⟨by simp [hvalue], hj, hbefore⟩

theorem cleanLoop_spec {rest : Nat} (h : Cleaned c start m e t) (he : e + rest = c.capacity) :
    ∃ t', cleanLoop c start rest e t = .ok t' ∧ Cleaned c start m c.capacity t' := by
  induction rest generalizing e t with
  | zero =>
    have hend : e = c.capacity := by omega
    subst hend
    exact ⟨t, rfl, h⟩
  | succ rest ih =>
    obtain ⟨t₁, hstep, h₁⟩ := cleanStep_spec h (by omega)
    obtain ⟨t', hloop, h'⟩ := ih h₁ (by omega)
    refine ⟨t', ?_, h'⟩
    have hindex : c.mask (e + start) = c.place start e := by
      rw [Config.mask_eq, Nat.add_comm]
      rfl
    simp only [cleanLoop, hindex, hstep]
    exact hloop

/-- Behind the cleanup every key is met by its own search again. -/
theorem Cleaned.inv (h : Cleaned c start m c.capacity t) : TableInv c t m := by
  refine { h.toEntries with path := ?_ }
  intro i k hi hkey
  have hplace : c.place start (ringDist c.capacity start i) = i := by
    rw [Config.place, add_ringDist c.capacity_pos, Nat.mod_eq_of_lt hi]
  have hdist := ringDist_lt c.capacity_pos start i
  obtain ⟨-, hhome, hpath⟩ := h.passed (ringDist c.capacity start i) hdist k
    (by rw [hplace]; exact hkey)
  refine ⟨ringDist c.capacity start i - c.home start k, by omega, ?_, ?_⟩
  · rw [c.slot_eq_place start]
    rw [show c.home start k + (ringDist c.capacity start i - c.home start k) =
      ringDist c.capacity start i by omega]
    exact hplace
  · intro d' hd'
    rw [c.slot_eq_place start]
    exact hpath _ (by omega) (by omega)

/-- From an empty slot on, no search runs past the start of the cleanup. -/
theorem TableInv.home_le_of_empty (h : TableInv c t m) (hstart : start < c.capacity)
    (hempty : t.keys start = none) {j : Nat} (hj : j < c.capacity) {k : Key}
    (hkey : t.keys (c.place start j) = some k) : c.home start k ≤ j := by
  obtain ⟨d, hd, hslot, hpath⟩ := h.path _ k (c.place_lt _ _) hkey
  have hhome : c.home start k < c.capacity := ringDist_lt c.capacity_pos _ _
  have hzero : c.place start c.capacity = start := by
    rw [Config.place, Nat.add_mod_right, Nat.mod_eq_of_lt hstart]
  by_contra hlt
  rw [c.slot_eq_place start] at hslot
  -- the search wraps around, so it comes through the start
  have hwrap : c.home start k + d = j + c.capacity := by
    have hturn : c.place start (c.home start k + d - c.capacity) = c.place start j := by
      rcases Nat.lt_or_ge (c.home start k + d) c.capacity with hsmall | hlarge
      · have := Config.place_inj hsmall hj hslot
        omega
      · rw [← hslot, Config.place, Config.place, ← Nat.add_mod_right (start + _)]
        congr 1
        omega
    rcases Nat.lt_or_ge (c.home start k + d) c.capacity with hsmall | hlarge
    · have := Config.place_inj hsmall hj hslot
      omega
    · have := Config.place_inj (by omega) hj hturn
      omega
  have hthrough : c.slot k (c.capacity - c.home start k) = start := by
    rw [c.slot_eq_place start, show c.home start k + (c.capacity - c.home start k) = c.capacity
      by omega]
    exact hzero
  rcases Nat.eq_zero_or_pos j with rfl | hpos
  · have hhere : c.place start 0 = start := by
      rw [Config.place, Nat.add_zero, Nat.mod_eq_of_lt hstart]
    rw [hhere, hempty] at hkey
    cases hkey
  · apply hpath (c.capacity - c.home start k) (by omega)
    rw [hthrough]
    exact hempty

/-- Where the cleanup starts: at an empty slot if there is one. -/
theorem startIndex_cases (c : Config Key) (t : Table Key Value) :
    (startIndex c t < c.capacity ∧ t.keys (startIndex c t) = none) ∨
      (¬ HasEmpty c t ∧ startIndex c t = c.capacity - 1) := by
  unfold startIndex
  cases hfind : (List.range c.capacity).find? fun e => (t.keys e).isNone with
  | some e =>
    left
    have hmem := List.mem_of_find?_eq_some hfind
    have hnone := List.find?_some hfind
    exact ⟨List.mem_range.mp hmem, Option.isNone_iff_eq_none.mp hnone⟩
  | none =>
    right
    refine ⟨?_, rfl⟩
    rintro ⟨i, hi, hkey⟩
    have := List.find?_eq_none.mp hfind i (List.mem_range.mpr hi)
    simp [hkey] at this

theorem cleanup_spec (h : TableInv c t m)
    (hstart : c.cleaningThreshold ≤ t.deletedCount → HasEmpty c t ∨
      ∀ j < c.capacity, ∀ k, t.keys (c.place (c.capacity - 1) j) = some k →
        t.values (c.place (c.capacity - 1) j) ≠ none → c.home (c.capacity - 1) k ≤ j) :
    ∃ t', cleanup c t = .ok t' ∧ TableInv c t' m := by
  unfold cleanup
  split
  · exact ⟨t, rfl, h⟩
  · rename_i hcount
    have hbegin : Cleaned c (startIndex c t) m 0 t := by
      refine { h.toEntries with passed := ?_, ahead := ?_ }
      · intro j hj
        exact absurd hj (Nat.not_lt_zero j)
      · intro j hj _ k hkey hvalue
        rcases startIndex_cases c t with ⟨hlt, hnone⟩ | ⟨hfull, hlast⟩
        · exact h.home_le_of_empty hlt hnone hj hkey
        · rw [hlast] at hkey hvalue ⊢
          exact (hstart (by omega)).resolve_left hfull j hj k hkey hvalue
    obtain ⟨t', hloop, hclean⟩ := cleanLoop_spec hbegin (Nat.zero_add _)
    rw [hloop]
    exact ⟨_, rfl, { hclean.inv with }⟩

end Cleanup

section Refine

theorem vsimplehtInit_inv (c : Config Key) :
    TableInv c (vsimplehtInit : Table Key Value) (fun _ => none) where
  distinct := by
    intro i j k _ _ hkey
    cases hkey
  valued := fun _ _ => rfl
  map := by simp [vsimplehtInit]
  path := by
    intro i k _ hkey
    cases hkey

variable [DecidableEq Key] {m : Key → Option Value}

/-- A value is taken out; the key stays in its slot. -/
theorem TableInv.takeOut (h : TableInv c t m) {k : Key} {i : Nat} (hi : i < c.capacity)
    (hkey : t.keys i = some k) (count : Nat) :
    TableInv c { t with values := update t.values i none, deletedCount := count }
      (update m k none) where
  distinct := h.distinct
  path := h.path
  valued := by
    intro a ha
    simp only [update_apply]
    split
    · rfl
    · exact h.valued a ha
  map := by
    intro p w
    simp only [update_apply]
    by_cases hp : p = k
    · subst hp
      simp only [if_true]
      constructor
      · intro hnone
        cases hnone
      · rintro ⟨a, ha, hka, hva⟩
        rw [if_pos (h.distinct a i p ha hi hka hkey)] at hva
        cases hva
    · rw [if_neg hp, h.map p w]
      constructor
      · rintro ⟨a, ha, hka, hva⟩
        refine ⟨a, ha, hka, ?_⟩
        rw [if_neg]
        · exact hva
        · rintro rfl
          rw [hkey] at hka
          exact hp (Option.some.inj hka).symm
      · rintro ⟨a, ha, hka, hva⟩
        split_ifs at hva
        exact ⟨a, ha, hka, hva⟩

/-- The search for no live key but `k` runs into the last slot from the one
before it. -/
def LastSlotFirst (c : Config Key) (t : Table Key Value) (k : Key) : Prop :=
  ∀ j < c.capacity, ∀ p, p ≠ k → t.keys (c.place (c.capacity - 1) j) = some p →
    t.values (c.place (c.capacity - 1) j) ≠ none → c.home (c.capacity - 1) p ≤ j

/-- When a call does what the map does: a search has an end, and a cleanup
starts at the beginning of a bucket. -/
def CallOk (c : Config Key) (t : Table Key Value) : Call Key Value → Prop
  | .add _ _ => True
  | .get k => Stored c t k ∨ HasEmpty c t
  | .remove k => (Stored c t k ∨ HasEmpty c t ∨ c.hashKey k < c.capacity) ∧
      ((∃ i < c.capacity, t.keys i = some k ∧ t.values i ≠ none) →
        c.cleaningThreshold ≤ t.deletedCount + 1 → HasEmpty c t ∨ LastSlotFirst c t k)

theorem remove_spec (h : TableInv c t m) {k : Key} (hok : CallOk c t (.remove k)) :
    ∃ t' r m', vsimplehtRemove c t k = .ok (t', r) ∧ mapSpec m (.remove k) (.ret r) m' ∧
      TableInv c t' m' := by
  have hindex : c.mask (c.hashKey k) = c.slot k 0 := c.mask_eq _
  unfold vsimplehtRemove
  rw [hindex]
  by_cases hstored : Stored c t k
  · obtain ⟨i, hi, hkey⟩ := hstored
    obtain ⟨d, hd, rfl, hstops⟩ := h.stops_stored hi hkey
    have hm := h.value hi hkey
    rw [removeLoop_stops hstops hd (h.valued _) (Nat.zero_le _) (by omega)]
    unfold removeAt
    cases hv : t.values (c.slot k d) with
    | none =>
      rw [hv] at hm
      exact ⟨t, .keyDne, m, rfl, by simp [mapSpec, hm], h⟩
    | some v =>
      rw [hv] at hm
      have hclean := hok.2 ⟨_, hi, hkey, by simp [hv]⟩
      obtain ⟨t', hcleanup, hinv⟩ := cleanup_spec
        (h.takeOut hi hkey (t.deletedCount + 1)) (by
          intro hcount
          rcases hclean hcount with hempty | hfirst
          · exact Or.inl hempty
          · right
            intro j hj p hp hvalue
            dsimp only at hp hvalue
            have hne : c.place (c.capacity - 1) j ≠ c.slot k d := by
              intro heq
              rw [heq, update_self] at hvalue
              exact hvalue rfl
            rw [update_of_ne hne] at hvalue
            apply hfirst j hj p _ hp hvalue
            rintro rfl
            exact hne (h.distinct _ _ p (c.place_lt _ _) hi hp hkey))
      dsimp only
      rw [hcleanup]
      exact ⟨t', .ok, _, rfl, by simp [mapSpec, hm], hinv⟩
  · have hm := h.absent hstored
    refine ⟨t, .keyDne, m, ?_, by simp [mapSpec, hm], h⟩
    by_cases hempty : HasEmpty c t
    · obtain ⟨d, hd, hnone, hstops⟩ := stops_empty hstored hempty
      rw [removeLoop_stops hstops hd (h.valued _) (Nat.zero_le _) (by omega)]
      simp only [removeAt, h.valued _ hnone]
    · have hsmall := (hok.1.resolve_left hstored).resolve_left hempty
      exact removeLoop_around (passes_all hstored hempty) hsmall (Nat.zero_add _) c.capacity_pos

/-- The hash table refines a finite map in every run, of any length, whose
searches have an end and whose cleanups start at the beginning of a bucket. -/
theorem simpleht_refines_map (c : Config Key) (calls : List (Call Key Value))
    (hok : Object.Meets (object c) (CallOk c) vsimplehtInit calls) :
    ∃ final results m, Object.run (object c) vsimplehtInit calls = .ok (final, results) ∧
      SpecRun mapSpec (fun _ => none) calls results m ∧ TableInv c final m := by
  apply Object.refines _ (vsimplehtInit_inv c) hok
  intro t m call h hcall
  cases call with
  | add k v =>
    obtain ⟨t', r, m', hadd, hspec, hinv⟩ := add_spec h k v
    exact ⟨t', .ret r, m', by simp only [object, hadd]; rfl, hspec, hinv⟩
  | get k =>
    exact ⟨t, .value (m k), m, by simp only [object, get_eq h hcall]; rfl, ⟨rfl, rfl⟩, h⟩
  | remove k =>
    obtain ⟨t', r, m', hremove, hspec, hinv⟩ := remove_spec h hcall
    exact ⟨t', .ret r, m', by simp only [object, hremove]; rfl, hspec, hinv⟩

/-- Four slots; keys 1 and 2 share a home, and the hash of key 5 is no index. -/
def fourSlots : Config Nat where
  order := 2
  hashKey k := if k ≤ 2 then 2 else k - 3 + (if k = 5 then 2 else 0)
  cmpKey a b := (a : Int) - b
  cmp_zero := diff_zero

/-- Removing key 1 sets off a cleanup that moves key 2 to its home. -/
def removeFirst : List (Call Nat Nat) := [.add 1 10, .add 2 20, .remove 1, .get 2, .get 1]

theorem simpleht_refines_map_cleanup :
    Object.Meets (object fourSlots) (CallOk fourSlots) vsimplehtInit removeFirst ∧
    ∃ final m, Object.run (object fourSlots) vsimplehtInit removeFirst =
        .ok (final, [.ret .ok, .ret .ok, .ret .ok, .value (some 20), .value none]) ∧
      SpecRun mapSpec (fun _ => none) removeFirst
        [.ret .ok, .ret .ok, .ret .ok, .value (some 20), .value none] m := by
  have hok : Object.Meets (object fourSlots) (CallOk fourSlots) vsimplehtInit removeFirst := by
    refine ⟨trivial, trivial, ⟨Or.inl ⟨2, by decide, rfl⟩, fun _ _ => Or.inl ⟨0, by decide, rfl⟩⟩,
      Or.inl ⟨2, by decide, rfl⟩, Or.inr ⟨3, by decide, rfl⟩, trivial⟩
  refine ⟨hok, ?_⟩
  obtain ⟨final, results, m, hrun, hspec, -⟩ := simpleht_refines_map fourSlots removeFirst hok
  have hcode : (Object.run (object fourSlots) vsimplehtInit removeFirst).toOption.map Prod.snd =
      some [.ret .ok, .ret .ok, .ret .ok, .value (some 20), .value none] := by
    decide +kernel
  rw [hrun] at hcode
  cases hcode
  exact ⟨final, m, hrun, hspec⟩

/-- Every slot gets a live key. -/
def fillFour : List (Call Nat Nat) := [.add 1 10, .add 2 20, .add 3 30, .add 4 40]

/-- With every slot in use the cleanup starts in the middle of the bucket of
keys 1 and 2 and opens a gap before key 2, and the searches for an absent key do
not come to an end. -/
theorem simpleht_loses_key :
    (¬ ∃ final results m,
      Object.run (object fourSlots) vsimplehtInit (fillFour ++ [.remove 1, .get 2]) =
        .ok (final, results) ∧
      SpecRun mapSpec (fun _ => none) (fillFour ++ [.remove 1, .get 2]) results m) ∧
    Object.run (object fourSlots) vsimplehtInit (fillFour ++ [.get 5]) = .error .blocked ∧
    Object.run (object fourSlots) vsimplehtInit (fillFour ++ [.remove 5]) = .error .blocked := by
  refine ⟨?_, rfl, rfl⟩
  rintro ⟨final, results, m, hrun, hspec⟩
  have hcode : (Object.run (object fourSlots) vsimplehtInit
      (fillFour ++ [.remove 1, .get 2])).toOption.map Prod.snd =
      some [.ret .ok, .ret .ok, .ret .ok, .ret .ok, .ret .ok, .value none] := by
    decide +kernel
  rw [hrun] at hcode
  cases hcode
  obtain _ | ⟨h1, _ | ⟨h2, _ | ⟨h3, _ | ⟨h4, _ | ⟨h5, _ | ⟨h6, _⟩⟩⟩⟩⟩⟩ := hspec
  simp [mapSpec] at h1
  subst h1
  simp [mapSpec] at h2
  subst h2
  simp [mapSpec] at h3
  subst h3
  simp [mapSpec] at h4
  subst h4
  simp [mapSpec] at h5
  subst h5
  simp [mapSpec] at h6

end Refine

end Libvsync.Map.Simpleht
