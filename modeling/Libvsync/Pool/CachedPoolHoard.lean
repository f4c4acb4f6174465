import Libvsync.Pool.CachedPoolCapacity

/-!
The capacity of the cached pool is no larger than the bound: one thread takes all that it can
reach, then every other thread frees as many of these entries as its unit keeps.
-/

namespace Libvsync.Pool

open Libvsync.Core Function

variable {cacheline threadNum entryNum entrySize c id : Nat} {a : CachedPool}
variable {entries : Multiset Nat} {k : Stock} {s : Usage}

/-- The thread allocates until nothing is left in its unit and in the ring. -/
theorem Accounted.drain (hw : Equipped cacheline threadNum a entries)
    (hs : Accounted cacheline threadNum a entries s k c) (hid : id < threadNum) :
    ∃ (calls : List Call) (s' : Usage) (k' : Stock) (c' : Nat),
      calls.foldlM (Call.apply cacheline threadNum a) s = some s' ∧
      Accounted cacheline threadNum a entries s' k' c' ∧ k'.units id = [] ∧ k'.ring = [] := by
  generalize hn : (k.units id).length + k.ring.flatten.length = n
  induction n generalizing s k c with
  | zero =>
    rcases hs.stocked.alloc hw hid with ⟨hunit, hring, -⟩ | ⟨e, h', k', c', -, -, -, -, hcount⟩
    · exact ⟨[], s, k, c, rfl, hs, hunit, hring⟩
    · omega
  | succ n ih =>
    rcases hs.stocked.alloc hw hid with
      ⟨hunit, hring, -⟩ | ⟨e, h', k', c', heq, hk', htaken, -, hcount⟩
    · exact ⟨[], s, k, c, rfl, hs, hunit, hring⟩
    · obtain ⟨s₁, hstep, hs₁⟩ := hs.apply_alloc hw hid heq hk' htaken
      obtain ⟨calls, s', k'', c'', hrun, hrest⟩ := ih hs₁ (by omega)
      refine ⟨.alloc id :: calls, s', k'', c'', ?_, hrest⟩
      rw [List.foldlM_cons, hstep]
      exact hrun

/-- Something is allocated while a unit is empty and the ring is. -/
theorem Stocked.exists_taken (hw : Equipped cacheline threadNum a entries) {h : Heap}
    (hk : Stocked cacheline threadNum a entries h k c) (hid : id < threadNum)
    (hunit : k.units id = []) (hring : k.ring = []) : ∃ e, e ∈ k.taken := by
  have hsum := hk.card
  have hpos := hw.conf.pos
  have hmax := hw.conf.max
  have hunits := card_parts_le (b := a.conf.thresholdMax)
    (fun i hi => (hk.units i hi).room.le) hid hunit
  obtain ⟨m, rfl⟩ : ∃ m, threadNum = m + 1 := ⟨threadNum - 1, by omega⟩
  rw [hring, List.length_nil, Nat.zero_mul, hw.card, Nat.mul_assoc, Nat.mul_comm 2, ← hmax,
    Nat.succ_mul] at hsum
  rw [Nat.add_sub_cancel] at hunits
  exact Multiset.card_pos_iff_exists_mem.mp (by omega)

/-- Another thread frees until its unit keeps all that it can. -/
theorem Accounted.fill (hw : Equipped cacheline threadNum a entries)
    (hs : Accounted cacheline threadNum a entries s k c) (hid : id < threadNum)
    (hunit : k.units id = []) (hring : k.ring = []) {j : Nat} (hj : j < threadNum) (hne : j ≠ id) :
    ∃ (calls : List Call) (s' : Usage) (k' : Stock) (c' : Nat),
      calls.foldlM (Call.apply cacheline threadNum a) s = some s' ∧
      Accounted cacheline threadNum a entries s' k' c' ∧ k'.ring = [] ∧
      (k'.units j).length = a.conf.thresholdMax - 1 ∧ ∀ i ≠ j, k'.units i = k.units i := by
  have hroom := (hs.stocked.units j hj).room
  generalize hn : a.conf.thresholdMax - 1 - (k.units j).length = n
  induction n generalizing s k c with
  | zero => exact ⟨[], s, k, c, rfl, hs, hring, by omega, fun i _ => rfl⟩
  | succ n ih =>
    obtain ⟨e, he⟩ := hs.stocked.exists_taken hw hid hunit hring
    have hfree := cachedPoolFree_short hw.conf hw.apart hs.stocked hj he (by omega)
    obtain ⟨s₁, hstep, hs₁⟩ := hs.apply_free hj he hfree rfl
    have hlength : (update k.units j (e :: k.units j) j).length =
        (k.units j).length + 1 :=
      congrArg List.length (update_self (β := fun _ => List Nat) j _ k.units)
    have hroom₁ := (hs₁.stocked.units j hj).room
    have hother (i : Nat) (hi : i ≠ j) :
        update k.units j (e :: k.units j) i = k.units i := update_of_ne hi _ _
    obtain ⟨calls, s', k', c', hrun, hs', hring', hfull, hsame⟩ :=
      ih hs₁ ((hother id hne.symm).trans hunit) hring hroom₁ (by rw [hlength]; omega)
    refine ⟨.free j (cachedPoolEntryToAddr e) :: calls, s', k', c', ?_, hs', hring', hfull,
      fun i hi => (hsame i hi).trans (hother i hi)⟩
    rw [List.foldlM_cons, hstep]
    exact hrun

theorem Accounted.fill_all (hw : Equipped cacheline threadNum a entries)
    (hs : Accounted cacheline threadNum a entries s k c) (hunit : k.units 0 = [])
    (hring : k.ring = []) {n : Nat} (hn : n < threadNum) :
    ∃ (calls : List Call) (s' : Usage) (k' : Stock) (c' : Nat),
      calls.foldlM (Call.apply cacheline threadNum a) s = some s' ∧
      Accounted cacheline threadNum a entries s' k' c' ∧ k'.units 0 = [] ∧ k'.ring = [] ∧
      ∀ j < n, (k'.units (j + 1)).length = a.conf.thresholdMax - 1 := by
  induction n with
  | zero => exact ⟨[], s, k, c, rfl, hs, hunit, hring, fun j hj => absurd hj (Nat.not_lt_zero j)⟩
  | succ n ih =>
    obtain ⟨calls₁, s₁, k₁, c₁, hrun₁, hs₁, hunit₁, hring₁, hfull₁⟩ := ih (Nat.lt_of_succ_lt hn)
    obtain ⟨calls₂, s₂, k₂, c₂, hrun₂, hs₂, hring₂, hfull₂, hsame₂⟩ :=
      hs₁.fill hw (Nat.lt_of_le_of_lt (Nat.zero_le _) hn) hunit₁ hring₁ hn (Nat.succ_ne_zero n)
    refine ⟨calls₁ ++ calls₂, s₂, k₂, c₂, ?_, hs₂,
      (hsame₂ 0 (Nat.succ_ne_zero n).symm).trans hunit₁, hring₂, fun j hj => ?_⟩
    · rw [List.foldlM_append, hrun₁]
      exact hrun₂
    · rcases Nat.eq_or_lt_of_le (Nat.le_of_lt_succ hj) with rfl | hlt
      · exact hfull₂
      · rw [hsame₂ (j + 1) (by omega)]
        exact hfull₁ j hlt

/-- With full units and an empty ring the bound is reached. -/
theorem Accounted.card_eq (hw : Equipped cacheline threadNum a entries) (hthreads : 1 ≤ threadNum)
    (hs : Accounted cacheline threadNum a entries s k c) (hunit : k.units 0 = [])
    (hring : k.ring = [])
    (hfull : ∀ j < threadNum - 1, (k.units (j + 1)).length = a.conf.thresholdMax - 1) :
    s.allocated.card = 2 * a.conf.thresholdInit + threadNum - 1 := by
  have hsum := hs.stocked.card
  have hmax := hw.conf.max
  have hpos := hw.conf.pos
  obtain ⟨m, rfl⟩ : ∃ m, threadNum = m + 1 := ⟨threadNum - 1, by omega⟩
  rw [Nat.add_sub_cancel] at hfull
  have hunits : (parts (m + 1) k.units).card = m * (a.conf.thresholdMax - 1) := by
    rw [card_parts, Finset.sum_range_succ', hunit, List.length_nil, Nat.add_zero,
      Finset.sum_congr rfl fun j hj => hfull j (Finset.mem_range.mp hj), Finset.sum_const,
      Finset.card_range]
    rfl
  rw [hunits, hring, List.length_nil, Nat.zero_mul, hw.card, Nat.mul_assoc, Nat.mul_comm 2, ← hmax,
    Nat.succ_mul, Nat.mul_sub_one] at hsum
  have hle := Nat.le_mul_of_pos_right m (show 0 < a.conf.thresholdMax by omega)
  rw [hs.allocated, Multiset.card_map]
  omega

/-- What a call is sure to get: two batches, and one entry for each other thread. -/
theorem cachedPool_capacity (hthreads : 1 ≤ threadNum) (hentries : 1 ≤ entryNum)
    (hpow : threadNum.isPowerOfTwo) (hfit : SizesFit cacheline threadNum entryNum entrySize)
    (capacity : Nat) :
    HasCapacity cacheline threadNum entryNum entrySize capacity ↔
      capacity ≤ 2 * batchSize threadNum entryNum + threadNum - 1 := by
  constructor
  · intro hcapacity
    obtain ⟨entries, k, hw, hstart⟩ := cachedPoolInit_accounted hthreads hentries hpow hfit
      ⟨⟨0, 0, 0, 0⟩, fun _ => ⟨0, 0, 0, 0⟩, fun _ => 0⟩
    obtain ⟨calls₁, s₁, k₁, c₁, hrun₁, hs₁, hunit₁, hring₁⟩ := hstart.drain hw hthreads
    obtain ⟨calls₂, s₂, k₂, c₂, hrun₂, hs₂, hunit₂, hring₂, hfull₂⟩ :=
      hs₁.fill_all hw hunit₁ hring₁ (Nat.sub_one_lt (by omega))
    have hrun : cachedPoolRun cacheline threadNum entryNum entrySize
        ⟨⟨0, 0, 0, 0⟩, fun _ => ⟨0, 0, 0, 0⟩, fun _ => 0⟩ (calls₁ ++ calls₂) = some s₂ := by
      rw [cachedPoolRun]
      dsimp only
      rw [List.foldlM_append, hrun₁]
      exact hrun₂
    have hnull := cachedPoolAlloc_none hs₂.stocked hthreads hunit₂ hring₂
    have hle := hcapacity _ _ s₂ 0 hthreads hrun (congrArg Prod.fst hnull)
    rw [hs₂.card_eq hw hthreads hunit₂ hring₂ hfull₂] at hle
    rw [cachedPoolInit_thresholdInit hthreads hentries hfit] at hle
    exact hle
  · intro hle memory calls s id hid hrun hnull
    exact hle.trans
      (cachedPoolAlloc_null hthreads hentries hpow hfit memory calls s id hid hrun hnull)

theorem cachedPool_capacity_four : HasCapacity 128 4 12 8 9 :=
  (cachedPool_capacity (by decide) (by decide) ⟨2, rfl⟩ ⟨by decide, by decide, by decide⟩ 9).mpr
    (by decide)

/-- Thread 0 takes all it can reach, and each of the others frees two of these entries. -/
def hoardCalls : List Call :=
  List.replicate 15 (.alloc 0) ++
    [.free 1 1480, .free 1 1496, .free 2 1512, .free 2 1528, .free 3 1544, .free 3 1560]

/-- Nine of the entries are allocated, and thread 0 gets no more, though twelve were asked for. -/
theorem cachedPool_capacity_hoarded : ¬ HasCapacity 128 4 12 8 12 := by
  have hrun : (cachedPoolRun 128 4 12 8 ⟨⟨0, 0, 0, 0⟩, fun _ => ⟨0, 0, 0, 0⟩, fun _ => 0⟩
      hoardCalls).map (fun s => (s.allocated.card,
        (cachedPoolAlloc 128 (cachedPoolLayout 128 4 12 8) s.heap 0).1)) = some (9, 0) := by
    decide +kernel
  obtain ⟨s, hs, hview⟩ := Option.map_eq_some_iff.mp hrun
  obtain ⟨hcard, hnull⟩ := Prod.mk.inj hview
  intro h
  have hle := h _ _ s 0 (by decide) hs hnull
  omega

end Libvsync.Pool
