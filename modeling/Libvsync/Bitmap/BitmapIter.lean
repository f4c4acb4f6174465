import Libvsync.Bitmap.Bitmap
import Mathlib.Data.List.Range

/-!
The iterator of the bitmap. It holds what is left of the current word; whatever it was when a call
left it, it stands for a position, and the next call finds the least set bit from there on.
-/

namespace Libvsync.Bitmap

/-- `vbitmap_iter_t` -/
structure VBitmapIter where
  idx : Nat
  lastVal : BitVec 64
  deriving DecidableEq

/-- A read of `maps[idx]`. -/
def VBitmap.word (b : VBitmap) (idx : Nat) : BitVec 64 := (b.maps[idx]?).getD 0#64

/-- `vbitmap_iter_init`; `none` is a failed assertion. -/
def vbitmapIterInit (b : VBitmap) : Option VBitmapIter :=
  if b.mapsCnt > 0 then some ⟨0, b.word 0⟩ else none

/-- The search of `vbitmap_iter_next` for a word that is not zero, from `idx` on. The value read
last is kept also when there is none. -/
def nextSlot (b : VBitmap) (it : VBitmapIter) (idx : Nat) : VBitmapIter × Bool :=
  if idx < b.mapsCnt then
    if b.word idx ≠ 0#64 then (⟨idx, b.word idx⟩, true)
    else nextSlot b { it with lastVal := b.word idx } (idx + 1)
  else (it, false)
termination_by b.mapsCnt - idx

/-- From `VBITMAP_LBL_VAL` on. -/
def takeBit (b : VBitmap) (it : VBitmapIter) : VBitmapIter × Option Nat :=
  let bitIdx := it.lastVal.ctz.toNat
  let outIdx := 64 * it.idx + bitIdx
  if outIdx ≥ b.bitCnt then (it, none)
  else ({ it with lastVal := it.lastVal &&& ~~~bitMask bitIdx }, some outIdx)

/-- `vbitmap_iter_next`; `none` is the result `false`. -/
def vbitmapIterNext (b : VBitmap) (it : VBitmapIter) : VBitmapIter × Option Nat :=
  if it.lastVal = 0#64 then
    let found := nextSlot b it (it.idx + 1)
    if found.2 then takeBit b found.1 else (found.1, none)
  else takeBit b it

/-- The iterator after `k` calls. -/
def iterAfter (b : VBitmap) (it : VBitmapIter) : Nat → VBitmapIter
  | 0 => it
  | k + 1 => (vbitmapIterNext b (iterAfter b it k)).1

/-- The set bits from an index on. -/
def setBits (b : VBitmap) (pos : Nat) : List Nat :=
  (List.range' pos (b.bitCnt - pos)).filter b.bit

theorem setBits_of_end {b : VBitmap} {pos : Nat} (hpos : b.bitCnt ≤ pos) :
    setBits b pos = [] := by
  rw [setBits, Nat.sub_eq_zero_of_le hpos]
  rfl

theorem setBits_cons {b : VBitmap} {pos : Nat} (hpos : pos < b.bitCnt) :
    setBits b pos = if b.bit pos then pos :: setBits b (pos + 1) else setBits b (pos + 1) := by
  obtain ⟨n, hn⟩ := Nat.exists_eq_add_of_lt hpos
  rw [setBits, show b.bitCnt - pos = n + 1 by omega, List.range'_succ, List.filter_cons, setBits,
    show b.bitCnt - (pos + 1) = n by omega]

theorem setBits_of_unset {b : VBitmap} {pos pos' : Nat} (hle : pos ≤ pos')
    (hunset : ∀ j, pos ≤ j → j < pos' → b.bit j = false) : setBits b pos = setBits b pos' := by
  induction hle with
  | refl => rfl
  | @step pos' hle ih =>
    rw [ih fun j hj hj' => hunset j hj (Nat.lt_succ_of_lt hj')]
    rcases Nat.lt_or_ge pos' b.bitCnt with hlt | hge
    · rw [setBits_cons hlt, hunset pos' hle (Nat.lt_succ_self pos')]
      rfl
    · rw [setBits_of_end hge, setBits_of_end (Nat.le_succ_of_le hge)]

/-- The value holds the bits of its word that are not below the position. -/
structure At (b : VBitmap) (it : VBitmapIter) (pos : Nat) : Prop where
  idx : it.idx < b.mapsCnt
  low : 64 * it.idx ≤ pos
  high : pos ≤ 64 * (it.idx + 1)
  val : ∀ k, k < 64 →
    it.lastVal.getLsbD k = (decide (pos ≤ 64 * it.idx + k) && b.bit (64 * it.idx + k))

/-- What a call makes of the bits from the position on. -/
structure Takes (b : VBitmap) (pos : Nat) (result : VBitmapIter × Option Nat) : Prop where
  out : result.2 = (setBits b pos).head?
  rest : ∃ pos', At b result.1 pos' ∧ setBits b pos' = (setBits b pos).tail

theorem VBitmap.bit_word (b : VBitmap) (idx : Nat) {k : Nat} (hk : k < 64) :
    b.bit (64 * idx + k) = (b.word idx).getLsbD k := by
  rw [VBitmap.bit, VBitmap.word, show (64 * idx + k) / 64 = idx by omega,
    show (64 * idx + k) % 64 = k by omega]

theorem VBitmap.bit_behind {b : VBitmap} {j : Nat} (hj : 64 * b.mapsCnt ≤ j) :
    b.bit j = false := by
  have hlength : b.maps.length ≤ j / 64 := by
    rw [b.length_eq]
    omega
  rw [VBitmap.bit, List.getElem?_eq_none hlength]
  exact BitVec.getLsbD_zero

/-- The iterator at the start of a word. -/
theorem At.word {b : VBitmap} {idx : Nat} (hidx : idx < b.mapsCnt) :
    At b ⟨idx, b.word idx⟩ (64 * idx) := by
  refine ⟨hidx, Nat.le_refl _, Nat.mul_le_mul_left 64 (Nat.le_succ idx), fun k hk => ?_⟩
  rw [b.bit_word idx hk, decide_eq_true (Nat.le_add_right _ k), Bool.true_and]

theorem takeBit_takes {b : VBitmap} {it : VBitmapIter} {pos : Nat} (h : At b it pos)
    (hne : it.lastVal ≠ 0#64) : Takes b pos (takeBit b it) := by
  have hlt : it.lastVal.ctz.toNat < 64 := by
    have := BitVec.ctz_lt_iff_ne_zero.mpr hne
    simpa [BitVec.lt_def] using this
  have hfound := BitVec.getLsbD_true_ctz_of_ne_zero hne
  have hbelow {k : Nat} (hk : k < it.lastVal.ctz.toNat) : it.lastVal.getLsbD k = false :=
    BitVec.getLsbD_false_of_lt_ctz hk
  unfold takeBit
  generalize it.lastVal.ctz.toNat = bitIdx at hlt hfound hbelow ⊢
  rw [h.val bitIdx hlt, Bool.and_eq_true, decide_eq_true_iff] at hfound
  obtain ⟨hpos, hset⟩ := hfound
  have hskip : setBits b pos = setBits b (64 * it.idx + bitIdx) := by
    refine setBits_of_unset hpos fun j hj hj' => ?_
    have hlow := h.low
    have hk := hbelow (k := j - 64 * it.idx) (by omega)
    rw [h.val _ (by omega), show 64 * it.idx + (j - 64 * it.idx) = j by omega,
      decide_eq_true hj, Bool.true_and] at hk
    exact hk
  rcases Nat.lt_or_ge (64 * it.idx + bitIdx) b.bitCnt with hin | hbehind
  · rw [if_neg (Nat.not_le_of_lt hin)]
    constructor
    · rw [hskip, setBits_cons hin, if_pos hset]
      rfl
    · refine ⟨64 * it.idx + bitIdx + 1, ⟨h.idx, Nat.le_succ_of_le (Nat.le_add_right _ _),
        Nat.add_lt_add_left hlt _, fun k hk => ?_⟩, ?_⟩
      · have hval := h.val k hk
        dsimp only
        rw [BitVec.getLsbD_and, BitVec.getLsbD_not, bitMask_bit, Nat.mod_eq_of_lt hlt,
          decide_eq_true hk, Bool.true_and]
        rcases Nat.lt_trichotomy k bitIdx with hbefore | rfl | hafter
        · have hbefore' : ¬ 64 * it.idx + bitIdx + 1 ≤ 64 * it.idx + k := by omega
          rw [hbelow hbefore, decide_eq_false hbefore', Bool.false_and, Bool.false_and]
        · rw [decide_eq_true rfl, decide_eq_false (by omega)]
          exact Bool.and_false _
        · rw [hval, decide_eq_false (by omega : bitIdx ≠ k), decide_eq_true (by omega),
            decide_eq_true (by omega)]
          exact Bool.and_true _
      · rw [hskip, setBits_cons hin, if_pos hset]
        rfl
  · rw [if_pos hbehind]
    constructor
    · rw [hskip, setBits_of_end hbehind]
      rfl
    · refine ⟨pos, h, ?_⟩
      rw [hskip, setBits_of_end hbehind]
      rfl

/-- The search either finds the next word that is not zero, or leaves the iterator as it was. -/
theorem nextSlot_spec {b : VBitmap} {it : VBitmapIter} (hzero : it.lastVal = 0#64) (idx : Nat) :
    (∃ slot, idx ≤ slot ∧ slot < b.mapsCnt ∧ nextSlot b it idx = (⟨slot, b.word slot⟩, true) ∧
      b.word slot ≠ 0#64 ∧ ∀ j, 64 * idx ≤ j → j < 64 * slot → b.bit j = false) ∨
    (nextSlot b it idx = (it, false) ∧ ∀ j, 64 * idx ≤ j → b.bit j = false) := by
  induction hm : b.mapsCnt - idx generalizing idx with
  | zero =>
    right
    rw [nextSlot, if_neg (by omega)]
    exact ⟨rfl, fun j hj => VBitmap.bit_behind (by omega)⟩
  | succ m ih =>
    rw [nextSlot, if_pos (by omega)]
    by_cases hword : b.word idx = 0#64
    · have hit : { it with lastVal := b.word idx } = it := by
        rw [hword, ← hzero]
      have hunset (j : Nat) (hj : 64 * idx ≤ j) (hj' : j < 64 * (idx + 1)) :
          b.bit j = false := by
        have hbit := b.bit_word idx (k := j - 64 * idx) (by omega)
        rw [show 64 * idx + (j - 64 * idx) = j by omega, hword] at hbit
        rw [hbit]
        exact BitVec.getLsbD_zero
      rw [if_neg (not_not_intro hword), hit]
      rcases ih (idx + 1) (by omega) with ⟨slot, hle, hlt, heq, hne, hskip⟩ | ⟨heq, hskip⟩
      · refine Or.inl ⟨slot, Nat.le_of_succ_le hle, hlt, heq, hne, fun j hj hj' => ?_⟩
        rcases Nat.lt_or_ge j (64 * (idx + 1)) with hin | hout
        · exact hunset j hj hin
        · exact hskip j hout hj'
      · refine Or.inr ⟨heq, fun j hj => ?_⟩
        rcases Nat.lt_or_ge j (64 * (idx + 1)) with hin | hout
        · exact hunset j hj hin
        · exact hskip j hout
    · rw [if_pos hword]
      exact Or.inl ⟨idx, Nat.le_refl idx, by omega, rfl, hword, fun j hj hj' => by omega⟩

theorem vbitmapIterNext_takes {b : VBitmap} {it : VBitmapIter} {pos : Nat} (h : At b it pos) :
    Takes b pos (vbitmapIterNext b it) := by
  unfold vbitmapIterNext
  by_cases hzero : it.lastVal = 0#64
  · have hskip : ∀ j, pos ≤ j → j < 64 * (it.idx + 1) → b.bit j = false := by
      intro j hj hj'
      have hlow := h.low
      have hval := h.val (j - 64 * it.idx) (by omega)
      rw [show 64 * it.idx + (j - 64 * it.idx) = j by omega, hzero, decide_eq_true hj,
        Bool.true_and] at hval
      rw [← hval]
      exact BitVec.getLsbD_zero
    rw [if_pos hzero]
    rcases nextSlot_spec hzero (it.idx + 1) with ⟨slot, hle, hlt, heq, hne, hnext⟩ | ⟨heq, hnext⟩
    · have hsame : setBits b pos = setBits b (64 * slot) := by
        have hhigh := h.high
        refine setBits_of_unset (by omega) fun j hj hj' => ?_
        rcases Nat.lt_or_ge j (64 * (it.idx + 1)) with hin | hout
        · exact hskip j hj hin
        · exact hnext j hout hj'
      rw [heq]
      have htakes := takeBit_takes (At.word hlt) hne
      exact ⟨hsame ▸ htakes.out, hsame ▸ htakes.rest⟩
    · have hend : setBits b pos = [] := by
        rw [setBits_of_unset (Nat.le_max_left pos b.bitCnt) fun j hj _ => ?_]
        · exact setBits_of_end (Nat.le_max_right pos b.bitCnt)
        · rcases Nat.lt_or_ge j (64 * (it.idx + 1)) with hin | hout
          · exact hskip j hj hin
          · exact hnext j hout
      rw [heq]
      refine ⟨?_, pos, h, ?_⟩
      · rw [hend]
        rfl
      · rw [hend]
        rfl
  · rw [if_neg hzero]
    exact takeBit_takes h hzero

theorem iterAfter_at {b : VBitmap} {it : VBitmapIter} (h : At b it 0) (k : Nat) :
    ∃ pos, At b (iterAfter b it k) pos ∧ setBits b pos = (setBits b 0).drop k := by
  induction k with
  | zero => exact ⟨0, h, rfl⟩
  | succ k ih =>
    obtain ⟨pos, hat, hbits⟩ := ih
    obtain ⟨pos', hat', hrest⟩ := (vbitmapIterNext_takes hat).rest
    refine ⟨pos', hat', ?_⟩
    rw [hrest, hbits, List.tail_drop]

/-- The calls return the set bits below `bit_cnt` in order, and then `false` for ever. -/
theorem vbitmapIter_returns (b : VBitmap) (hpos : 1 ≤ b.bitCnt) :
    ∃ it, vbitmapIterInit b = some it ∧ ∀ k,
      (vbitmapIterNext b (iterAfter b it k)).2 = ((List.range b.bitCnt).filter b.bit)[k]? := by
  have hmaps : 0 < b.mapsCnt := VBitmap.slot_lt hpos
  refine ⟨⟨0, b.word 0⟩, if_pos hmaps, fun k => ?_⟩
  obtain ⟨pos, hat, hbits⟩ := iterAfter_at (At.word hmaps) k
  rw [(vbitmapIterNext_takes hat).out, hbits, List.head?_drop, List.range_eq_range']
  rfl

/-- Behind the three bits of this bitmap all bits of its word are set. -/
theorem vbitmapIter_returns_all : ∃ it, vbitmapIterInit (vbitmapInit 3 true) = some it ∧ ∀ k,
    (vbitmapIterNext (vbitmapInit 3 true) (iterAfter (vbitmapInit 3 true) it k)).2 =
      [0, 1, 2][k]? := by
  have hreturns := vbitmapIter_returns (vbitmapInit 3 true) (by decide)
  have hbits : (List.range 3).filter (vbitmapInit 3 true).bit = [0, 1, 2] := by decide
  exact hbits ▸ hreturns

end Libvsync.Bitmap
