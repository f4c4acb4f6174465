import Libvsync.Core.Machine
import Mathlib.Data.Nat.Bitwise

/-!
The bitmap `vbitmap_t`: words of 64 bits, changed by single atomic steps. A range operation is
a list of such steps; what matters of a step is which bits it gives a value.
-/

namespace Libvsync.Bitmap

/-- `VCEIL_DIV` -/
def vceilDiv (x y : Nat) : Nat := if x % y = 0 then x / y else x / y + 1

/-- `vbitmap_t`. The number of words is the one `vbitmap_init` sets. -/
structure VBitmap where
  mapsCnt : Nat
  bitCnt : Nat
  maps : List (BitVec 64)
  mapsCnt_eq : mapsCnt = vceilDiv bitCnt 64
  length_eq : maps.length = mapsCnt

/-- `vbitmap_init` -/
def vbitmapInit (bitCount : Nat) (set : Bool) : VBitmap where
  mapsCnt := vceilDiv bitCount 64
  bitCnt := bitCount
  maps := List.replicate (vceilDiv bitCount 64) (if set then BitVec.allOnes 64 else 0#64)
  mapsCnt_eq := rfl
  length_eq := List.length_replicate

/-- The bit at an index, as `vbitmap_get` reads it; also behind the last index. -/
def VBitmap.bit (b : VBitmap) (i : Nat) : Bool :=
  ((b.maps[i / 64]?).getD 0#64).getLsbD (i % 64)

/-- `VBITMAP_BIT_MASK` -/
def bitMask (i : Nat) : BitVec 64 := 1#64 <<< (i % 64)

/-- `_vbitmap_lsb_mask` -/
def lsbMask (idx : Nat) : BitVec 64 := ~~~((1#64 <<< idx) - 1#64)

/-- `_vbitmap_msb_mask` -/
def msbMask (idx : Nat) : BitVec 64 := (1#64 <<< idx) + ((1#64 <<< idx) - 1#64)

/-- `_vbitmap_range_mask` -/
def rangeMask (lsb msb : Nat) : BitVec 64 := msbMask msb &&& lsbMask lsb

/-- The atomic accesses to a word. -/
inductive Act where
  | or (mask : BitVec 64)
  | and (mask : BitVec 64)
  | orGet (mask : BitVec 64)
  | andGet (mask : BitVec 64)
  | write (val : BitVec 64)
  deriving DecidableEq

def Act.next : Act → BitVec 64 → BitVec 64
  | .or mask, val => val ||| mask
  | .and mask, val => val &&& mask
  | .orGet mask, val => val ||| mask
  | .andGet mask, val => val &&& mask
  | .write new, _ => new

/-- The assertions of `vbitmap_set_bit` and `vbitmap_clr_bit` on the value they get. -/
def Act.ok : Act → BitVec 64 → Bool
  | .orGet mask, val => (val ||| mask) &&& mask == mask
  | .andGet mask, val => (val &&& mask) &&& ~~~mask == 0#64
  | _, _ => true

structure WordStep where
  idx : Nat
  act : Act
  deriving DecidableEq

/-- One atomic step; `none` is a failed assertion or an access behind the array. -/
def VBitmap.apply (b : VBitmap) (w : WordStep) : Option VBitmap :=
  if w.idx < b.mapsCnt ∧ w.act.ok ((b.maps[w.idx]?).getD 0#64) then
    some { b with
      maps := b.maps.modify w.idx w.act.next
      length_eq := (List.length_modify ..).trans b.length_eq }
  else none

/-- The inner words of a range, from slot `i` on. -/
def fillSteps (val : BitVec 64) (i msbSlot : Nat) : List WordStep :=
  if i < msbSlot then ⟨i, .write val⟩ :: fillSteps val (i + 1) msbSlot else []
termination_by msbSlot - i

/-- The steps of `vbitmap_set_range` and `vbitmap_clr_range`, which differ in the access `change`
by a mask and in the value of the inner words. -/
def rangeSteps (b : VBitmap) (change : BitVec 64 → Act) (fill : BitVec 64) (first last : Nat) :
    Option (List WordStep) :=
  if first ≤ last ∧ last < b.bitCnt then
    let lsbSlot := first / 64
    let msbSlot := last / 64
    let lsbIdx := first % 64
    let msbIdx := last % 64
    if lsbSlot ≤ msbSlot ∧ msbSlot < b.mapsCnt then
      if lsbSlot = msbSlot then
        some [⟨lsbSlot, change (rangeMask lsbIdx msbIdx)⟩]
      else
        some (⟨lsbSlot, change (lsbMask lsbIdx)⟩ ::
          (fillSteps fill (lsbSlot + 1) msbSlot ++ [⟨msbSlot, change (msbMask msbIdx)⟩]))
    else none
  else none

inductive Op where
  | setRange (first last : Nat)
  | clrRange (first last : Nat)
  | setBit (i : Nat)
  | clrBit (i : Nat)
  deriving DecidableEq

/-- `vbitmap_set_range`, `vbitmap_clr_range`, `vbitmap_set_bit` and `vbitmap_clr_bit`; `none` is a
failed assertion on the arguments. -/
def Op.steps (b : VBitmap) : Op → Option (List WordStep)
  | .setRange first last => rangeSteps b .or (BitVec.allOnes 64) first last
  | .clrRange first last => rangeSteps b (fun mask => .and (~~~mask)) 0#64 first last
  | .setBit i =>
    if i < b.bitCnt ∧ i / 64 < b.mapsCnt then some [⟨i / 64, .orGet (bitMask i)⟩] else none
  | .clrBit i =>
    if i < b.bitCnt ∧ i / 64 < b.mapsCnt then some [⟨i / 64, .andGet (~~~bitMask i)⟩] else none

/-- A call that runs alone. -/
def Op.run (op : Op) (b : VBitmap) : Option VBitmap :=
  (op.steps b).bind fun ws => ws.foldlM VBitmap.apply b

/-- `vbitmap_set_range` -/
def vbitmapSetRange (b : VBitmap) (first last : Nat) : Option VBitmap :=
  (Op.setRange first last).run b

/-- `vbitmap_clr_range` -/
def vbitmapClrRange (b : VBitmap) (first last : Nat) : Option VBitmap :=
  (Op.clrRange first last).run b

/-- The least index the call is about. -/
def Op.first : Op → Nat
  | .setRange first _ => first
  | .clrRange first _ => first
  | .setBit i => i
  | .clrBit i => i

/-- The greatest index the call is about. -/
def Op.last : Op → Nat
  | .setRange _ last => last
  | .clrRange _ last => last
  | .setBit i => i
  | .clrBit i => i

def Op.Addresses (op : Op) (j : Nat) : Prop := op.first ≤ j ∧ j ≤ op.last

instance (op : Op) (j : Nat) : Decidable (op.Addresses j) :=
  inferInstanceAs (Decidable (op.first ≤ j ∧ j ≤ op.last))

/-- The value the call gives its bits. -/
def Op.value : Op → Bool
  | .setRange _ _ => true
  | .clrRange _ _ => false
  | .setBit _ => true
  | .clrBit _ => false

theorem lsbMask_bit {idx i : Nat} (hidx : idx < 64) (hi : i < 64) :
    (lsbMask idx).getLsbD i = decide (idx ≤ i) := by
  have hpow : 2 ^ idx < 2 ^ 64 := Nat.pow_lt_pow_right (by decide) hidx
  have hlow : ((1#64 <<< idx) - 1#64).toNat = 2 ^ idx - 1 := by
    have hone : 0 < 2 ^ idx := Nat.two_pow_pos idx
    simp only [BitVec.toNat_sub, BitVec.toNat_shiftLeft, BitVec.toNat_ofNat, Nat.shiftLeft_eq]
    omega
  rw [lsbMask, BitVec.getLsbD_not, BitVec.getLsbD, hlow, Nat.testBit_two_pow_sub_one]
  by_cases hle : idx ≤ i
  · simp [hi, hle]
  · simp [hi, hle, Nat.lt_of_not_le hle]

theorem msbMask_bit {idx i : Nat} (hidx : idx < 64) :
    (msbMask idx).getLsbD i = decide (i ≤ idx) := by
  have hpow : 2 ^ (idx + 1) ≤ 2 ^ 64 := Nat.pow_le_pow_right (by decide) hidx
  have hlow : ((1#64 <<< idx) + ((1#64 <<< idx) - 1#64)).toNat = 2 ^ (idx + 1) - 1 := by
    have hone : 0 < 2 ^ idx := Nat.two_pow_pos idx
    simp only [BitVec.toNat_add, BitVec.toNat_sub, BitVec.toNat_shiftLeft, BitVec.toNat_ofNat,
      Nat.shiftLeft_eq]
    omega
  rw [msbMask, BitVec.getLsbD, hlow, Nat.testBit_two_pow_sub_one]
  simp only [Nat.lt_succ_iff]

theorem rangeMask_bit {lsb msb i : Nat} (hlsb : lsb < 64) (hmsb : msb < 64) (hi : i < 64) :
    (rangeMask lsb msb).getLsbD i = decide (lsb ≤ i ∧ i ≤ msb) := by
  rw [rangeMask, BitVec.getLsbD_and, msbMask_bit hmsb, lsbMask_bit hlsb hi, Bool.and_comm,
    Bool.decide_and]

theorem bitMask_bit (i k : Nat) : (bitMask i).getLsbD k = decide (i % 64 = k) := by
  have hidx : i % 64 < 64 := Nat.mod_lt i (by decide)
  rw [bitMask, ← BitVec.twoPow_eq, BitVec.getLsbD_twoPow, decide_eq_true hidx, Bool.true_and]

def Act.gives : Act → Nat → Option Bool
  | .or mask, k => if mask.getLsbD k then some true else none
  | .and mask, k => if mask.getLsbD k then none else some false
  | .orGet mask, k => if mask.getLsbD k then some true else none
  | .andGet mask, k => if mask.getLsbD k then none else some false
  | .write new, k => some (new.getLsbD k)

def WordStep.gives (w : WordStep) (j : Nat) : Option Bool :=
  if w.idx = j / 64 then w.act.gives (j % 64) else none

/-- The value the last of the steps that gives one gives to the bit. -/
def given (j : Nat) : List WordStep → Option Bool
  | [] => none
  | w :: ws => (given j ws).or (w.gives j)

theorem Act.next_bit (act : Act) (val : BitVec 64) (k : Nat) :
    (act.next val).getLsbD k = (act.gives k).getD (val.getLsbD k) := by
  cases act with
  | or mask | and mask | orGet mask | andGet mask =>
    cases hmask : mask.getLsbD k <;> simp [Act.next, Act.gives, hmask]
  | write new => rfl

/-- The assertions hold, whatever the word was. -/
theorem Act.ok_eq_true (act : Act) (val : BitVec 64) : act.ok val = true := by
  cases act with
  | or mask => rfl
  | and mask => rfl
  | orGet mask =>
    rw [Act.ok, beq_iff_eq]
    ext k
    simp only [BitVec.getElem_and, BitVec.getElem_or]
    cases mask[k] <;> simp
  | andGet mask =>
    rw [Act.ok, beq_iff_eq]
    ext k
    simp
  | write new => rfl

theorem VBitmap.apply_isSome {b : VBitmap} {w : WordStep} (hidx : w.idx < b.mapsCnt) :
    (b.apply w).isSome := by
  rw [VBitmap.apply, if_pos ⟨hidx, Act.ok_eq_true _ _⟩]
  rfl

theorem VBitmap.apply_counts {b b' : VBitmap} {w : WordStep} (h : b.apply w = some b') :
    b'.mapsCnt = b.mapsCnt ∧ b'.bitCnt = b.bitCnt := by
  obtain ⟨-, h⟩ := Option.ite_none_right_eq_some.mp h
  cases h
  exact ⟨rfl, rfl⟩

theorem VBitmap.apply_bit {b b' : VBitmap} {w : WordStep} (h : b.apply w = some b') (j : Nat) :
    b'.bit j = (w.gives j).getD (b.bit j) := by
  obtain ⟨⟨hidx, -⟩, h⟩ := Option.ite_none_right_eq_some.mp h
  cases h
  have hlength : w.idx < b.maps.length := by rw [b.length_eq]; exact hidx
  rw [VBitmap.bit, VBitmap.bit, WordStep.gives, List.getElem?_modify]
  by_cases hword : w.idx = j / 64
  · simp only [if_pos hword]
    rw [← hword, List.getElem?_eq_getElem hlength]
    exact Act.next_bit ..
  · simp only [if_neg hword]
    cases b.maps[j / 64]? <;> rfl

variable {ws : List WordStep}

theorem foldlM_apply_bit {b b' : VBitmap} (h : ws.foldlM VBitmap.apply b = some b') (j : Nat) :
    b'.bit j = (given j ws).getD (b.bit j) := by
  induction ws generalizing b with
  | nil =>
    cases h
    rfl
  | cons w ws ih =>
    obtain ⟨c, hc, h⟩ := Option.bind_eq_some_iff.mp h
    rw [ih h, VBitmap.apply_bit hc, given]
    cases given j ws <;> rfl

theorem foldlM_apply_isSome {b : VBitmap} (h : ∀ w ∈ ws, w.idx < b.mapsCnt) :
    (ws.foldlM VBitmap.apply b).isSome := by
  induction ws generalizing b with
  | nil => rfl
  | cons w ws ih =>
    obtain ⟨c, hc⟩ := Option.isSome_iff_exists.mp
      (VBitmap.apply_isSome (h w List.mem_cons_self))
    rw [List.foldlM_cons, hc]
    refine ih fun v hv => ?_
    rw [(VBitmap.apply_counts hc).1]
    exact h v (List.mem_cons_of_mem w hv)

theorem given_eq_none {j : Nat} : given j ws = none ↔ ∀ w ∈ ws, w.gives j = none := by
  induction ws with
  | nil => simp [given]
  | cons w ws ih =>
    rw [given, Option.or_eq_none_iff, ih, List.forall_mem_cons]
    exact And.comm

theorem exists_of_given {j : Nat} {v : Bool} (h : given j ws = some v) :
    ∃ w ∈ ws, w.gives j = some v := by
  induction ws with
  | nil => cases h
  | cons w ws ih =>
    rw [given, Option.or_eq_some_iff] at h
    rcases h with h | ⟨-, h⟩
    · obtain ⟨u, hu, hgives⟩ := ih h
      exact ⟨u, List.mem_cons_of_mem w hu, hgives⟩
    · exact ⟨w, List.mem_cons_self, h⟩

/-- The steps are inside the array, give `value` to the bits of `on`, and no value to others. -/
structure Settles (b : VBitmap) (ws : List WordStep) (on : Nat → Prop) (value : Bool) : Prop where
  inside : ∀ w ∈ ws, w.idx < b.mapsCnt
  only : ∀ w ∈ ws, ∀ j v, w.gives j = some v → on j ∧ v = value
  all : ∀ j, on j → ∃ w ∈ ws, w.gives j = some value

theorem Settles.given_eq {b : VBitmap} {on : Nat → Prop} [DecidablePred on] {value : Bool}
    (h : Settles b ws on value) (j : Nat) : given j ws = if on j then some value else none := by
  cases hgiven : given j ws with
  | none =>
    rw [if_neg]
    intro hj
    obtain ⟨w, hw, hgives⟩ := h.all j hj
    rw [given_eq_none.mp hgiven w hw] at hgives
    cases hgives
  | some v =>
    obtain ⟨w, hw, hgives⟩ := exists_of_given hgiven
    obtain ⟨hj, rfl⟩ := h.only w hw j v hgives
    rw [if_pos hj]

theorem mem_fillSteps {val : BitVec 64} {i msbSlot : Nat} {w : WordStep} :
    w ∈ fillSteps val i msbSlot ↔ ∃ k, i ≤ k ∧ k < msbSlot ∧ w = ⟨k, .write val⟩ := by
  induction hm : msbSlot - i generalizing i with
  | zero =>
    rw [fillSteps, if_neg (by omega)]
    constructor
    · intro h
      cases h
    · rintro ⟨k, hik, hk, -⟩
      omega
  | succ m ih =>
    rw [fillSteps, if_pos (by omega), List.mem_cons, ih (by omega)]
    constructor
    · rintro (rfl | ⟨k, hik, hk, rfl⟩)
      · exact ⟨i, Nat.le_refl i, by omega, rfl⟩
      · exact ⟨k, by omega, hk, rfl⟩
    · rintro ⟨k, hik, hk, rfl⟩
      rcases Nat.eq_or_lt_of_le hik with rfl | hlt
      · exact Or.inl rfl
      · exact Or.inr ⟨k, hlt, hk, rfl⟩

/-- The last word of a range is one of the bitmap's. -/
theorem VBitmap.slot_lt {b : VBitmap} {j : Nat} (h : j < b.bitCnt) : j / 64 < b.mapsCnt := by
  rw [b.mapsCnt_eq, vceilDiv]
  split <;> omega

section Range

variable {change : BitVec 64 → Act} {fill : BitVec 64} {value : Bool}

theorem change_gives (hchange : ∀ mask k, k < 64 →
      (change mask).gives k = if mask.getLsbD k then some value else none)
    (slot : Nat) (mask : BitVec 64) (j : Nat) (v : Bool) :
    WordStep.gives ⟨slot, change mask⟩ j = some v ↔
      slot = j / 64 ∧ mask.getLsbD (j % 64) = true ∧ v = value := by
  rw [WordStep.gives, hchange mask _ (Nat.mod_lt j (by decide))]
  simp only [Option.ite_none_right_eq_some, Option.some_inj]
  exact and_congr_right fun _ => and_congr_right fun _ => eq_comm

theorem write_gives (hfill : ∀ k, k < 64 → fill.getLsbD k = value) (slot j : Nat) (v : Bool) :
    WordStep.gives ⟨slot, .write fill⟩ j = some v ↔ slot = j / 64 ∧ v = value := by
  rw [WordStep.gives, Act.gives, hfill _ (Nat.mod_lt j (by decide))]
  simp only [Option.ite_none_right_eq_some, Option.some_inj]
  exact and_congr_right fun _ => eq_comm

theorem rangeSteps_settles
    (hchange : ∀ mask k, k < 64 →
      (change mask).gives k = if mask.getLsbD k then some value else none)
    (hfill : ∀ k, k < 64 → fill.getLsbD k = value)
    {b : VBitmap} {first last : Nat} {ws : List WordStep}
    (h : rangeSteps b change fill first last = some ws) :
    Settles b ws (fun j => first ≤ j ∧ j ≤ last) value := by
  obtain ⟨⟨hle, hlast⟩, h⟩ := Option.ite_none_right_eq_some.mp h
  obtain ⟨⟨hslots, hmsb⟩, h⟩ := Option.ite_none_right_eq_some.mp h
  have hfirst' : first % 64 < 64 := Nat.mod_lt first (by decide)
  have hlast' : last % 64 < 64 := Nat.mod_lt last (by decide)
  have hgives := change_gives hchange
  have hwrite := write_gives hfill
  have hlsb {j : Nat} := lsbMask_bit hfirst' (Nat.mod_lt j (by decide : 0 < 64))
  have hrange {j : Nat} := rangeMask_bit hfirst' hlast' (Nat.mod_lt j (by decide : 0 < 64))
  have hmsbMask {j : Nat} := msbMask_bit (i := j % 64) hlast'
  split at h
  · rename_i hsame
    cases h
    constructor
    · intro w hw
      rw [List.mem_singleton.mp hw, hsame]
      exact hmsb
    · intro w hw j v hv
      rw [List.mem_singleton.mp hw, hgives, hrange, decide_eq_true_iff] at hv
      exact ⟨by omega, hv.2.2⟩
    · rintro j ⟨hfirst, hj⟩
      refine ⟨_, List.mem_singleton_self _, ?_⟩
      rw [hgives, hrange, decide_eq_true_iff]
      exact ⟨by omega, by omega, rfl⟩
  · rename_i hother
    cases h
    constructor
    · intro w hw
      rw [List.mem_cons, List.mem_append, mem_fillSteps, List.mem_singleton] at hw
      rcases hw with rfl | ⟨k, hk, hk', rfl⟩ | rfl
      · exact Nat.lt_of_le_of_lt hslots hmsb
      · exact Nat.lt_trans hk' hmsb
      · exact hmsb
    · intro w hw j v hv
      rw [List.mem_cons, List.mem_append, mem_fillSteps, List.mem_singleton] at hw
      rcases hw with rfl | ⟨k, hk, hk', rfl⟩ | rfl
      · rw [hgives, hlsb, decide_eq_true_iff] at hv
        exact ⟨by omega, hv.2.2⟩
      · rw [hwrite] at hv
        exact ⟨by omega, hv.2⟩
      · rw [hgives, hmsbMask, decide_eq_true_iff] at hv
        exact ⟨by omega, hv.2.2⟩
    · rintro j ⟨hfirst, hj⟩
      rcases Nat.lt_trichotomy (j / 64) (last / 64) with hlt | heq | hgt
      · rcases Nat.eq_or_lt_of_le (Nat.div_le_div_right (c := 64) hfirst) with heq | hinner
        · refine ⟨_, List.mem_cons_self, ?_⟩
          rw [hgives, hlsb, decide_eq_true_iff]
          exact ⟨heq, by omega, rfl⟩
        · refine ⟨⟨j / 64, .write fill⟩, ?_, ?_⟩
          · exact List.mem_cons_of_mem _ (List.mem_append_left _
              (mem_fillSteps.mpr ⟨_, hinner, hlt, rfl⟩))
          · rw [hwrite]
            exact ⟨rfl, rfl⟩
      · refine ⟨_, List.mem_cons_of_mem _ (List.mem_append_right _ (List.mem_singleton_self _)), ?_⟩
        rw [hgives, hmsbMask, decide_eq_true_iff]
        exact ⟨heq.symm, by omega, rfl⟩
      · omega

theorem bitStep_settles
    (hchange : ∀ mask k, k < 64 →
      (change mask).gives k = if mask.getLsbD k then some value else none)
    {b : VBitmap} {i : Nat} (hslot : i / 64 < b.mapsCnt) :
    Settles b [⟨i / 64, change (bitMask i)⟩] (fun j => i ≤ j ∧ j ≤ i) value := by
  have hgives := change_gives hchange
  constructor
  · intro w hw
    rw [List.mem_singleton.mp hw]
    exact hslot
  · intro w hw j v hv
    rw [List.mem_singleton.mp hw, hgives, bitMask_bit, decide_eq_true_iff] at hv
    have hij : i = j := by omega
    exact ⟨⟨hij.le, hij.ge⟩, hv.2.2⟩
  · rintro j ⟨hfirst, hlast⟩
    obtain rfl : i = j := Nat.le_antisymm hfirst hlast
    refine ⟨_, List.mem_singleton_self _, ?_⟩
    rw [hgives, bitMask_bit, decide_eq_true_iff]
    exact ⟨rfl, rfl, rfl⟩

end Range

theorem andNot_gives (mask : BitVec 64) (k : Nat) (hk : k < 64) :
    (Act.and (~~~mask)).gives k = if mask.getLsbD k then some false else none := by
  rw [Act.gives, BitVec.getLsbD_not, decide_eq_true hk]
  cases mask.getLsbD k <;> rfl

theorem andGetNot_gives (mask : BitVec 64) (k : Nat) (hk : k < 64) :
    (Act.andGet (~~~mask)).gives k = if mask.getLsbD k then some false else none :=
  andNot_gives mask k hk

theorem Op.steps_settle {op : Op} {b : VBitmap} (h : op.steps b = some ws) :
    Settles b ws op.Addresses op.value := by
  cases op with
  | setRange first last =>
    refine rangeSteps_settles (fun mask k _ => rfl) (fun k hk => ?_) h
    rw [BitVec.getLsbD_allOnes, decide_eq_true hk]
    rfl
  | clrRange first last =>
    rw [Op.steps] at h
    exact rangeSteps_settles andNot_gives (fun k _ => BitVec.getLsbD_zero) h
  | setBit i =>
    obtain ⟨⟨hi, hslot⟩, h⟩ := Option.ite_none_right_eq_some.mp h
    cases h
    exact bitStep_settles (fun mask k _ => rfl) hslot
  | clrBit i =>
    obtain ⟨⟨hi, hslot⟩, h⟩ := Option.ite_none_right_eq_some.mp h
    cases h
    exact bitStep_settles andGetNot_gives hslot

theorem Op.steps_isSome {op : Op} {b : VBitmap} (hle : op.first ≤ op.last)
    (hlast : op.last < b.bitCnt) : (op.steps b).isSome := by
  have hslot := VBitmap.slot_lt hlast
  have hrange (change : BitVec 64 → Act) (fill : BitVec 64) :
      (rangeSteps b change fill op.first op.last).isSome := by
    rw [rangeSteps, if_pos ⟨hle, hlast⟩]
    dsimp only
    rw [if_pos ⟨Nat.div_le_div_right hle, hslot⟩]
    split
    · rfl
    · rfl
  cases op with
  | setRange first last => exact hrange ..
  | clrRange first last => exact hrange (fun mask => .and (~~~mask)) 0#64
  | setBit i =>
    rw [Op.steps, if_pos ⟨hlast, hslot⟩]
    rfl
  | clrBit i =>
    rw [Op.steps, if_pos ⟨hlast, hslot⟩]
    rfl

/-- A call that runs alone changes exactly the bits it addresses. -/
theorem Op.run_bit {op : Op} {b : VBitmap} (hle : op.first ≤ op.last)
    (hlast : op.last < b.bitCnt) :
    ∃ b', op.run b = some b' ∧
      ∀ j, b'.bit j = if op.Addresses j then op.value else b.bit j := by
  obtain ⟨ws, hws⟩ := Option.isSome_iff_exists.mp (Op.steps_isSome hle hlast)
  have hsettles := Op.steps_settle hws
  obtain ⟨b', hb'⟩ := Option.isSome_iff_exists.mp (foldlM_apply_isSome hsettles.inside)
  refine ⟨b', ?_, fun j => ?_⟩
  · rw [Op.run, hws]
    exact hb'
  · rw [foldlM_apply_bit hb', hsettles.given_eq]
    split
    · rfl
    · rfl

end Libvsync.Bitmap
