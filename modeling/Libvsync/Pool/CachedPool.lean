import Libvsync.Core.Region
import Libvsync.Core.Word
import Mathlib.Data.Nat.Bitwise

/-!
The memory of the cached pool. The pool, its units, the ring of free batches and the entries
stand one after the other in one buffer, whose size the macro computes apart from the
initialisation. Space for `2 * thread_num` batches is reserved, but the ring is masked with
the next power of two. Addresses are offsets from the buffer's start.
-/

namespace Libvsync.Pool

open Libvsync.Core Function

/-- `v_pow2_round_up`, of a number from one to `2 ^ 31`. -/
def vPow2RoundUp (v : Nat) : Nat := if v = 1 then 1 else 1 <<< ((v - 1).log2 + 1)

/-- The room of a member of the given size that is aligned to a cache line. -/
def cacheAligned (cacheline size : Nat) : Nat :=
  (size + cacheline - 1) / cacheline * cacheline

def sizeofPtr : Nat := 8

def sizeofCachedPoolConfig (cacheline : Nat) : Nat := cacheAligned cacheline 24

def sizeofCachedPoolVunit (cacheline : Nat) : Nat := cacheAligned cacheline 32

/-- Four counters, up to the slots. -/
def sizeofCachedPoolBuffer (cacheline : Nat) : Nat := 4 * cacheAligned cacheline 8

/-- The configuration and two pointers, up to the units. -/
def sizeofCachedPool (cacheline : Nat) : Nat :=
  sizeofCachedPoolConfig cacheline + 2 * cacheAligned cacheline sizeofPtr

def cachedPoolMaxThresholdFactor : Nat := 2

structure CachedPoolConfig where
  entrySpace : Nat
  bufferMask : Nat
  thresholdInit : Nat
  thresholdLink : Nat
  thresholdMax : Nat
  deriving DecidableEq

structure CachedPool where
  conf : CachedPoolConfig
  buf : Nat
  entries : Nat
  deriving DecidableEq

structure CachedPoolBuffer where
  phead : Nat
  ptail : Nat
  chead : Nat
  ctail : Nat

structure CachedPoolVunit where
  cnt : Nat
  buf : Nat
  top : Nat
  mid : Nat

/-- What the pool's functions work on: the counters of the ring, the units, and the words in
the slots of the ring and at the head of the entries, by their addresses. -/
structure Heap where
  buffer : CachedPoolBuffer
  vunits : Nat → CachedPoolVunit
  words : Nat → Nat

variable (cacheline : Nat)

/-- `_cached_pool_entry_find` -/
def cachedPoolEntryFind (start size idx : Nat) : Nat := (start + size * idx) % 2 ^ 64

/-- `_cached_pool_entry_set_next` -/
def cachedPoolEntrySetNext (h : Heap) (entry next : Nat) : Heap :=
  { h with words := update h.words entry next }

/-- The address of `buf->nodes[c & a->conf.buffer_mask]`. -/
def cachedPoolSlot (a : CachedPool) (buf c : Nat) : Nat :=
  (buf + sizeofCachedPoolBuffer cacheline + sizeofPtr * (c &&& a.conf.bufferMask)) % 2 ^ 64

/-- `_cached_pool_buffer_init` -/
def cachedPoolBufferInit (h : Heap) : Heap :=
  { h with buffer := ⟨0, 0, 0, 0⟩ }

/-- `_cached_pool_buffer_alloc` of a thread that runs alone; zero is the null pointer. -/
def cachedPoolBufferAlloc (a : CachedPool) (buf : Nat) (h : Heap) : Nat × Heap :=
  let ch := h.buffer.chead
  if ch = h.buffer.ptail then (0, h)
  else
    (h.words (cachedPoolSlot cacheline a buf ch),
      { h with buffer :=
          { h.buffer with chead := (ch + 1) % 2 ^ 64, ctail := (ch + 1) % 2 ^ 64 } })

/-- `_cached_pool_buffer_free` of a thread that runs alone. -/
def cachedPoolBufferFree (a : CachedPool) (buf : Nat) (h : Heap) (es : Nat) : Heap :=
  let ph := h.buffer.phead
  { h with
    words := update h.words (cachedPoolSlot cacheline a buf ph) es
    buffer := { h.buffer with phead := (ph + 1) % 2 ^ 64, ptail := (ph + 1) % 2 ^ 64 } }

/-- `_cached_pool_vunit_init` -/
def cachedPoolVunitInit (a : CachedPool) (h : Heap) (id b es : Nat) : Heap :=
  { h with vunits := update h.vunits id ⟨a.conf.thresholdInit, b, es, es⟩ }

/-- `cached_pool_memsize`, with arguments of the types that `cached_pool_init` takes. The
number of entries is a product of 32-bit numbers. -/
def cachedPoolMemsize (threadNum entryNum entrySize : Nat) : Nat :=
  (sizeofCachedPool cacheline + sizeofCachedPoolVunit cacheline * threadNum +
      sizeofCachedPoolBuffer cacheline + sizeofPtr * threadNum * 2 +
    threadNum * ((((wsub 32 entryNum 1) / threadNum + 1) % 2 ^ 32) <<< 1 % 2 ^ 32) % 2 ^ 32 *
      ((entrySize + sizeofPtr) % 2 ^ 64)) % 2 ^ 64

/-- `cached_pool_init` up to the loop over the units: the pool's own fields. -/
def cachedPoolLayout (threadNum entryNum entrySize : Nat) : CachedPool :=
  let cachedPoolHead := sizeofCachedPool cacheline
  let bufferHead := sizeofCachedPoolBuffer cacheline
  let bufferSize := (bufferHead + sizeofPtr * threadNum * 2) % 2 ^ 64
  let nodeNum := vPow2RoundUp (threadNum * 2 % 2 ^ 32)
  let threshold := (wsub 32 entryNum 1 / threadNum + 1) % 2 ^ 32
  let vunitsSize := sizeofCachedPoolVunit cacheline * threadNum % 2 ^ 64
  let bufAddrOffset := (cachedPoolHead + vunitsSize) % 2 ^ 64
  let entryAddrOffset := (bufAddrOffset + bufferSize) % 2 ^ 64
  { conf :=
      { entrySpace := (entrySize + sizeofPtr) % 2 ^ 64
        bufferMask := wsub 32 nodeNum 1
        thresholdInit := threshold
        thresholdLink := (threshold + 1) % 2 ^ 32
        thresholdMax := threshold * cachedPoolMaxThresholdFactor % 2 ^ 32 }
    buf := bufAddrOffset
    entries := entryAddrOffset }

/-- The entries from `start` to `stop` are chained, the last one without a successor. -/
def cachedPoolChain (a : CachedPool) (h : Heap) (start stop : Nat) : Heap :=
  let find := cachedPoolEntryFind a.entries a.conf.entrySpace
  let linked := (List.range' start (stop - 1 - start)).foldl
    (fun h idx => cachedPoolEntrySetNext h (find idx) (find (idx + 1))) h
  cachedPoolEntrySetNext linked (find (stop - 1)) 0

/-- The body of the loop over the units: one batch for the unit and one for the ring. -/
def cachedPoolInitUnit (a : CachedPool) (h : Heap) (id : Nat) : Heap :=
  let start := id * a.conf.thresholdMax % 2 ^ 32
  let middle := (start + a.conf.thresholdInit) % 2 ^ 32
  let stop := (middle + a.conf.thresholdInit) % 2 ^ 32
  let find := cachedPoolEntryFind a.entries a.conf.entrySpace
  let owned := cachedPoolChain a (cachedPoolVunitInit a h id a.buf (find start)) start middle
  cachedPoolChain a (cachedPoolBufferFree cacheline a a.buf owned (find middle)) middle stop

/-- `cached_pool_init` -/
def cachedPoolInit (h : Heap) (threadNum entryNum entrySize : Nat) : CachedPool × Heap :=
  let a := cachedPoolLayout cacheline threadNum entryNum entrySize
  (a, (List.range threadNum).foldl (cachedPoolInitUnit cacheline a) (cachedPoolBufferInit h))

theorem isPowerOfTwo_vPow2RoundUp (v : Nat) : (vPow2RoundUp v).isPowerOfTwo := by
  unfold vPow2RoundUp
  split
  · exact Nat.isPowerOfTwo_one
  · exact ⟨_, Nat.one_shiftLeft _⟩

theorem le_vPow2RoundUp {v : Nat} (hpos : 0 < v) : v ≤ vPow2RoundUp v := by
  unfold vPow2RoundUp
  split
  · omega
  · have hlt : v - 1 < 2 ^ ((v - 1).log2 + 1) := Nat.lt_log2_self
    rw [Nat.one_shiftLeft]
    omega

/-- The least power of two that is not smaller. -/
theorem vPow2RoundUp_le {v k : Nat} (hpos : 0 < v) (hle : v ≤ 2 ^ k) :
    vPow2RoundUp v ≤ 2 ^ k := by
  unfold vPow2RoundUp
  split
  · exact Nat.one_le_two_pow
  · have hlog : (v - 1).log2 < k := by
      rw [Nat.log2_lt (by omega)]
      omega
    rw [Nat.one_shiftLeft]
    exact Nat.pow_le_pow_right (by omega) hlog

theorem vPow2RoundUp_eq_self {v : Nat} (hpos : 0 < v) : vPow2RoundUp v = v ↔ v.isPowerOfTwo := by
  constructor
  · intro heq
    rw [← heq]
    exact isPowerOfTwo_vPow2RoundUp v
  · rintro ⟨k, rfl⟩
    exact Nat.le_antisymm (vPow2RoundUp_le hpos le_rfl) (le_vPow2RoundUp hpos)

theorem isPowerOfTwo_mul_two {v : Nat} : (v * 2).isPowerOfTwo ↔ v.isPowerOfTwo := by
  refine ⟨?_, Nat.isPowerOfTwo_mul_two_of_isPowerOfTwo⟩
  rintro ⟨k, hk⟩
  obtain _ | k := k
  · rw [Nat.pow_zero] at hk
    omega
  · exact ⟨k, by rw [Nat.pow_succ] at hk; omega⟩

/-- The entries of a batch. -/
def batchSize (threadNum entryNum : Nat) : Nat := (entryNum - 1) / threadNum + 1

/-- The bytes that the macro asks for, as a number without overflow. -/
def cachedPoolBytes (threadNum entryNum entrySize : Nat) : Nat :=
  sizeofCachedPool cacheline + sizeofCachedPoolVunit cacheline * threadNum +
      sizeofCachedPoolBuffer cacheline + sizeofPtr * threadNum * 2 +
    threadNum * (batchSize threadNum entryNum * 2) * (entrySize + sizeofPtr)

/-- No size overflows: the power of two of the ring and the number of entries fit into 32
bits, and the bytes of the pool into 64. -/
structure SizesFit (threadNum entryNum entrySize : Nat) : Prop where
  nodes : threadNum * 2 ≤ 2 ^ 31
  entries : threadNum * (batchSize threadNum entryNum * 2) < 2 ^ 32
  bytes : cachedPoolBytes cacheline threadNum entryNum entrySize < 2 ^ 64

variable {cacheline} {threadNum entryNum entrySize : Nat}

namespace SizesFit

theorem entryNum_lt (hfit : SizesFit cacheline threadNum entryNum entrySize)
    (hthreads : 1 ≤ threadNum) : entryNum < 2 ^ 32 := by
  have hlt := Nat.lt_mul_div_succ (entryNum - 1) hthreads
  have hfew := hfit.entries
  rw [batchSize, ← Nat.mul_assoc] at hfew
  omega

theorem batchSize_mod (hfit : SizesFit cacheline threadNum entryNum entrySize)
    (hthreads : 1 ≤ threadNum) (hentries : 1 ≤ entryNum) :
    (wsub 32 entryNum 1 / threadNum + 1) % 2 ^ 32 = batchSize threadNum entryNum := by
  have hnum := hfit.entryNum_lt hthreads
  have hsub : wsub 32 entryNum 1 = entryNum - 1 := by
    rw [wsub]
    omega
  have hle := Nat.div_le_self (entryNum - 1) threadNum
  rw [hsub, batchSize, Nat.mod_eq_of_lt (by omega)]

theorem batchSize_lt (hfit : SizesFit cacheline threadNum entryNum entrySize)
    (hthreads : 1 ≤ threadNum) : batchSize threadNum entryNum * 2 < 2 ^ 32 :=
  lt_of_le_of_lt (Nat.le_mul_of_pos_left _ hthreads) hfit.entries

theorem entrySize_lt (hfit : SizesFit cacheline threadNum entryNum entrySize)
    (hthreads : 1 ≤ threadNum) : entrySize + sizeofPtr < 2 ^ 64 := by
  have hone : 1 ≤ threadNum * (batchSize threadNum entryNum * 2) :=
    Nat.mul_pos hthreads (Nat.mul_pos (Nat.succ_pos _) two_pos)
  have hle := Nat.le_mul_of_pos_left (entrySize + sizeofPtr) hone
  have hbytes := hfit.bytes
  unfold cachedPoolBytes at hbytes
  omega

theorem memsize_eq (hfit : SizesFit cacheline threadNum entryNum entrySize)
    (hthreads : 1 ≤ threadNum) (hentries : 1 ≤ entryNum) :
    cachedPoolMemsize cacheline threadNum entryNum entrySize =
      cachedPoolBytes cacheline threadNum entryNum entrySize := by
  rw [cachedPoolMemsize, hfit.batchSize_mod hthreads hentries, Nat.shiftLeft_eq, pow_one,
    Nat.mod_eq_of_lt (hfit.batchSize_lt hthreads), Nat.mod_eq_of_lt hfit.entries,
    Nat.mod_eq_of_lt (hfit.entrySize_lt hthreads)]
  exact Nat.mod_eq_of_lt hfit.bytes

/-- The fields of the pool, without overflow. -/
theorem layout_eq (hfit : SizesFit cacheline threadNum entryNum entrySize)
    (hthreads : 1 ≤ threadNum) (hentries : 1 ≤ entryNum) :
    cachedPoolLayout cacheline threadNum entryNum entrySize =
      { conf :=
          { entrySpace := entrySize + sizeofPtr
            bufferMask := vPow2RoundUp (threadNum * 2) - 1
            thresholdInit := batchSize threadNum entryNum
            thresholdLink := batchSize threadNum entryNum + 1
            thresholdMax := batchSize threadNum entryNum * 2 }
        buf := sizeofCachedPool cacheline + sizeofCachedPoolVunit cacheline * threadNum
        entries := sizeofCachedPool cacheline + sizeofCachedPoolVunit cacheline * threadNum +
          (sizeofCachedPoolBuffer cacheline + sizeofPtr * threadNum * 2) } := by
  have hbytes := hfit.bytes
  have hnodes := hfit.nodes
  have hbatch := hfit.batchSize_lt hthreads
  have hbatch0 : 0 < batchSize threadNum entryNum := Nat.succ_pos _
  have hround : wsub 32 (vPow2RoundUp (threadNum * 2)) 1 = vPow2RoundUp (threadNum * 2) - 1 := by
    have hle := vPow2RoundUp_le (v := threadNum * 2) (by omega) hnodes
    have hge := le_vPow2RoundUp (v := threadNum * 2) (by omega)
    rw [wsub]
    omega
  unfold cachedPoolBytes at hbytes
  unfold cachedPoolLayout
  simp only [hfit.batchSize_mod hthreads hentries, cachedPoolMaxThresholdFactor]
  rw [Nat.mod_eq_of_lt (show threadNum * 2 < 2 ^ 32 by omega), hround,
    Nat.mod_eq_of_lt (hfit.entrySize_lt hthreads), Nat.mod_eq_of_lt hbatch,
    Nat.mod_eq_of_lt (show batchSize threadNum entryNum + 1 < 2 ^ 32 by omega),
    Nat.mod_eq_of_lt (show sizeofCachedPoolVunit cacheline * threadNum < 2 ^ 64 by omega),
    Nat.mod_eq_of_lt (show sizeofCachedPool cacheline +
      sizeofCachedPoolVunit cacheline * threadNum < 2 ^ 64 by omega),
    Nat.mod_eq_of_lt (show sizeofCachedPoolBuffer cacheline +
      sizeofPtr * threadNum * 2 < 2 ^ 64 by omega),
    Nat.mod_eq_of_lt (by omega)]

end SizesFit

variable (cacheline threadNum) in
/-- The slots `nodes[0]` to `nodes[buffer_mask]`. -/
def ringSlots (a : CachedPool) : List Region :=
  Region.array (a.buf + sizeofCachedPoolBuffer cacheline) sizeofPtr (a.conf.bufferMask + 1)

/-- The entries of all batches. -/
def entryRegions (threadNum : Nat) (a : CachedPool) : List Region :=
  (List.range (threadNum * a.conf.thresholdMax)).map fun idx =>
    ⟨cachedPoolEntryFind a.entries a.conf.entrySpace idx, a.conf.entrySpace⟩

variable (cacheline threadNum) in
/-- The pool, the units, the counters of the ring, its slots, and the entries. -/
def cachedPoolRegions (a : CachedPool) : List Region :=
  [⟨0, sizeofCachedPool cacheline⟩] ++
    Region.array (sizeofCachedPool cacheline) (sizeofCachedPoolVunit cacheline) threadNum ++
    [⟨a.buf, sizeofCachedPoolBuffer cacheline⟩] ++
    ringSlots cacheline a ++ entryRegions threadNum a

/-- The parts of a pool lie apart and within `memsize` bytes, and whatever the counters are,
the slot that is loaded or stored is one of the ring. -/
structure LayoutOk (cacheline threadNum memsize : Nat) (a : CachedPool) : Prop where
  packed : Packed 0 memsize (cachedPoolRegions cacheline threadNum a)
  slots : ∀ c, ⟨cachedPoolSlot cacheline a a.buf c, sizeofPtr⟩ ∈ ringSlots cacheline a

theorem entryRegions_eq (hfit : SizesFit cacheline threadNum entryNum entrySize)
    (hthreads : 1 ≤ threadNum) (hentries : 1 ≤ entryNum) :
    entryRegions threadNum (cachedPoolLayout cacheline threadNum entryNum entrySize) =
      Region.array (sizeofCachedPool cacheline + sizeofCachedPoolVunit cacheline * threadNum +
        (sizeofCachedPoolBuffer cacheline + sizeofPtr * threadNum * 2)) (entrySize + sizeofPtr)
        (threadNum * (batchSize threadNum entryNum * 2)) := by
  rw [entryRegions, hfit.layout_eq hthreads hentries, Region.array]
  refine List.map_congr_left fun idx hidx => ?_
  have hbytes := hfit.bytes
  have hle := Nat.mul_le_mul_right (entrySize + sizeofPtr) (List.mem_range.mp hidx).le
  unfold cachedPoolBytes at hbytes
  dsimp only at hle ⊢
  rw [Nat.mul_comm idx] at hle
  rw [cachedPoolEntryFind, Nat.mod_eq_of_lt (by omega)]

theorem ringSlots_eq (hfit : SizesFit cacheline threadNum entryNum entrySize)
    (hthreads : 1 ≤ threadNum) (hentries : 1 ≤ entryNum) :
    ringSlots cacheline (cachedPoolLayout cacheline threadNum entryNum entrySize) =
      Region.array (sizeofCachedPool cacheline + sizeofCachedPoolVunit cacheline * threadNum +
        sizeofCachedPoolBuffer cacheline) sizeofPtr (vPow2RoundUp (threadNum * 2)) := by
  have hge := le_vPow2RoundUp (v := threadNum * 2) (by omega)
  rw [ringSlots, hfit.layout_eq hthreads hentries,
    Nat.sub_add_cancel (show 1 ≤ vPow2RoundUp (threadNum * 2) by omega)]

/-- The slot after the reserved ones is where the first entry is. -/
theorem LayoutOk.vPow2RoundUp_eq {memsize : Nat}
    (hfit : SizesFit cacheline threadNum entryNum entrySize)
    (hthreads : 1 ≤ threadNum) (hentries : 1 ≤ entryNum)
    (h : LayoutOk cacheline threadNum memsize
      (cachedPoolLayout cacheline threadNum entryNum entrySize)) :
    vPow2RoundUp (threadNum * 2) = threadNum * 2 := by
  have hge := le_vPow2RoundUp (v := threadNum * 2) (by omega)
  have hapart := (List.pairwise_append.mp h.packed.apart).2.2
  by_contra hne
  have hslot : (⟨sizeofCachedPool cacheline + sizeofCachedPoolVunit cacheline * threadNum +
      sizeofCachedPoolBuffer cacheline + sizeofPtr * (threadNum * 2), sizeofPtr⟩ : Region) ∈
      ringSlots cacheline (cachedPoolLayout cacheline threadNum entryNum entrySize) := by
    rw [ringSlots_eq hfit hthreads hentries]
    exact Region.mem_array.mpr ⟨threadNum * 2, by omega, rfl⟩
  have hentry : (⟨sizeofCachedPool cacheline + sizeofCachedPoolVunit cacheline * threadNum +
      (sizeofCachedPoolBuffer cacheline + sizeofPtr * threadNum * 2) +
      (entrySize + sizeofPtr) * 0, entrySize + sizeofPtr⟩ : Region) ∈
      entryRegions threadNum (cachedPoolLayout cacheline threadNum entryNum entrySize) := by
    rw [entryRegions_eq hfit hthreads hentries]
    exact Region.mem_array.mpr
      ⟨0, Nat.mul_pos hthreads (Nat.mul_pos (Nat.succ_pos _) two_pos), rfl⟩
  have hdisj := hapart _ (List.mem_append_right _ hslot) _ hentry
  refine Set.disjoint_left.mp hdisj (Region.mem_bytes.mpr ⟨le_rfl, ?_⟩)
    (Region.mem_bytes.mpr ⟨?_, ?_⟩)
  all_goals
    simp only [Region.stop, sizeofPtr]
    omega

/-- With as many slots as are reserved everything has its place. -/
theorem layoutOk_of_eq (hfit : SizesFit cacheline threadNum entryNum entrySize)
    (hthreads : 1 ≤ threadNum) (hentries : 1 ≤ entryNum)
    (heq : vPow2RoundUp (threadNum * 2) = threadNum * 2) :
    LayoutOk cacheline threadNum (cachedPoolMemsize cacheline threadNum entryNum entrySize)
      (cachedPoolLayout cacheline threadNum entryNum entrySize) where
  packed := by
    have hhead := Packed.single 0 (sizeofCachedPool cacheline)
    have hvunits := Packed.array (sizeofCachedPool cacheline)
      (sizeofCachedPoolVunit cacheline) threadNum
    have hcounters := Packed.single
      (sizeofCachedPool cacheline + sizeofCachedPoolVunit cacheline * threadNum)
      (sizeofCachedPoolBuffer cacheline)
    have hslots := Packed.array (sizeofCachedPool cacheline +
      sizeofCachedPoolVunit cacheline * threadNum + sizeofCachedPoolBuffer cacheline)
      sizeofPtr (threadNum * 2)
    have hplaces := Packed.array
      (sizeofCachedPool cacheline + sizeofCachedPoolVunit cacheline * threadNum +
        (sizeofCachedPoolBuffer cacheline + sizeofPtr * threadNum * 2))
      (entrySize + sizeofPtr) (threadNum * (batchSize threadNum entryNum * 2))
    have hbuf : (cachedPoolLayout cacheline threadNum entryNum entrySize).buf =
        sizeofCachedPool cacheline + sizeofCachedPoolVunit cacheline * threadNum := by
      rw [hfit.layout_eq hthreads hentries]
    have hfirst : sizeofCachedPool cacheline + sizeofCachedPoolVunit cacheline * threadNum +
        (sizeofCachedPoolBuffer cacheline + sizeofPtr * threadNum * 2) =
        sizeofCachedPool cacheline + sizeofCachedPoolVunit cacheline * threadNum +
          sizeofCachedPoolBuffer cacheline + sizeofPtr * (threadNum * 2) := by
      rw [Nat.mul_assoc sizeofPtr, ← Nat.add_assoc]
    rw [Nat.zero_add] at hhead
    rw [hfirst] at hplaces
    rw [cachedPoolRegions, ringSlots_eq hfit hthreads hentries,
      entryRegions_eq hfit hthreads hentries, heq, hbuf, hfirst]
    have hall := (((hhead.append hvunits (Nat.zero_le _) (Nat.le_add_right _ _)).append
      hcounters (Nat.zero_le _) (Nat.le_add_right _ _)).append
      hslots (Nat.zero_le _) (Nat.le_add_right _ _)).append
      hplaces (Nat.zero_le _) (Nat.le_add_right _ _)
    refine hall.mono le_rfl ?_
    rw [hfit.memsize_eq hthreads hentries, cachedPoolBytes, Nat.mul_assoc sizeofPtr,
      Nat.mul_comm (entrySize + sizeofPtr)]
  slots c := by
    have hbytes := hfit.bytes
    unfold cachedPoolBytes at hbytes
    have hpos : 0 < threadNum * 2 := by omega
    rw [ringSlots_eq hfit hthreads hentries, heq]
    refine Region.mem_array.mpr ⟨c &&& (threadNum * 2 - 1), ?_, ?_⟩
    · exact lt_of_le_of_lt Nat.and_le_right (by omega)
    · have hle : c &&& (threadNum * 2 - 1) ≤ threadNum * 2 - 1 := Nat.and_le_right
      rw [cachedPoolSlot, hfit.layout_eq hthreads hentries, heq]
      simp only [sizeofPtr] at hbytes ⊢
      rw [Nat.mod_eq_of_lt (by omega)]

/-- The layout is right when the number of threads is a power of two, and only then: else the
ring reaches into the entries. -/
theorem cachedPool_layout (h : Heap) (hthreads : 1 ≤ threadNum) (hentries : 1 ≤ entryNum)
    (hfit : SizesFit cacheline threadNum entryNum entrySize) :
    LayoutOk cacheline threadNum (cachedPoolMemsize cacheline threadNum entryNum entrySize)
        (cachedPoolInit cacheline h threadNum entryNum entrySize).1 ↔
      threadNum.isPowerOfTwo := by
  have hround : vPow2RoundUp (threadNum * 2) = threadNum * 2 ↔ threadNum.isPowerOfTwo :=
    (vPow2RoundUp_eq_self (by omega)).trans isPowerOfTwo_mul_two
  rw [← hround]
  constructor
  · exact LayoutOk.vPow2RoundUp_eq hfit hthreads hentries
  · exact layoutOk_of_eq hfit hthreads hentries

theorem cachedPool_layout_four :
    LayoutOk 128 4 (cachedPoolMemsize 128 4 10 16)
        (cachedPoolInit 128 ⟨⟨0, 0, 0, 0⟩, fun _ => ⟨0, 0, 0, 0⟩, fun _ => 0⟩ 4 10 16).1 ↔
      Nat.isPowerOfTwo 4 :=
  cachedPool_layout _ (by decide) (by decide) ⟨by decide, by decide, by decide⟩

/-- Three threads have room for six batches and a ring of eight. -/
theorem cachedPool_layout_three :
    ¬ LayoutOk 128 3 (cachedPoolMemsize 128 3 3 8)
      (cachedPoolInit 128 ⟨⟨0, 0, 0, 0⟩, fun _ => ⟨0, 0, 0, 0⟩, fun _ => 0⟩ 3 3 8).1 := by
  intro hok
  have hfit : SizesFit 128 3 3 8 := ⟨by decide, by decide, by decide⟩
  exact absurd (LayoutOk.vPow2RoundUp_eq hfit (by decide) (by decide) hok) (by decide)

/-- When the number of threads is no power of two there is a slot that is the first entry. -/
theorem bufferFree_first_entry (hthreads : 1 ≤ threadNum) (hentries : 1 ≤ entryNum)
    (hfit : SizesFit cacheline threadNum entryNum entrySize) (h : Heap) (es : Nat)
    (hslot : h.buffer.phead &&&
      (cachedPoolLayout cacheline threadNum entryNum entrySize).conf.bufferMask =
        threadNum * 2) :
    (cachedPoolBufferFree cacheline
      (cachedPoolLayout cacheline threadNum entryNum entrySize)
      (cachedPoolLayout cacheline threadNum entryNum entrySize).buf h es).words
        (cachedPoolLayout cacheline threadNum entryNum entrySize).entries = es := by
  have hbytes := hfit.bytes
  unfold cachedPoolBytes at hbytes
  have haddr : cachedPoolSlot cacheline
      (cachedPoolLayout cacheline threadNum entryNum entrySize)
      (cachedPoolLayout cacheline threadNum entryNum entrySize).buf h.buffer.phead =
      (cachedPoolLayout cacheline threadNum entryNum entrySize).entries := by
    rw [cachedPoolSlot, hslot, hfit.layout_eq hthreads hentries]
    dsimp only
    rw [← Nat.mul_assoc, Nat.mod_eq_of_lt (by omega), Nat.add_assoc]
  rw [← haddr]
  exact update_self _ _ _

end Libvsync.Pool
