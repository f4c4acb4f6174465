import Libvsync.Pool.CachedPoolCalls

/-!
How many entries a caller of the cached pool can have. The units keep free entries that only their
own thread can take, so a call may fail while entries are free.
-/

namespace Libvsync.Pool

open Libvsync.Core Function

section Init

variable {cacheline threadNum entryNum entrySize slots : Nat} {a : CachedPool}

/-- `_cached_pool_entry_find` for the entries of the pool. -/
def CachedPool.find (a : CachedPool) (idx : Nat) : Nat :=
  cachedPoolEntryFind a.entries a.conf.entrySpace idx

/-- The entries from index `start` on. -/
def CachedPool.batch (a : CachedPool) (start len : Nat) : List Nat :=
  (List.range' start len).map a.find

def CachedPool.stored (a : CachedPool) (len : Nat) : Multiset Nat := a.batch 0 len

theorem mem_batch {start len x : Nat} :
    x ∈ a.batch start len ↔ ∃ idx, start ≤ idx ∧ idx < start + len ∧ a.find idx = x := by
  rw [CachedPool.batch, List.mem_map]
  exact exists_congr fun idx => by rw [List.mem_range'_1, and_assoc]

theorem mem_stored {len x : Nat} : x ∈ a.stored len ↔ ∃ idx, idx < len ∧ a.find idx = x := by
  rw [CachedPool.stored, Multiset.mem_coe, mem_batch]
  exact exists_congr fun idx => by simp

theorem length_batch (start len : Nat) : (a.batch start len).length = len := by
  rw [CachedPool.batch, List.length_map, List.length_range']

theorem stored_add (start len : Nat) :
    a.stored (start + len) = a.stored start + (a.batch start len : Multiset Nat) := by
  rw [CachedPool.stored, CachedPool.stored, Multiset.coe_add, CachedPool.batch, CachedPool.batch,
    CachedPool.batch, ← List.map_append, ← List.range'_append_1, Nat.zero_add]

theorem cachedPoolChain_eq (h : Heap) (start len : Nat) :
    cachedPoolChain a h start (start + len + 1) =
      cachedPoolEntrySetNext ((List.range' start len).foldl
        (fun h idx => cachedPoolEntrySetNext h (a.find idx) (a.find (idx + 1))) h)
        (a.find (start + len)) 0 := by
  have hlen : start + len + 1 - 1 - start = len := by omega
  rw [cachedPoolChain, hlen]
  rfl

/-- The loop that chains the entries of a batch. -/
theorem chain_words (start len : Nat) (h : Heap)
    (hpos : ∀ idx, start ≤ idx → idx ≤ start + len → a.find idx ≠ 0)
    (hinj : ∀ i j, start ≤ i → i < j → j ≤ start + len → a.find i ≠ a.find j) :
    (cachedPoolChain a h start (start + len + 1)).buffer = h.buffer ∧
    (cachedPoolChain a h start (start + len + 1)).vunits = h.vunits ∧
    Chained (cachedPoolChain a h start (start + len + 1)).words (a.find start)
      (a.batch start (len + 1)) ∧
    ∀ x ∉ a.batch start (len + 1),
      (cachedPoolChain a h start (start + len + 1)).words x = h.words x := by
  induction len generalizing start h with
  | zero =>
    rw [cachedPoolChain_eq h start 0]
    refine ⟨rfl, rfl, Chained.cons_iff.mpr ⟨⟨rfl, hpos start (Nat.le_refl _) (Nat.le_refl _)⟩, ?_⟩,
      fun x hx => update_of_ne ?_ _ _⟩
    · exact Chained.nil_iff.mpr (update_self ..)
    · exact fun heq => hx (mem_batch.mpr ⟨start, Nat.le_refl _, by omega, heq.symm⟩)
  | succ len ih =>
    have hstep : cachedPoolChain a h start (start + (len + 1) + 1) =
        cachedPoolChain a (cachedPoolEntrySetNext h (a.find start) (a.find (start + 1)))
          (start + 1) (start + 1 + len + 1) := by
      have hsum : start + 1 + len = start + (len + 1) := by omega
      rw [cachedPoolChain_eq, cachedPoolChain_eq, List.range'_succ, List.foldl_cons, hsum]
    obtain ⟨hbuffer, hvunits, hchained, hframe⟩ :=
      ih (start + 1) (cachedPoolEntrySetNext h (a.find start) (a.find (start + 1)))
        (fun idx hle hlt => hpos idx (by omega) (by omega))
        (fun i j hi hij hj => hinj i j (by omega) hij (by omega))
    have hnot : a.find start ∉ a.batch (start + 1) (len + 1) := by
      intro hmem
      obtain ⟨idx, hle, hlt, heq⟩ := mem_batch.mp hmem
      exact hinj start idx (Nat.le_refl _) (by omega) (by omega) heq.symm
    rw [hstep]
    refine ⟨hbuffer, hvunits, Chained.cons_iff.mpr
      ⟨⟨rfl, hpos start (Nat.le_refl _) (by omega)⟩, ?_⟩, fun x hx => ?_⟩
    · rw [hframe _ hnot, cachedPoolEntrySetNext]
      dsimp only
      rw [update_self]
      exact hchained
    · obtain ⟨hne, hrest⟩ := not_or.mp (mt List.mem_cons.mpr hx)
      exact (hframe x hrest).trans (update_of_ne hne _ _)

/-- The entries from index zero on have addresses of their own. -/
structure Places (cacheline : Nat) (a : CachedPool) (slots len : Nat) : Prop where
  inj : ∀ i j, i < j → j < len → a.find i ≠ a.find j
  apart : Apart cacheline a slots (a.stored len)

theorem Places.pos {len : Nat} (hp : Places cacheline a slots len) {idx : Nat} (hidx : idx < len) :
    a.find idx ≠ 0 :=
  hp.apart.pos _ (mem_stored.mpr ⟨idx, hidx, rfl⟩)

/-- The slots of the ring, as many as a power of two, end where the entries begin. -/
theorem places_of_layout {len j : Nat} (hslots : slots = 2 ^ j) (hj : j ≤ 63)
    (hmask : a.conf.bufferMask = slots - 1)
    (hentries : a.entries = a.buf + sizeofCachedPoolBuffer cacheline + sizeofPtr * slots)
    (hspace : sizeofPtr ≤ a.conf.entrySpace)
    (hend : a.entries + a.conf.entrySpace * len < 2 ^ 64) : Places cacheline a slots len := by
  rw [sizeofPtr] at hentries hspace
  have hpos : 0 < slots := hslots ▸ Nat.two_pow_pos j
  have hfind (idx : Nat) (hidx : idx < len) : a.find idx = a.entries + a.conf.entrySpace * idx ∧
      a.find idx + a.conf.entrySpace < 2 ^ 64 := by
    have hle := Nat.mul_le_mul_left a.conf.entrySpace (Nat.succ_le_of_lt hidx)
    rw [Nat.mul_succ] at hle
    rw [CachedPool.find, cachedPoolEntryFind, Nat.mod_eq_of_lt (by omega)]
    omega
  have hslot (c : Nat) : cachedPoolSlot cacheline a a.buf c =
      a.buf + sizeofCachedPoolBuffer cacheline + 8 * (c % slots) := by
    have hlt := Nat.mod_lt c hpos
    rw [cachedPoolSlot, sizeofPtr, hmask, hslots, Nat.and_two_pow_sub_one_eq_mod, ← hslots,
      Nat.mod_eq_of_lt (by omega)]
  have hinj (i j : Nat) (hij : i < j) (hj : j < len) : a.find i ≠ a.find j := by
    have hlt := Nat.mul_lt_mul_of_pos_left hij (show 0 < a.conf.entrySpace by omega)
    rw [(hfind i (by omega)).1, (hfind j hj).1]
    omega
  refine ⟨hinj, ?_, fun e he => ?_, fun e he => ?_, fun c hmem => ?_, fun c => ?_,
    fun c i j hi hj heq => ?_, ?_⟩
  · refine Multiset.coe_nodup.mpr (List.Nodup.map_on (fun i hi j hj heq => ?_) List.nodup_range')
    rw [List.mem_range'_1] at hi hj
    rcases Nat.lt_trichotomy i j with hlt | rfl | hlt
    · exact absurd heq (hinj i j hlt (by omega))
    · rfl
    · exact absurd heq.symm (hinj j i hlt (by omega))
  · obtain ⟨idx, hidx, rfl⟩ := mem_stored.mp he
    rw [(hfind idx hidx).1]
    omega
  · obtain ⟨idx, hidx, rfl⟩ := mem_stored.mp he
    have hlt := (hfind idx hidx).2
    rw [sizeofPtr]
    omega
  · obtain ⟨idx, hidx, heq⟩ := mem_stored.mp hmem
    have hlt := Nat.mod_lt c hpos
    rw [(hfind idx hidx).1, hslot] at heq
    omega
  · rw [hslot, hslot, Nat.mod_mod_of_dvd]
    rw [hslots]
    exact Nat.pow_dvd_pow 2 (by omega)
  · rw [hslot, hslot] at heq
    have hsame : (c + i) % slots = (c + j) % slots := by omega
    exact ring_inj hi hj hsame
  · rw [hslots]
    exact Nat.pow_lt_pow_right (by omega) (by omega)

theorem places_of_fit (hthreads : 1 ≤ threadNum) (hentries : 1 ≤ entryNum)
    (hpow : threadNum.isPowerOfTwo) (hfit : SizesFit cacheline threadNum entryNum entrySize) :
    Places cacheline (cachedPoolLayout cacheline threadNum entryNum entrySize) (threadNum * 2)
      (threadNum * (batchSize threadNum entryNum * 2)) := by
  have hbytes := hfit.bytes
  have hnodes := hfit.nodes
  have hlayout := hfit.layout_eq hthreads hentries
  obtain ⟨j, hj⟩ := isPowerOfTwo_mul_two.mpr hpow
  have heq : vPow2RoundUp (threadNum * 2) = threadNum * 2 :=
    (vPow2RoundUp_eq_self (by omega)).mpr ⟨j, hj⟩
  unfold cachedPoolBytes at hbytes
  refine places_of_layout hj ?_ ?_ ?_ ?_ ?_
  · rw [hj] at hnodes
    exact ((Nat.pow_le_pow_iff_right (by omega)).mp hnodes).trans (by omega)
  · rw [hlayout, heq]
  · rw [hlayout]
    dsimp only
    rw [Nat.mul_assoc sizeofPtr, ← Nat.add_assoc]
  · rw [hlayout]
    exact Nat.le_add_left _ _
  · rw [hlayout]
    dsimp only
    rw [Nat.mul_comm (entrySize + sizeofPtr)]
    omega

theorem thresholds_of_fit (hthreads : 1 ≤ threadNum) (hentries : 1 ≤ entryNum)
    (hfit : SizesFit cacheline threadNum entryNum entrySize) :
    Thresholds (cachedPoolLayout cacheline threadNum entryNum entrySize).conf := by
  have hlt := hfit.batchSize_lt hthreads
  rw [hfit.layout_eq hthreads hentries]
  exact ⟨Nat.succ_pos _, rfl, rfl, hlt⟩

/-- The stock after the first `n` rounds of the loop over the units. -/
def initStock (a : CachedPool) (n : Nat) : Stock where
  units id := a.batch (id * a.conf.thresholdMax) a.conf.thresholdInit
  ring := (List.range n).map fun id =>
    a.batch (id * a.conf.thresholdMax + a.conf.thresholdInit) a.conf.thresholdInit
  taken := 0

theorem initStock_ring_succ (n : Nat) : (initStock a (n + 1)).ring = (initStock a n).ring ++
    [a.batch (n * a.conf.thresholdMax + a.conf.thresholdInit) a.conf.thresholdInit] := by
  rw [initStock, initStock, List.range_succ, List.map_append]
  rfl

theorem UnitOk.congr {words words' : Nat → Nat} {u : CachedPoolVunit} {es : List Nat}
    (hunit : UnitOk a words u es) (hsame : ∀ e ∈ es, words' e = words e) :
    UnitOk a words' u es :=
  ⟨hunit.buf, hunit.chain.congr hsame, hunit.cnt, hunit.room, hunit.mid⟩

/-- One round of the loop: the unit and the ring get the next two batches. -/
theorem cachedPoolInitUnit_stocked {n : Nat} {h : Heap} (hconf : Thresholds a.conf)
    (hp : Places cacheline a slots (threadNum * a.conf.thresholdMax))
    (hslots : slots = threadNum * 2) (hmax : threadNum * a.conf.thresholdMax < 2 ^ 32)
    (hn : n < threadNum)
    (hk : Stocked cacheline n a (a.stored (n * a.conf.thresholdMax)) h (initStock a n) 0) :
    Stocked cacheline (n + 1) a (a.stored ((n + 1) * a.conf.thresholdMax))
      (cachedPoolInitUnit cacheline a h n) (initStock a (n + 1)) 0 := by
  have hpos := hconf.pos
  have hdouble := hconf.max
  have hle := Nat.mul_le_mul_right a.conf.thresholdMax (Nat.succ_le_of_lt hn)
  rw [Nat.succ_mul] at hle
  obtain ⟨len, hlen⟩ : ∃ len, a.conf.thresholdInit = len + 1 :=
    ⟨a.conf.thresholdInit - 1, by omega⟩
  have hunit : cachedPoolInitUnit cacheline a h n =
      cachedPoolChain a (cachedPoolBufferFree cacheline a a.buf (cachedPoolChain a
        (cachedPoolVunitInit a h n a.buf (a.find (n * a.conf.thresholdMax)))
        (n * a.conf.thresholdMax) (n * a.conf.thresholdMax + len + 1))
        (a.find (n * a.conf.thresholdMax + len + 1)))
        (n * a.conf.thresholdMax + len + 1) (n * a.conf.thresholdMax + len + 1 + len + 1) := by
    rw [cachedPoolInitUnit, hlen, Nat.mod_eq_of_lt (by omega : n * a.conf.thresholdMax < 2 ^ 32),
      ← Nat.add_assoc, Nat.mod_eq_of_lt (by omega), ← Nat.add_assoc, Nat.mod_eq_of_lt (by omega)]
    rfl
  have hnext : (n + 1) * a.conf.thresholdMax = n * a.conf.thresholdMax + (len + 1) + (len + 1) := by
    rw [Nat.succ_mul]
    omega
  rw [hunit, hnext]
  generalize hstart : n * a.conf.thresholdMax = start at *
  obtain ⟨hbuffer2, hvunits2, hchain2, hframe2⟩ :=
    chain_words start len
      (cachedPoolVunitInit a h n a.buf (a.find start))
      (fun idx _ hidx => hp.pos (by omega)) (fun i j _ hij hj => hp.inj i j hij (by omega))
  generalize cachedPoolChain a (cachedPoolVunitInit a h n a.buf (a.find start)) start
    (start + len + 1) = h2 at *
  obtain ⟨hbuffer4, hvunits4, hchain4, hframe4⟩ :=
    chain_words (start + len + 1) len
      (cachedPoolBufferFree cacheline a a.buf h2 (a.find (start + len + 1)))
      (fun idx _ hidx => hp.pos (by omega)) (fun i j _ hij hj => hp.inj i j hij (by omega))
  generalize cachedPoolChain a
    (cachedPoolBufferFree cacheline a a.buf h2 (a.find (start + len + 1))) (start + len + 1)
    (start + len + 1 + len + 1) = h4 at *
  have hlength : (initStock a n).ring.length = n := by
    rw [initStock, List.length_map, List.length_range]
  have hphead : h2.buffer.phead = n := by
    have hring := hk.ring.phead
    have hfew := Nat.le_mul_of_pos_right threadNum (show 0 < a.conf.thresholdMax by omega)
    rw [hlength, Nat.zero_add, Nat.mod_eq_of_lt (by omega)] at hring
    rw [hbuffer2]
    exact hring
  have hbatch {low count x : Nat} (hin : x ∈ a.batch low count)
      (hcount : low + count ≤ threadNum * a.conf.thresholdMax) (c : Nat) :
      x ≠ cachedPoolSlot cacheline a a.buf c := by
    obtain ⟨idx, -, hidx, rfl⟩ := mem_batch.mp hin
    exact fun heq => hp.apart.slot c (mem_stored.mpr ⟨idx, by omega, heq⟩)
  have hapart {low count low' count' x : Nat} (hin : x ∈ a.batch low count)
      (hle : low + count ≤ low') (hcount : low' + count' ≤ threadNum * a.conf.thresholdMax) :
      x ∉ a.batch low' count' := by
    obtain ⟨i, -, hi, rfl⟩ := mem_batch.mp hin
    intro hin'
    obtain ⟨j, hj, hj', heq⟩ := mem_batch.mp hin'
    exact hp.inj i j (by omega) (by omega) heq.symm
  have hslot (c : Nat) {low count : Nat}
      (hcount : low + count ≤ threadNum * a.conf.thresholdMax) :
      cachedPoolSlot cacheline a a.buf c ∉ a.batch low count := fun hin => hbatch hin hcount c rfl
  -- What the round writes is in its two batches and in one slot.
  have hkeep {x : Nat} (h2' : x ∉ a.batch start (len + 1))
      (h4' : x ∉ a.batch (start + len + 1) (len + 1))
      (hx : x ≠ cachedPoolSlot cacheline a a.buf n) :
      h4.words x = h.words x := by
    rw [hframe4 x h4', cachedPoolBufferFree, hphead]
    dsimp only
    rw [update_of_ne hx, hframe2 x h2']
    rfl
  have hold {x : Nat} (hx : x ∈ a.batch 0 start) : h4.words x = h.words x :=
    hkeep (hapart hx (by omega) (by omega)) (hapart hx (by omega) (by omega))
      (hbatch hx (by omega) n)
  have hvunits : h4.vunits = update h.vunits n
      ⟨a.conf.thresholdInit, a.buf, a.find start, a.find start⟩ := hvunits4.trans hvunits2
  have hsub {id low : Nat} (hid : id < n) (hlow : id * a.conf.thresholdMax ≤ low)
      (hroom : low + a.conf.thresholdInit ≤ (id + 1) * a.conf.thresholdMax) {x : Nat}
      (hx : x ∈ a.batch low a.conf.thresholdInit) : x ∈ a.batch 0 start := by
    obtain ⟨idx, hidx, hlt, rfl⟩ := mem_batch.mp hx
    have hround : (id + 1) * a.conf.thresholdMax ≤ start :=
      hstart ▸ Nat.mul_le_mul_right a.conf.thresholdMax (Nat.succ_le_of_lt hid)
    exact mem_batch.mpr ⟨idx, Nat.zero_le _, by omega, rfl⟩
  constructor
  · have hall := hk.all
    rw [Stock.all, show (initStock a n).taken = 0 from rfl, add_zero] at hall
    rw [Stock.all, initStock_ring_succ, hstart, parts_succ, stored_add, stored_add, ← hall,
      List.flatten_append, List.flatten_singleton, ← Multiset.coe_add, hlen]
    show parts n (initStock a n).units + (a.batch (n * a.conf.thresholdMax) a.conf.thresholdInit :
      Multiset Nat) + _ + 0 = _
    rw [hstart, hlen, add_zero]
    simp only [add_assoc, add_left_comm]
  · intro i hi
    rw [hvunits]
    rcases Nat.eq_or_lt_of_le (Nat.le_of_lt_succ hi) with rfl | hlt
    · have hchain : Chained h4.words (a.find start) (a.batch start (len + 1)) :=
        hchain2.congr fun x hx => by
          rw [hframe4 x (hapart hx (by omega) (by omega)), cachedPoolBufferFree]
          exact update_of_ne (hbatch hx (by omega) _) _ _
      rw [update_self, show (initStock a (i + 1)).units i =
        a.batch (i * a.conf.thresholdMax) a.conf.thresholdInit from rfl, hstart, hlen]
      have hcount := length_batch (a := a) start (len + 1)
      exact ⟨rfl, hchain, by rw [hcount], by omega, fun hlong => by omega⟩
    · rw [update_of_ne hlt.ne]
      refine (hk.units i hlt).congr fun x hx => hold (hsub hlt (Nat.le_refl _) ?_ hx)
      rw [Nat.succ_mul]
      omega
  · rw [initStock_ring_succ, hstart, hlen, ← Nat.add_assoc]
    refine hk.ring.extend ?_ ?_ ?_ (fun i hi => ?_) (fun batch hin x hx => ?_) ?_ ?_
    · rw [hbuffer4, cachedPoolBufferFree, hbuffer2]
      rfl
    · rw [hbuffer4, cachedPoolBufferFree, hbuffer2]
      rfl
    · rw [hbuffer4, cachedPoolBufferFree, hbuffer2]
      rfl
    · rw [hlength] at hi
      refine hkeep (hslot _ (by omega)) (hslot _ (by omega)) fun heq => ?_
      have hfirst := hp.apart.inj 0 i n (by omega) (by omega) (by rw [heq, Nat.zero_add])
      omega
    · obtain ⟨id, hid, rfl⟩ := List.mem_map.mp hin
      refine hold (hsub (List.mem_range.mp hid) (Nat.le_add_right _ _) ?_ hx)
      rw [Nat.succ_mul]
      omega
    · have hread : h4.words (cachedPoolSlot cacheline a a.buf n) = a.find (start + len + 1) := by
        rw [hframe4 _ (hslot _ (by omega)), cachedPoolBufferFree, hphead]
        exact update_self ..
      rw [hlength, Nat.zero_add, hread]
      exact hchain4
    · rw [length_batch, hlen]

/-- `cached_pool_init` gives each unit one batch and puts as many in the ring. -/
theorem cachedPoolInit_stocked (hconf : Thresholds a.conf)
    (hp : Places cacheline a slots (threadNum * a.conf.thresholdMax))
    (hslots : slots = threadNum * 2) (hmax : threadNum * a.conf.thresholdMax < 2 ^ 32) (h : Heap)
    {n : Nat} (hn : n ≤ threadNum) :
    Stocked cacheline n a (a.stored (n * a.conf.thresholdMax))
      ((List.range n).foldl (cachedPoolInitUnit cacheline a) (cachedPoolBufferInit h))
      (initStock a n) 0 := by
  induction n with
  | zero =>
    rw [Nat.zero_mul]
    exact ⟨rfl, fun id hid => absurd hid (Nat.not_lt_zero id), rfl, rfl, rfl,
      fun i batch hi => (Option.some_ne_none batch hi.symm).elim,
      fun batch hin => absurd hin List.not_mem_nil⟩
  | succ n ih =>
    rw [List.range_succ, List.foldl_append]
    exact cachedPoolInitUnit_stocked hconf hp hslots hmax hn (ih (Nat.le_of_succ_le hn))

end Init

section Runs

variable {cacheline threadNum entryNum entrySize slots c id : Nat} {a : CachedPool}
variable {entries : Multiset Nat} {h : Heap} {k : Stock}

/-- A complete call by the thread with the given id. -/
inductive Call where
  | alloc (id : Nat)
  | free (id p : Nat)

/-- The pool, with the addresses that callers hold. -/
structure Usage where
  heap : Heap
  allocated : Multiset Nat

/-- A thread has an id below `threadNum` and frees what is allocated. -/
def Call.apply (cacheline threadNum : Nat) (a : CachedPool) (s : Usage) : Call → Option Usage
  | .alloc id =>
    if id < threadNum then
      let (p, heap) := cachedPoolAlloc cacheline a s.heap id
      some ⟨heap, if p = 0 then s.allocated else p ::ₘ s.allocated⟩
    else none
  | .free id p =>
    if id < threadNum ∧ p ∈ s.allocated then
      some ⟨cachedPoolFree cacheline a s.heap id p, s.allocated.erase p⟩
    else none

/-- The calls, one after the other, on a pool that was initialised in the given memory. -/
def cachedPoolRun (cacheline threadNum entryNum entrySize : Nat) (memory : Heap)
    (calls : List Call) : Option Usage :=
  let (a, heap) := cachedPoolInit cacheline memory threadNum entryNum entrySize
  calls.foldlM (Call.apply cacheline threadNum a) ⟨heap, 0⟩

/-- The capacity that is asked for: a call by any thread fails only while as many entries are
allocated. -/
def HasCapacity (cacheline threadNum entryNum entrySize capacity : Nat) : Prop :=
  ∀ memory calls s id, id < threadNum →
    cachedPoolRun cacheline threadNum entryNum entrySize memory calls = some s →
    (cachedPoolAlloc cacheline (cachedPoolLayout cacheline threadNum entryNum entrySize) s.heap
      id).1 = 0 →
    capacity ≤ s.allocated.card

/-- The pool that the invariants are about. -/
structure Equipped (cacheline threadNum : Nat) (a : CachedPool)
    (entries : Multiset Nat) : Prop where
  conf : Thresholds a.conf
  apart : Apart cacheline a (threadNum * 2) entries
  card : entries.card = threadNum * 2 * a.conf.thresholdInit

theorem length_flatten_of_size {ring : List (List Nat)} {size : Nat}
    (hsize : ∀ batch ∈ ring, batch.length = size) : ring.flatten.length = ring.length * size := by
  rw [List.length_flatten, List.map_congr_left hsize, List.map_const', List.sum_replicate]
  rfl

theorem Stocked.card (hk : Stocked cacheline threadNum a entries h k c) :
    (parts threadNum k.units).card + k.ring.length * a.conf.thresholdInit + k.taken.card =
      entries.card := by
  rw [← hk.all, Stock.all, Multiset.card_add, Multiset.card_add, Multiset.coe_card,
    length_flatten_of_size hk.ring.size]

/-- The ring has a slot for each batch. -/
theorem Stocked.ring_le (hw : Equipped cacheline threadNum a entries)
    (hk : Stocked cacheline threadNum a entries h k c) : k.ring.length ≤ threadNum * 2 := by
  have hsum := hk.card
  have hcard := hw.card
  exact Nat.le_of_mul_le_mul_right (by omega) hw.conf.pos

theorem Stocked.ring_lt (hw : Equipped cacheline threadNum a entries)
    (hk : Stocked cacheline threadNum a entries h k c) (hid : id < threadNum)
    (hfull : (k.units id).length + 1 = a.conf.thresholdMax) : k.ring.length < threadNum * 2 := by
  have hsum := hk.card
  have hcard := hw.card
  have hmax := hw.conf.max
  have hpos := hw.conf.pos
  have hlist := Multiset.card_le_card (le_parts k.units hid)
  rw [Multiset.coe_card] at hlist
  refine Nat.lt_of_mul_lt_mul_right (a := a.conf.thresholdInit) ?_
  omega

theorem Stocked.free (hw : Equipped cacheline threadNum a entries)
    (hk : Stocked cacheline threadNum a entries h k c) (hid : id < threadNum) {e : Nat}
    (he : e ∈ k.taken) : ∃ k', Stocked cacheline threadNum a entries
      (cachedPoolFree cacheline a h id (cachedPoolEntryToAddr e)) k' c ∧
      k'.taken = k.taken.erase e := by
  have hroom := (hk.units id hid).room
  rcases Nat.eq_or_lt_of_le (Nat.succ_le_of_lt hroom) with hfull | hshort
  · obtain ⟨es, batch, hk'⟩ := cachedPoolFree_split hw.conf hw.apart hk hid he hfull
      (hk.ring_lt hw hid hfull)
    exact ⟨_, hk', rfl⟩
  · exact ⟨_, cachedPoolFree_short hw.conf hw.apart hk hid he hshort, rfl⟩

/-- An allocation takes an entry of the unit or of the ring, and fails when both are empty. The
other units keep their lists. -/
theorem Stocked.alloc (hw : Equipped cacheline threadNum a entries)
    (hk : Stocked cacheline threadNum a entries h k c) (hid : id < threadNum) :
    (k.units id = [] ∧ k.ring = [] ∧ cachedPoolAlloc cacheline a h id = (0, h)) ∨
    ∃ e h' k' c', cachedPoolAlloc cacheline a h id = (cachedPoolEntryToAddr e, h') ∧
      Stocked cacheline threadNum a entries h' k' c' ∧ k'.taken = e ::ₘ k.taken ∧
      (∀ i ≠ id, k'.units i = k.units i) ∧
      (k'.units id).length + k'.ring.flatten.length + 1 =
        (k.units id).length + k.ring.flatten.length := by
  rcases hlist : k.units id with _ | ⟨e, es⟩
  · rcases hring : k.ring with _ | ⟨batch, rest⟩
    · exact Or.inl ⟨rfl, rfl, cachedPoolAlloc_none hk hid hlist hring⟩
    · have hsize := hk.ring.size batch (by rw [hring]; exact List.mem_cons_self)
      have hpos := hw.conf.pos
      rcases batch with _ | ⟨e, es⟩
      · rw [List.length_nil] at hsize
        omega
      · obtain ⟨h', heq, hk'⟩ := cachedPoolAlloc_ring hw.conf hw.apart hk hid hlist
          (hk.ring_le hw) hring
        refine Or.inr ⟨e, h', _, c + 1, heq, hk', rfl, fun i hi => update_of_ne hi _ _, ?_⟩
        dsimp only
        rw [update_self, List.flatten_cons, List.length_append, List.length_cons,
          List.length_nil]
        omega
  · obtain ⟨h', heq, hk'⟩ := cachedPoolAlloc_unit hw.conf hk hid hlist
    refine Or.inr ⟨e, h', _, c, heq, hk', rfl, fun i hi => update_of_ne hi _ _, ?_⟩
    dsimp only
    rw [update_self, List.length_cons]
    omega

/-- The stock accounts for what is allocated. -/
structure Accounted (cacheline threadNum : Nat) (a : CachedPool)
    (entries : Multiset Nat) (s : Usage)
    (k : Stock) (c : Nat) : Prop where
  stocked : Stocked cacheline threadNum a entries s.heap k c
  allocated : s.allocated = k.taken.map cachedPoolEntryToAddr

theorem Accounted.apply_alloc {s : Usage} (hw : Equipped cacheline threadNum a entries)
    (hs : Accounted cacheline threadNum a entries s k c) (hid : id < threadNum) {e c' : Nat}
    {h' : Heap} {k' : Stock}
    (heq : cachedPoolAlloc cacheline a s.heap id = (cachedPoolEntryToAddr e, h'))
    (hk' : Stocked cacheline threadNum a entries h' k' c') (htaken : k'.taken = e ::ₘ k.taken) :
    ∃ s', Call.apply cacheline threadNum a s (.alloc id) = some s' ∧
      Accounted cacheline threadNum a entries s' k' c' := by
  have he : e ∈ entries := hk'.all ▸ mem_all_taken (htaken ▸ Multiset.mem_cons_self e k.taken)
  have hne : cachedPoolEntryToAddr e ≠ 0 := by
    have hpos := hw.apart.pos e he
    rw [cachedPoolEntryToAddr, Nat.mod_eq_of_lt (hw.apart.fits e he)]
    omega
  refine ⟨_, by rw [Call.apply, if_pos hid, heq], hk', ?_⟩
  dsimp only
  rw [if_neg hne, htaken, Multiset.map_cons, hs.allocated]

theorem Accounted.apply_free {s : Usage} (hs : Accounted cacheline threadNum a entries s k c)
    (hid : id < threadNum) {e c' : Nat} (he : e ∈ k.taken) {k' : Stock}
    (hk' : Stocked cacheline threadNum a entries
      (cachedPoolFree cacheline a s.heap id (cachedPoolEntryToAddr e)) k' c')
    (htaken : k'.taken = k.taken.erase e) :
    ∃ s', Call.apply cacheline threadNum a s (.free id (cachedPoolEntryToAddr e)) = some s' ∧
      Accounted cacheline threadNum a entries s' k' c' := by
  have hmem : cachedPoolEntryToAddr e ∈ s.allocated := by
    rw [hs.allocated]
    exact Multiset.mem_map_of_mem _ he
  refine ⟨_, by rw [Call.apply, if_pos ⟨hid, hmem⟩], hk', ?_⟩
  dsimp only
  rw [htaken, hs.allocated]
  conv_lhs => rw [← Multiset.cons_erase he, Multiset.map_cons]
  exact Multiset.erase_cons_head _ _

theorem Accounted.apply {s s' : Usage} (hw : Equipped cacheline threadNum a entries)
    (hs : Accounted cacheline threadNum a entries s k c) {call : Call}
    (hcall : call.apply cacheline threadNum a s = some s') :
    ∃ k' c', Accounted cacheline threadNum a entries s' k' c' := by
  cases call with
  | alloc id =>
    have hid := (Option.ite_none_right_eq_some.mp hcall).1
    rcases hs.stocked.alloc hw hid with ⟨-, -, heq⟩ | ⟨e, h', k', c', heq, hk', htaken, -⟩
    · rw [Call.apply, if_pos hid, heq] at hcall
      obtain rfl := Option.some.inj hcall
      exact ⟨k, c, hs⟩
    · obtain ⟨s₁, hstep, hs'⟩ := hs.apply_alloc hw hid heq hk' htaken
      obtain rfl := Option.some.inj (hcall.symm.trans hstep)
      exact ⟨k', c', hs'⟩
  | free id p =>
    obtain ⟨hid, hp⟩ := (Option.ite_none_right_eq_some.mp hcall).1
    rw [hs.allocated] at hp
    obtain ⟨e, he, rfl⟩ := Multiset.mem_map.mp hp
    obtain ⟨k', hk', htaken⟩ := hs.stocked.free hw hid he
    obtain ⟨s₁, hstep, hs'⟩ := hs.apply_free hid he hk' htaken
    obtain rfl := Option.some.inj (hcall.symm.trans hstep)
    exact ⟨k', c, hs'⟩

/-- A call fails only while all but what the other units can keep is allocated. -/
theorem Accounted.card_le {s : Usage} (hw : Equipped cacheline threadNum a entries)
    (hs : Accounted cacheline threadNum a entries s k c) (hid : id < threadNum)
    (hnull : (cachedPoolAlloc cacheline a s.heap id).1 = 0) :
    2 * a.conf.thresholdInit + threadNum - 1 ≤ s.allocated.card := by
  rcases hs.stocked.alloc hw hid with ⟨hunit, hring, -⟩ | ⟨e, h', k', c', heq, hk', htaken, -⟩
  · have hsum := hs.stocked.card
    have hmax := hw.conf.max
    have hpos := hw.conf.pos
    have hunits := card_parts_le (b := a.conf.thresholdMax - 1)
      (fun i hi => Nat.le_sub_one_of_lt (hs.stocked.units i hi).room) hid hunit
    obtain ⟨m, rfl⟩ : ∃ m, threadNum = m + 1 := ⟨threadNum - 1, by omega⟩
    rw [hring, List.length_nil, Nat.zero_mul, hw.card, Nat.mul_assoc, Nat.mul_comm 2, ← hmax,
      Nat.succ_mul] at hsum
    rw [Nat.add_sub_cancel, Nat.mul_sub_one] at hunits
    have hle := Nat.le_mul_of_pos_right m (show 0 < a.conf.thresholdMax by omega)
    rw [hs.allocated, Multiset.card_map]
    omega
  · have he : e ∈ entries := hk'.all ▸ mem_all_taken (htaken ▸ Multiset.mem_cons_self e k.taken)
    have hpos := hw.apart.pos e he
    rw [heq, cachedPoolEntryToAddr, Nat.mod_eq_of_lt (hw.apart.fits e he)] at hnull
    dsimp only at hnull
    omega

theorem Accounted.run {s s' : Usage} (hw : Equipped cacheline threadNum a entries)
    (hs : Accounted cacheline threadNum a entries s k c) {calls : List Call}
    (hrun : calls.foldlM (Call.apply cacheline threadNum a) s = some s') :
    ∃ k' c', Accounted cacheline threadNum a entries s' k' c' := by
  induction calls generalizing s k c with
  | nil => exact ⟨k, c, Option.some.inj hrun ▸ hs⟩
  | cons call calls ih =>
    rw [List.foldlM_cons] at hrun
    obtain ⟨s₁, hcall, hrest⟩ := Option.bind_eq_some_iff.mp hrun
    obtain ⟨k₁, c₁, hs₁⟩ := hs.apply hw hcall
    exact ih hs₁ hrest

theorem card_stored (len : Nat) : (a.stored len).card = len := by
  rw [CachedPool.stored, Multiset.coe_card, length_batch]

theorem cachedPoolInit_accounted (hthreads : 1 ≤ threadNum) (hentries : 1 ≤ entryNum)
    (hpow : threadNum.isPowerOfTwo) (hfit : SizesFit cacheline threadNum entryNum entrySize)
    (memory : Heap) :
    ∃ entries k, Equipped cacheline threadNum
      (cachedPoolInit cacheline memory threadNum entryNum entrySize).1 entries ∧
      Accounted cacheline threadNum
        (cachedPoolInit cacheline memory threadNum entryNum entrySize).1 entries
        ⟨(cachedPoolInit cacheline memory threadNum entryNum entrySize).2, 0⟩ k 0 := by
  have hconf := thresholds_of_fit hthreads hentries hfit
  have hplaces := places_of_fit hthreads hentries hpow hfit
  have hlt := hfit.entries
  have hmax : (cachedPoolLayout cacheline threadNum entryNum entrySize).conf.thresholdMax =
      batchSize threadNum entryNum * 2 := by rw [hfit.layout_eq hthreads hentries]
  rw [← hmax] at hplaces hlt
  refine ⟨_, _, ⟨hconf, hplaces.apart, ?_⟩,
    cachedPoolInit_stocked hconf hplaces rfl hlt memory (Nat.le_refl threadNum), rfl⟩
  rw [card_stored, hconf.max, Nat.mul_assoc, Nat.mul_comm 2]
  rfl

theorem cachedPoolInit_thresholdInit (hthreads : 1 ≤ threadNum) (hentries : 1 ≤ entryNum)
    (hfit : SizesFit cacheline threadNum entryNum entrySize) (memory : Heap) :
    (cachedPoolInit cacheline memory threadNum entryNum entrySize).1.conf.thresholdInit =
      batchSize threadNum entryNum := by
  rw [cachedPoolInit, hfit.layout_eq hthreads hentries]

/-- An allocation fails only while two batches are allocated, and one entry for each other thread:
each of the other units keeps less than two batches. -/
theorem cachedPoolAlloc_null (hthreads : 1 ≤ threadNum) (hentries : 1 ≤ entryNum)
    (hpow : threadNum.isPowerOfTwo) (hfit : SizesFit cacheline threadNum entryNum entrySize) :
    HasCapacity cacheline threadNum entryNum entrySize
      (2 * batchSize threadNum entryNum + threadNum - 1) := by
  intro memory calls s id hid hrun hnull
  obtain ⟨entries, k, hw, hstart⟩ := cachedPoolInit_accounted hthreads hentries hpow hfit memory
  obtain ⟨k', c', hs⟩ := hstart.run hw hrun
  rw [← cachedPoolInit_thresholdInit hthreads hentries hfit memory]
  exact hs.card_le hw hid hnull

end Runs

end Libvsync.Pool
