import Libvsync.Core.Linked
import Libvsync.Core.Parts
import Libvsync.Core.Ring
import Libvsync.Pool.CachedPool

/-!
Complete calls of the cached pool, one after the other. Every entry is in the hands of a caller, in
the list of one unit or in one batch of the ring. `taken` and the lists of a `Stock` are not read by
the code.
-/

namespace Libvsync.Pool

open Libvsync.Core Function

/-- `_cached_pool_entry_to_addr` -/
def cachedPoolEntryToAddr (entry : Nat) : Nat := (entry + sizeofPtr) % 2 ^ 64

/-- `_cached_pool_entry_from_addr` -/
def cachedPoolEntryFromAddr (p : Nat) : Nat := wsub 64 p sizeofPtr

/-- `_cached_pool_entry_get_next` -/
def cachedPoolEntryGetNext (h : Heap) (e : Nat) : Nat := h.words e

def Heap.setVunit (h : Heap) (id : Nat) (u : CachedPoolVunit) : Heap :=
  { h with vunits := update h.vunits id u }

/-- The end of `_cached_pool_vunit_alloc`: the first entry of a list is taken off. -/
def cachedPoolVunitTake (h : Heap) (id es cnt : Nat) : Nat × Heap :=
  (cachedPoolEntryToAddr es,
    h.setVunit id
      { h.vunits id with top := cachedPoolEntryGetNext h es, cnt := wsub 32 cnt 1 })

variable (cacheline : Nat)

/-- `_cached_pool_vunit_alloc` of a thread that runs alone. -/
def cachedPoolVunitAlloc (a : CachedPool) (h : Heap) (id : Nat) : Nat × Heap :=
  let es := (h.vunits id).top
  if es = 0 then
    let (es, h) := cachedPoolBufferAlloc cacheline a (h.vunits id).buf h
    if es = 0 then (0, h) else cachedPoolVunitTake h id es a.conf.thresholdInit
  else cachedPoolVunitTake h id es (h.vunits id).cnt

/-- `_cached_pool_vunit_free` of a thread that runs alone. -/
def cachedPoolVunitFree (a : CachedPool) (h : Heap) (id p : Nat) : Heap :=
  let u := h.vunits id
  let e := cachedPoolEntryFromAddr p
  let h := cachedPoolEntrySetNext h e u.top
  let cnt := wadd 32 u.cnt 1
  let mid := if cnt = a.conf.thresholdLink then e else u.mid
  if cnt = a.conf.thresholdMax then
    let h := h.setVunit id { u with top := e, cnt := a.conf.thresholdInit, mid := mid }
    let es := cachedPoolEntryGetNext h mid
    let h := cachedPoolEntrySetNext h mid 0
    cachedPoolBufferFree cacheline a u.buf h es
  else h.setVunit id { u with top := e, cnt := cnt, mid := mid }

/-- `cached_pool_alloc` -/
def cachedPoolAlloc (a : CachedPool) (h : Heap) (id : Nat) : Nat × Heap :=
  cachedPoolVunitAlloc cacheline a h id

/-- `cached_pool_free` -/
def cachedPoolFree (a : CachedPool) (h : Heap) (id p : Nat) : Heap :=
  cachedPoolVunitFree cacheline a h id p

structure Stock where
  units : Nat → List Nat
  ring : List (List Nat)
  taken : Multiset Nat

def Stock.all (threadNum : Nat) (k : Stock) : Multiset Nat :=
  parts threadNum k.units + (k.ring.flatten : Multiset Nat) + k.taken

/-- A pointer, of which zero is null. -/
def ptr (x : Nat) : Option Nat := if x = 0 then none else some x

theorem ptr_eq_some {x y : Nat} : ptr x = some y ↔ x = y ∧ y ≠ 0 := by
  rw [ptr, Option.ite_none_left_eq_some, Option.some.injEq]
  exact ⟨fun h => ⟨h.2, h.2 ▸ h.1⟩, fun h => ⟨h.1 ▸ h.2, h.1⟩⟩

theorem ptr_eq_none {x : Nat} : ptr x = none ↔ x = 0 := by
  rw [ptr, ite_eq_left_iff]
  exact ⟨fun h => by_contra fun hx => Option.some_ne_none x (h hx), fun hx h => absurd hx h⟩

/-- The words from address `p` on chain the entries. -/
def Chained (words : Nat → Nat) (p : Nat) (es : List Nat) : Prop :=
  Linked (fun e => ptr (words e)) (ptr p) es

theorem Chained.nil_iff {words : Nat → Nat} {p : Nat} : Chained words p [] ↔ p = 0 := ptr_eq_none

theorem Chained.cons_iff {words : Nat → Nat} {p e : Nat} {es : List Nat} :
    Chained words p (e :: es) ↔ (p = e ∧ e ≠ 0) ∧ Chained words (words e) es :=
  and_congr_left' ptr_eq_some

theorem Chained.congr {words words' : Nat → Nat} {p : Nat} {es : List Nat}
    (h : Chained words p es) (hsame : ∀ e ∈ es, words' e = words e) : Chained words' p es :=
  Linked.congr h fun e he => congrArg ptr (hsame e he)

theorem Chained.update {words : Nat → Nat} {p : Nat} {es : List Nat} (h : Chained words p es)
    {x : Nat} (hx : x ∉ es) (v : Nat) : Chained (update words x v) p es :=
  h.congr fun _ he => update_of_ne (ne_of_mem_of_not_mem he hx) _ _

/-- The places that the functions write are apart. -/
structure Apart (cacheline : Nat) (a : CachedPool) (slots : Nat) (entries : Multiset Nat) :
    Prop where
  nodup : entries.Nodup
  pos : ∀ e ∈ entries, e ≠ 0
  fits : ∀ e ∈ entries, e + sizeofPtr < 2 ^ 64
  slot : ∀ c, cachedPoolSlot cacheline a a.buf c ∉ entries
  wrap : ∀ c, cachedPoolSlot cacheline a a.buf (c % 2 ^ 64) = cachedPoolSlot cacheline a a.buf c
  inj : ∀ c i j, i < slots → j < slots →
    cachedPoolSlot cacheline a a.buf (c + i) = cachedPoolSlot cacheline a a.buf (c + j) → i = j
  few : slots < 2 ^ 64

/-- A unit with its list. From the link threshold on, `mid` splits off a whole batch. -/
structure UnitOk (a : CachedPool) (words : Nat → Nat) (u : CachedPoolVunit) (es : List Nat) :
    Prop where
  buf : u.buf = a.buf
  chain : Chained words u.top es
  cnt : u.cnt = es.length
  room : es.length < a.conf.thresholdMax
  mid : a.conf.thresholdInit < es.length →
    ∃ front back, es = front ++ u.mid :: back ∧ back.length = a.conf.thresholdInit

/-- The ring with its batches, from position `c` on. -/
structure RingOk (cacheline : Nat) (a : CachedPool) (buffer : CachedPoolBuffer)
    (words : Nat → Nat) (ring : List (List Nat)) (c : Nat) : Prop where
  chead : buffer.chead = c % 2 ^ 64
  phead : buffer.phead = (c + ring.length) % 2 ^ 64
  ptail : buffer.ptail = (c + ring.length) % 2 ^ 64
  chain : ∀ i batch, ring[i]? = some batch →
    Chained words (words (cachedPoolSlot cacheline a a.buf (c + i))) batch
  size : ∀ batch ∈ ring, batch.length = a.conf.thresholdInit

structure Stocked (cacheline threadNum : Nat) (a : CachedPool) (entries : Multiset Nat) (h : Heap)
    (k : Stock) (c : Nat) : Prop where
  all : k.all threadNum = entries
  units : ∀ id < threadNum, UnitOk a h.words (h.vunits id) (k.units id)
  ring : RingOk cacheline a h.buffer h.words k.ring c

/-- The thresholds that `cached_pool_init` computes from a batch. -/
structure Thresholds (conf : CachedPoolConfig) : Prop where
  pos : 1 ≤ conf.thresholdInit
  link : conf.thresholdLink = conf.thresholdInit + 1
  max : conf.thresholdMax = conf.thresholdInit * 2
  lt : conf.thresholdInit * 2 < 2 ^ 32

section Calls

variable {cacheline threadNum slots c id : Nat} {a : CachedPool} {entries : Multiset Nat} {h : Heap}
variable {k : Stock}

/-- An invariant of the units is kept when one of them is set. -/
theorem units_update {P : CachedPoolVunit → List Nat → Prop} {vunits : Nat → CachedPoolVunit}
    {lists : Nat → List Nat} {u : CachedPoolVunit} {es : List Nat} (hu : P u es)
    (hothers : ∀ i < threadNum, i ≠ id → P (vunits i) (lists i)) :
    ∀ i < threadNum, P (update vunits id u i) (update lists id es i) := by
  intro i hi
  rcases eq_or_ne i id with rfl | hne
  · rw [update_self, update_self]
    exact hu
  · rw [update_of_ne hne, update_of_ne hne]
    exact hothers i hi hne

/-- A list that just lost its first entry, in the unit that takes it. -/
theorem UnitOk.take {words : Nat → Nat} {p e cnt : Nat} {es : List Nat} (u : CachedPoolVunit)
    (hconf : Thresholds a.conf) (hbuf : u.buf = a.buf) (hchain : Chained words p (e :: es))
    (hcnt : cnt = es.length + 1) (hroom : es.length < a.conf.thresholdMax)
    (hmid : a.conf.thresholdInit < es.length → ∃ front back,
      es = front ++ u.mid :: back ∧ back.length = a.conf.thresholdInit) :
    UnitOk a words { u with top := words e, cnt := wsub 32 cnt 1 } es where
  buf := hbuf
  chain := (Chained.cons_iff.mp hchain).2
  cnt := by
    have hlt := hconf.lt
    rw [hconf.max] at hroom
    rw [wsub]
    dsimp only
    omega
  room := hroom
  mid := hmid

theorem UnitOk.tail {words : Nat → Nat} {u : CachedPoolVunit} {e : Nat} {es : List Nat}
    (hconf : Thresholds a.conf) (hunit : UnitOk a words u (e :: es)) :
    UnitOk a words { u with top := words e, cnt := wsub 32 u.cnt 1 } es := by
  have hroom := hunit.room
  rw [List.length_cons] at hroom
  refine UnitOk.take u hconf hunit.buf hunit.chain hunit.cnt (by omega) fun hlong => ?_
  obtain ⟨front, back, hsplit, hback⟩ := hunit.mid (by rw [List.length_cons]; omega)
  cases front with
  | nil =>
    obtain ⟨-, rfl⟩ := List.cons.inj hsplit
    omega
  | cons x front => exact ⟨front, back, (List.cons.inj hsplit).2, hback⟩

/-- A unit takes a batch of the ring and gives its first entry. -/
theorem UnitOk.refill {words : Nat → Nat} {p e : Nat} {es : List Nat} (u : CachedPoolVunit)
    (hconf : Thresholds a.conf) (hbuf : u.buf = a.buf) (hchain : Chained words p (e :: es))
    (hsize : (e :: es).length = a.conf.thresholdInit) :
    UnitOk a words { u with top := words e, cnt := wsub 32 a.conf.thresholdInit 1 } es := by
  have hpos := hconf.pos
  have hmax := hconf.max
  rw [List.length_cons] at hsize
  exact UnitOk.take u hconf hbuf hchain hsize.symm (by omega) fun hlong => by omega

theorem mem_all_unit (hid : id < threadNum) {e : Nat} (he : e ∈ k.units id) :
    e ∈ k.all threadNum :=
  Multiset.mem_add.mpr (Or.inl (Multiset.mem_add.mpr (Or.inl (mem_parts_of_mem hid he))))

theorem mem_all_ring {batch : List Nat} (hbatch : batch ∈ k.ring) {e : Nat} (he : e ∈ batch) :
    e ∈ k.all threadNum :=
  Multiset.mem_add.mpr (Or.inl (Multiset.mem_add.mpr (Or.inr
    (Multiset.mem_coe.mpr (List.mem_flatten_of_mem hbatch he)))))

theorem mem_all_taken {e : Nat} (he : e ∈ k.taken) : e ∈ k.all threadNum :=
  Multiset.mem_add.mpr (Or.inr he)

theorem cachedPoolAlloc_unit (hconf : Thresholds a.conf)
    (hk : Stocked cacheline threadNum a entries h k c) (hid : id < threadNum) {e : Nat}
    {es : List Nat} (hlist : k.units id = e :: es) :
    ∃ h', cachedPoolAlloc cacheline a h id = (cachedPoolEntryToAddr e, h') ∧
      Stocked cacheline threadNum a entries h'
        ⟨update k.units id es, k.ring, e ::ₘ k.taken⟩ c := by
  have hunit := hk.units id hid
  rw [hlist] at hunit
  obtain ⟨⟨htop, he⟩, -⟩ := Chained.cons_iff.mp hunit.chain
  have halloc : cachedPoolAlloc cacheline a h id =
      cachedPoolVunitTake h id e (h.vunits id).cnt := by
    rw [cachedPoolAlloc, cachedPoolVunitAlloc, htop, if_neg he]
  refine ⟨(cachedPoolVunitTake h id e (h.vunits id).cnt).2, halloc, ?_, ?_,
    ⟨hk.ring.chead, hk.ring.phead, hk.ring.ptail, hk.ring.chain, hk.ring.size⟩⟩
  · rw [← hk.all, Stock.all, Stock.all, ← parts_update_tail hid hlist, Multiset.add_cons,
      Multiset.cons_add, Multiset.cons_add]
  · exact units_update (P := UnitOk a h.words) (hunit.tail hconf) fun i hi _ => hk.units i hi

/-- The unit is empty, and the oldest batch of the ring serves the call. -/
theorem cachedPoolAlloc_ring (hconf : Thresholds a.conf) (hapart : Apart cacheline a slots entries)
    (hk : Stocked cacheline threadNum a entries h k c) (hid : id < threadNum)
    (hempty : k.units id = []) (hslots : k.ring.length ≤ slots) {e : Nat} {es : List Nat}
    {rest : List (List Nat)} (hring : k.ring = (e :: es) :: rest) :
    ∃ h', cachedPoolAlloc cacheline a h id = (cachedPoolEntryToAddr e, h') ∧
      Stocked cacheline threadNum a entries h'
        ⟨update k.units id es, rest, e ::ₘ k.taken⟩ (c + 1) := by
  have hunit := hk.units id hid
  rw [hempty] at hunit
  have htop : (h.vunits id).top = 0 := Chained.nil_iff.mp hunit.chain
  have hchain := hk.ring.chain 0 (e :: es) (by rw [hring]; rfl)
  rw [Nat.add_zero, ← hapart.wrap, ← hk.ring.chead] at hchain
  obtain ⟨⟨hslot, he⟩, -⟩ := Chained.cons_iff.mp hchain
  have hsome : h.buffer.chead ≠ h.buffer.ptail := by
    have hfew := hapart.few
    rw [hring, List.length_cons] at hslots
    rw [hk.ring.chead, hk.ring.ptail, hring, List.length_cons]
    omega
  let h' : Heap := { h with buffer := { h.buffer with
    chead := (h.buffer.chead + 1) % 2 ^ 64, ctail := (h.buffer.chead + 1) % 2 ^ 64 } }
  have hbatch : cachedPoolBufferAlloc cacheline a (h.vunits id).buf h = (e, h') := by
    rw [hunit.buf, cachedPoolBufferAlloc, if_neg hsome, hslot]
  have halloc : cachedPoolAlloc cacheline a h id =
      cachedPoolVunitTake h' id e a.conf.thresholdInit := by
    rw [cachedPoolAlloc, cachedPoolVunitAlloc, if_pos htop, hbatch]
    exact if_neg he
  refine ⟨(cachedPoolVunitTake h' id e a.conf.thresholdInit).2, halloc, ?_, ?_, ?_⟩
  · rw [← hk.all, Stock.all, Stock.all, parts_update_nil hid hempty, hring, List.flatten_cons,
      List.cons_append, ← Multiset.cons_coe, ← Multiset.coe_add, Multiset.add_cons,
      Multiset.add_cons, Multiset.cons_add]
    simp only [add_assoc]
  · exact units_update (P := UnitOk a h.words) (UnitOk.refill (h.vunits id) hconf hunit.buf
      hchain (hk.ring.size _ (by rw [hring]; exact List.mem_cons_self))) fun i hi _ => hk.units i hi
  · refine ⟨?_, ?_, ?_, fun i batch hi => ?_, fun batch hmem => ?_⟩
    · show (h.buffer.chead + 1) % 2 ^ 64 = (c + 1) % 2 ^ 64
      rw [hk.ring.chead, Nat.mod_add_mod]
    · show h.buffer.phead = (c + 1 + rest.length) % 2 ^ 64
      rw [hk.ring.phead, hring, List.length_cons, Nat.add_right_comm, Nat.add_assoc]
    · show h.buffer.ptail = (c + 1 + rest.length) % 2 ^ 64
      rw [hk.ring.ptail, hring, List.length_cons, Nat.add_right_comm, Nat.add_assoc]
    · have hold := hk.ring.chain (i + 1) batch (by rw [hring]; exact hi)
      rw [Nat.add_right_comm]
      exact hold
    · exact hk.ring.size batch (by rw [hring]; exact List.mem_cons_of_mem _ hmem)

theorem cachedPoolAlloc_none (hk : Stocked cacheline threadNum a entries h k c)
    (hid : id < threadNum) (hempty : k.units id = []) (hring : k.ring = []) :
    cachedPoolAlloc cacheline a h id = (0, h) := by
  have hunit := hk.units id hid
  rw [hempty] at hunit
  have htop : (h.vunits id).top = 0 := Chained.nil_iff.mp hunit.chain
  have hnone : h.buffer.chead = h.buffer.ptail := by
    rw [hk.ring.chead, hk.ring.ptail, hring, List.length_nil, Nat.add_zero]
  rw [cachedPoolAlloc, cachedPoolVunitAlloc, if_pos htop, cachedPoolBufferAlloc, if_pos hnone]
  exact if_pos rfl

theorem fromAddr_toAddr (hapart : Apart cacheline a slots entries) {e : Nat} (he : e ∈ entries) :
    cachedPoolEntryFromAddr (cachedPoolEntryToAddr e) = e := by
  have hfits := hapart.fits e he
  rw [cachedPoolEntryToAddr, Nat.mod_eq_of_lt hfits, cachedPoolEntryFromAddr, wsub]
  rw [sizeofPtr] at hfits ⊢
  omega

/-- A free entry, and the places that it is not in. -/
theorem Stocked.not_mem_of_taken (hapart : Apart cacheline a slots entries)
    (hk : Stocked cacheline threadNum a entries h k c) {e : Nat} (he : e ∈ k.taken) :
    (∀ i < threadNum, e ∉ k.units i) ∧ ∀ batch ∈ k.ring, e ∉ batch := by
  have hnodup := hapart.nodup
  rw [← hk.all, Stock.all] at hnodup
  have hapart := Multiset.disjoint_right.mp (Multiset.nodup_add.mp hnodup).2.2 he
  refine ⟨fun i hi hmem => hapart ?_, fun batch hbatch hmem => hapart ?_⟩
  · exact Multiset.mem_add.mpr (Or.inl (mem_parts_of_mem hi hmem))
  · exact Multiset.mem_add.mpr (Or.inr (Multiset.mem_coe.mpr (List.mem_flatten_of_mem hbatch hmem)))

/-- The entries of one unit, and the places that they are not in. -/
theorem Stocked.not_mem_of_unit (hapart : Apart cacheline a slots entries)
    (hk : Stocked cacheline threadNum a entries h k c) (hid : id < threadNum) {e : Nat}
    (he : e ∈ k.units id) :
    (∀ i < threadNum, i ≠ id → e ∉ k.units i) ∧ ∀ batch ∈ k.ring, e ∉ batch := by
  have hnodup := hapart.nodup
  rw [← hk.all, Stock.all] at hnodup
  obtain ⟨hunits, -, hring⟩ := Multiset.nodup_add.mp (Multiset.nodup_add.mp hnodup).1
  refine ⟨fun i hi hne => not_mem_of_mem_parts hunits hid hi hne.symm he,
    fun batch hbatch hmem => ?_⟩
  exact Multiset.disjoint_left.mp hring (mem_parts_of_mem hid he)
    (Multiset.mem_coe.mpr (List.mem_flatten_of_mem hbatch hmem))

theorem UnitOk.update {words : Nat → Nat} {u : CachedPoolVunit} {es : List Nat}
    (hunit : UnitOk a words u es) {x : Nat} (hx : x ∉ es) (v : Nat) :
    UnitOk a (update words x v) u es :=
  ⟨hunit.buf, hunit.chain.update hx v, hunit.cnt, hunit.room, hunit.mid⟩

theorem RingOk.update {buffer : CachedPoolBuffer} {words : Nat → Nat} {ring : List (List Nat)}
    (hring : RingOk cacheline a buffer words ring c) {x : Nat} (hx : ∀ batch ∈ ring, x ∉ batch)
    (hslot : ∀ c, cachedPoolSlot cacheline a a.buf c ≠ x) (v : Nat) :
    RingOk cacheline a buffer (update words x v) ring c where
  chead := hring.chead
  phead := hring.phead
  ptail := hring.ptail
  chain i batch hi := by
    rw [update_of_ne (hslot _)]
    exact (hring.chain i batch hi).update (hx batch (List.mem_of_getElem? hi)) v
  size := hring.size

theorem UnitOk.push {words : Nat → Nat} {u : CachedPoolVunit} {e : Nat} {es : List Nat}
    (hconf : Thresholds a.conf) (hunit : UnitOk a words u es) (he : e ≠ 0) (hnot : e ∉ es) :
    Chained (Function.update words e u.top) e (e :: es) ∧ wadd 32 u.cnt 1 = es.length + 1 ∧
      (a.conf.thresholdInit < es.length + 1 → ∃ front back,
        e :: es = front ++ (if wadd 32 u.cnt 1 = a.conf.thresholdLink then e else u.mid) :: back ∧
          back.length = a.conf.thresholdInit) := by
  have hcnt : wadd 32 u.cnt 1 = es.length + 1 := by
    have hroom := hunit.room
    have hlt := hconf.lt
    rw [hconf.max] at hroom
    rw [wadd, hunit.cnt, Nat.mod_eq_of_lt (by omega)]
  refine ⟨Chained.cons_iff.mpr ⟨⟨rfl, he⟩, ?_⟩, hcnt, fun hlong => ?_⟩
  · rw [update_self]
    exact hunit.chain.update hnot u.top
  · rw [hcnt, hconf.link]
    rcases Nat.eq_or_lt_of_le (Nat.le_of_lt_succ hlong) with heq | hlt
    · rw [if_pos (by rw [heq])]
      exact ⟨[], es, rfl, heq.symm⟩
    · rw [if_neg (by omega)]
      obtain ⟨front, back, hsplit, hback⟩ := hunit.mid hlt
      exact ⟨e :: front, back, by rw [hsplit]; rfl, hback⟩

/-- A batch is put in the ring, whatever else is written outside the ring. -/
theorem RingOk.extend {buffer buffer' : CachedPoolBuffer} {words words' : Nat → Nat}
    {ring : List (List Nat)} (hring : RingOk cacheline a buffer words ring c)
    (hchead : buffer'.chead = buffer.chead) (hphead : buffer'.phead = (buffer.phead + 1) % 2 ^ 64)
    (hptail : buffer'.ptail = (buffer.phead + 1) % 2 ^ 64)
    (hslots : ∀ i < ring.length, words' (cachedPoolSlot cacheline a a.buf (c + i)) =
      words (cachedPoolSlot cacheline a a.buf (c + i)))
    (hsame : ∀ batch ∈ ring, ∀ e ∈ batch, words' e = words e) {batch : List Nat}
    (hchain : Chained words' (words' (cachedPoolSlot cacheline a a.buf (c + ring.length))) batch)
    (hsize : batch.length = a.conf.thresholdInit) :
    RingOk cacheline a buffer' words' (ring ++ [batch]) c := by
  have hnext : (buffer.phead + 1) % 2 ^ 64 = (c + (ring ++ [batch]).length) % 2 ^ 64 := by
    rw [hring.phead, Nat.mod_add_mod, List.length_append, List.length_singleton, Nat.add_assoc]
  refine ⟨hchead.trans hring.chead, hphead.trans hnext, hptail.trans hnext, fun i b hi => ?_,
    fun b hb => ?_⟩
  · rcases Nat.lt_or_ge i ring.length with hlt | hge
    · rw [List.getElem?_append_left hlt] at hi
      rw [hslots i hlt]
      exact (hring.chain i b hi).congr (hsame b (List.mem_of_getElem? hi))
    · rw [List.getElem?_append_right hge, List.getElem?_singleton,
        Option.ite_none_right_eq_some] at hi
      obtain ⟨hzero, hb⟩ := hi
      obtain rfl : i = ring.length := by omega
      obtain rfl := Option.some.inj hb
      exact hchain
  · rcases List.mem_append.mp hb with hb | hb
    · exact hring.size b hb
    · rw [List.mem_singleton.mp hb]
      exact hsize

/-- What `_cached_pool_buffer_free` does to the ring. -/
theorem RingOk.push {ring : List (List Nat)}
    (hring : RingOk cacheline a h.buffer h.words ring c)
    (hapart : Apart cacheline a slots entries) (hroom : ring.length < slots)
    (hmem : ∀ batch ∈ ring, ∀ e ∈ batch, e ∈ entries) {es : Nat} {batch : List Nat}
    (hbatch : ∀ e ∈ batch, e ∈ entries) (hchain : Chained h.words es batch)
    (hsize : batch.length = a.conf.thresholdInit) :
    RingOk cacheline a (cachedPoolBufferFree cacheline a a.buf h es).buffer
      (cachedPoolBufferFree cacheline a a.buf h es).words (ring ++ [batch]) c := by
  have hslot : cachedPoolSlot cacheline a a.buf h.buffer.phead =
      cachedPoolSlot cacheline a a.buf (c + ring.length) := by
    rw [hring.phead, hapart.wrap]
  have hother (e : Nat) (he : e ∈ entries) :
      e ≠ cachedPoolSlot cacheline a a.buf (c + ring.length) :=
    fun heq => hapart.slot _ (heq ▸ he)
  rw [cachedPoolBufferFree, hslot]
  refine hring.extend ?_ ?_ ?_ (fun i hi => update_of_ne (fun heq => ?_) _ _)
    (fun b hb e he => update_of_ne (hother e (hmem b hb e he)) _ _) ?_ hsize
  · rfl
  · rfl
  · rfl
  · exact hi.ne (hapart.inj c i ring.length (hi.trans hroom) hroom heq)
  · rw [update_self]
    exact hchain.update (fun hin => hapart.slot _ (hbatch _ hin)) es

theorem cachedPoolFree_short (hconf : Thresholds a.conf) (hapart : Apart cacheline a slots entries)
    (hk : Stocked cacheline threadNum a entries h k c) (hid : id < threadNum) {e : Nat}
    (he : e ∈ k.taken) (hshort : (k.units id).length + 1 < a.conf.thresholdMax) :
    Stocked cacheline threadNum a entries
      (cachedPoolFree cacheline a h id (cachedPoolEntryToAddr e))
      ⟨update k.units id (e :: k.units id), k.ring, k.taken.erase e⟩ c := by
  have hentry : e ∈ entries := hk.all ▸ mem_all_taken he
  obtain ⟨hunits, hring⟩ := hk.not_mem_of_taken hapart he
  obtain ⟨hchain, hcnt, hmid⟩ :=
    (hk.units id hid).push hconf (hapart.pos e hentry) (hunits id hid)
  have hne : wadd 32 (h.vunits id).cnt 1 ≠ a.conf.thresholdMax := by omega
  rw [cachedPoolFree, cachedPoolVunitFree, fromAddr_toAddr hapart hentry, if_neg hne]
  refine ⟨?_, ?_, hk.ring.update hring (fun c heq => hapart.slot c (heq ▸ hentry)) _⟩
  · rw [← hk.all, Stock.all, Stock.all, parts_update_cons hid, Multiset.cons_add,
      Multiset.cons_add, ← Multiset.add_cons, Multiset.cons_erase he]
  · refine units_update (P := UnitOk a (update h.words e (h.vunits id).top))
      ⟨(hk.units id hid).buf, hchain, hcnt, hshort, hmid⟩ fun i hi _ =>
        (hk.units i hi).update (hunits i hi) _

/-- The list of the unit is full: what is behind `mid` becomes a batch of the ring. -/
theorem cachedPoolFree_split (hconf : Thresholds a.conf) (hapart : Apart cacheline a slots entries)
    (hk : Stocked cacheline threadNum a entries h k c) (hid : id < threadNum) {e : Nat}
    (he : e ∈ k.taken) (hfull : (k.units id).length + 1 = a.conf.thresholdMax)
    (hroom : k.ring.length < slots) :
    ∃ es batch, Stocked cacheline threadNum a entries
      (cachedPoolFree cacheline a h id (cachedPoolEntryToAddr e))
      ⟨update k.units id es, k.ring ++ [batch], k.taken.erase e⟩ c := by
  have hmax := hconf.max
  have hpos := hconf.pos
  have hentry : e ∈ entries := hk.all ▸ mem_all_taken he
  obtain ⟨hunits, hring⟩ := hk.not_mem_of_taken hapart he
  obtain ⟨hchain, hcnt, hmid⟩ :=
    (hk.units id hid).push hconf (hapart.pos e hentry) (hunits id hid)
  obtain ⟨front, back, hsplit, hback⟩ := hmid (by omega)
  rw [cachedPoolFree, cachedPoolVunitFree, fromAddr_toAddr hapart hentry,
    if_pos (hcnt.trans hfull), (hk.units id hid).buf]
  revert hsplit
  generalize (if wadd 32 (h.vunits id).cnt 1 = a.conf.thresholdLink then e
    else (h.vunits id).mid) = mid
  intro hsplit
  have hlength := congrArg List.length hsplit
  rw [List.length_cons, List.length_append, List.length_cons, hback] at hlength
  rw [hsplit] at hchain
  have hnodup : (front ++ mid :: back).Nodup := Linked.nodup hchain
  obtain ⟨-, hrest, hfront⟩ := List.nodup_append'.mp hnodup
  have hmidMem : mid ∈ e :: k.units id := hsplit ▸ List.mem_append_right front List.mem_cons_self
  have hmidApart : (∀ i < threadNum, i ≠ id → mid ∉ k.units i) ∧ ∀ batch ∈ k.ring, mid ∉ batch := by
    rcases List.mem_cons.mp hmidMem with rfl | hmem
    · exact ⟨fun i hi _ => hunits i hi, hring⟩
    · exact hk.not_mem_of_unit hapart hid hmem
  have hmemEntries {x : Nat} (hx : x ∈ e :: k.units id) : x ∈ entries := by
    rcases List.mem_cons.mp hx with rfl | hx
    · exact hentry
    · exact hk.all ▸ mem_all_unit hid hx
  have hslot (x : Nat) (hx : x ∈ e :: k.units id) (c : Nat) :
      cachedPoolSlot cacheline a a.buf c ≠ x :=
    fun heq => hapart.slot c (heq ▸ hmemEntries hx)
  have hcut : Chained (update (update h.words e (h.vunits id).top) mid 0) e
      (front ++ [mid]) := by
    refine Linked.cut hchain ?_ fun x hx => ?_
    · rw [update_self]
      rfl
    · have hne : x ≠ mid := fun heq => hfront (heq ▸ hx) List.mem_cons_self
      rw [update_of_ne hne]
  have hbackChain : Chained (update (update h.words e (h.vunits id).top) mid 0)
      (update h.words e (h.vunits id).top mid) back :=
    Chained.update (Linked.behind hchain) (List.nodup_cons.mp hrest).1 0
  refine ⟨front ++ [mid], back, ?_, ?_, ?_⟩
  · have hupdate := parts_update k.units hid (front ++ [mid])
    have htaken := Multiset.cons_erase he
    rw [← hk.all, Stock.all, Stock.all]
    ext x
    have hcounts := congrArg (Multiset.count x) hupdate
    have htaken := congrArg (Multiset.count x) htaken
    have hsplit := congrArg (List.count x) hsplit
    simp only [Multiset.count_add, Multiset.count_cons, Multiset.coe_count, List.count_append,
      List.count_cons, List.flatten_append, List.count_nil, List.flatten_cons, List.flatten_nil,
      beq_iff_eq, eq_comm (a := e)] at hcounts htaken hsplit ⊢
    omega
  · refine units_update (P := UnitOk a (update (update (update h.words e
      (h.vunits id).top) mid 0) (cachedPoolSlot cacheline a a.buf h.buffer.phead)
      (update h.words e (h.vunits id).top mid)))
      ⟨rfl, ?_, ?_, ?_, ?_⟩ fun i hi hne => ?_
    · have hcutSlot : cachedPoolSlot cacheline a a.buf h.buffer.phead ∉ front ++ [mid] := by
        intro hmem
        have hlist : cachedPoolSlot cacheline a a.buf h.buffer.phead ∈ e :: k.units id := by
          rw [hsplit, List.append_cons]
          exact List.mem_append_left back hmem
        exact hapart.slot _ (hmemEntries hlist)
      exact hcut.update hcutSlot _
    · rw [List.length_append, List.length_singleton]
      dsimp only
      omega
    · rw [List.length_append, List.length_singleton]
      omega
    · rw [List.length_append, List.length_singleton]
      intro hlong
      omega
    · refine (((hk.units i hi).update (hunits i hi) _).update (hmidApart.1 i hi hne) _).update ?_ _
      exact fun hmem => hapart.slot _ (hk.all ▸ mem_all_unit hi hmem)
  · refine RingOk.push (h := cachedPoolEntrySetNext _ mid 0) ((hk.ring.update hring
      (hslot e List.mem_cons_self) _).update hmidApart.2 (hslot mid hmidMem) _) hapart hroom ?_ ?_
      hbackChain hback
    · exact fun batch hbatch x hx => hk.all ▸ mem_all_ring hbatch hx
    · refine fun x hx => hmemEntries ?_
      rw [hsplit]
      exact List.mem_append_right front (List.mem_cons_of_mem mid hx)

end Calls

end Libvsync.Pool
