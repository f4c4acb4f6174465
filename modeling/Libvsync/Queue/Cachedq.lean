import Libvsync.Core.Machine
import Libvsync.Core.Ring
import Libvsync.Core.Word
import Mathlib.Data.List.Basic

/-!
The cached queue: any number of producers and consumers reserve batches of
positions with a compare-and-swap, copy their entries, and publish in the order
of the reservations. One atomic operation, or the access to one entry, is one
step. The counters are 64-bit words. The runs are those in which neither head
wraps.

`calls`, `ident`, `request`, `order`, `taken`, `written` and `fetched` are not
read by the code. Every call has a number and the count it was called with;
`order` lists for each reserved position the call that enqueues there and its
value, and `taken` the call that dequeues it. `written` and `fetched` say which
positions have been copied in and out.
-/

namespace Libvsync.Queue.Cachedq

open Libvsync.Core Function

/-- `VSIZE_MAX`. -/
def vsizeMax : Nat := 2 ^ 64 - 1

/-- A call with its arguments: the entries of `buf`, or the count. -/
inductive Call (V : Type) where
  | enqueue (buf : List V)
  | dequeue (count : Nat)

/-- Where a thread stands. The third path of `cachedq_dequeue` goes on with a
smaller count, so the count is a local variable. -/
inductive Pc (V : Type) where
  | idle
  | enqHead (buf : List V)
  | enqCached (buf : List V) (phead : Nat)
  | enqTail (buf : List V) (phead : Nat)
  | enqCas (buf : List V) (phead : Nat) (ctail : Option Nat)
  | enqCache (buf : List V) (phead ctail : Nat)
  | enqWrite (buf : List V) (phead i : Nat)
  | enqAwait (buf : List V) (phead : Nat)
  | enqPublish (buf : List V) (phead : Nat)
  | enqRet (buf : List V) (result : Nat)
  | deqHead (count : Nat)
  | deqCached (count chead : Nat)
  | deqTail (count chead : Nat)
  | deqCas (count chead cnext : Nat) (ptail : Option Nat)
  | deqCache (count chead cnext ptail : Nat)
  | deqRead (count chead cnext i : Nat) (out : List V)
  | deqAwait (count chead cnext : Nat) (out : List V)
  | deqPublish (count chead cnext : Nat) (out : List V)
  | deqRet (result : Nat) (out : List V)
  | failed
  deriving DecidableEq

structure State (Tid V : Type) where
  phead : Nat
  ptail : Nat
  ptailCached : Nat
  chead : Nat
  ctail : Nat
  ctailCached : Nat
  entry : Nat → V
  pc : Tid → Pc V
  calls : Nat
  ident : Tid → Nat
  request : Tid → Nat
  order : List (Nat × V)
  taken : List Nat
  written : Nat → Bool
  fetched : Nat → Bool

inductive Act (Tid V : Type) where
  | call (t : Tid) (call : Call V)
  | step (t : Tid)

variable {Tid V : Type} [DecidableEq Tid]

def State.goto (s : State Tid V) (t : Tid) (pc : Pc V) : State Tid V :=
  { s with pc := update s.pc t pc }

/-- The loop that copies the entries in. -/
def writeLoop (buf : List V) (phead i : Nat) : Pc V :=
  if i < buf.length then .enqWrite buf phead i else .enqAwait buf phead

/-- The loop that copies the entries out. -/
def readLoop (count chead cnext i : Nat) (out : List V) : Pc V :=
  if i < count then .deqRead count chead cnext i out else .deqAwait count chead cnext out

/-- The next step of `cachedq_enqueue` by thread `t`. -/
def enqStep (size : Nat) (s : State Tid V) (t : Tid) : Pc V → Option (State Tid V)
  | .enqHead buf => some (s.goto t (.enqCached buf s.phead))
  | .enqCached buf phead =>
    if wadd 64 phead buf.length ≤ wadd 64 s.ctailCached size then
      some (s.goto t (.enqCas buf phead none))
    else some (s.goto t (.enqTail buf phead))
  | .enqTail buf phead =>
    if wadd 64 phead buf.length ≤ wadd 64 s.ctail size then
      some (s.goto t (.enqCas buf phead (some s.ctail)))
    else some (s.goto t (.enqRet buf 0))
  | .enqCas buf phead ctail =>
    if s.phead = phead then
      let s := { s with
        phead := wadd 64 phead buf.length
        order := s.order ++ buf.map fun v => (s.ident t, v) }
      match ctail with
      | none => some (s.goto t (writeLoop buf phead 0))
      | some ctail => some (s.goto t (.enqCache buf phead ctail))
    else some (s.goto t (.enqHead buf))
  | .enqCache buf phead ctail =>
    some ({ s with ctailCached := ctail }.goto t (writeLoop buf phead 0))
  | .enqWrite buf phead i =>
    match buf[i]? with
    | none => none
    | some v =>
      some ({ s with
        entry := update s.entry (wadd 64 phead i % size) v
        written := update s.written (phead + i) true }.goto t
          (writeLoop buf phead (i + 1)))
  | .enqAwait buf phead =>
    if s.ptail = phead then some (s.goto t (.enqPublish buf phead)) else some s
  | .enqPublish buf phead =>
    some ({ s with ptail := wadd 64 phead buf.length }.goto t (.enqRet buf buf.length))
  | .enqRet _ _ => some (s.goto t .idle)
  | _ => none

/-- The next step of `cachedq_dequeue` by thread `t`. -/
def deqStep (size : Nat) (s : State Tid V) (t : Tid) : Pc V → Option (State Tid V)
  | .deqHead count => some (s.goto t (.deqCached count s.chead))
  | .deqCached count chead =>
    if wadd 64 chead count ≤ s.ptailCached then
      some (s.goto t (.deqCas count chead (wadd 64 chead count) none))
    else some (s.goto t (.deqTail count chead))
  | .deqTail count chead =>
    if wadd 64 chead count ≤ s.ptail then
      some (s.goto t (.deqCas count chead (wadd 64 chead count) (some s.ptail)))
    else if chead < s.ptail then
      -- ASSERT((cnext - chead) < VSIZE_MAX)
      if s.ptail - chead < vsizeMax then
        some (s.goto t (.deqCas (s.ptail - chead) chead s.ptail (some s.ptail)))
      else some (s.goto t .failed)
    else some (s.goto t (.deqRet 0 []))
  | .deqCas count chead cnext ptail =>
    if s.chead = chead then
      let s := { s with
        chead := cnext
        taken := s.taken ++ List.replicate (cnext - chead) (s.ident t) }
      match ptail with
      | none => some (s.goto t (readLoop count chead cnext 0 []))
      | some ptail => some (s.goto t (.deqCache count chead cnext ptail))
    else some (s.goto t (.deqHead count))
  | .deqCache count chead cnext ptail =>
    some ({ s with ptailCached := ptail }.goto t (readLoop count chead cnext 0 []))
  | .deqRead count chead cnext i out =>
    some ({ s with fetched := update s.fetched (chead + i) true }.goto t
      (readLoop count chead cnext (i + 1) (out ++ [s.entry (wadd 64 chead i % size)])))
  | .deqAwait count chead cnext out =>
    if s.ctail = chead then some (s.goto t (.deqPublish count chead cnext out)) else some s
  | .deqPublish count _ cnext out =>
    some ({ s with ctail := cnext }.goto t (.deqRet count out))
  | .deqRet _ _ => some (s.goto t .idle)
  | _ => none

/-- Whether a thread runs `cachedq_enqueue`. -/
def Pc.enqueues : Pc V → Bool
  | .enqHead _ | .enqCached _ _ | .enqTail _ _ | .enqCas _ _ _ | .enqCache _ _ _
  | .enqWrite _ _ _ | .enqAwait _ _ | .enqPublish _ _ | .enqRet _ _ => true
  | _ => false

/-- The beginning of a call; a count is a `vsize_t`. -/
def beginCall (s : State Tid V) (t : Tid) : Call V → Option (State Tid V)
  | .enqueue buf =>
    if buf.length ≤ vsizeMax then
      some ({ s with
        calls := s.calls + 1
        ident := update s.ident t s.calls
        request := update s.request t buf.length }.goto t (.enqHead buf))
    else none
  | .dequeue count =>
    if count ≤ vsizeMax then
      some ({ s with
        calls := s.calls + 1
        ident := update s.ident t s.calls
        request := update s.request t count }.goto t (.deqHead count))
    else none

def step (size : Nat) (s : State Tid V) : Act Tid V → Option (State Tid V)
  | .call t call =>
    match s.pc t with
    | .idle => beginCall s t call
    | _ => none
  | .step t =>
    if (s.pc t).enqueues then enqStep size s t (s.pc t) else deqStep size s t (s.pc t)

/-- `cachedq_init`, with whatever the buffer holds. -/
def cachedqInit (memory : Nat → V) : State Tid V where
  phead := 0
  ptail := 0
  ptailCached := 0
  chead := 0
  ctail := 0
  ctailCached := 0
  entry := memory
  pc := fun _ => .idle
  calls := 0
  ident := fun _ => 0
  request := fun _ => 0
  order := []
  taken := []
  written := fun _ => false
  fetched := fun _ => false

def machine (Tid : Type) [DecidableEq Tid] (size : Nat) (memory : Nat → V) :
    Machine (State Tid V) (Act Tid V) where
  start s := s = cachedqInit memory
  step := step size

/-- The compare-and-swap of a head that comes next does not make it wrap. -/
def noWrap (s : State Tid V) : Act Tid V → Bool
  | .step t =>
    match s.pc t with
    | .enqCas buf phead _ => phead + buf.length < 2 ^ 64
    | .deqCas count chead _ _ => chead + count < 2 ^ 64
    | _ => true
  | .call _ _ => true

/-- The positions at which call `n` enqueues are those of `buf` from `a` on. -/
structure Owns (s : State Tid V) (n a : Nat) (buf : List V) : Prop where
  only : ∀ (p : Nat) v, s.order[p]? = some (n, v) → a ≤ p ∧ p < a + buf.length
  value : ∀ (i : Nat) v, buf[i]? = some v → s.order[a + i]? = some (n, v)

/-- The positions that call `n` dequeues are those from `a` to `b`. -/
def Takes (s : State Tid V) (n a b : Nat) : Prop :=
  ∀ p : Nat, s.taken[p]? = some n ↔ a ≤ p ∧ p < b

/-- The entries from position `a` on. -/
def Slice (s : State Tid V) (a : Nat) (out : List V) : Prop :=
  ∀ (i : Nat) v, out[i]? = some v → ∃ n, s.order[a + i]? = some (n, v)

def Written (s : State Tid V) (limit : Nat) : Prop := ∀ p < limit, s.written p = true

def Fetched (s : State Tid V) (limit : Nat) : Prop := ∀ p < limit, s.fetched p = true

/-- What thread `t` knows, in call number `n` that asked for `q` entries. -/
def PcOk (size : Nat) (s : State Tid V) (n q : Nat) : Pc V → Prop
  | .idle => True
  | .enqHead buf | .enqCached buf _ | .enqTail buf _ => buf.length = q ∧ Owns s n 0 []
  | .enqCas buf phead ctail => buf.length = q ∧ Owns s n 0 [] ∧
      (phead + buf.length < 2 ^ 64 →
        ∀ p, p + size < phead + buf.length → s.fetched p = true) ∧ ∀ v ∈ ctail, Fetched s v
  | .enqCache buf phead ctail => buf.length = q ∧ Owns s n phead buf ∧
      (∀ j < buf.length, s.written (phead + j) = false) ∧ Fetched s ctail
  | .enqWrite buf phead i => buf.length = q ∧ Owns s n phead buf ∧ i < buf.length ∧
      ∀ j < buf.length, s.written (phead + j) = decide (j < i)
  | .enqAwait buf phead => buf.length = q ∧ Owns s n phead buf ∧
      ∀ j < buf.length, s.written (phead + j) = true
  | .enqPublish buf phead => buf.length = q ∧ Owns s n phead buf ∧
      Written s (phead + buf.length)
  | .enqRet buf result => buf.length = q ∧
      (result = q ∧ (∃ a, Owns s n a buf) ∨ result = 0 ∧ Owns s n 0 [])
  | .deqHead count | .deqCached count _ | .deqTail count _ => count ≤ q ∧ q ≤ vsizeMax ∧
      Takes s n 0 0
  | .deqCas count chead cnext ptail => count ≤ q ∧ q ≤ vsizeMax ∧ Takes s n 0 0 ∧
      (chead + count < 2 ^ 64 → cnext = chead + count) ∧ Written s cnext ∧
      ∀ v ∈ ptail, Written s v
  | .deqCache count chead cnext ptail => count ≤ q ∧ Takes s n chead cnext ∧
      cnext = chead + count ∧ (∀ j < count, s.fetched (chead + j) = false) ∧ Written s ptail
  | .deqRead count chead cnext i out => count ≤ q ∧ Takes s n chead cnext ∧
      cnext = chead + count ∧ i < count ∧ (∀ j < count, s.fetched (chead + j) = decide (j < i)) ∧
      out.length = i ∧ Slice s chead out
  | .deqAwait count chead cnext out => count ≤ q ∧ Takes s n chead cnext ∧
      cnext = chead + count ∧ (∀ j < count, s.fetched (chead + j) = true) ∧
      out.length = count ∧ Slice s chead out
  | .deqPublish count chead cnext out => count ≤ q ∧ Takes s n chead cnext ∧
      cnext = chead + count ∧ Fetched s cnext ∧ out.length = count ∧ Slice s chead out
  | .deqRet result out => result ≤ q ∧ out.length = result ∧
      ∃ a, Takes s n a (a + result) ∧ Slice s a out
  | .failed => False

/-- What holds of the counters, the entries and the order. -/
structure Shared (size : Nat) (s : State Tid V) : Prop where
  fits : s.phead < 2 ^ 64
  orderLength : s.order.length = s.phead
  takenLength : s.taken.length = s.chead
  writtenLt : ∀ p, s.written p = true → p < s.phead
  fetchedLt : ∀ p, s.fetched p = true → p < s.chead
  chead : Written s s.chead
  ptail : Written s s.ptail
  ptailCached : Written s s.ptailCached
  ctail : Fetched s s.ctail
  ctailCached : Fetched s s.ctailCached
  room : ∀ p, p + size < s.phead → s.fetched p = true
  content : ∀ p, s.written p = true → s.fetched p = false →
    ∃ n, s.order[p]? = some (n, s.entry (p % size))
  orderCalls : ∀ (p n : Nat) v, s.order[p]? = some (n, v) → n < s.calls
  takenCalls : ∀ p n : Nat, s.taken[p]? = some n → n < s.calls

structure Inv (size : Nat) (s : State Tid V) : Prop extends Shared size s where
  ident : ∀ t, s.pc t ≠ .idle → s.ident t < s.calls
  distinct : ∀ t u, s.pc t ≠ .idle → s.pc u ≠ .idle → s.ident t = s.ident u → t = u
  threads : ∀ t, PcOk size s (s.ident t) (s.request t) (s.pc t)

/-- A step does not touch what call `n` knows. -/
structure Keeps (s s' : State Tid V) (n : Nat) : Prop where
  order : ∀ (p : Nat) e, s.order[p]? = some e → s'.order[p]? = some e
  owned : ∀ (p : Nat) v, s'.order[p]? = some (n, v) → s.order[p]? = some (n, v)
  taken : ∀ p : Nat, s'.taken[p]? = some n ↔ s.taken[p]? = some n
  written : ∀ p, s.written p = true → s'.written p = true
  ownWritten : ∀ (p : Nat) v, s.order[p]? = some (n, v) → s'.written p = s.written p
  fetched : ∀ p, s.fetched p = true → s'.fetched p = true
  ownFetched : ∀ p : Nat, s.taken[p]? = some n → s'.fetched p = s.fetched p

section Frame

variable {s s' : State Tid V} {n : Nat} {size : Nat}

omit [DecidableEq Tid]

theorem Owns.keep (h : Keeps s s' n) {a : Nat} {buf : List V} (ho : Owns s n a buf) :
    Owns s' n a buf :=
  ⟨fun p v hp => ho.only p v (h.owned p v hp), fun i v hi => h.order _ _ (ho.value i v hi)⟩

theorem Owns.written_eq (h : Keeps s s' n) {a : Nat} {buf : List V} (ho : Owns s n a buf)
    {j : Nat} (hj : j < buf.length) : s'.written (a + j) = s.written (a + j) :=
  h.ownWritten _ _ (ho.value j buf[j] (List.getElem?_eq_getElem hj))

theorem Takes.keep (h : Keeps s s' n) {a b : Nat} (ht : Takes s n a b) : Takes s' n a b :=
  fun p => (h.taken p).trans (ht p)

theorem Takes.fetched_eq (h : Keeps s s' n) {a b j : Nat} (ht : Takes s n a b)
    (hj : a + j < b) : s'.fetched (a + j) = s.fetched (a + j) :=
  h.ownFetched _ ((ht _).mpr ⟨by omega, hj⟩)

theorem Slice.keep (h : Keeps s s' n) {a : Nat} {out : List V} (hs : Slice s a out) :
    Slice s' a out := by
  intro i v hi
  obtain ⟨m, hm⟩ := hs i v hi
  exact ⟨m, h.order _ _ hm⟩

theorem Written.keep (h : Keeps s s' n) {limit : Nat} (hw : Written s limit) :
    Written s' limit :=
  fun p hp => h.written p (hw p hp)

theorem Fetched.keep (h : Keeps s s' n) {limit : Nat} (hf : Fetched s limit) :
    Fetched s' limit :=
  fun p hp => h.fetched p (hf p hp)

/-- What a thread knows is not touched by the steps of the others. -/
theorem PcOk.keep (h : Keeps s s' n) {q : Nat} {pc : Pc V} (hok : PcOk size s n q pc) :
    PcOk size s' n q pc := by
  cases pc with
  | idle => trivial
  | enqHead buf | enqCached buf _ | enqTail buf _ => exact ⟨hok.1, hok.2.keep h⟩
  | enqCas buf phead ctail =>
    obtain ⟨hq, ho, hroom, hctail⟩ := hok
    exact ⟨hq, ho.keep h, fun hfit p hp => h.fetched p (hroom hfit p hp),
      fun v hv => (hctail v hv).keep h⟩
  | enqCache buf phead ctail =>
    obtain ⟨hq, ho, hw, hf⟩ := hok
    exact ⟨hq, ho.keep h, fun j hj => (ho.written_eq h hj).trans (hw j hj), hf.keep h⟩
  | enqWrite buf phead i =>
    obtain ⟨hq, ho, hi, hw⟩ := hok
    exact ⟨hq, ho.keep h, hi, fun j hj => (ho.written_eq h hj).trans (hw j hj)⟩
  | enqAwait buf phead =>
    obtain ⟨hq, ho, hw⟩ := hok
    exact ⟨hq, ho.keep h, fun j hj => h.written _ (hw j hj)⟩
  | enqPublish buf phead =>
    obtain ⟨hq, ho, hw⟩ := hok
    exact ⟨hq, ho.keep h, hw.keep h⟩
  | enqRet buf result =>
    obtain ⟨hq, ⟨hr, a, ho⟩ | ⟨hr, ho⟩⟩ := hok
    · exact ⟨hq, .inl ⟨hr, a, ho.keep h⟩⟩
    · exact ⟨hq, .inr ⟨hr, ho.keep h⟩⟩
  | deqHead count | deqCached count _ | deqTail count _ =>
    exact ⟨hok.1, hok.2.1, hok.2.2.keep h⟩
  | deqCas count chead cnext ptail =>
    obtain ⟨hq, hmax, ht, hn, hw, hp⟩ := hok
    exact ⟨hq, hmax, ht.keep h, hn, hw.keep h, fun v hv => (hp v hv).keep h⟩
  | deqCache count chead cnext ptail =>
    obtain ⟨hq, ht, rfl, hf, hp⟩ := hok
    exact ⟨hq, ht.keep h, rfl, fun j hj => (ht.fetched_eq h (by omega)).trans (hf j hj),
      hp.keep h⟩
  | deqRead count chead cnext i out =>
    obtain ⟨hq, ht, rfl, hi, hf, hlen, hs⟩ := hok
    exact ⟨hq, ht.keep h, rfl, hi,
      fun j hj => (ht.fetched_eq h (by omega)).trans (hf j hj), hlen, hs.keep h⟩
  | deqAwait count chead cnext out =>
    obtain ⟨hq, ht, rfl, hf, hlen, hs⟩ := hok
    exact ⟨hq, ht.keep h, rfl, fun j hj => h.fetched _ (hf j hj), hlen, hs.keep h⟩
  | deqPublish count chead cnext out =>
    obtain ⟨hq, ht, hn, hf, hlen, hs⟩ := hok
    exact ⟨hq, ht.keep h, hn, hf.keep h, hlen, hs.keep h⟩
  | deqRet result out =>
    obtain ⟨hq, hlen, a, ht, hs⟩ := hok
    exact ⟨hq, hlen, a, ht.keep h, hs.keep h⟩
  | failed => exact hok

end Frame

section Effects

variable {s : State Tid V} {t : Tid} {size : Nat} {pc : Pc V}

omit [DecidableEq Tid] in
theorem Keeps.of_eq {s' : State Tid V} (n : Nat) (horder : s'.order = s.order)
    (htaken : s'.taken = s.taken) (hwritten : s'.written = s.written)
    (hfetched : s'.fetched = s.fetched) : Keeps s s' n := by
  constructor <;> simp [horder, htaken, hwritten, hfetched]

/-- The thread that moves answers for itself; the others keep what they know. -/
theorem Inv.move (h : Inv size s) {s' : State Tid V} (hbusy : s.pc t ≠ .idle)
    (hshared : Shared size s')
    (hsame : s'.pc = s.pc ∧ s'.ident = s.ident ∧ s'.request = s.request ∧ s'.calls = s.calls)
    (hkeep : ∀ n, n ≠ s.ident t → Keeps s s' n)
    (hpc : PcOk size s' (s.ident t) (s.request t) pc) : Inv size (s'.goto t pc) := by
  obtain ⟨hpcs, hident, hrequest, hcalls⟩ := hsame
  have hsame (n : Nat) : Keeps s' (s'.goto t pc) n := .of_eq n rfl rfl rfl rfl
  have hidle (u : Tid) (hu : (s'.goto t pc).pc u ≠ .idle) : s.pc u ≠ .idle := by
    by_cases hut : u = t
    · rw [hut]
      exact hbusy
    · simpa [State.goto, hut, hpcs] using hu
  refine { toShared := { hshared with }, ident := ?_, distinct := ?_, threads := ?_ }
  · intro u hu
    have hlt := h.ident u (hidle u hu)
    simpa only [State.goto, hident, hcalls] using hlt
  · intro u w hu hw heq
    simp only [State.goto, hident] at heq
    exact h.distinct u w (hidle u hu) (hidle w hw) heq
  · intro u
    rw [show (s'.goto t pc).ident u = s.ident u from congrFun hident u,
      show (s'.goto t pc).request u = s.request u from congrFun hrequest u]
    by_cases hut : u = t
    · subst hut
      rw [show (s'.goto u pc).pc u = pc from update_self _ _ _]
      exact hpc.keep (hsame _)
    · rw [show (s'.goto t pc).pc u = s.pc u by simp [State.goto, hut, hpcs]]
      by_cases hui : s.pc u = .idle
      · rw [hui]
        trivial
      · have hne : s.ident u ≠ s.ident t := fun heq => hut (h.distinct u t hui hbusy heq)
        exact ((h.threads u).keep (hkeep _ hne)).keep (hsame _)

theorem Inv.goto (h : Inv size s) (hbusy : s.pc t ≠ .idle)
    (hpc : PcOk size s (s.ident t) (s.request t) pc) : Inv size (s.goto t pc) :=
  h.move hbusy h.toShared ⟨rfl, rfl, rfl, rfl⟩ (fun n _ => .of_eq n rfl rfl rfl rfl) hpc

omit [DecidableEq Tid] in
theorem getElem?_append_some {α : Type} {l ext : List α} {p : Nat} {a : α}
    (h : l[p]? = some a) : (l ++ ext)[p]? = some a := by
  have hlt := (List.getElem?_eq_some_iff.mp h).1
  rw [List.getElem?_append_left hlt, h]

theorem Inv.counters (h : Inv size s) (hbusy : s.pc t ≠ .idle)
    {ptail ptailCached ctail ctailCached : Nat} (hptail : Written s ptail)
    (hptailCached : Written s ptailCached) (hctail : Fetched s ctail)
    (hctailCached : Fetched s ctailCached)
    (hpc : PcOk size s (s.ident t) (s.request t) pc) :
    Inv size ({ s with
      ptail := ptail
      ptailCached := ptailCached
      ctail := ctail
      ctailCached := ctailCached }.goto t pc) := by
  have hkeep (n : Nat) : Keeps s { s with
      ptail := ptail
      ptailCached := ptailCached
      ctail := ctail
      ctailCached := ctailCached } n := .of_eq n rfl rfl rfl rfl
  refine h.move hbusy ?_ ⟨rfl, rfl, rfl, rfl⟩ (fun n _ => hkeep n) (hpc.keep (hkeep _))
  exact { h.toShared with
    ptail := hptail
    ptailCached := hptailCached
    ctail := hctail
    ctailCached := hctailCached }

theorem Inv.reserve (h : Inv size s) (hbusy : s.pc t ≠ .idle) {buf : List V}
    (hnone : Owns s (s.ident t) 0 []) (hfit : s.phead + buf.length < 2 ^ 64)
    (hroom : ∀ p, p + size < s.phead + buf.length → s.fetched p = true)
    (hpc : ∀ s' : State Tid V, Owns s' (s.ident t) s.phead buf →
      (∀ j < buf.length, s'.written (s.phead + j) = false) → s'.fetched = s.fetched →
      PcOk size s' (s.ident t) (s.request t) pc) :
    Inv size ({ s with
      phead := s.phead + buf.length
      order := s.order ++ buf.map fun v => (s.ident t, v) }.goto t pc) := by
  have hlen := h.orderLength
  have hnew (p : Nat) (e : Nat × V)
      (he : (s.order ++ buf.map fun v => (s.ident t, v))[p]? = some e) :
      s.order[p]? = some e ∨ s.phead ≤ p ∧ p < s.phead + buf.length ∧ e.1 = s.ident t := by
    rcases Nat.lt_or_ge p s.order.length with hp | hp
    · rw [List.getElem?_append_left hp] at he
      exact .inl he
    · rw [List.getElem?_append_right hp, List.getElem?_map] at he
      cases hv : buf[p - s.order.length]? with
      | none => simp [hv] at he
      | some v =>
        have := (List.getElem?_eq_some_iff.mp hv).1
        rw [hv] at he
        cases he
        exact .inr ⟨by omega, by omega, rfl⟩
  refine h.move hbusy ?_ ⟨rfl, rfl, rfl, rfl⟩ ?_ (hpc _ ⟨?_, ?_⟩ ?_ rfl)
  · exact { h.toShared with
      fits := hfit
      orderLength := by simp [hlen]
      writtenLt := fun p hp => Nat.lt_of_lt_of_le (h.writtenLt p hp) (Nat.le_add_right _ _)
      room := hroom
      content := fun p hp hf => by
        obtain ⟨n, hn⟩ := h.content p hp hf
        exact ⟨n, getElem?_append_some hn⟩
      orderCalls := fun p n v hp => by
        rcases hnew p (n, v) hp with hp | ⟨-, -, rfl⟩
        · exact h.orderCalls p n v hp
        · exact h.ident t hbusy }
  · intro n hn
    refine ⟨fun p e he => getElem?_append_some he, ?_, fun p => Iff.rfl, fun p hp => hp,
      fun p v _ => rfl, fun p hp => hp, fun p _ => rfl⟩
    intro p v hp
    rcases hnew p (n, v) hp with hp | ⟨-, -, heq⟩
    · exact hp
    · exact absurd heq hn
  · intro p v hp
    rcases hnew p _ hp with hp | ⟨h1, h2, -⟩
    · exact absurd (hnone.only p v hp).2 (by simp)
    · exact ⟨h1, h2⟩
  · intro i v hi
    rw [List.getElem?_append_right (by omega), hlen, Nat.add_sub_cancel_left, List.getElem?_map, hi]
    rfl
  · intro j hj
    rw [← Bool.not_eq_true]
    intro hw
    have := h.writtenLt _ hw
    omega

/-- A consumer reserves the next positions, which have been written. -/
theorem Inv.claim (h : Inv size s) (hbusy : s.pc t ≠ .idle) {count : Nat}
    (hnone : Takes s (s.ident t) 0 0) (hwritten : Written s (s.chead + count))
    (hpc : ∀ s' : State Tid V, Takes s' (s.ident t) s.chead (s.chead + count) →
      (∀ j < count, s'.fetched (s.chead + j) = false) → s'.written = s.written →
      PcOk size s' (s.ident t) (s.request t) pc) :
    Inv size ({ s with
      chead := s.chead + count
      taken := s.taken ++ List.replicate (s.chead + count - s.chead) (s.ident t) }.goto t pc) := by
  have hlen := h.takenLength
  have hnew (p n : Nat) :
      (s.taken ++ List.replicate (s.chead + count - s.chead) (s.ident t))[p]? = some n ↔
        s.taken[p]? = some n ∨ s.chead ≤ p ∧ p < s.chead + count ∧ n = s.ident t := by
    rcases Nat.lt_or_ge p s.taken.length with hp | hp
    · rw [List.getElem?_append_left hp]
      constructor
      · exact Or.inl
      · rintro (hn | ⟨hle, -⟩)
        · exact hn
        · omega
    · rw [List.getElem?_append_right hp, List.getElem?_replicate, List.getElem?_eq_none hp]
      split
      · rename_i hlt
        constructor
        · rintro ⟨⟩
          exact .inr ⟨by omega, by omega, rfl⟩
        · rintro (hn | ⟨-, -, rfl⟩)
          · cases hn
          · rfl
      · rename_i hge
        constructor
        · intro hn
          cases hn
        · rintro (hn | ⟨-, hlt, -⟩)
          · cases hn
          · omega
  refine h.move hbusy ?_ ⟨rfl, rfl, rfl, rfl⟩ ?_ (hpc _ ?_ ?_ rfl)
  · exact { h.toShared with
      takenLength := by simp [hlen]
      fetchedLt := fun p hp => Nat.lt_of_lt_of_le (h.fetchedLt p hp) (Nat.le_add_right _ _)
      chead := hwritten
      takenCalls := fun p n hp => by
        rcases (hnew p n).mp hp with hp | ⟨-, -, rfl⟩
        · exact h.takenCalls p n hp
        · exact h.ident t hbusy }
  · intro n hn
    refine ⟨fun p e he => he, fun p v hv => hv, fun p => ?_, fun p hp => hp, fun p v _ => rfl,
      fun p hp => hp, fun p _ => rfl⟩
    rw [hnew]
    exact or_iff_left fun hp => hn hp.2.2
  · intro p
    rw [hnew, or_iff_right fun hp => absurd ((hnone p).mp hp).2 (by simp)]
    exact ⟨fun hp => ⟨hp.1, hp.2.1⟩, fun hp => ⟨hp.1, hp.2, rfl⟩⟩
  · intro j hj
    rw [← Bool.not_eq_true]
    intro hf
    have := h.fetchedLt _ hf
    omega

theorem Inv.write (h : Inv size s) (hbusy : s.pc t ≠ .idle) {q : Nat} {v : V}
    (hown : s.order[q]? = some (s.ident t, v)) (hnew : s.written q = false)
    (hpc : ∀ s' : State Tid V, s'.order = s.order →
      s'.written = update s.written q true → s'.fetched = s.fetched →
      PcOk size s' (s.ident t) (s.request t) pc) :
    Inv size ({ s with
      entry := update s.entry (q % size) v
      written := update s.written q true }.goto t pc) := by
  have hq : q < s.phead := by
    rw [← h.orderLength]
    exact (List.getElem?_eq_some_iff.mp hown).1
  have hmono (p : Nat) (hp : s.written p = true) : update s.written q true p = true := by
    by_cases hpq : p = q
    · rw [hpq, update_self]
    · rw [update_of_ne hpq, hp]
  refine h.move hbusy ?_ ⟨rfl, rfl, rfl, rfl⟩ ?_ (hpc _ rfl rfl rfl)
  · exact { h.toShared with
      writtenLt := fun p hp => by
        by_cases hpq : p = q
        · rw [hpq]
          exact hq
        · exact h.writtenLt p (by simpa [hpq] using hp)
      chead := fun p hp => hmono p (h.chead p hp)
      ptail := fun p hp => hmono p (h.ptail p hp)
      ptailCached := fun p hp => hmono p (h.ptailCached p hp)
      content := fun p hp hf => by
        dsimp only at hp hf ⊢
        by_cases hpq : p = q
        · subst hpq
          exact ⟨s.ident t, by rw [update_self]; exact hown⟩
        · rw [update_of_ne hpq] at hp
          rw [update_of_ne]
          · exact h.content p hp hf
          · -- an entry that is still needed is less than a lap away
            intro hslot
            rcases Nat.lt_or_gt_of_ne hpq with hlt | hgt
            · have hlap := lap_apart hlt hslot
              rw [h.room p (by omega)] at hf
              cases hf
            · have hlap := lap_apart hgt hslot.symm
              have hfq := h.room q (by have := h.writtenLt p hp; omega)
              rw [h.chead q (h.fetchedLt q hfq)] at hnew
              cases hnew }
  · intro n hn
    refine ⟨fun p e he => he, fun p v hv => hv, fun p => Iff.rfl, hmono, ?_,
      fun p hp => hp, fun p _ => rfl⟩
    intro p w hp
    dsimp only
    rw [update_of_ne]
    rintro rfl
    rw [hown] at hp
    cases hp
    exact hn rfl

theorem Inv.fetch (h : Inv size s) (hbusy : s.pc t ≠ .idle) {q : Nat}
    (hown : s.taken[q]? = some (s.ident t))
    (hpc : ∀ s' : State Tid V, s'.order = s.order → s'.taken = s.taken →
      s'.fetched = update s.fetched q true →
      PcOk size s' (s.ident t) (s.request t) pc) :
    Inv size ({ s with fetched := update s.fetched q true }.goto t pc) := by
  have hq : q < s.chead := by
    rw [← h.takenLength]
    exact (List.getElem?_eq_some_iff.mp hown).1
  have hmono (p : Nat) (hp : s.fetched p = true) : update s.fetched q true p = true := by
    by_cases hpq : p = q
    · rw [hpq, update_self]
    · rw [update_of_ne hpq, hp]
  refine h.move hbusy ?_ ⟨rfl, rfl, rfl, rfl⟩ ?_ (hpc _ rfl rfl rfl)
  · exact { h.toShared with
      fetchedLt := fun p hp => by
        by_cases hpq : p = q
        · rw [hpq]
          exact hq
        · exact h.fetchedLt p (by simpa [hpq] using hp)
      ctail := fun p hp => hmono p (h.ctail p hp)
      ctailCached := fun p hp => hmono p (h.ctailCached p hp)
      room := fun p hp => hmono p (h.room p hp)
      content := fun p hp hf => by
        apply h.content p hp
        by_cases hpq : p = q
        · simp [hpq] at hf
        · simpa [hpq] using hf }
  · intro n hn
    refine ⟨fun p e he => he, fun p v hv => hv, fun p => Iff.rfl, fun p hp => hp,
      fun p v _ => rfl, hmono, ?_⟩
    intro p hp
    dsimp only
    rw [update_of_ne]
    rintro rfl
    rw [hown] at hp
    cases hp
    exact hn rfl

end Effects

section Steps

variable {s s' : State Tid V} {t : Tid} {size : Nat}

section

omit [DecidableEq Tid]

theorem writeLoop_ok {buf : List V} {phead i n q : Nat} (hq : buf.length = q)
    (hown : Owns s n phead buf) (hi : i ≤ buf.length)
    (hw : ∀ j < buf.length, s.written (phead + j) = decide (j < i)) :
    PcOk size s n q (writeLoop buf phead i) := by
  unfold writeLoop
  split
  · rename_i hlt
    exact ⟨hq, hown, hlt, hw⟩
  · rename_i hge
    refine ⟨hq, hown, fun j hj => ?_⟩
    rw [hw j hj, decide_eq_true_iff]
    omega

theorem readLoop_ok {count chead cnext i n q : Nat} {out : List V} (hq : count ≤ q)
    (ht : Takes s n chead cnext) (hn : cnext = chead + count) (hi : i ≤ count)
    (hf : ∀ j < count, s.fetched (chead + j) = decide (j < i)) (hlen : out.length = i)
    (hs : Slice s chead out) : PcOk size s n q (readLoop count chead cnext i out) := by
  unfold readLoop
  split
  · rename_i hlt
    exact ⟨hq, ht, hn, hlt, hf, hlen, hs⟩
  · rename_i hge
    refine ⟨hq, ht, hn, fun j hj => ?_, by omega, hs⟩
    rw [hf j hj, decide_eq_true_iff]
    omega

/-- What has been written is below `phead`, and so are the positions of a call. -/
theorem Inv.written_le (h : Inv size s) {limit : Nat} (hw : Written s limit) :
    limit ≤ s.phead := by
  by_contra hlt
  exact absurd (h.writtenLt s.phead (hw s.phead (by omega))) (lt_irrefl _)

theorem Inv.owned_eq (h : Inv size s) {p n i : Nat} {v : V} (ho : s.order[p + i]? = some (n, v)) :
    wadd 64 p i = p + i := by
  have hlt := (List.getElem?_eq_some_iff.mp ho).1
  have hfits := h.fits
  rw [h.orderLength] at hlt
  exact wadd_of_lt (by omega)

theorem Inv.taken_eq (h : Inv size s) {p n i : Nat} (ht : s.taken[p + i]? = some n) :
    wadd 64 p i = p + i := by
  have hlt := (List.getElem?_eq_some_iff.mp ht).1
  have hfits := h.fits
  have hle := h.written_le h.chead
  rw [h.takenLength] at hlt
  exact wadd_of_lt (by omega)

end

theorem enqStep_inv (h : Inv size s) (hwrap : noWrap s (.step t) = true)
    (hstep : enqStep size s t (s.pc t) = some s') : Inv size s' := by
  have hok := h.threads t
  have hbusy : s.pc t ≠ .idle := by
    intro hidle
    simp [hidle, enqStep] at hstep
  cases hpc : s.pc t with
  | enqHead buf =>
    rw [hpc] at hok hstep
    cases hstep
    exact h.goto hbusy hok
  | enqCached buf phead =>
    rw [hpc] at hok hstep
    simp only [enqStep] at hstep
    split at hstep <;> cases hstep
    · rename_i hle
      apply h.goto hbusy
      refine ⟨hok.1, hok.2, ?_, by simp⟩
      intro hfit p hp
      have hlimit : wadd 64 s.ctailCached size ≤ s.ctailCached + size := Nat.mod_le ..
      rw [wadd_of_lt hfit] at hle
      exact h.ctailCached p (by omega)
    · exact h.goto hbusy hok
  | enqTail buf phead =>
    rw [hpc] at hok hstep
    simp only [enqStep] at hstep
    split at hstep <;> cases hstep
    · rename_i hle
      apply h.goto hbusy
      refine ⟨hok.1, hok.2, ?_, ?_⟩
      · intro hfit p hp
        have hlimit : wadd 64 s.ctail size ≤ s.ctail + size := Nat.mod_le ..
        rw [wadd_of_lt hfit] at hle
        exact h.ctail p (by omega)
      · rintro v ⟨⟩
        exact h.ctail
    · exact h.goto hbusy ⟨hok.1, .inr ⟨rfl, hok.2⟩⟩
  | enqCas buf phead ctail =>
    rw [hpc] at hok hstep
    obtain ⟨hq, hnone, hroom, hctail⟩ := hok
    have hfit : phead + buf.length < 2 ^ 64 := by
      simpa only [noWrap, hpc, decide_eq_true_iff] using hwrap
    simp only [enqStep, wadd_of_lt hfit] at hstep
    split at hstep
    · rename_i hhead
      subst hhead
      cases ctail with
      | none =>
        cases hstep
        apply h.reserve hbusy hnone hfit (hroom hfit)
        intro s' hown hw _
        exact writeLoop_ok hq hown (by omega) fun j hj => by simp [hw j hj]
      | some v =>
        cases hstep
        apply h.reserve hbusy hnone hfit (hroom hfit)
        intro s' hown hw hf
        refine ⟨hq, hown, hw, ?_⟩
        intro p hp
        rw [hf]
        exact hctail v rfl p hp
    · cases hstep
      exact h.goto hbusy ⟨hq, hnone⟩
  | enqCache buf phead ctail =>
    rw [hpc] at hok hstep
    obtain ⟨hq, hown, hw, hf⟩ := hok
    cases hstep
    apply h.counters hbusy h.ptail h.ptailCached h.ctail hf
    exact writeLoop_ok hq hown (by omega) fun j hj => by simp [hw j hj]
  | enqWrite buf phead i =>
    rw [hpc] at hok hstep
    obtain ⟨hq, hown, hi, hw⟩ := hok
    have hmem := hown.value i _ (List.getElem?_eq_getElem hi)
    simp only [enqStep, List.getElem?_eq_getElem hi, h.owned_eq hmem] at hstep
    cases hstep
    apply h.write hbusy hmem (by simp [hw i hi])
    intro s' horder hwritten _
    refine writeLoop_ok hq ⟨by rw [horder]; exact hown.only, by rw [horder]; exact hown.value⟩
      (by omega) fun j hj => ?_
    rw [hwritten]
    by_cases hji : j = i
    · subst hji
      simp
    · rw [update_of_ne (by omega), hw j hj, decide_eq_decide]
      omega
  | enqAwait buf phead =>
    rw [hpc] at hok hstep
    obtain ⟨hq, hown, hw⟩ := hok
    simp only [enqStep] at hstep
    split at hstep <;> cases hstep
    · rename_i htail
      apply h.goto hbusy
      refine ⟨hq, hown, ?_⟩
      intro p hp
      rcases Nat.lt_or_ge p phead with hlt | hge
      · exact h.ptail p (by omega)
      · have := hw (p - phead) (by omega)
        rwa [Nat.add_sub_cancel' hge] at this
    · exact h
  | enqPublish buf phead =>
    rw [hpc] at hok hstep
    obtain ⟨hq, hown, hw⟩ := hok
    simp only [enqStep, wadd_of_lt (Nat.lt_of_le_of_lt (h.written_le hw) h.fits)] at hstep
    cases hstep
    exact h.counters hbusy hw h.ptailCached h.ctail h.ctailCached
      ⟨hq, .inl ⟨hq, phead, hown⟩⟩
  | enqRet buf result =>
    rw [hpc] at hstep
    cases hstep
    exact h.goto hbusy trivial
  | _ =>
    rw [hpc] at hstep
    cases hstep

theorem deqStep_inv (h : Inv size s) (hwrap : noWrap s (.step t) = true)
    (hstep : deqStep size s t (s.pc t) = some s') : Inv size s' := by
  have hok := h.threads t
  have hbusy : s.pc t ≠ .idle := by
    intro hidle
    simp [hidle, deqStep] at hstep
  cases hpc : s.pc t with
  | deqHead count =>
    rw [hpc] at hok hstep
    cases hstep
    exact h.goto hbusy hok
  | deqCached count chead =>
    rw [hpc] at hok hstep
    obtain ⟨hq, hmax, hnone⟩ := hok
    simp only [deqStep] at hstep
    split at hstep <;> cases hstep
    · rename_i hle
      apply h.goto hbusy
      refine ⟨hq, hmax, hnone, wadd_of_lt, ?_, by simp⟩
      intro p hp
      exact h.ptailCached p (by omega)
    · exact h.goto hbusy ⟨hq, hmax, hnone⟩
  | deqTail count chead =>
    rw [hpc] at hok hstep
    obtain ⟨hq, hmax, hnone⟩ := hok
    have htail : ∀ v ∈ some s.ptail, Written s v := by
      rintro v ⟨⟩
      exact h.ptail
    simp only [deqStep] at hstep
    split at hstep
    · rename_i hle
      cases hstep
      apply h.goto hbusy
      refine ⟨hq, hmax, hnone, wadd_of_lt, ?_, htail⟩
      intro p hp
      exact h.ptail p (by omega)
    · rename_i hgt
      split at hstep
      · rename_i hsome
        -- the assertion holds: the shorter count is below the one asked for
        have hshort : s.ptail - chead < count := by
          have hptail := h.written_le h.ptail
          have hfits := h.fits
          rw [wadd] at hgt
          rw [vsizeMax] at hmax
          omega
        rw [if_pos (by omega)] at hstep
        cases hstep
        exact h.goto hbusy ⟨by omega, hmax, hnone, fun _ => by omega, h.ptail, htail⟩
      · cases hstep
        exact h.goto hbusy ⟨by omega, rfl, 0, hnone, by simp [Slice]⟩
  | deqCas count chead cnext ptail =>
    rw [hpc] at hok hstep
    have hfit : chead + count < 2 ^ 64 := by
      simpa only [noWrap, hpc, decide_eq_true_iff] using hwrap
    obtain ⟨hq, hmax, hnone, hsum, hw, hptail⟩ := hok
    obtain rfl := hsum hfit
    simp only [deqStep] at hstep
    split at hstep
    · rename_i hhead
      subst hhead
      cases ptail with
      | none =>
        cases hstep
        apply h.claim hbusy hnone hw
        intro s' ht hf _
        exact readLoop_ok hq ht rfl (by omega) (fun j hj => by simp [hf j hj]) rfl
          (by simp [Slice])
      | some v =>
        cases hstep
        apply h.claim hbusy hnone hw
        intro s' ht hf hwritten
        refine ⟨hq, ht, rfl, hf, ?_⟩
        intro p hp
        rw [hwritten]
        exact hptail v rfl p hp
    · cases hstep
      exact h.goto hbusy ⟨hq, hmax, hnone⟩
  | deqCache count chead cnext ptail =>
    rw [hpc] at hok hstep
    obtain ⟨hq, ht, hn, hf, hw⟩ := hok
    cases hstep
    apply h.counters hbusy h.ptail hw h.ctail h.ctailCached
    exact readLoop_ok hq ht hn (by omega) (fun j hj => by simp [hf j hj]) rfl (by simp [Slice])
  | deqRead count chead cnext i out =>
    rw [hpc] at hok hstep
    obtain ⟨hq, ht, rfl, hi, hf, hlen, hs⟩ := hok
    have hown : s.taken[chead + i]? = some (s.ident t) := (ht _).mpr ⟨by omega, by omega⟩
    simp only [deqStep, h.taken_eq hown] at hstep
    cases hstep
    have hlt : chead + i < s.chead := by
      rw [← h.takenLength]
      exact (List.getElem?_eq_some_iff.mp hown).1
    obtain ⟨n, hn⟩ := h.content (chead + i) (h.chead _ hlt) (by simp [hf i hi])
    apply h.fetch hbusy hown
    intro s' horder htaken hfetched
    refine readLoop_ok hq ?_ rfl (by omega) ?_ (by simp [hlen]) ?_
    · intro p
      rw [htaken]
      exact ht p
    · intro j hj
      rw [hfetched]
      by_cases hji : j = i
      · subst hji
        simp
      · rw [update_of_ne (by omega), hf j hj, decide_eq_decide]
        omega
    · intro j v hj
      rw [horder]
      rcases Nat.lt_or_ge j out.length with hlt | hge
      · rw [List.getElem?_append_left hlt] at hj
        exact hs j v hj
      · rw [List.getElem?_append_right hge, List.getElem?_singleton] at hj
        split at hj
        · obtain rfl : j = i := by omega
          cases hj
          exact ⟨n, hn⟩
        · cases hj
  | deqAwait count chead cnext out =>
    rw [hpc] at hok hstep
    obtain ⟨hq, ht, rfl, hf, hlen, hs⟩ := hok
    simp only [deqStep] at hstep
    split at hstep <;> cases hstep
    · rename_i htail
      apply h.goto hbusy
      refine ⟨hq, ht, rfl, ?_, hlen, hs⟩
      intro p hp
      rcases Nat.lt_or_ge p chead with hlt | hge
      · exact h.ctail p (by omega)
      · have := hf (p - chead) (by omega)
        rwa [Nat.add_sub_cancel' hge] at this
    · exact h
  | deqPublish count chead cnext out =>
    rw [hpc] at hok hstep
    obtain ⟨hq, ht, rfl, hf, hlen, hs⟩ := hok
    cases hstep
    exact h.counters hbusy h.ptail h.ptailCached hf h.ctailCached
      ⟨hq, hlen, chead, ht, hs⟩
  | deqRet result out =>
    rw [hpc] at hstep
    cases hstep
    exact h.goto hbusy trivial
  | _ =>
    rw [hpc] at hstep
    cases hstep

theorem Inv.begin (h : Inv size s) (hidle : s.pc t = .idle) {q : Nat} {pc : Pc V}
    (hpc : ∀ s' : State Tid V, s'.order = s.order → s'.taken = s.taken →
      PcOk size s' s.calls q pc) :
    Inv size ({ s with
      calls := s.calls + 1
      ident := update s.ident t s.calls
      request := update s.request t q }.goto t pc) := by
  have hother (u : Tid) (hut : u ≠ t) (hu : update s.pc t pc u ≠ .idle) :
      s.pc u ≠ .idle := by
    rwa [update_of_ne hut] at hu
  refine {
    toShared := { h.toShared with
      orderCalls := fun p n v hp => Nat.lt_succ_of_lt (h.orderCalls p n v hp)
      takenCalls := fun p n hp => Nat.lt_succ_of_lt (h.takenCalls p n hp) }
    ident := ?_
    distinct := ?_
    threads := ?_ }
  · intro u hu
    simp only [State.goto] at hu ⊢
    by_cases hut : u = t
    · rw [hut, update_self]
      exact Nat.lt_succ_self _
    · rw [update_of_ne hut]
      exact Nat.lt_succ_of_lt (h.ident u (hother u hut hu))
  · intro u w hu hw heq
    simp only [State.goto] at hu hw heq
    by_cases hut : u = t <;> by_cases hwt : w = t
    · rw [hut, hwt]
    · rw [hut, update_self, update_of_ne hwt] at heq
      have := h.ident w (hother w hwt hw)
      omega
    · rw [hwt, update_self, update_of_ne hut] at heq
      have := h.ident u (hother u hut hu)
      omega
    · rw [update_of_ne hut, update_of_ne hwt] at heq
      exact h.distinct u w (hother u hut hu) (hother w hwt hw) heq
  · intro u
    simp only [State.goto]
    by_cases hut : u = t
    · subst hut
      simp only [update_self]
      exact hpc _ rfl rfl
    · simp only [update_of_ne hut]
      apply (h.threads u).keep
      exact .of_eq _ rfl rfl rfl rfl

theorem beginCall_inv (h : Inv size s) (hidle : s.pc t = .idle) {call : Call V}
    (hstep : beginCall s t call = some s') : Inv size s' := by
  cases call with
  | enqueue buf =>
    simp only [beginCall] at hstep
    split at hstep <;> cases hstep
    apply h.begin hidle
    intro s' horder _
    refine ⟨rfl, ?_, by simp⟩
    intro p v hp
    rw [horder] at hp
    exact absurd (h.orderCalls p _ v hp) (lt_irrefl _)
  | dequeue count =>
    simp only [beginCall] at hstep
    split at hstep <;> cases hstep
    rename_i hmax
    apply h.begin hidle
    intro s' _ htaken
    refine ⟨le_refl _, hmax, ?_⟩
    intro p
    rw [htaken]
    constructor
    · intro hp
      exact absurd (h.takenCalls p _ hp) (lt_irrefl _)
    · omega

theorem step_inv (h : Inv size s) {a : Act Tid V} (hwrap : noWrap s a = true)
    (hstep : step size s a = some s') : Inv size s' := by
  cases a with
  | call t call =>
    simp only [step] at hstep
    split at hstep
    · rename_i hidle
      exact beginCall_inv h hidle hstep
    · cases hstep
  | step t =>
    simp only [step] at hstep
    split at hstep
    · exact enqStep_inv h hwrap hstep
    · exact deqStep_inv h hwrap hstep

section

omit [DecidableEq Tid]

theorem cachedqInit_inv (memory : Nat → V) :
    Inv size (cachedqInit memory : State Tid V) := by
  refine { toShared := ?_, ident := ?_, distinct := ?_, threads := fun t => trivial }
  · constructor <;> simp [cachedqInit, Written, Fetched]
  · intro t ht
    exact absurd rfl ht
  · intro t u ht
    exact absurd rfl ht

/-- The order of the entries and the record of who took them only grow. -/
def Grows (s s' : State Tid V) : Prop := s.order <+: s'.order ∧ s.taken <+: s'.taken

theorem Grows.refl (s : State Tid V) : Grows s s := ⟨List.prefix_rfl, List.prefix_rfl⟩

end

theorem enqStep_grows {pc : Pc V} (hstep : enqStep size s t pc = some s') : Grows s s' := by
  cases pc with
  | enqCas buf phead ctail =>
    simp only [enqStep] at hstep
    split at hstep
    · cases ctail <;> cases hstep <;> exact ⟨List.prefix_append _ _, List.prefix_rfl⟩
    · cases hstep
      exact .refl s
  | _ =>
    simp only [enqStep] at hstep
    repeat' split at hstep
    all_goals
      cases hstep
      try exact .refl s

theorem deqStep_grows {pc : Pc V} (hstep : deqStep size s t pc = some s') : Grows s s' := by
  cases pc with
  | deqCas count chead cnext ptail =>
    simp only [deqStep] at hstep
    split at hstep
    · cases ptail <;> cases hstep <;> exact ⟨List.prefix_rfl, List.prefix_append _ _⟩
    · cases hstep
      exact .refl s
  | _ =>
    simp only [deqStep] at hstep
    repeat' split at hstep
    all_goals
      cases hstep
      try exact .refl s

theorem step_grows {a : Act Tid V} (hstep : step size s a = some s') : Grows s s' := by
  cases a with
  | call t call =>
    simp only [step] at hstep
    split at hstep
    · cases call <;> simp only [beginCall] at hstep <;> split at hstep <;> cases hstep <;>
        exact .refl s
    · cases hstep
  | step t =>
    simp only [step] at hstep
    split at hstep
    · exact enqStep_grows hstep
    · exact deqStep_grows hstep

end Steps

/-- What the queue promises. The positions that call `s.ident t` enqueues at or
dequeues are one block of the global order. -/
structure Correct (size : Nat) (s : State Tid V) : Prop where
  positions : s.order.length = s.phead ∧ s.taken.length = s.chead ∧ s.chead ≤ s.phead
  enqueues : ∀ t buf result, s.pc t = .enqRet buf result →
    result = buf.length ∧ (∃ a, Owns s (s.ident t) a buf) ∨
      result = 0 ∧ Owns s (s.ident t) 0 []
  dequeues : ∀ t result out, s.pc t = .deqRet result out →
    result ≤ s.request t ∧ out.length = result ∧
      ∃ a, Takes s (s.ident t) a (a + result) ∧ Slice s a out
  overwrites : ∀ t buf phead i, s.pc t = .enqWrite buf phead i →
    ∀ p < phead + i, p % size = wadd 64 phead i % size → s.fetched p = true
  reads : ∀ t count chead cnext i out, s.pc t = .deqRead count chead cnext i out →
    s.written (chead + i) = true ∧
      ∃ n, s.order[chead + i]? = some (n, s.entry (wadd 64 chead i % size))
  asserts : ∀ t, s.pc t ≠ .failed

omit [DecidableEq Tid] in
theorem Inv.correct {size : Nat} {s : State Tid V} (h : Inv size s) : Correct size s where
  positions := by
    exact ⟨h.orderLength, h.takenLength, h.written_le h.chead⟩
  enqueues := by
    intro t buf result hpc
    have hok := h.threads t
    rw [hpc] at hok
    obtain ⟨hq, ⟨hr, ho⟩ | hr⟩ := hok
    · exact .inl ⟨hr.trans hq.symm, ho⟩
    · exact .inr hr
  dequeues := by
    intro t result out hpc
    have hok := h.threads t
    rwa [hpc] at hok
  overwrites := by
    intro t buf phead i hpc p hlt hslot
    have hok := h.threads t
    rw [hpc] at hok
    obtain ⟨-, hown, hi, -⟩ := hok
    have hmem := hown.value i buf[i] (List.getElem?_eq_getElem hi)
    have hlen := (List.getElem?_eq_some_iff.mp hmem).1
    rw [h.owned_eq hmem] at hslot
    have hlap := lap_apart hlt hslot
    rw [h.orderLength] at hlen
    exact h.room p (by omega)
  reads := by
    intro t count chead cnext i out hpc
    have hok := h.threads t
    rw [hpc] at hok
    obtain ⟨-, ht, rfl, hi, hf, -⟩ := hok
    have hmem := (ht (chead + i)).mpr ⟨by omega, by omega⟩
    have hlen := (List.getElem?_eq_some_iff.mp hmem).1
    rw [h.takenLength] at hlen
    have hw := h.chead _ hlen
    rw [h.taken_eq hmem]
    exact ⟨hw, h.content _ hw (by simp [hf i hi])⟩
  asserts := by
    intro t hpc
    have hok := h.threads t
    rwa [hpc] at hok

/-- Every interleaving of enqueues and dequeues keeps one global order of the
entries: batches are consecutive in it, every position is dequeued by at most
one call and none is left out, and slots are neither overwritten nor read too
early. -/
theorem cachedq_global_order (Tid : Type) [DecidableEq Tid] (size : Nat)
    (memory : Nat → V) {past : List (State Tid V × Act Tid V)} {s : State Tid V}
    (run : (machine Tid size memory).Run past s)
    (hcounters : AllSteps (fun s a => noWrap s a = true) past) :
    Correct size s ∧ ∀ earlier ∈ past, Grows earlier.1 s := by
  constructor
  · apply Inv.correct
    apply run.invariant_if _ _ hcounters
    · rintro s rfl
      exact cachedqInit_inv memory
    · intro s a s' h hwrap hstep
      exact step_inv h hwrap hstep
  · clear hcounters
    induction run with
    | start => simp
    | step prior hstep ih =>
      have hgrows := step_grows hstep
      intro earlier hmem
      rcases List.mem_cons.mp hmem with rfl | hmem
      · exact hgrows
      · have hbefore := ih earlier hmem
        exact ⟨hbefore.1.trans hgrows.1, hbefore.2.trans hgrows.2⟩

/-- One thread enqueues 7 and 8, and another asks for three entries. -/
def enqueueTwo : List (Act Bool Nat) :=
  .call false (.enqueue [7, 8]) :: List.replicate 7 (.step false) ++
    .call true (.dequeue 3) :: List.replicate 9 (.step true)

theorem cachedq_global_order_two :
    ∃ past s, (machine Bool 2 fun _ => 0).Run past s ∧ s.pc false = .enqRet [7, 8] 2 ∧
      s.pc true = .deqRet 2 [7, 8] ∧ Correct 2 s ∧ ∀ earlier ∈ past, Grows earlier.1 s := by
  have hexec : (((machine Bool 2 fun _ => 0).guarded noWrap).exec (cachedqInit fun _ => 0)
      enqueueTwo).map (fun s => (s.pc false, s.pc true)) =
        some (.enqRet [7, 8] 2, .deqRet 2 [7, 8]) := by
    decide +kernel
  obtain ⟨s, hs, hpcs⟩ := Option.map_eq_some_iff.mp hexec
  obtain ⟨hrun, hcounters⟩ := ((Machine.Run.start rfl).exec hs).of_guarded
  have hcorrect := cachedq_global_order Bool 2 (fun _ => 0) hrun hcounters
  rw [Prod.mk.injEq] at hpcs
  exact ⟨_, s, hrun, hpcs.1, hpcs.2, hcorrect⟩

end Libvsync.Queue.Cachedq
