import Libvsync.Core.Locked
import Libvsync.Core.Ring
import Libvsync.Queue.Bounded
import Libvsync.Spinlock.Caslock

/-!
`bounded_locked` with many callers. An enqueue and a dequeue try to take the
lock once and give up when they do not get it; the test for emptiness waits for
it. The words `head` and `tail` and the slots of the buffer are plain memory,
read and written one at a time. A failed assertion is a call that stops.

`stored` is not read by the code: it is the values that are in the queue.
-/

namespace Libvsync.Queue.BoundedLocked

open Libvsync.Core
open Libvsync.Queue.Bounded (BoundedRet Counts Holds)

structure Mem where
  buf : Nat → Nat
  head : Nat
  tail : Nat
  stored : List Nat

inductive Call where
  | enq (v : Nat)
  | deq
  | empty
  deriving DecidableEq

/-- The status and what is written through the output parameter, or the answer of
the test. -/
inductive Result where
  | status (ret : BoundedRet) (v : Option Nat)
  | answer (empty : Bool)
  deriving DecidableEq

/-- The next operation of a call that has the lock. -/
inductive Loc where
  | enqAssert
  | enqFull
  | enqTail
  | enqSlot (i : Nat)
  | deqAssert
  | deqEmpty
  | deqHead
  | deqSlot (i : Nat)
  | emptyAssert
  | emptyTest
  deriving DecidableEq

def Call.enter : Call → Loc
  | .enq _ => .enqAssert
  | .deq => .deqAssert
  | .empty => .emptyAssert

/-- The queue of size `n` between acquire and release of its lock. -/
def bodyStep (n : Nat) (call : Call) (loc : Loc) (m : Mem) (_ : Unit) :
    Option (Mem × (Loc ⊕ Result)) :=
  match loc with
  | .enqAssert => if wsub 32 m.tail m.head ≤ n then some (m, .inl .enqFull) else none
  | .enqFull =>
    if wsub 32 m.tail m.head = n then some (m, .inr (.status .full none))
    else some (m, .inl .enqTail)
  | .enqTail => some ({ m with tail := wadd 32 m.tail 1 }, .inl (.enqSlot (m.tail % n)))
  | .enqSlot i =>
    match call with
    | .enq v => some ({ m with buf := Function.update m.buf i v, stored := m.stored ++ [v] },
        .inr (.status .ok none))
    | .deq | .empty => none
  | .deqAssert => if m.head ≤ m.tail then some (m, .inl .deqEmpty) else none
  | .deqEmpty =>
    if wsub 32 m.tail m.head = 0 then some (m, .inr (.status .empty none))
    else some (m, .inl .deqHead)
  | .deqHead => some ({ m with head := wadd 32 m.head 1 }, .inl (.deqSlot (m.head % n)))
  | .deqSlot i => some ({ m with stored := m.stored.tail }, .inr (.status .ok (some (m.buf i))))
  | .emptyAssert => if m.head ≤ m.tail then some (m, .inl .emptyTest) else none
  | .emptyTest => some (m, .inr (.answer (m.tail = m.head)))

/-- `bounded_locked_enq` and `bounded_locked_deq` use `caslock_tryacquire`,
`bounded_locked_empty` uses `caslock_acquire`. -/
def Call.again : Call → Option Result
  | .enq _ | .deq => some (.status .again none)
  | .empty => none

def body (n : Nat) : Body Mem Call Result Loc Unit where
  reads := fun _ => false
  again := Call.again
  enter := Call.enter
  step := bodyStep n

/-- `bounded_locked_init` -/
structure Initial (m : Mem) : Prop where
  head : m.head = 0
  tail : m.tail = 0
  stored : m.stored = []

def machine (Tid : Type) [DecidableEq Tid] (n : Nat) :=
  Locked.machine (Spinlock.caslock Tid) (body n) Initial

/-- A FIFO of at most `n` values, whose calls may be refused. -/
def spec (n : Nat) (stored : List Nat) : Call → Result → List Nat → Prop
  | .enq v, .status .ok none, stored' => stored.length < n ∧ stored' = stored ++ [v]
  | .enq _, .status .full none, stored' => stored.length = n ∧ stored' = stored
  | .enq _, .status .again none, stored' => stored' = stored
  | .deq, .status .ok (some v), stored' => stored = v :: stored'
  | .deq, .status .empty none, stored' => stored = [] ∧ stored' = stored
  | .deq, .status .again none, stored' => stored' = stored
  | .empty, .answer empty, stored' => (empty = true ↔ stored = []) ∧ stored' = stored
  | _, _, _ => False

/-- As many values as the queue can count have been enqueued. -/
def Mem.fits (m : Mem) : Prop := m.head + m.stored.length < 2 ^ 32

/-- The words count the values that are stored. The slots hold them, as long as
`tail` has not wrapped; from then on every dequeue stops at its assertion. -/
structure Sound (n : Nat) (m : Mem) : Prop where
  counts : Counts n m.head m.tail m.head m.stored
  holds : m.fits → Holds n m.buf m.head m.stored

def pre : Call → Mem → Prop
  | .enq v, _ => v ≠ 0
  | .deq, _ | .empty, _ => True

variable {n : Nat} {m m₀ m' : Mem} {call : Call} {loc loc' : Loc} {r : Result}

theorem Sound.room (h : Sound n m) : m.stored.length ≤ n ∧ n < 2 ^ 32 ∧ m.head < 2 ^ 32 :=
  ⟨h.counts.room, h.counts.size_fits, h.counts.head_eq ▸ Nat.mod_lt _ (Nat.two_pow_pos 32)⟩

/-- The assertion of a dequeue tells whether `tail` has wrapped. -/
theorem Sound.le_iff (h : Sound n m) : m.head ≤ m.tail ↔ m.fits := by
  obtain ⟨hroom, hn, hhead⟩ := h.room
  have htail := h.counts.tail_eq
  dsimp only [Mem.fits]
  omega

theorem Sound.empty_iff (h : Sound n m) : m.tail = m.head ↔ m.stored = [] := by
  obtain ⟨hroom, hn, hhead⟩ := h.room
  have htail := h.counts.tail_eq
  rw [← List.length_eq_zero_iff]
  omega

/-- What a call has found out and written, since it took the lock in memory `m₀`. -/
inductive LocOk (n : Nat) (call : Call) (m₀ : Mem) : Mem → Loc → Prop
  | enqAssert {v : Nat} (hcall : call = .enq v) : LocOk n call m₀ m₀ .enqAssert
  | enqFull {v : Nat} (hcall : call = .enq v) : LocOk n call m₀ m₀ .enqFull
  | enqTail {v : Nat} (hcall : call = .enq v) (hroom : m₀.stored.length < n) :
      LocOk n call m₀ m₀ .enqTail
  | enqSlot {v : Nat} (hcall : call = .enq v) (hroom : m₀.stored.length < n) :
      LocOk n call m₀ { m₀ with tail := wadd 32 m₀.tail 1 } (.enqSlot (m₀.tail % n))
  | deqAssert (hcall : call = .deq) : LocOk n call m₀ m₀ .deqAssert
  | deqEmpty (hcall : call = .deq) (hfits : m₀.fits) : LocOk n call m₀ m₀ .deqEmpty
  | deqHead (hcall : call = .deq) (hfits : m₀.fits) (hsome : m₀.stored ≠ []) :
      LocOk n call m₀ m₀ .deqHead
  | deqSlot (hcall : call = .deq) (hfits : m₀.fits) (hsome : m₀.stored ≠ []) :
      LocOk n call m₀ { m₀ with head := wadd 32 m₀.head 1 } (.deqSlot (m₀.head % n))
  | emptyAssert (hcall : call = .empty) : LocOk n call m₀ m₀ .emptyAssert
  | emptyTest (hcall : call = .empty) : LocOk n call m₀ m₀ .emptyTest

/-- One step inside of a body. -/
theorem LocOk.step (h : LocOk n call m₀ m loc) (hsound : Sound n m₀)
    (hstep : bodyStep n call loc m () = some (m', .inl loc')) : LocOk n call m₀ m' loc' := by
  have hlength := hsound.counts.length_eq
  cases h with
  | enqAssert hcall =>
    obtain ⟨-, hstep⟩ := Option.ite_none_right_eq_some.mp hstep
    cases hstep
    exact .enqFull hcall
  | enqFull hcall =>
    simp only [bodyStep] at hstep
    split at hstep
    next => cases hstep
    next hfull =>
      cases hstep
      rw [hlength] at hfull
      exact .enqTail hcall (Nat.lt_of_le_of_ne hsound.room.1 hfull)
  | enqTail hcall hroom =>
    cases hstep
    exact .enqSlot hcall hroom
  | enqSlot hcall =>
    subst hcall
    cases hstep
  | deqAssert hcall =>
    obtain ⟨hle, hstep⟩ := Option.ite_none_right_eq_some.mp hstep
    cases hstep
    exact .deqEmpty hcall (hsound.le_iff.mp hle)
  | deqEmpty hcall hfits =>
    simp only [bodyStep] at hstep
    split at hstep
    next => cases hstep
    next hempty =>
      cases hstep
      rw [hlength] at hempty
      exact .deqHead hcall hfits fun hnil => hempty (by rw [hnil]; rfl)
  | deqHead hcall hfits hsome =>
    cases hstep
    exact .deqSlot hcall hfits hsome
  | deqSlot => cases hstep
  | emptyAssert hcall =>
    obtain ⟨-, hstep⟩ := Option.ite_none_right_eq_some.mp hstep
    cases hstep
    exact .emptyTest hcall
  | emptyTest => cases hstep

theorem body_reaches (hsound : Sound n m₀) (h : (body n).Reaches call m₀ m loc) :
    LocOk n call m₀ m loc := by
  induction h with
  | enter =>
    cases call with
    | enq v => exact .enqAssert rfl
    | deq => exact .deqAssert rfl
    | empty => exact .emptyAssert rfl
  | step prior hstep ih => exact ih.step hsound hstep

theorem LocOk.goesOn (h : LocOk n call m₀ m loc) (hsound : Sound n m₀) (hfits : m₀.fits) :
    (bodyStep n call loc m ()).isSome := by
  have hle := hsound.le_iff.mpr hfits
  cases h with
  | enqAssert =>
    have hroom := hsound.counts.length_eq.trans_le hsound.room.1
    simp [bodyStep, hroom]
  | enqFull =>
    simp only [bodyStep]
    split <;> rfl
  | enqTail => rfl
  | enqSlot hcall =>
    subst hcall
    rfl
  | deqAssert => simp [bodyStep, hle]
  | deqEmpty =>
    simp only [bodyStep]
    split <;> rfl
  | deqHead => rfl
  | deqSlot => rfl
  | emptyAssert => simp [bodyStep, hle]
  | emptyTest => rfl

theorem Sound.push (h : Sound n m) (hroom : m.stored.length < n) (v : Nat) :
    Sound n { m with
      tail := wadd 32 m.tail 1
      buf := Function.update m.buf (m.tail % n) v
      stored := m.stored ++ [v] } := by
  refine ⟨h.counts.push hroom, fun hfits => ?_⟩
  have hfits' : m.head + m.stored.length + 1 < 2 ^ 32 := by
    have hlength : (m.stored ++ [v]).length = m.stored.length + 1 := List.length_append
    have hbound : m.head + (m.stored ++ [v]).length < 2 ^ 32 := hfits
    omega
  have hbefore : m.fits := Nat.lt_of_succ_lt hfits'
  dsimp only
  rw [h.counts.tail_eq]
  apply (h.holds hbefore).push hroom
  intro i hi
  rw [Nat.mod_eq_of_lt (show m.head + i < 2 ^ 32 by omega), Nat.mod_eq_of_lt hbefore]
  intro hslot
  have hlap := ring_inj (hi.trans hroom) hroom hslot
  omega

theorem Sound.pop (h : Sound n m) (hfits : m.fits) {v : Nat} {rest : List Nat}
    (hstored : m.stored = v :: rest) :
    m.buf (m.head % n) = v ∧ Sound n { m with head := wadd 32 m.head 1, stored := rest } := by
  have hbound : m.head + (rest.length + 1) < 2 ^ 32 := by
    have hlength : m.stored.length = rest.length + 1 := by rw [hstored]; rfl
    dsimp only [Mem.fits] at hfits
    omega
  have hhead : wadd 32 m.head 1 = m.head + 1 := wadd_of_lt (by omega)
  have hcounts := h.counts
  have hholds := h.holds hfits
  rw [hstored] at hcounts hholds
  obtain ⟨hslot, hrest⟩ := hholds.pop
  rw [Nat.mod_eq_of_lt (show m.head < 2 ^ 32 by omega)] at hslot
  refine ⟨hslot, ?_, fun _ => ?_⟩
  · have hpop := hcounts.pop
    rw [← hhead] at hpop
    exact hpop
  · dsimp only
    rw [hhead]
    exact hrest

theorem LocOk.returns (h : LocOk n call m₀ m loc) (hsound : Sound n m₀)
    (hstep : bodyStep n call loc m () = some (m', .inr r)) :
    Sound n m' ∧ spec n m₀.stored call r m'.stored := by
  have hlength := hsound.counts.length_eq
  cases h with
  | enqAssert | deqAssert | emptyAssert =>
    obtain ⟨-, hstep⟩ := Option.ite_none_right_eq_some.mp hstep
    cases hstep
  | enqFull hcall =>
    subst hcall
    simp only [bodyStep] at hstep
    split at hstep
    next hfull =>
      cases hstep
      exact ⟨hsound, hlength.symm.trans hfull, rfl⟩
    next => cases hstep
  | enqTail => cases hstep
  | enqSlot hcall hroom =>
    subst hcall
    cases hstep
    exact ⟨hsound.push hroom _, hroom, rfl⟩
  | deqEmpty hcall =>
    subst hcall
    simp only [bodyStep] at hstep
    split at hstep
    next hempty =>
      cases hstep
      exact ⟨hsound, List.length_eq_zero_iff.mp (hlength.symm.trans hempty), rfl⟩
    next => cases hstep
  | deqHead => cases hstep
  | deqSlot hcall hfits hsome =>
    subst hcall
    cases hstep
    obtain ⟨v, rest, hstored⟩ := List.exists_cons_of_ne_nil hsome
    obtain ⟨hslot, hrest⟩ := hsound.pop hfits hstored
    dsimp only
    rw [hslot, hstored, List.tail_cons]
    exact ⟨hrest, rfl⟩
  | emptyTest hcall =>
    subst hcall
    cases hstep
    refine ⟨hsound, ?_, rfl⟩
    rw [decide_eq_true_iff]
    exact hsound.empty_iff

theorem body_meets (n : Nat) :
    (body n).Meets (Sound n) pre (fun _ _ => True) Mem.stored (spec n) := by
  constructor
  · intro i m m₁ k b m' x _ _ hreads
    cases hreads
  · rintro i m m' r hsound - ⟨m₁, k, b, hreach, hstep⟩
    exact (body_reaches hsound hreach).returns hsound hstep
  · intro i j m m' r _ _ hj _ _
    cases j with
    | enq v => exact hj
    | deq => trivial
    | empty => trivial
  · intro i m r _ hagain
    cases i with
    | enq v => cases hagain; rfl
    | deq => cases hagain; rfl
    | empty => cases hagain

theorem body_goesOn (n : Nat) : (body n).GoesOn (Sound n) Mem.fits pre := by
  intro i m m₁ k hsound hfits _ hreach
  exact ⟨(), (body_reaches hsound hreach).goesOn hsound hfits⟩

variable {Tid : Type} [DecidableEq Tid]

abbrev State (Tid : Type) [DecidableEq Tid] :=
  Locked.State (Spinlock.caslock Tid) Mem Call Result Loc

abbrev Act (Tid : Type) := Locked.Act Tid Call Unit

structure Safe (n : Nat) (past : List (State Tid × Act Tid)) (s : State Tid) : Prop where
  /-- The calls are atomic operations of a FIFO, at any time. -/
  atomic : Linear (machine Tid n) Locked.Act.thread (Locked.view _ Mem.stored) (spec n) past s
  /-- A call that is refused has found another call between acquire and release. -/
  refused : ∀ t s' i r, (machine Tid n).step s (.lock t) = some s' → s.pc t = .enters i →
    s'.pc t = .leaves i r →
      ∃ u, u ≠ t ∧ ((∃ j k, s.pc u = .inside j k) ∨
        (∃ j r', s.pc u = .leaves j r') ∧ (Spinlock.caslock Tid).phase s.lock u = .releases)
  /-- Before `2 ^ 32` values have been enqueued no call stops at an assertion, and the
  calls do not all wait. -/
  inside : s.base.fits → ∀ t i k, s.pc t = .inside i k →
    ∃ s', (machine Tid n).step s (.body t ()) = some s'
  goesOn : s.base.fits → ∀ t, s.pc t ≠ .idle →
    ∃ a s', s.pc (Locked.Act.thread a) ≠ .idle ∧ (machine Tid n).step s a = some s'
  /-- From then on every dequeue stops at its assertion. -/
  stops : ¬ s.base.fits → ∀ t i, s.pc t = .inside i .deqAssert → ∀ b,
    (machine Tid n).step s (.body t b) = none

theorem bounded_locked_safe (hn : n < 2 ^ 32) {past : List (State Tid × Act Tid)}
    {s : State Tid} (run : (machine Tid n).Run past s)
    (hcalls : AllSteps (Locked.Allowed pre fun _ _ => True) past) : Safe n past s := by
  have hinit : ∀ m, Initial m → Sound n m := by
    intro m h
    constructor
    · rw [h.head, h.tail, h.stored]
      exact ⟨hn, rfl, rfl, Nat.zero_le _⟩
    · intro _
      rw [h.stored]
      exact Bounded.Holds.nil n m.head m.buf
  have h := Locked.run_inv (body_meets n) hinit run hcalls
  constructor
  · exact Locked.linear (body_meets n) hinit run hcalls
  · intro t s' i r hs henters hleaves
    obtain ⟨l, reading, hlock, htries, hout⟩ := h.refused henters hs hleaves
    obtain ⟨before, lockRun⟩ := h.run
    obtain ⟨u, hu, hphase⟩ := (Spinlock.Caslock.run_inv lockRun).refused hlock htries hout
    refine ⟨u, hu, ?_⟩
    have hagrees := h.agrees u
    generalize hpc : s.pc u = pc at hagrees
    rcases hphase with hhas | hreleases
    · replace hhas : (Spinlock.caslock Tid).phase s.lock u = .has false := hhas
      rw [hhas] at hagrees
      cases hagrees with
      | inside => exact .inl ⟨_, _, rfl⟩
    · replace hreleases : (Spinlock.caslock Tid).phase s.lock u = .releases := hreleases
      rw [hreleases] at hagrees
      cases hagrees with
      | releases => exact .inr ⟨⟨_, _, rfl⟩, hreleases⟩
  · intro hfits t i k ht
    obtain ⟨_, hs⟩ := h.bodyGoesOn (body_goesOn n) hfits ht
    exact hs
  · intro hfits t ht
    exact h.goesOn (body_goesOn n) hfits ht
  · intro hwrapped t i ht b
    have hreach := body_reaches h.sound (h.inside t i _ ht)
    generalize hmem : s.mem = m at hreach
    cases hreach with
    | deqAssert =>
      have hle : ¬ s.base.head ≤ s.base.tail := fun hle => hwrapped (h.sound.le_iff.mp hle)
      simp [machine, Locked.machine, Locked.step, Locked.bodyStep, ht, body, bodyStep, hmem, hle]

/-- A dequeue is refused while an enqueue has the lock, and another one waits in its test. -/
def enqDeq : List (Act Nat) :=
  .call 0 (.enq 7) :: .lock 0 :: .call 1 .deq :: .call 2 .empty :: .lock 1 ::
    List.replicate 4 (.body 0 ()) ++ [.lock 0, .lock 2, .body 2 (), .body 2 ()]

def emptyQueue : State Nat where
  lock := Spinlock.Caslock.init
  mem := { buf := fun _ => 0, head := 0, tail := 0, stored := [] }
  base := { buf := fun _ => 0, head := 0, tail := 0, stored := [] }
  pc := fun _ => .idle

theorem bounded_locked_safe_refused :
    ∃ past s, (machine Nat 2).Run past s ∧ Safe 2 past s ∧
      s.pc 0 = .leaves (.enq 7) (.status .ok none) ∧
      s.pc 1 = .leaves .deq (.status .again none) ∧ s.pc 2 = .leaves .empty (.answer false) := by
  have hexec : ((machine Nat 2).exec emptyQueue enqDeq).map (fun s => (s.pc 0, s.pc 1, s.pc 2)) =
      some (.leaves (.enq 7) (.status .ok none), .leaves .deq (.status .again none),
        .leaves .empty (.answer false)) := by
    rfl
  obtain ⟨s, hs, hpcs⟩ := Option.map_eq_some_iff.mp hexec
  obtain ⟨henq, hrest⟩ := Prod.mk.inj hpcs
  obtain ⟨hdeq, hempty⟩ := Prod.mk.inj hrest
  have hstart : (machine Nat 2).start emptyQueue := ⟨rfl, ⟨rfl, rfl, rfl⟩, rfl, rfl⟩
  have run := (Machine.Run.start hstart).exec hs
  refine ⟨_, s, run, bounded_locked_safe (by decide) run ?_, henq, hdeq, hempty⟩
  refine Locked.allowed_exec (fun _ hp => absurd hp List.not_mem_nil) (fun a ha s => ?_) _
  cases a with
  | call t i =>
    have hpre : pre i s.base := by
      cases i with
      | enq v =>
        have hv : v = 7 := by simp_all [enqDeq]
        rw [pre, hv]
        decide
      | deq => trivial
      | empty => trivial
    exact ⟨hpre, fun _ _ _ => ⟨trivial, trivial⟩⟩
  | lock => trivial
  | body => trivial
  | ret => trivial

end Libvsync.Queue.BoundedLocked
