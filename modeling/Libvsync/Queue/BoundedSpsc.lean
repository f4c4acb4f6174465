import Libvsync.Core.Linear
import Libvsync.Core.Ring
import Libvsync.Core.Turns
import Libvsync.Queue.Bounded

/-!
The queue `bounded_spsc` with one producer and one consumer. A step of a side is one access to a
counter or to a slot. The producer alone writes `tail` and the consumer alone writes `head`, so
what a side has read of the other counter is a bound that only gets better.

`enqueued` and `taken` are not read by the code: all values that were enqueued, and how many of
them were dequeued. The counters have 32 bits; a slot is not used too early as long as the size
divides `2 ^ 32` or `tail` has not wrapped.
-/

namespace Libvsync.Queue.BoundedSpsc

open Libvsync.Core Function
open Libvsync.Queue.Bounded (Call Result fifo FifoStep)

inductive Side where
  | producer
  | consumer
  deriving DecidableEq

/-- Where a side stands: the next access, with the local variables. -/
inductive Pc where
  | idle
  | enqTail (v : Nat)
  | enqHead (v tail : Nat)
  | enqSlot (v tail : Nat)
  | enqWrite (v tail : Nat)
  | deqHead
  | deqTail (head : Nat)
  | deqSlot (head : Nat)
  | deqWrite (head value : Nat)
  | ret (call : Call) (result : Result)
  deriving DecidableEq

structure State where
  buf : Nat → Nat
  head : Nat
  tail : Nat
  pc : Side → Pc
  enqueued : List Nat
  taken : Nat

inductive Act where
  | enq (v : Nat)
  | deq
  | step (side : Side)

def Act.side : Act → Side
  | .enq _ => .producer
  | .deq => .consumer
  | .step side => side

def State.goto (s : State) (side : Side) (pc : Pc) : State :=
  { s with pc := update s.pc side pc }

/-- The next access of a side, for a queue of size `n`. -/
def nextStep (n : Nat) (s : State) (side : Side) : Option State :=
  match s.pc side with
  | .idle => none
  | .enqTail v => some (s.goto side (.enqHead v s.tail))
  | .enqHead v tail =>
    if wsub 32 tail s.head = n then some (s.goto side (.ret (.enq v) (.full, none)))
    else some (s.goto side (.enqSlot v tail))
  | .enqSlot v tail =>
    some ({ s with buf := update s.buf (tail % n) v }.goto side (.enqWrite v tail))
  | .enqWrite v tail =>
    some ({ s with tail := wadd 32 tail 1, enqueued := s.enqueued ++ [v] }.goto side
      (.ret (.enq v) (.ok, none)))
  | .deqHead => some (s.goto side (.deqTail s.head))
  | .deqTail head =>
    if wsub 32 s.tail head = 0 then some (s.goto side (.ret .deq (.empty, none)))
    else some (s.goto side (.deqSlot head))
  | .deqSlot head => some (s.goto side (.deqWrite head (s.buf (head % n))))
  | .deqWrite head value =>
    some ({ s with head := wadd 32 head 1, taken := s.taken + 1 }.goto side
      (.ret .deq (.ok, some value)))
  | .ret _ _ => some (s.goto side .idle)

/-- A call of `bounded_spsc_enq` with a null value stops at its assertion: it has no steps. -/
def step (n : Nat) (s : State) : Act → Option State
  | .enq v =>
    if s.pc .producer = .idle ∧ v ≠ 0 then some (s.goto .producer (.enqTail v)) else none
  | .deq => if s.pc .consumer = .idle then some (s.goto .consumer .deqHead) else none
  | .step side => nextStep n s side

/-- `bounded_spsc_init` -/
structure Initial (s : State) : Prop where
  head : s.head = 0
  tail : s.tail = 0
  pc : s.pc = fun _ => .idle
  enqueued : s.enqueued = []
  taken : s.taken = 0

def machine (n : Nat) : Machine State Act where
  start := Initial
  step := step n

/-- The slots follow each other also where the counters wrap, or `tail` has not wrapped. -/
def fits (n : Nat) (s : State) : Prop := n ∣ 2 ^ 32 ∨ s.enqueued.length < 2 ^ 32

def State.stored (s : State) : List Nat := s.enqueued.drop s.taken

def Pc.settled : Pc → Option (Call × Result)
  | .ret call result => some (call, result)
  | _ => none

def view : View State Side (List Nat) Call Result where
  abs := State.stored
  busy side s := s.pc side ≠ .idle
  settled side s := (s.pc side).settled
  settled_busy side s x h := by
    intro hidle
    rw [hidle] at h
    cases h

/-- What the producer knows. -/
def ProdOk (n : Nat) (s : State) : Pc → Prop
  | .idle | .enqTail _ | .ret (.enq _) _ => True
  | .enqHead _ tail => tail = s.tail
  | .enqSlot _ tail => tail = s.tail ∧ s.enqueued.length < s.taken + n
  | .enqWrite v tail =>
    tail = s.tail ∧ s.enqueued.length < s.taken + n ∧ s.buf (tail % n) = v
  | _ => False

/-- What the consumer knows. -/
def ConsOk (s : State) : Pc → Prop
  | .idle | .deqHead | .ret .deq _ => True
  | .deqTail head => head = s.head
  | .deqSlot head => head = s.head ∧ s.taken < s.enqueued.length
  | .deqWrite head value => head = s.head ∧ s.enqueued[s.taken]? = some value
  | _ => False

/-- The counters count what was enqueued and taken, and the slots hold what is stored. -/
structure Sound (n : Nat) (s : State) : Prop where
  head : s.head = s.taken % 2 ^ 32
  tail : s.tail = s.enqueued.length % 2 ^ 32
  low : s.taken ≤ s.enqueued.length
  high : s.enqueued.length ≤ s.taken + n
  slots : ∀ j v, s.taken ≤ j → s.enqueued[j]? = some v → s.buf (j % 2 ^ 32 % n) = v

structure Inv (n : Nat) (s : State) : Prop where
  sound : Sound n s
  producer : ProdOk n s (s.pc .producer)
  consumer : ConsOk s (s.pc .consumer)

variable {n : Nat} {s s' : State} {side : Side} {pc : Pc} {v value head tail : Nat}

/-- Positions that are less than the size apart have different slots. -/
theorem slot_ne {a j : Nat} (hwrap : n ∣ 2 ^ 32 ∨ a < 2 ^ 32) (hj : j < a) (hroom : a < j + n) :
    j % 2 ^ 32 % n ≠ a % 2 ^ 32 % n := by
  intro hslot
  have hsame : j % n = a % n := by
    rcases hwrap with hdvd | hlt
    · rw [Nat.mod_mod_of_dvd _ hdvd, Nat.mod_mod_of_dvd _ hdvd] at hslot
      exact hslot
    · rw [Nat.mod_eq_of_lt hlt, Nat.mod_eq_of_lt (hj.trans hlt)] at hslot
      exact hslot
  have hlap := lap_apart hj hsame
  omega

theorem Sound.length_eq (h : Sound n s) (hn : n < 2 ^ 32) :
    wsub 32 s.tail s.head = s.stored.length := by
  have hhigh := h.high
  rw [h.head, h.tail, wsub_counter h.low (by omega), State.stored, List.length_drop]

/-- The producer does not mind what the consumer does. -/
theorem ProdOk.keep (h : ProdOk n s pc) (htail : s'.tail = s.tail)
    (henqueued : s'.enqueued = s.enqueued) (htaken : s.taken ≤ s'.taken) (hbuf : s'.buf = s.buf) :
    ProdOk n s' pc := by
  cases pc with
  | idle => trivial
  | enqTail v => trivial
  | enqHead v tail => exact Eq.trans h htail.symm
  | enqSlot v tail =>
    obtain ⟨hat, hroom⟩ := h
    refine ⟨hat.trans htail.symm, ?_⟩
    rw [henqueued]
    omega
  | enqWrite v tail =>
    obtain ⟨hat, hroom, hslot⟩ := h
    refine ⟨hat.trans htail.symm, ?_, ?_⟩
    · rw [henqueued]
      omega
    · rw [hbuf]
      exact hslot
  | deqHead => exact h
  | deqTail head => exact h
  | deqSlot head => exact h
  | deqWrite head value => exact h
  | ret call result =>
    cases call with
    | enq v => trivial
    | deq => exact h

/-- The consumer does not mind what the producer does. -/
theorem ConsOk.keep (h : ConsOk s pc) (hhead : s'.head = s.head) (htaken : s'.taken = s.taken)
    (henqueued : s.enqueued <+: s'.enqueued) : ConsOk s' pc := by
  cases pc with
  | idle => trivial
  | deqHead => trivial
  | deqTail head => exact Eq.trans h hhead.symm
  | deqSlot head =>
    obtain ⟨hat, hsome⟩ := h
    refine ⟨hat.trans hhead.symm, ?_⟩
    rw [htaken]
    exact hsome.trans_le henqueued.length_le
  | deqWrite head value =>
    obtain ⟨hat, hvalue⟩ := h
    refine ⟨hat.trans hhead.symm, ?_⟩
    rw [htaken]
    exact getElem?_mono henqueued hvalue
  | enqTail v => exact h
  | enqHead v tail => exact h
  | enqSlot v tail => exact h
  | enqWrite v tail => exact h
  | ret call result =>
    cases call with
    | enq v => exact h
    | deq => trivial

theorem goto_self (s : State) (side : Side) (pc : Pc) : (s.goto side pc).pc side = pc :=
  update_self ..

theorem goto_other {u : Side} (hu : u ≠ side) : (s.goto side pc).pc u = s.pc u :=
  update_of_ne hu ..

theorem Inv.ofProducer (hsound : Sound n s) (hok : ProdOk n s pc)
    (hconsumer : ConsOk s (s.pc .consumer)) : Inv n (s.goto .producer pc) := by
  constructor
  · exact { hsound with }
  · rw [goto_self]
    exact hok
  · rw [goto_other Side.noConfusion]
    exact hconsumer

theorem Inv.ofConsumer (hsound : Sound n s) (hproducer : ProdOk n s (s.pc .producer))
    (hok : ConsOk s pc) : Inv n (s.goto .consumer pc) := by
  constructor
  · exact { hsound with }
  · rw [goto_other Side.noConfusion]
    exact hproducer
  · rw [goto_self]
    exact hok

/-- The producer writes a slot that no stored value is in. -/
theorem Sound.writeSlot (h : Sound n s) (hfits : fits n s)
    (hroom : s.enqueued.length < s.taken + n) (v : Nat) :
    Sound n { s with buf := update s.buf (s.tail % n) v } := by
  refine { h with slots := ?_ }
  intro j w hj hw
  have hlt : j < s.enqueued.length := (List.getElem?_eq_some_iff.mp hw).1
  have hj : s.taken ≤ j := hj
  dsimp only
  rw [h.tail, update_of_ne (slot_ne hfits hlt (by omega))]
  exact h.slots j w hj hw

/-- The producer publishes the slot that it has written. -/
theorem Sound.push (h : Sound n s) (hroom : s.enqueued.length < s.taken + n)
    (hslot : s.buf (s.tail % n) = v) :
    Sound n { s with tail := wadd 32 s.tail 1, enqueued := s.enqueued ++ [v] } := by
  have hlength : (s.enqueued ++ [v]).length = s.enqueued.length + 1 := List.length_append
  refine { h with
    tail := ?_
    low := ?_
    high := ?_
    slots := ?_ }
  · dsimp only
    rw [h.tail, wadd_mod, hlength]
  · exact h.low.trans (List.prefix_append ..).length_le
  · dsimp only
    omega
  · intro j w hj hw
    dsimp only at hw ⊢
    rcases Nat.lt_or_ge j s.enqueued.length with hlt | hge
    · rw [List.getElem?_append_left hlt] at hw
      exact h.slots j w hj hw
    · have hbound := (List.getElem?_eq_some_iff.mp hw).1
      obtain rfl : j = s.enqueued.length := by omega
      rw [List.getElem?_concat_length] at hw
      rw [← h.tail, hslot]
      exact Option.some.inj hw

theorem Sound.pop (h : Sound n s) (hvalue : s.enqueued[s.taken]? = some value) :
    Sound n { s with head := wadd 32 s.head 1, taken := s.taken + 1 } := by
  have hlt := (List.getElem?_eq_some_iff.mp hvalue).1
  have hhigh := h.high
  refine { h with
    head := ?_
    low := hlt
    high := ?_
    slots := ?_ }
  · dsimp only
    rw [h.head, wadd_mod]
  · dsimp only
    omega
  · intro j w hj hw
    exact h.slots j w (Nat.le_of_succ_le hj) hw

/-- What a step of one side does. -/
structure Stepped (n : Nat) (side : Side) (s s' : State) : Prop where
  inv : fits n s → Inv n s'
  move : ∀ past : List (State × Act), Move view (FifoStep n) side past s s'
  other : ∀ u, u ≠ side → s'.pc u = s.pc u

/-- The call goes on. -/
theorem walks (past : List (State × Act)) (hbefore : (s.pc side).settled = none)
    (hafter : pc.settled = none) (habs : s'.stored = s.stored) :
    Move view (FifoStep n) side past s (s'.goto side pc) := by
  apply Move.walk habs
  change ((s'.goto side pc).pc side).settled = (s.pc side).settled
  rw [goto_self, hafter, hbefore]

theorem settles (past : List (State × Act)) (hbefore : (s.pc side).settled = none) {call : Call}
    {result : Result} (hmeets : FifoStep n s.stored call result s'.stored) :
    Move view (FifoStep n) side past s (s'.goto side (.ret call result)) := by
  apply Move.settle call result hbefore _ hmeets
  change ((s'.goto side (.ret call result)).pc side).settled = _
  rw [goto_self]
  rfl

theorem returns (past : List (State × Act)) :
    Move view (FifoStep n) side past s (s.goto side .idle) := by
  refine Move.leave rfl ?_
  exact fun hbusy => hbusy (goto_self ..)

theorem Inv.producerStep (h : Inv n s) (hn : n < 2 ^ 32)
    (hstep : nextStep n s .producer = some s') : Stepped n .producer s s' := by
  have hok := h.producer
  have hlength := h.sound.length_eq hn
  have hlow := h.sound.low
  have hhigh := h.sound.high
  have hstored : s.stored.length = s.enqueued.length - s.taken := List.length_drop
  dsimp only [nextStep] at hstep
  cases hat : s.pc .producer with
  | idle =>
    rw [hat] at hstep
    cases hstep
  | enqTail v =>
    rw [hat] at hstep
    cases hstep
    refine ⟨fun _ => .ofProducer h.sound rfl h.consumer, fun past => ?_, fun u hu => goto_other hu⟩
    exact walks past (by rw [hat]; rfl) rfl rfl
  | enqHead v tail =>
    rw [hat] at hstep hok
    obtain rfl : tail = s.tail := hok
    dsimp only at hstep
    split at hstep
    next hfull =>
      cases hstep
      refine ⟨fun _ => .ofProducer h.sound trivial h.consumer, fun past => ?_, fun u hu =>
        goto_other hu⟩
      apply settles past (by rw [hat]; rfl)
      rw [FifoStep, fifo, if_pos (hlength.symm.trans hfull)]
    next hroom =>
      cases hstep
      refine ⟨fun _ => .ofProducer h.sound ⟨rfl, by omega⟩ h.consumer, fun past => ?_,
        fun u hu => goto_other hu⟩
      exact walks past (by rw [hat]; rfl) rfl rfl
  | enqSlot v tail =>
    rw [hat] at hstep hok
    obtain ⟨rfl, hroom⟩ := hok
    cases hstep
    refine ⟨fun hfits => .ofProducer (h.sound.writeSlot hfits hroom v)
      ⟨rfl, hroom, update_self ..⟩ ?_, fun past => ?_, fun u hu => goto_other hu⟩
    · exact h.consumer.keep rfl rfl List.prefix_rfl
    · exact walks past (by rw [hat]; rfl) rfl rfl
  | enqWrite v tail =>
    rw [hat] at hstep hok
    obtain ⟨rfl, hroom, hslot⟩ := hok
    cases hstep
    refine ⟨fun _ => .ofProducer (h.sound.push hroom hslot) trivial ?_, fun past => ?_,
      fun u hu => goto_other hu⟩
    · exact h.consumer.keep rfl rfl (List.prefix_append ..)
    · apply settles past (by rw [hat]; rfl)
      have hpush : (s.enqueued ++ [v]).drop s.taken = s.stored ++ [v] :=
        List.drop_append_of_le_length hlow
      rw [FifoStep, fifo, if_neg (by omega)]
      exact congrArg (·, _) hpush.symm
  | deqHead =>
    rw [hat] at hok
    exact False.elim hok
  | deqTail head =>
    rw [hat] at hok
    exact False.elim hok
  | deqSlot head =>
    rw [hat] at hok
    exact False.elim hok
  | deqWrite head value =>
    rw [hat] at hok
    exact False.elim hok
  | ret call result =>
    rw [hat] at hstep
    cases hstep
    exact ⟨fun _ => .ofProducer h.sound trivial h.consumer, returns, fun u hu => goto_other hu⟩

theorem Inv.consumerStep (h : Inv n s) (hn : n < 2 ^ 32)
    (hstep : nextStep n s .consumer = some s') : Stepped n .consumer s s' := by
  have hok := h.consumer
  have hlength := h.sound.length_eq hn
  have hstored : s.stored.length = s.enqueued.length - s.taken := List.length_drop
  dsimp only [nextStep] at hstep
  cases hat : s.pc .consumer with
  | idle =>
    rw [hat] at hstep
    cases hstep
  | deqHead =>
    rw [hat] at hstep
    cases hstep
    refine ⟨fun _ => .ofConsumer h.sound h.producer rfl, fun past => ?_, fun u hu => goto_other hu⟩
    exact walks past (by rw [hat]; rfl) rfl rfl
  | deqTail head =>
    rw [hat] at hstep hok
    obtain rfl : head = s.head := hok
    dsimp only at hstep
    split at hstep
    next hempty =>
      cases hstep
      refine ⟨fun _ => .ofConsumer h.sound h.producer trivial, fun past => ?_, fun u hu =>
        goto_other hu⟩
      apply settles past (by rw [hat]; rfl)
      rw [List.length_eq_zero_iff.mp (hlength.symm.trans hempty)]
      rfl
    next hsome =>
      cases hstep
      refine ⟨fun _ => .ofConsumer h.sound h.producer ⟨rfl, by omega⟩, fun past => ?_,
        fun u hu => goto_other hu⟩
      exact walks past (by rw [hat]; rfl) rfl rfl
  | deqSlot head =>
    rw [hat] at hstep hok
    obtain ⟨rfl, hsome⟩ := hok
    cases hstep
    have hvalue : s.enqueued[s.taken]? = some (s.buf (s.head % n)) := by
      have hget := List.getElem?_eq_getElem hsome
      rw [hget, h.sound.head, h.sound.slots s.taken _ le_rfl hget]
    refine ⟨fun _ => .ofConsumer h.sound h.producer ⟨rfl, hvalue⟩, fun past => ?_,
      fun u hu => goto_other hu⟩
    exact walks past (by rw [hat]; rfl) rfl rfl
  | deqWrite head value =>
    rw [hat] at hstep hok
    obtain ⟨rfl, hvalue⟩ := hok
    cases hstep
    refine ⟨fun _ => .ofConsumer (h.sound.pop hvalue) ?_ trivial, fun past => ?_,
      fun u hu => goto_other hu⟩
    · exact h.producer.keep rfl rfl (Nat.le_succ _) rfl
    · apply settles past (by rw [hat]; rfl)
      obtain ⟨hlt, hget⟩ := List.getElem?_eq_some_iff.mp hvalue
      have hcons : s.stored = value :: s.enqueued.drop (s.taken + 1) := by
        rw [State.stored, List.drop_eq_getElem_cons hlt, hget]
      rw [hcons]
      rfl
  | enqTail v =>
    rw [hat] at hok
    exact False.elim hok
  | enqHead v tail =>
    rw [hat] at hok
    exact False.elim hok
  | enqSlot v tail =>
    rw [hat] at hok
    exact False.elim hok
  | enqWrite v tail =>
    rw [hat] at hok
    exact False.elim hok
  | ret call result =>
    rw [hat] at hstep
    cases hstep
    exact ⟨fun _ => .ofConsumer h.sound h.producer trivial, returns, fun u hu => goto_other hu⟩

theorem Inv.step (h : Inv n s) (hn : n < 2 ^ 32) {a : Act}
    (hstep : step n s a = some s') : Stepped n a.side s s' := by
  cases a with
  | enq v =>
    obtain ⟨⟨hidle, -⟩, heq⟩ := Option.ite_none_right_eq_some.mp hstep
    cases heq
    refine ⟨fun _ => .ofProducer h.sound trivial h.consumer, fun past => ?_,
      fun u hu => goto_other hu⟩
    exact walks past (by rw [Act.side, hidle]; rfl) rfl rfl
  | deq =>
    obtain ⟨hidle, heq⟩ := Option.ite_none_right_eq_some.mp hstep
    cases heq
    refine ⟨fun _ => .ofConsumer h.sound h.producer trivial, fun past => ?_,
      fun u hu => goto_other hu⟩
    exact walks past (by rw [Act.side, hidle]; rfl) rfl rfl
  | step side =>
    cases side with
    | producer => exact h.producerStep hn hstep
    | consumer => exact h.consumerStep hn hstep

theorem run_inv (hn : n < 2 ^ 32) {past : List (State × Act)} (run : (machine n).Run past s)
    (hfits : AllSteps (fun s _ => fits n s) past) : Inv n s := by
  apply run.invariant_if _ _ hfits
  · intro s h
    constructor
    · constructor
      · rw [h.head, h.taken]
        rfl
      · rw [h.tail, h.enqueued]
        rfl
      · rw [h.taken]
        exact Nat.zero_le _
      · rw [h.enqueued]
        exact Nat.zero_le _
      · intro j v _ hv
        rw [h.enqueued] at hv
        cases hv
    · rw [h.pc]
      trivial
    · rw [h.pc]
      trivial
  · intro s a s' h hfits hstep
    exact (h.step hn hstep).inv hfits

/-- How many accesses a call has in front of it, its return included. -/
def Pc.left : Pc → Nat
  | .idle => 0
  | .ret _ _ => 1
  | .enqWrite _ _ | .deqWrite _ _ => 2
  | .enqSlot _ _ | .deqSlot _ => 3
  | .enqHead _ _ | .deqTail _ => 4
  | .enqTail _ | .deqHead => 5

structure Safe (n : Nat) (past : List (State × Act)) (s : State) : Prop where
  /-- The calls are atomic operations of a FIFO of at most `n` values. -/
  atomic : Linear (machine n) Act.side view (FifoStep n) past s
  /-- The slot that the producer writes is not the one that the consumer reads. -/
  apart : fits n s → ∀ v tail head, s.pc .producer = .enqSlot v tail →
    s.pc .consumer = .deqSlot head → head % n ≠ tail % n
  /-- No call waits: its next access can be taken, and brings it nearer to its return. -/
  goesOn : ∀ side, s.pc side ≠ .idle →
    ∃ s', (machine n).step s (.step side) = some s' ∧ (s'.pc side).left < (s.pc side).left

theorem goesOn (n : Nat) (s : State) (hbusy : s.pc side ≠ .idle) :
    ∃ s', nextStep n s side = some s' ∧ (s'.pc side).left < (s.pc side).left := by
  dsimp only [nextStep]
  cases hat : s.pc side with
  | idle => exact absurd hat hbusy
  | enqHead v tail | deqTail head =>
    dsimp only
    split
    · exact ⟨_, rfl, by simp [goto_self, Pc.left]⟩
    · exact ⟨_, rfl, by simp [goto_self, Pc.left]⟩
  | enqTail v => exact ⟨_, rfl, by simp [goto_self, Pc.left]⟩
  | enqSlot v tail => exact ⟨_, rfl, by simp [goto_self, Pc.left]⟩
  | enqWrite v tail => exact ⟨_, rfl, by simp [goto_self, Pc.left]⟩
  | deqHead => exact ⟨_, rfl, by simp [goto_self, Pc.left]⟩
  | deqSlot head => exact ⟨_, rfl, by simp [goto_self, Pc.left]⟩
  | deqWrite head value => exact ⟨_, rfl, by simp [goto_self, Pc.left]⟩
  | ret call result => exact ⟨_, rfl, by simp [goto_self, Pc.left]⟩

theorem bounded_spsc_safe (hn : n < 2 ^ 32) {past : List (State × Act)}
    (run : (machine n).Run past s) (hfits : AllSteps (fun s _ => fits n s) past) :
    Safe n past s := by
  have h := run_inv hn run hfits
  constructor
  · apply run.linear _ _ hfits
    · intro s h side
      change (s.pc side).settled = none
      rw [h.pc]
      rfl
    · intro past s a s' run hfits hstep
      obtain ⟨-, hmove, hother⟩ := (run_inv hn run hfits).step hn hstep
      refine ⟨hmove past, fun u hu => ?_⟩
      exact congrArg Pc.settled (hother u hu)
  · intro hwrap v tail head hprod hcons
    have hproducer := h.producer
    have hconsumer := h.consumer
    rw [hprod] at hproducer
    rw [hcons] at hconsumer
    obtain ⟨rfl, hroom⟩ := hproducer
    obtain ⟨rfl, hsome⟩ := hconsumer
    rw [h.sound.head, h.sound.tail]
    exact slot_ne hwrap hsome hroom
  · intro side hbusy
    exact goesOn n s hbusy

/-- A dequeue is under way while an enqueue finds the only slot still in use. -/
def overlap : List Act :=
  [.enq 7, .step .producer, .step .producer, .step .producer, .step .producer, .step .producer,
    .deq, .step .consumer, .step .consumer, .enq 8, .step .producer, .step .producer,
    .step .consumer, .step .consumer]

def emptyQueue : State where
  buf := fun _ => 0
  head := 0
  tail := 0
  pc := fun _ => .idle
  enqueued := []
  taken := 0

theorem bounded_spsc_safe_overlap :
    ∃ past s, (machine 1).Run past s ∧ Safe 1 past s ∧
      s.pc .producer = .ret (.enq 8) (.full, none) ∧
      s.pc .consumer = .ret .deq (.ok, some 7) := by
  have hexec : ((machine 1).exec emptyQueue overlap).map
      (fun s => (s.pc .producer, s.pc .consumer)) =
        some (.ret (.enq 8) (.full, none), .ret .deq (.ok, some 7)) := by
    rfl
  obtain ⟨s, hs, hpcs⟩ := Option.map_eq_some_iff.mp hexec
  obtain ⟨hproducer, hconsumer⟩ := Prod.mk.inj hpcs
  have hstart : (machine 1).start emptyQueue := ⟨rfl, rfl, rfl, rfl, rfl⟩
  have run := (Machine.Run.start hstart).exec hs
  refine ⟨_, s, run, bounded_spsc_safe (by decide) run ?_, hproducer, hconsumer⟩
  intro _ _
  exact .inl (one_dvd _)

end Libvsync.Queue.BoundedSpsc
