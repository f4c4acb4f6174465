import Libvsync.Core.Machine
import Libvsync.Core.Turns
import Libvsync.Core.Word

/-!
The ticket lock. `next` is the next ticket and `owner` the one that is served, both words of 32
bits. The fields from `arrived` on are not read by the code: who took a ticket, who was let in,
and how often the lock was released. The positions of the threads carry the numbers that stand
behind the words which the code has read.
-/

namespace Libvsync.Spinlock.Ticketlock

open Libvsync.Core Function

/-- Where a call stands: the next access, with the local variables. The word `ticket`, `o` or
`next` comes with its unbounded number `x` or `n`. -/
inductive Pc where
  | idle
  | acqInc
  | acqAwait (ticket x : Nat)
  | tryRead
  | tryCas (o n : Nat)
  | relRead
  | relWrite (owner : Nat)
  | waitersNext
  | waitersOwner (next n : Nat)
  | waitersRet (answer : Bool) (n : Nat)
  deriving DecidableEq

structure State (Tid : Type) where
  next : Nat
  owner : Nat
  pc : Tid → Pc
  held : Tid → Bool
  arrived : List Tid
  granted : List Tid
  released : Nat

inductive Act (Tid : Type) where
  | acquire (t : Tid)
  | tryacquire (t : Tid)
  | release (t : Tid)
  | hasWaiters (t : Tid)
  | step (t : Tid)

variable {Tid : Type} [DecidableEq Tid]

def State.goto (s : State Tid) (t : Tid) (pc : Pc) : State Tid :=
  { s with pc := update s.pc t pc }

/-- `t` takes a ticket, and `next` is the one behind it. -/
def State.arrive (s : State Tid) (t : Tid) (next : Nat) : State Tid :=
  { s with next := next, arrived := s.arrived ++ [t] }

/-- `t` returns with the lock. -/
def State.enter (s : State Tid) (t : Tid) : State Tid :=
  { s with
    granted := s.granted ++ [t]
    held := update s.held t true }.goto t .idle

/-- The holder `t` writes `owner`. -/
def State.pass (s : State Tid) (t : Tid) (owner : Nat) : State Tid :=
  { s with
    owner := owner
    released := s.released + 1
    held := update s.held t false }.goto t .idle

/-- The next access of thread `t`. -/
def nextStep (s : State Tid) (t : Tid) : Option (State Tid) :=
  match s.pc t with
  | .idle => none
  | .acqInc =>
    some ((s.arrive t (wadd 32 s.next 1)).goto t (.acqAwait s.next s.arrived.length))
  | .acqAwait ticket _ => if s.owner = ticket then some (s.enter t) else none
  | .tryRead => some (s.goto t (.tryCas s.owner s.released))
  | .tryCas o _ =>
    if s.next = o then some ((s.arrive t (wadd 32 o 1)).enter t) else some (s.goto t .idle)
  | .relRead => some (s.goto t (.relWrite s.owner))
  | .relWrite owner => some (s.pass t (wadd 32 owner 1))
  | .waitersNext => some (s.goto t (.waitersOwner s.next s.arrived.length))
  | .waitersOwner next n => some (s.goto t (.waitersRet (decide (1 < wsub 32 next s.owner)) n))
  | .waitersRet _ _ => some (s.goto t .idle)

/-- Only the holder calls `ticketlock_release` and `ticketlock_has_waiters`. -/
def step (s : State Tid) : Act Tid → Option (State Tid)
  | .acquire t => if s.pc t = .idle then some (s.goto t .acqInc) else none
  | .tryacquire t => if s.pc t = .idle then some (s.goto t .tryRead) else none
  | .release t =>
    if s.pc t = .idle ∧ s.held t = true then some (s.goto t .relRead) else none
  | .hasWaiters t =>
    if s.pc t = .idle ∧ s.held t = true then some (s.goto t .waitersNext) else none
  | .step t => nextStep s t

/-- `ticketlock_init` -/
structure Initial (s : State Tid) : Prop where
  next : s.next = 0
  owner : s.owner = 0
  pc : s.pc = fun _ => .idle
  held : s.held = fun _ => false
  arrived : s.arrived = []
  granted : s.granted = []
  released : s.released = 0

def machine (Tid : Type) [DecidableEq Tid] : Machine (State Tid) (Act Tid) where
  start := Initial
  step := step

/-- A step that takes a ticket leaves fewer than `2 ^ 32` tickets that are not served. -/
def few (s : State Tid) : Act Tid → Bool
  | .step t =>
    match s.pc t with
    | .acqInc => s.arrived.length + 1 < s.released + 2 ^ 32
    | _ => true
  | _ => true

/-- The ticket that a tryacquire compares with the `owner` it has read is not that number plus a
multiple of `2 ^ 32`. -/
def fresh (s : State Tid) : Act Tid → Bool
  | .step t =>
    match s.pc t with
    | .tryCas _ n => s.arrived.length % 2 ^ 32 = n % 2 ^ 32 → s.arrived.length = n
    | _ => true
  | _ => true

/-- What thread `t` knows. -/
def PcOk (s : State Tid) (t : Tid) : Pc → Prop
  | .idle | .acqInc | .tryRead => True
  | .acqAwait ticket x =>
    ticket = x % 2 ^ 32 ∧ s.granted.length ≤ x ∧ s.arrived[x]? = some t
  | .tryCas o n => o = n % 2 ^ 32 ∧ n ≤ s.released
  | .relRead | .waitersNext => s.held t = true
  | .relWrite owner => s.held t = true ∧ owner = s.owner
  | .waitersOwner next n =>
    s.held t = true ∧ next = n % 2 ^ 32 ∧ s.released ≤ n ∧ n < s.released + 2 ^ 32
  | .waitersRet answer n => s.held t = true ∧ (answer = true ↔ s.released + 1 < n)

structure Inv (s : State Tid) : Prop where
  next : s.next = s.arrived.length % 2 ^ 32
  owner : s.owner = s.released % 2 ^ 32
  fits : s.arrived.length < s.released + 2 ^ 32
  order : Serving s.arrived s.granted s.released s.held
  pcs : ∀ t, PcOk s t (s.pc t)
  waits : ∀ x t, s.granted.length ≤ x → s.arrived[x]? = some t →
    ∃ ticket, s.pc t = .acqAwait ticket x

def Pc.awaits : Pc → Bool
  | .acqAwait _ _ => true
  | _ => false

variable {s s' : State Tid} {t u : Tid} {pc : Pc} {ticket x n o owner : Nat}

theorem goto_self (s : State Tid) (t : Tid) (pc : Pc) : (s.goto t pc).pc t = pc :=
  update_self ..

theorem goto_other (s : State Tid) (pc : Pc) (hu : u ≠ t) : (s.goto t pc).pc u = s.pc u :=
  update_of_ne hu ..

/-- A step keeps what thread `u` relies on. -/
structure Keeps (s s' : State Tid) (u : Tid) : Prop where
  arrived : s.arrived <+: s'.arrived
  granted : ∀ x, s.granted.length ≤ x → s.arrived[x]? = some u → s'.granted.length ≤ x
  released : s.released ≤ s'.released
  held : s'.held u = s.held u
  owner : s.held u = true → s'.owner = s.owner ∧ s'.released = s.released

omit [DecidableEq Tid] in
theorem PcOk.keep (h : PcOk s u pc) (keeps : Keeps s s' u) : PcOk s' u pc := by
  cases pc with
  | idle => trivial
  | acqInc => trivial
  | tryRead => trivial
  | acqAwait ticket x =>
    obtain ⟨hword, hlow, hat⟩ := h
    exact ⟨hword, keeps.granted x hlow hat, getElem?_mono keeps.arrived hat⟩
  | tryCas o n => exact ⟨h.1, h.2.trans keeps.released⟩
  | relRead => exact keeps.held.trans h
  | relWrite owner =>
    obtain ⟨hheld, howner⟩ := h
    exact ⟨keeps.held.trans hheld, howner.trans (keeps.owner hheld).1.symm⟩
  | waitersNext => exact keeps.held.trans h
  | waitersOwner next n =>
    obtain ⟨hheld, hnext, hbounds⟩ := h
    refine ⟨keeps.held.trans hheld, hnext, ?_⟩
    rw [(keeps.owner hheld).2]
    exact hbounds
  | waitersRet answer n =>
    obtain ⟨hheld, hanswer⟩ := h
    refine ⟨keeps.held.trans hheld, ?_⟩
    rw [(keeps.owner hheld).2]
    exact hanswer

/-- A thread that does not wait moves on without changing anything else. -/
theorem Inv.goto (h : Inv s) (hpc : (s.pc t).awaits = false) (hok : PcOk s t pc) :
    Inv (s.goto t pc) := by
  have hsame (u : Tid) : Keeps s (s.goto t pc) u :=
    ⟨List.prefix_rfl, fun _ hx _ => hx, le_rfl, rfl, fun _ => ⟨rfl, rfl⟩⟩
  refine { h with
    pcs := ?_
    waits := ?_ }
  · intro u
    rcases eq_or_ne u t with rfl | hu
    · rw [goto_self]
      exact hok.keep (hsame u)
    · rw [goto_other _ _ hu]
      exact (h.pcs u).keep (hsame u)
  · intro x u hx hat
    obtain ⟨ticket, hwait⟩ := h.waits x u hx hat
    refine ⟨ticket, ?_⟩
    rw [goto_other, hwait]
    rintro rfl
    rw [hwait] at hpc
    cases hpc

theorem Inv.take (h : Inv s) (hpc : (s.pc t).awaits = false)
    (hfew : s.arrived.length + 1 < s.released + 2 ^ 32) :
    Inv ((s.arrive t (wadd 32 s.next 1)).goto t (.acqAwait s.next s.arrived.length)) := by
  have hlength : (s.arrived ++ [t]).length = s.arrived.length + 1 := List.length_append
  have hkeeps (u : Tid) :
      Keeps s ((s.arrive t (wadd 32 s.next 1)).goto t (.acqAwait s.next s.arrived.length)) u :=
    ⟨List.prefix_append .., fun _ hx _ => hx, le_rfl, rfl, fun _ => ⟨rfl, rfl⟩⟩
  constructor
  · change wadd 32 s.next 1 = (s.arrived ++ [t]).length % 2 ^ 32
    rw [h.next, wadd_mod, hlength]
  · exact h.owner
  · change (s.arrived ++ [t]).length < s.released + 2 ^ 32
    rw [hlength]
    exact hfew
  · exact h.order.arrive t
  · intro u
    rcases eq_or_ne u t with rfl | hu
    · rw [goto_self]
      exact ⟨h.next, h.order.fifo.length_le, List.getElem?_concat_length⟩
    · rw [goto_other _ _ hu]
      exact (h.pcs u).keep (hkeeps u)
  · intro x u hx hu
    replace hu : (s.arrived ++ [t])[x]? = some u := hu
    rcases Nat.lt_or_ge x s.arrived.length with hlt | hge
    · rw [List.getElem?_append_left hlt] at hu
      obtain ⟨ticket, hwait⟩ := h.waits x u hx hu
      refine ⟨ticket, ?_⟩
      rw [goto_other]
      · exact hwait
      · rintro rfl
        rw [hwait] at hpc
        cases hpc
    · have hbound := (List.getElem?_eq_some_iff.mp hu).1
      obtain rfl : x = s.arrived.length := by omega
      rw [List.getElem?_concat_length] at hu
      cases hu
      exact ⟨_, goto_self ..⟩

/-- The thread with the ticket that `owner` counts returns. -/
theorem Inv.enter (h : Inv s) (hfree : s.granted.length = s.released)
    (hat : s.arrived[s.released]? = some t)
    (hothers : ∀ x, s.released < x → s.arrived[x]? = some t → False) : Inv (s.enter t) := by
  have hlength : (s.granted ++ [t]).length = s.granted.length + 1 := List.length_append
  have hheld {u : Tid} (hu : u ≠ t) : update s.held t true u = s.held u :=
    update_of_ne hu ..
  have hkeeps {u : Tid} (hu : u ≠ t) : Keeps s (s.enter t) u := by
    refine ⟨List.prefix_rfl, fun x hx hxu => ?_, le_rfl, hheld hu, fun _ => ⟨rfl, rfl⟩⟩
    change (s.granted ++ [t]).length ≤ x
    have hne : x ≠ s.released := by
      rintro rfl
      rw [hat] at hxu
      exact hu (Option.some.inj hxu).symm
    omega
  refine ⟨h.next, h.owner, h.fits, ?_, fun u => ?_, fun x u hx hu => ?_⟩
  · exact h.order.enter hfree hat (update_self ..) fun u hu => hheld hu
  · rcases eq_or_ne u t with rfl | hu
    · rw [State.enter, goto_self]
      trivial
    · rw [State.enter, goto_other _ _ hu]
      exact (h.pcs u).keep (hkeeps hu)
  · replace hx : (s.granted ++ [t]).length ≤ x := hx
    rw [State.enter, goto_other]
    · exact h.waits x u (by omega) hu
    · rintro rfl
      exact hothers x (by omega) hu

theorem Inv.acqAwait (h : Inv s) (hat : s.pc t = .acqAwait ticket x) (howner : s.owner = ticket) :
    Inv (s.enter t) := by
  have hok := h.pcs t
  rw [hat] at hok
  obtain ⟨rfl, hlow, hx⟩ := hok
  have hlt := (List.getElem?_eq_some_iff.mp hx).1
  have hfits := h.fits
  have hreleased := h.order.low
  obtain rfl : x = s.released := by
    apply counter_eq_of_mod_eq (hreleased.trans hlow) (by omega : _ < 2 ^ 32)
    rw [← howner, h.owner]
  apply h.enter (hlow.antisymm hreleased) hx
  intro y hy hyt
  obtain ⟨ticket, hwait⟩ := h.waits y t (by omega) hyt
  rw [hat] at hwait
  cases hwait
  exact lt_irrefl _ hy

/-- The compare-and-swap of tryacquire succeeds, and its value of `owner` is not old. -/
theorem Inv.tryCas (h : Inv s) (hat : s.pc t = .tryCas o n) (hnext : s.next = o)
    (hfresh : s.arrived.length % 2 ^ 32 = n % 2 ^ 32 → s.arrived.length = n) :
    Inv ((s.arrive t (wadd 32 o 1)).enter t) := by
  have hok := h.pcs t
  rw [hat] at hok
  obtain ⟨rfl, hle⟩ := hok
  have hn : s.arrived.length = n := hfresh (h.next.symm.trans hnext)
  have hlow := h.order.low
  have hhigh := h.order.fifo.length_le
  have hreleased : s.released = s.arrived.length := by omega
  have hpc : (s.pc t).awaits = false := by
    rw [hat]
    rfl
  -- in between, the thread has its ticket and waits for it
  have hmid := (h.take hpc (by omega)).acqAwait (goto_self ..)
    (by change s.owner = s.next; rw [h.owner, h.next, hreleased])
  rw [← hnext]
  convert hmid using 1
  simp only [State.enter, State.goto, State.arrive, update_idem]

theorem Inv.relWrite (h : Inv s) (hat : s.pc t = .relWrite owner) :
    Inv (s.pass t (wadd 32 owner 1)) := by
  have hok := h.pcs t
  rw [hat] at hok
  obtain ⟨hheld, rfl⟩ := hok
  have hother {u : Tid} (hu : u ≠ t) : update s.held t false u = s.held u :=
    update_of_ne hu ..
  have hkeeps {u : Tid} (hu : u ≠ t) : Keeps s (s.pass t (wadd 32 s.owner 1)) u := by
    refine ⟨List.prefix_rfl, fun _ hx _ => hx, Nat.le_succ _, hother hu, fun huheld => ?_⟩
    exact absurd (h.order.holder huheld hheld) hu
  refine ⟨h.next, ?_, h.fits.trans (by simp [State.pass, State.goto]), ?_, fun u => ?_,
    fun x u hx hu => ?_⟩
  · change wadd 32 s.owner 1 = (s.released + 1) % 2 ^ 32
    rw [h.owner, wadd_mod]
  · exact h.order.leave hheld (update_self ..) fun u hu => hother hu
  · rcases eq_or_ne u t with rfl | hu
    · rw [State.pass, goto_self]
      trivial
    · rw [State.pass, goto_other _ _ hu]
      exact (h.pcs u).keep (hkeeps hu)
  · obtain ⟨ticket, hwait⟩ := h.waits x u hx hu
    refine ⟨ticket, ?_⟩
    rw [State.pass, goto_other]
    · exact hwait
    · rintro rfl
      rw [hat] at hwait
      cases hwait

theorem Inv.nextStep (h : Inv s) (hfew : few s (.step t) = true)
    (hfresh : fresh s (.step t) = true) (hstep : nextStep s t = some s') : Inv s' := by
  have hok := h.pcs t
  simp only [Ticketlock.nextStep] at hstep
  simp only [few, fresh] at hfew hfresh
  cases hat : s.pc t with
  | idle =>
    rw [hat] at hstep
    cases hstep
  | acqInc =>
    rw [hat] at hstep hfew
    cases hstep
    exact h.take (by rw [hat]; rfl) (of_decide_eq_true hfew)
  | acqAwait ticket x =>
    rw [hat] at hstep
    obtain ⟨howner, hstep⟩ := Option.ite_none_right_eq_some.mp hstep
    cases hstep
    exact h.acqAwait hat howner
  | tryRead =>
    rw [hat] at hstep
    cases hstep
    exact h.goto (by rw [hat]; rfl) ⟨h.owner, le_rfl⟩
  | tryCas o n =>
    rw [hat] at hstep hfresh
    dsimp only at hstep
    split at hstep
    next hnext =>
      cases hstep
      exact h.tryCas hat hnext (of_decide_eq_true hfresh)
    next =>
      cases hstep
      exact h.goto (by rw [hat]; rfl) trivial
  | relRead =>
    rw [hat] at hstep hok
    cases hstep
    exact h.goto (by rw [hat]; rfl) ⟨hok, rfl⟩
  | relWrite owner =>
    rw [hat] at hstep
    cases hstep
    exact h.relWrite hat
  | waitersNext =>
    rw [hat] at hstep hok
    cases hstep
    exact h.goto (by rw [hat]; rfl) ⟨hok, h.next, h.order.left_le, h.fits⟩
  | waitersOwner next n =>
    rw [hat] at hstep hok
    obtain ⟨hheld, rfl, hlow, hhigh⟩ := hok
    cases hstep
    apply h.goto (by rw [hat]; rfl)
    refine ⟨hheld, ?_⟩
    rw [decide_eq_true_iff, h.owner, wsub_counter hlow (by omega)]
    omega
  | waitersRet answer n =>
    rw [hat] at hstep
    cases hstep
    exact h.goto (by rw [hat]; rfl) trivial

theorem Inv.step {a : Act Tid} (h : Inv s) (hfew : few s a = true) (hfresh : fresh s a = true)
    (hstep : step s a = some s') : Inv s' := by
  cases a with
  | acquire t | tryacquire t =>
    obtain ⟨hat, heq⟩ := Option.ite_none_right_eq_some.mp hstep
    cases heq
    exact h.goto (by rw [hat]; rfl) trivial
  | release t | hasWaiters t =>
    obtain ⟨⟨hat, hheld⟩, heq⟩ := Option.ite_none_right_eq_some.mp hstep
    cases heq
    exact h.goto (by rw [hat]; rfl) hheld
  | step t => exact h.nextStep hfew hfresh hstep

omit [DecidableEq Tid] in
theorem Initial.inv (h : Initial s) : Inv s := by
  obtain ⟨next, owner, pc, held, arrived, granted, released⟩ := s
  obtain ⟨rfl, rfl, rfl, rfl, rfl, rfl, rfl⟩ := h
  refine ⟨rfl, rfl, ?_, Serving.init, fun _ => trivial, ?_⟩
  · exact (Nat.two_pow_pos 32).trans_eq (Nat.zero_add _).symm
  · intro x t _ hat
    cases hat

variable {past : List (State Tid × Act Tid)}

theorem run_inv (run : (machine Tid).Run past s) (hfew : AllSteps (fun s a => few s a = true) past)
    (hfresh : AllSteps (fun s a => fresh s a = true) past) : Inv s := by
  have hboth : AllSteps (fun s a => few s a = true ∧ fresh s a = true) past := by
    intro p hp
    exact ⟨hfew p hp, hfresh p hp⟩
  apply run.invariant_if _ _ hboth
  · intro s h
    exact h.inv
  · intro s a s' h hok hstep
    exact h.step hok.1 hok.2 hstep

structure Safe (s : State Tid) : Prop where
  exclusive : ∀ t u, s.held t = true → s.held u = true → t = u
  fifo : s.granted <+: s.arrived
  /-- The holder, whose ticket is number `released`, is told whether one of the `n` tickets that
  had been taken when `next` was read is behind its own. -/
  waiters : ∀ t answer n, s.pc t = .waitersRet answer n →
    s.held t = true ∧ (answer = true ↔ s.released + 1 < n)
  /-- While nobody holds the lock, the calls do not all wait. -/
  live : ∀ t, s.pc t ≠ .idle →
    (∃ u, s.held u = true) ∨ ∃ u s', s.pc u ≠ .idle ∧ (machine Tid).step s (.step u) = some s'

theorem Inv.live (h : Inv s) (hbusy : s.pc t ≠ .idle) :
    (∃ u, s.held u = true) ∨ ∃ u s', s.pc u ≠ .idle ∧ Ticketlock.nextStep s u = some s' := by
  have hgo {u : Tid} (hu : s.pc u ≠ .idle) (hnext : (Ticketlock.nextStep s u).isSome) :
      ∃ u s', s.pc u ≠ .idle ∧ Ticketlock.nextStep s u = some s' :=
    ⟨u, _, hu, Option.some_get hnext |>.symm⟩
  cases hat : s.pc t with
  | idle => exact absurd hat hbusy
  | acqAwait ticket x =>
    have hok := h.pcs t
    rw [hat] at hok
    obtain ⟨-, hlow, hx⟩ := hok
    have hlt := (List.getElem?_eq_some_iff.mp hx).1
    have hreleased := h.order.low
    have hnext := List.getElem?_eq_getElem (show s.released < s.arrived.length by omega)
    rcases hreleased.lt_or_eq with hserved | hfree
    · left
      have hhigh := h.order.high
      exact ⟨_, (h.order.held _).mpr ⟨by omega, hnext⟩⟩
    · -- the thread whose ticket is the next one finds it in `owner`
      right
      obtain ⟨word, hwait⟩ := h.waits s.released _ hfree.ge hnext
      have hword := h.pcs s.arrived[s.released]
      rw [hwait] at hword
      apply hgo (u := s.arrived[s.released])
      · rw [hwait]
        exact Pc.noConfusion
      · rw [Ticketlock.nextStep, hwait]
        dsimp only
        rw [if_pos (h.owner.trans hword.1.symm)]
        rfl
  | tryCas o n =>
    right
    apply hgo hbusy
    rw [Ticketlock.nextStep, hat]
    dsimp only
    split <;> rfl
  | _ =>
    right
    apply hgo hbusy
    rw [Ticketlock.nextStep, hat]
    rfl

theorem ticketlock_safe (run : (machine Tid).Run past s)
    (hfew : AllSteps (fun s a => few s a = true) past)
    (hfresh : AllSteps (fun s a => fresh s a = true) past) : Safe s := by
  have h := run_inv run hfew hfresh
  constructor
  · intro t u ht hu
    exact h.order.holder ht hu
  · exact h.order.fifo
  · intro t answer n hat
    have hok := h.pcs t
    rw [hat] at hok
    exact hok
  · intro t hbusy
    exact h.live hbusy

def freeLock : State Bool where
  next := 0
  owner := 0
  pc := fun _ => .idle
  held := fun _ => false
  arrived := []
  granted := []
  released := 0

/-- The holder is told of the thread that waits, passes the lock on, and then fails to take it. -/
def handover : List (Act Bool) :=
  [.acquire false, .step false, .step false, .acquire true, .step true, .hasWaiters false,
    .step false, .step false, .step false, .release false, .step false, .step false, .step true,
    .tryacquire false, .step false, .step false, .hasWaiters true, .step true, .step true]

theorem ticketlock_safe_handover :
    ∃ past s, (machine Bool).Run past s ∧ AllSteps (fun s a => few s a = true) past ∧
      AllSteps (fun s a => fresh s a = true) past ∧ Safe s ∧ s.held true = true ∧
      s.pc false = .idle ∧ s.pc true = .waitersRet false 2 := by
  let M := ((machine Bool).guarded few).guarded fresh
  have hexec : (M.exec freeLock handover).map (fun s => (s.held true, s.pc false, s.pc true)) =
      some (true, .idle, .waitersRet false 2) := by
    decide +kernel
  obtain ⟨s, hs, hview⟩ := Option.map_eq_some_iff.mp hexec
  obtain ⟨hheld, hpcs⟩ := Prod.mk.inj hview
  obtain ⟨hfalse, htrue⟩ := Prod.mk.inj hpcs
  have run := (Machine.Run.start (M := M) (s := freeLock)
    ⟨rfl, rfl, rfl, rfl, rfl, rfl, rfl⟩).exec hs
  obtain ⟨run, hfresh⟩ := run.of_guarded
  obtain ⟨run, hfew⟩ := run.of_guarded
  exact ⟨_, s, run, hfew, hfresh, ticketlock_safe run hfew hfresh, hheld, hfalse, htrue⟩

end Libvsync.Spinlock.Ticketlock
