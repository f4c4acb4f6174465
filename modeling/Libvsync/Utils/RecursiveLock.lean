import Libvsync.Core.Machine
import Libvsync.Core.Word

/-!
The recursive lock around a base lock. The word `owner` is read by every thread without
the base lock; `count` is a plain variable, so that an increment of it is a read and a
write. A release clears `owner` before it releases the base lock.

The base lock is any lock with mutual exclusion: an acquire may take it whenever nobody
has it, a tryacquire may fail at any time, and it can be taken again as soon as its
release is called. `depth` is not read by the code: it is how often a thread has acquired
the lock and not released it.
-/

namespace Libvsync.Utils.RecursiveLock

open Libvsync.Core Function

/-- `RECURSIVE_LOCK_NOCPU` -/
def nocpu : Nat := 2 ^ 32 - 1

/-- Where a call stands. A tryacquire that returns false is back at `idle`. -/
inductive Pc where
  | idle
  | tryRead
  | tryBase
  | acqRead
  | acqBase
  | setOwner
  | incRead
  | incWrite (count : Nat)
  | relCount
  | relOwner
  | relBase
  | relRet
  | decRead
  | decWrite (count : Nat)
  | failed
  deriving DecidableEq

structure State (Tid : Type) where
  base : Option Tid
  owner : Nat
  count : Nat
  pc : Tid → Pc
  depth : Tid → Nat

/-- `refuse` is a tryacquire of the base lock that fails. -/
inductive Act (Tid : Type) where
  | tryacquire (t : Tid)
  | acquire (t : Tid)
  | release (t : Tid)
  | refuse (t : Tid)
  | step (t : Tid)

variable {Tid : Type} [DecidableEq Tid]

def State.goto (s : State Tid) (t : Tid) (pc : Pc) : State Tid :=
  { s with pc := update s.pc t pc }

/-- A call of `t` returns and leaves it with nesting depth `depth`. -/
def State.ret (s : State Tid) (t : Tid) (pc : Pc) (depth : Nat) : State Tid :=
  { s with depth := update s.depth t depth }.goto t pc

/-- The next operation of thread `t`, whose id is `id t`. -/
def nextStep (id : Tid → Nat) (s : State Tid) (t : Tid) : Option (State Tid) :=
  match s.pc t with
  | .idle | .failed => none
  | .tryRead =>
    if id t = nocpu then some (s.goto t .failed)
    else if s.owner = id t then some (s.goto t .incRead)
    else if s.owner = nocpu then some (s.goto t .tryBase)
    else some (s.goto t .idle)
  | .acqRead =>
    if id t = nocpu then some (s.goto t .failed)
    else if s.owner = id t then some (s.goto t .incRead)
    else some (s.goto t .acqBase)
  | .tryBase | .acqBase =>
    if s.base = none then some ({ s with base := some t }.goto t .setOwner) else none
  | .setOwner => some ({ s with owner := id t }.ret t .idle (s.depth t + 1))
  | .incRead => some (s.goto t (.incWrite s.count))
  | .incWrite count => some ({ s with count := wadd 32 count 1 }.ret t .idle (s.depth t + 1))
  | .relCount => some (s.goto t (if s.count = 0 then .relOwner else .decRead))
  | .relOwner => some ({ s with owner := nocpu }.goto t .relBase)
  | .relBase => some ({ s with base := none }.ret t .relRet (s.depth t - 1))
  | .relRet => some (s.goto t .idle)
  | .decRead => some (s.goto t (.decWrite s.count))
  | .decWrite count => some ({ s with count := wsub 32 count 1 }.ret t .idle (s.depth t - 1))

/-- A thread releases the lock only as often as it has acquired it. -/
def step (id : Tid → Nat) (s : State Tid) : Act Tid → Option (State Tid)
  | .tryacquire t => if s.pc t = .idle then some (s.goto t .tryRead) else none
  | .acquire t => if s.pc t = .idle then some (s.goto t .acqRead) else none
  | .release t => if s.pc t = .idle ∧ 0 < s.depth t then some (s.goto t .relCount) else none
  | .refuse t => if s.pc t = .tryBase then some (s.goto t .idle) else none
  | .step t => nextStep id s t

structure Initial (s : State Tid) : Prop where
  base : s.base = none
  owner : s.owner = nocpu
  count : s.count = 0
  pc : s.pc = fun _ => .idle
  depth : s.depth = fun _ => 0

def machine (Tid : Type) [DecidableEq Tid] (id : Tid → Nat) : Machine (State Tid) (Act Tid) where
  start := Initial
  step := step id

/-- The counter of recursions is not increased when it has its largest value. -/
def Pc.fits : Pc → Bool
  | .incWrite count => count + 1 < 2 ^ 32
  | _ => true

def fits (s : State Tid) : Act Tid → Bool
  | .step t => (s.pc t).fits
  | _ => true

/-- Inside the path for the thread that has the lock already. -/
def Pc.fast : Pc → Bool
  | .incRead | .incWrite _ => true
  | _ => false

/-- Where a thread may stand that does not have the base lock. -/
def Pc.outside : Pc → Bool
  | .idle | .tryRead | .tryBase | .acqRead | .acqBase | .relRet => true
  | _ => false

/-- What the thread knows that has the base lock. -/
def Owns (id : Tid → Nat) (s : State Tid) (t : Tid) : Prop :=
  match s.pc t with
  | .setOwner => s.owner = nocpu ∧ s.count = 0 ∧ s.depth t = 0
  | .relBase => s.owner = nocpu ∧ s.count = 0 ∧ s.depth t = 1
  | .relOwner => s.owner = id t ∧ s.count = 0 ∧ s.depth t = 1
  | .incWrite count => s.owner = id t ∧ s.depth t = s.count + 1 ∧ count = s.count
  | .decRead => s.owner = id t ∧ s.depth t = s.count + 1 ∧ s.count ≠ 0
  | .decWrite count => s.owner = id t ∧ s.depth t = s.count + 1 ∧ s.count ≠ 0 ∧ count = s.count
  | .idle | .tryRead | .acqRead | .incRead | .relCount => s.owner = id t ∧ s.depth t = s.count + 1
  | .tryBase | .acqBase | .relRet | .failed => False

structure Inv (id : Tid → Nat) (s : State Tid) : Prop where
  small : s.count < 2 ^ 32
  free : s.base = none → s.owner = nocpu ∧ s.count = 0
  outside : ∀ t, s.base ≠ some t → s.depth t = 0 ∧ (s.pc t).outside = true
  owns : ∀ t, s.base = some t → Owns id s t

variable {id : Tid → Nat} {s s' : State Tid} {t u : Tid}

theorem goto_self (s : State Tid) (t : Tid) (pc : Pc) : (s.goto t pc).pc t = pc :=
  update_self ..

theorem goto_other (s : State Tid) (pc : Pc) (hu : u ≠ t) : (s.goto t pc).pc u = s.pc u :=
  update_of_ne hu ..

omit [DecidableEq Tid] in
/-- A thread that is not at one of the outside positions has the base lock. -/
theorem Inv.base_of_inside (h : Inv id s) (ht : (s.pc t).outside = false) : s.base = some t := by
  by_contra hbase
  rw [(h.outside t hbase).2] at ht
  cases ht

theorem Inv.wander (h : Inv id s) (hbase : s.base ≠ some t) {pc : Pc}
    (hpc : pc.outside = true) : Inv id (s.goto t pc) := by
  refine ⟨h.small, h.free, fun u hu => ⟨(h.outside u hu).1, ?_⟩, fun u hu => ?_⟩
  · by_cases hut : u = t
    · rw [hut, goto_self]
      exact hpc
    · rw [goto_other _ _ hut]
      exact (h.outside u hu).2
  · have hut : u ≠ t := fun heq => hbase (heq ▸ hu)
    have hold := h.owns u hu
    unfold Owns at hold ⊢
    rw [goto_other _ _ hut]
    exact hold

omit [DecidableEq Tid] in
/-- The thread that has the base lock moves on and keeps it. -/
theorem Inv.own (h : Inv id s) (hbase : s.base = some t) (hbase' : s'.base = some t)
    (hpc : ∀ u, u ≠ t → s'.pc u = s.pc u) (hdepth : ∀ u, u ≠ t → s'.depth u = s.depth u)
    (hfits : s'.count < 2 ^ 32) (howns : Owns id s' t) : Inv id s' := by
  refine ⟨hfits, fun hnone => ?_, fun u hu => ?_, fun u hu => ?_⟩
  · rw [hbase'] at hnone
    cases hnone
  · have hut : u ≠ t := fun heq => hu (heq ▸ hbase')
    rw [hpc u hut, hdepth u hut]
    exact h.outside u fun hold => hut (Option.some.inj (hold.symm.trans hbase))
  · obtain rfl : u = t := Option.some.inj (hu.symm.trans hbase')
    exact howns

theorem Inv.own_goto (h : Inv id s) (hbase : s.base = some t) {pc : Pc}
    (howns : Owns id (s.goto t pc) t) : Inv id (s.goto t pc) :=
  h.own hbase hbase (fun _ hu => goto_other _ _ hu) (fun _ _ => rfl) h.small howns

theorem ret_depth (s : State Tid) (t : Tid) (pc : Pc) (depth : Nat) :
    (s.ret t pc depth).pc t = pc ∧ (s.ret t pc depth).depth t = depth :=
  ⟨update_self .., update_self ..⟩

theorem ret_other (s : State Tid) (pc : Pc) (depth : Nat) (hu : u ≠ t) :
    (s.ret t pc depth).pc u = s.pc u ∧ (s.ret t pc depth).depth u = s.depth u :=
  ⟨update_of_ne hu .., update_of_ne hu ..⟩

theorem Inv.own_ret (h : Inv id s) (hbase : s.base = some t) {owner count depth : Nat}
    (hfits : count < 2 ^ 32) (howner : owner = id t) (hdepth : depth = count + 1) :
    Inv id ({ s with owner := owner, count := count }.ret t .idle depth) := by
  refine h.own hbase hbase (fun u hu => (ret_other _ _ _ hu).1)
    (fun u hu => (ret_other _ _ _ hu).2) hfits ?_
  rw [Owns, (ret_depth ..).1, (ret_depth ..).2]
  exact ⟨howner, hdepth⟩

theorem Inv.take (h : Inv id s) (hfree : s.base = none) :
    Inv id ({ s with base := some t }.goto t .setOwner) := by
  obtain ⟨howner, hcount⟩ := h.free hfree
  have hout (u : Tid) := h.outside u (by rw [hfree]; exact nofun)
  refine ⟨h.small, nofun, fun u hu => ?_, fun u hu => ?_⟩
  · have hut : u ≠ t := fun heq => hu (heq ▸ rfl)
    rw [goto_other _ _ hut]
    exact hout u
  · obtain rfl : u = t := (Option.some.inj hu).symm
    rw [Owns, goto_self]
    exact ⟨howner, hcount, (hout u).1⟩

theorem Inv.relBase (h : Inv id s) (hat : s.pc t = .relBase) :
    Inv id ({ s with base := none }.ret t .relRet (s.depth t - 1)) := by
  have hbase := h.base_of_inside (t := t) (by rw [hat]; rfl)
  have hold := h.owns t hbase
  rw [Owns, hat] at hold
  obtain ⟨howner, hcount, hdepth⟩ := hold
  obtain ⟨hself, hself'⟩ := ret_depth { s with base := none } t .relRet (s.depth t - 1)
  refine ⟨h.small, fun _ => ⟨howner, hcount⟩, fun u _ => ?_, nofun⟩
  by_cases hut : u = t
  · rw [hut, hself, hself', hdepth]
    exact ⟨rfl, rfl⟩
  · rw [(ret_other _ _ _ hut).1, (ret_other _ _ _ hut).2]
    exact h.outside u fun heq => hut (Option.some.inj (heq.symm.trans hbase))

omit [DecidableEq Tid] in
/-- Only the thread that has the base lock can find its id in `owner`. -/
theorem Inv.base_of_owner (h : Inv id s) (hinj : Function.Injective id)
    (hid : id t ≠ nocpu) (howner : s.owner = id t) : s.base = some t := by
  cases hbase : s.base with
  | none =>
    rw [(h.free hbase).1] at howner
    exact absurd howner.symm hid
  | some u =>
    have hcases : s.owner = nocpu ∨ s.owner = id u := by
      have hold := h.owns u hbase
      unfold Owns at hold
      split at hold <;> first | exact .inl hold.1 | exact .inr hold.1 | exact hold.elim
    rcases hcases with hnone | hsome
    · exact absurd (howner.symm.trans hnone) hid
    · rw [hinj (howner.symm.trans hsome)]

/-- A read of `owner` sends only the thread that has the base lock to the fast path. -/
theorem Inv.read_owner (h : Inv id s) (hinj : Function.Injective id) (hid : id t ≠ nocpu)
    (hat : s.pc t = .tryRead ∨ s.pc t = .acqRead) (pc : Pc) (hpc : pc.outside = true) :
    (s.owner = id t → Inv id (s.goto t .incRead)) ∧ (s.owner ≠ id t → Inv id (s.goto t pc)) := by
  constructor
  · intro howner
    have hbase := h.base_of_owner hinj hid howner
    refine h.own_goto hbase ?_
    have hold := h.owns t hbase
    rw [Owns, goto_self]
    rcases hat with hat | hat <;> rw [Owns, hat] at hold <;> exact hold
  · intro howner
    refine h.wander (fun hbase => ?_) hpc
    have hold := h.owns t hbase
    rcases hat with hat | hat <;> rw [Owns, hat] at hold <;> exact howner hold.1

theorem Inv.thread_step (h : Inv id s) (hinj : Function.Injective id) (hid : id t ≠ nocpu)
    (hfits : (s.pc t).fits = true) (hstep : nextStep id s t = some s') : Inv id s' := by
  have howns (hout : (s.pc t).outside = false) : s.base = some t ∧ Owns id s t :=
    ⟨h.base_of_inside hout, h.owns t (h.base_of_inside hout)⟩
  have hcount := h.small
  cases hat : s.pc t <;> rw [nextStep, hat] at hstep
  case idle | failed => cases hstep
  case tryRead =>
    have hread (pc : Pc) (hpc : pc.outside = true) := h.read_owner hinj hid (.inl hat) pc hpc
    dsimp only at hstep
    rw [if_neg hid] at hstep
    split at hstep
    · rename_i howner
      cases hstep
      exact (hread .idle rfl).1 howner
    · rename_i howner
      split at hstep
      · cases hstep
        exact (hread _ rfl).2 howner
      · cases hstep
        exact (hread _ rfl).2 howner
  case acqRead =>
    dsimp only at hstep
    rw [if_neg hid] at hstep
    have hread := h.read_owner hinj hid (.inr hat) .acqBase rfl
    split at hstep
    · rename_i howner
      cases hstep
      exact hread.1 howner
    · rename_i howner
      cases hstep
      exact hread.2 howner
  case tryBase | acqBase =>
    dsimp only at hstep
    split at hstep
    · rename_i hfree
      cases hstep
      exact h.take hfree
    · cases hstep
  case setOwner =>
    cases hstep
    obtain ⟨hbase, hold⟩ := howns (by rw [hat]; rfl)
    rw [Owns, hat] at hold
    refine h.own_ret hbase hcount rfl ?_
    rw [hold.2.1, hold.2.2]
  case incRead =>
    cases hstep
    obtain ⟨hbase, hold⟩ := howns (by rw [hat]; rfl)
    rw [Owns, hat] at hold
    refine h.own_goto hbase ?_
    rw [Owns, goto_self]
    exact ⟨hold.1, hold.2, rfl⟩
  case incWrite count =>
    cases hstep
    obtain ⟨hbase, hold⟩ := howns (by rw [hat]; rfl)
    rw [Owns, hat] at hold
    obtain ⟨howner, hdepth, rfl⟩ := hold
    rw [hat] at hfits
    have hlt : s.count + 1 < 2 ^ 32 := of_decide_eq_true hfits
    have hsum : wadd 32 s.count 1 = s.count + 1 := wadd_of_lt hlt
    rw [hsum]
    exact h.own_ret hbase hlt howner (by rw [hdepth])
  case relCount =>
    cases hstep
    obtain ⟨hbase, hold⟩ := howns (by rw [hat]; rfl)
    rw [Owns, hat] at hold
    refine h.own_goto hbase ?_
    by_cases hzero : s.count = 0
    · rw [if_pos hzero, Owns, goto_self]
      exact ⟨hold.1, hzero, by change s.depth t = 1; omega⟩
    · rw [if_neg hzero, Owns, goto_self]
      exact ⟨hold.1, hold.2, hzero⟩
  case relOwner =>
    cases hstep
    obtain ⟨hbase, hold⟩ := howns (by rw [hat]; rfl)
    rw [Owns, hat] at hold
    refine h.own hbase hbase (fun u hu => goto_other _ _ hu) (fun _ _ => rfl) hcount ?_
    rw [Owns, goto_self]
    exact ⟨rfl, hold.2⟩
  case relBase =>
    cases hstep
    exact h.relBase hat
  case relRet =>
    cases hstep
    refine h.wander (fun hbase => ?_) rfl
    have hold := h.owns t hbase
    rw [Owns, hat] at hold
    exact hold
  case decRead =>
    cases hstep
    obtain ⟨hbase, hold⟩ := howns (by rw [hat]; rfl)
    rw [Owns, hat] at hold
    refine h.own_goto hbase ?_
    rw [Owns, goto_self]
    exact ⟨hold.1, hold.2.1, hold.2.2, rfl⟩
  case decWrite count =>
    cases hstep
    obtain ⟨hbase, hold⟩ := howns (by rw [hat]; rfl)
    rw [Owns, hat] at hold
    obtain ⟨howner, hdepth, hpos, rfl⟩ := hold
    have hdiff : wsub 32 s.count 1 = s.count - 1 := by
      rw [wsub]
      omega
    rw [hdiff]
    exact h.own_ret hbase (by omega) howner (by omega)

theorem Inv.step {a : Act Tid} (h : Inv id s) (hinj : Function.Injective id)
    (hid : ∀ t, id t ≠ nocpu) (hfits : fits s a = true) (hstep : step id s a = some s') :
    Inv id s' := by
  -- a call begins at `idle`, which is where a thread with and without the base lock may be
  have hcall {t : Tid} (hat : s.pc t = .idle) {pc : Pc} (hpc : pc.outside = true)
      (howns : s.base = some t → Owns id s t → Owns id (s.goto t pc) t) :
      Inv id (s.goto t pc) := by
    by_cases hbase : s.base = some t
    · exact h.own_goto hbase (howns hbase (h.owns t hbase))
    · exact h.wander hbase hpc
  cases a with
  | tryacquire t | acquire t =>
    simp only [RecursiveLock.step] at hstep
    split at hstep
    · rename_i hat
      cases hstep
      refine hcall hat rfl fun _ hold => ?_
      rw [Owns, hat] at hold
      rw [Owns, goto_self]
      exact hold
    · cases hstep
  | release t =>
    simp only [RecursiveLock.step] at hstep
    split at hstep
    · rename_i hat
      cases hstep
      have hbase : s.base = some t := by
        by_contra hne
        have hzero := (h.outside t hne).1
        omega
      have hold := h.owns t hbase
      rw [Owns, hat.1] at hold
      refine h.own_goto hbase ?_
      rw [Owns, goto_self]
      exact hold
    · cases hstep
  | refuse t =>
    simp only [RecursiveLock.step] at hstep
    split at hstep
    · rename_i hat
      cases hstep
      refine h.wander (fun hbase => ?_) rfl
      have hold := h.owns t hbase
      rw [Owns, hat] at hold
      exact hold
    · cases hstep
  | step t => exact h.thread_step hinj (hid t) hfits hstep

omit [DecidableEq Tid] in
theorem Initial.inv (h : Initial s) : Inv id s := by
  refine ⟨?_, fun _ => ⟨h.owner, h.count⟩, fun t _ => ?_, fun t ht => ?_⟩
  · rw [h.count]
    decide
  · rw [h.depth, h.pc]
    exact ⟨rfl, rfl⟩
  · rw [h.base] at ht
    cases ht

variable {past : List (State Tid × Act Tid)}

theorem run_inv (hinj : Function.Injective id) (hid : ∀ t, id t ≠ nocpu)
    (run : (machine Tid id).Run past s) (hfits : AllSteps (fun s a => fits s a = true) past) :
    Inv id s :=
  run.invariant_if (I := Inv id) (fun _ hstart => Initial.inv hstart)
    (fun _ _ _ h hok hstep => h.step hinj hid hok hstep) hfits

/-- Between calls a thread has the base lock exactly when its nesting depth is positive,
and then `count` is one less than that depth. At all times a positive depth means that the
thread has the base lock, and a thread has it with depth 0 only inside of the call that
takes it. Only the thread that has the base lock is on the fast path, and `count` is 0 when
the base lock is free. -/
structure Safe (s : State Tid) : Prop where
  held : ∀ t, s.pc t = .idle → (s.base = some t ↔ 0 < s.depth t)
  depth : ∀ t, s.pc t = .idle → s.base = some t → s.count + 1 = s.depth t
  positive : ∀ t, 0 < s.depth t → s.base = some t
  taking : ∀ t, s.base = some t → 0 < s.depth t ∨ s.pc t = .setOwner
  fast : ∀ t, (s.pc t).fast = true → s.base = some t
  free : s.base = none → s.count = 0

omit [DecidableEq Tid] in
theorem Inv.depth_pos (h : Inv id s) (hbase : s.base = some t) :
    0 < s.depth t ∨ s.pc t = .setOwner := by
  have hold := h.owns t hbase
  cases hat : s.pc t <;> rw [Owns, hat] at hold
  case setOwner => exact .inr rfl
  case idle | tryRead | acqRead | incRead | relCount => exact .inl (by omega)
  case incWrite | decRead | decWrite => exact .inl (by omega)
  case relOwner | relBase => exact .inl (by omega)
  case tryBase | acqBase | relRet | failed => exact hold.elim

theorem recursive_lock_safe (hinj : Function.Injective id) (hid : ∀ t, id t ≠ nocpu)
    (run : (machine Tid id).Run past s) (hfits : AllSteps (fun s a => fits s a = true) past) :
    Safe s := by
  have h := run_inv hinj hid run hfits
  have hpositive (t : Tid) (hpos : 0 < s.depth t) : s.base = some t := by
    by_contra hne
    have hzero := (h.outside t hne).1
    omega
  refine ⟨fun t hat => ⟨fun hbase => ?_, hpositive t⟩, fun t hat hbase => ?_, hpositive,
    fun t => h.depth_pos, fun t hfast => h.base_of_inside ?_, fun hfree => (h.free hfree).2⟩
  · rcases h.depth_pos hbase with hpos | hset
    · exact hpos
    · rw [hat] at hset
      cases hset
  · have hold := h.owns t hbase
    rw [Owns, hat] at hold
    exact hold.2.symm
  · cases hat : s.pc t <;> rw [hat] at hfast <;> first | rfl | cases hfast

def freeLock : State Bool := ⟨none, nocpu, 0, fun _ => .idle, fun _ => 0⟩

/-- Thread `true` has the lock twice when thread `false` fails to get it. -/
def nested : List (Act Bool) :=
  [.acquire true, .step true, .step true, .step true, .tryacquire true, .step true, .step true,
    .step true, .tryacquire false, .step false, .release true, .step true, .step true, .step true]

theorem recursive_lock_safe_nested :
    ∃ past s, (machine Bool Bool.toNat).Run past s ∧ AllSteps (fun s a => fits s a = true) past ∧
      Safe s ∧ s.base = some true ∧ s.count = 0 ∧ s.depth true = 1 := by
  let M := machine Bool Bool.toNat
  have hexec : (M.exec freeLock nested).map (fun s => (s.base, s.count, s.depth true)) =
      some (some true, 0, 1) := by
    decide +kernel
  have hfits : ∀ p ∈ M.pastOf freeLock [] nested, fits p.1 p.2 = true := by
    decide +kernel
  have hinjective : Function.Injective Bool.toNat := by
    intro a b
    cases a <;> cases b <;> decide
  obtain ⟨s, hs, hview⟩ := Option.map_eq_some_iff.mp hexec
  obtain ⟨hbase, hrest⟩ := Prod.mk.inj hview
  obtain ⟨hcount, hdepth⟩ := Prod.mk.inj hrest
  have run := (Machine.Run.start (M := M) (s := freeLock) ⟨rfl, rfl, rfl, rfl, rfl⟩).exec hs
  exact ⟨_, s, run, hfits, recursive_lock_safe hinjective (by decide) run hfits, hbase, hcount,
    hdepth⟩

/-- One thread that has acquired the lock `k + 1` times. -/
def deep (k : Nat) : State Unit := ⟨some (), 0, k % 2 ^ 32, fun _ => .idle, fun _ => k + 1⟩

def once : List (Act Unit) := [.acquire (), .step (), .step (), .step ()]

theorem update_unit {β : Type} (f : Unit → β) (v : β) : update f () v = fun _ => v := by
  funext u
  exact update_self ..

theorem exec_deep (k : Nat) :
    (machine Unit fun _ => 0).exec (deep k) once = some (deep (k + 1)) := by
  have hid : (0 : Nat) ≠ nocpu := by decide
  simp only [once, deep, Machine.exec, machine, step, nextStep, State.goto, State.ret, update_unit,
    Option.bind_some, if_true, if_neg hid, wadd_mod]

theorem deep_run (k : Nat) : ∃ past, (machine Unit fun _ => 0).Run past (deep k) := by
  induction k with
  | zero =>
    let free : State Unit := ⟨none, nocpu, 0, fun _ => .idle, fun _ => 0⟩
    have hexec : (machine Unit fun _ => 0).exec free once = some (deep 0) := by
      have hid : (0 : Nat) ≠ nocpu := by decide
      simp only [free, once, deep, Machine.exec, machine, step, nextStep, State.goto, State.ret,
        update_unit, Option.bind_some, if_true, if_neg hid, if_neg hid.symm, Nat.zero_mod]
    exact ⟨_, (Machine.Run.start (M := machine Unit fun _ => 0) (s := free)
      ⟨rfl, rfl, rfl, rfl, rfl⟩).exec hexec⟩
  | succ k ih =>
    obtain ⟨past, run⟩ := ih
    exact ⟨_, run.exec (exec_deep k)⟩

/-- One thread acquires the lock `2 ^ 32 + 1` times and releases it once: the base lock is
free, although the thread has `2 ^ 32` releases left. -/
theorem recursive_lock_wraps :
    ∃ past s, (machine Unit fun _ => 0).Run past s ∧ s.base = none ∧ s.pc () = .idle ∧
      s.depth () = 2 ^ 32 ∧ ¬ Safe s := by
  obtain ⟨past, run⟩ := deep_run (2 ^ 32)
  let last : State Unit := ⟨none, nocpu, 0, fun _ => .idle, fun _ => 2 ^ 32⟩
  have hexec : (machine Unit fun _ => 0).exec (deep (2 ^ 32))
      [.release (), .step (), .step (), .step (), .step ()] = some last := by
    simp only [deep, last, Machine.exec, machine, step, nextStep, State.goto, State.ret,
      update_unit, Option.bind_some, if_true, Nat.mod_self, Nat.succ_pos, and_self,
      Nat.add_sub_cancel]
  refine ⟨_, last, run.exec hexec, rfl, rfl, rfl, fun hsafe => ?_⟩
  have hbase := hsafe.positive () (by decide)
  cases hbase

end Libvsync.Utils.RecursiveLock
