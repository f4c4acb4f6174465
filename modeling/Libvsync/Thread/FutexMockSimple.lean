import Libvsync.Core.Futex
import Libvsync.Core.Word

/-!
The futex mock `futex_mock_liveness_simple`, at one bucket. A wait takes a ticket and waits
until `grant` has reached it, and a wake call moves `grant` on, but not beyond the tickets.

All calls are for one address, so the bucket has no other one and `addr` only says whether it
is set. `order` are the threads of the tickets; the code does not read it.
-/

namespace Libvsync.Thread.FutexMockSimple

open Libvsync.Core Function

/-- Where a call stands, with its arguments and local variables. -/
inductive Pc where
  | idle
  | waitLock (v : Nat)
  | waitRead (v : Nat)
  | waitAddr
  | waitTicket
  | waitUnlock (t : Option Nat)
  | await (t : Nat)
  | wakeLock (v : Nat)
  | wakeAddr (v : Nat)
  | wakeGrant (v : Nat)
  | wakeWrite (v g : Nat)
  | wakeUnlock
  deriving DecidableEq

structure State (Tid : Type) where
  word : Nat
  lock : Option Tid
  addr : Bool
  grant : Nat
  ticket : Nat
  pc : Tid → Pc
  order : List Tid

inductive Act (Tid : Type) where
  | vfutexWait (t : Tid) (v : Nat)
  | vfutexWake (t : Tid) (v : Nat)
  | write (v : Nat)
  | step (t : Tid)

variable {Tid : Type} [DecidableEq Tid]

def State.goto (s : State Tid) (t : Tid) (pc : Pc) : State Tid :=
  { s with pc := update s.pc t pc }

/-- `caslock_acquire(&g_vfutex_lock)` -/
def State.acquire (s : State Tid) (t : Tid) (pc : Pc) : Option (State Tid) :=
  if s.lock = none then some ({ s with lock := some t }.goto t pc) else none

/-- `caslock_release(&g_vfutex_lock)` -/
def State.release (s : State Tid) (t : Tid) (pc : Pc) : State Tid :=
  { s with lock := none }.goto t pc

/-- The next step of `u` in `vfutex_wait` or `vfutex_wake`. -/
def nextStep (s : State Tid) (u : Tid) : Option (State Tid) :=
  match s.pc u with
  | .idle => none
  | .waitLock v => s.acquire u (.waitRead v)
  | .waitRead v =>
    if s.word ≠ v then some (s.goto u (.waitUnlock none)) else some (s.goto u .waitAddr)
  | .waitAddr => some ({ s with addr := true }.goto u .waitTicket)
  | .waitTicket =>
    some ({ s with ticket := wadd 32 s.ticket 1, order := s.order ++ [u] }.goto u
      (.waitUnlock (some s.ticket)))
  | .waitUnlock none => some (s.release u .idle)
  | .waitUnlock (some t) => some (s.release u (.await t))
  | .await t => if t ≤ s.grant then some (s.goto u .idle) else none
  | .wakeLock v => s.acquire u (.wakeAddr v)
  | .wakeAddr v => if s.addr then some (s.goto u (.wakeGrant v)) else some (s.goto u .wakeUnlock)
  | .wakeGrant v => some (s.goto u (.wakeWrite v s.grant))
  | .wakeWrite v g =>
    if s.ticket > g then
      some ({ s with grant := wadd 32 g (min (wsub 32 s.ticket g) v) }.goto u .wakeUnlock)
    else some (s.goto u .wakeUnlock)
  | .wakeUnlock => some (s.release u .idle)

def step (s : State Tid) : Act Tid → Option (State Tid)
  | .vfutexWait t v => if s.pc t = .idle then some (s.goto t (.waitLock v)) else none
  | .vfutexWake t v => if s.pc t = .idle then some (s.goto t (.wakeLock v)) else none
  | .write v => some { s with word := v }
  | .step t => nextStep s t

structure Initial (s : State Tid) : Prop where
  lock : s.lock = none
  addr : s.addr = false
  grant : s.grant = 0
  ticket : s.ticket = 0
  pc : s.pc = fun _ => .idle
  order : s.order = []

def machine (Tid : Type) [DecidableEq Tid] : Machine (State Tid) (Act Tid) where
  start := Initial
  step := step

/-- What a step is for the callers. A wait is named by its thread. -/
def event (s : State Tid) : Act Tid → Option (FutexEvent Unit Tid)
  | .write v => some (.write () v)
  | .step t =>
    match s.pc t with
    | .waitRead v => if s.word ≠ v then none else some (.sleep () v t)
    | .await _ => some (.back t)
    | .wakeAddr v => if s.addr then none else some (.wake () v)
    | .wakeWrite v _ => some (.wake () v)
    | _ => none
  | _ => none

/-- No wait finds the value that it was called with. -/
def NotFound (s : State Tid) (a : Act Tid) : Prop :=
  ∀ t v, a = .step t → s.pc t = .waitRead v → s.word ≠ v

/-- Fewer than `2 ^ 32` tickets are taken. -/
def Few (s : State Tid) (a : Act Tid) : Prop :=
  ∀ t, a = .step t → s.pc t = .waitTicket → s.ticket + 1 < 2 ^ 32

/-- No wait returns when `grant` is its own ticket, that is as the oldest wait that was not
selected. -/
def NotOldest (s : State Tid) (a : Act Tid) : Prop :=
  ∀ u t, a = .step u → s.pc u = .await t → s.grant ≠ t

/-- The abstract futex at a state. A wait that waits has a ticket that `grant` is not beyond.
Unless a call holds the lock, the threads in the loop of a wait are those that wait and those
that were selected, and `grant` is beyond the tickets of the latter. -/
structure Agrees (s : State Tid) (f : Futex Unit Tid) : Prop where
  word : f.word () = s.word
  blocked : ∀ u ∈ f.waiting (), ∀ t, s.pc u = .await t → s.grant ≤ t
  released : s.lock = none → ∀ u ∈ f.woken, ∃ t, s.pc u = .await t ∧ t < s.grant
  waits : s.lock = none → ∀ u t, s.pc u = .await t → u ∈ f.woken ∨ u ∈ f.waiting ()

/-- The thread has the lock. -/
def Pc.inside : Pc → Bool
  | .idle | .waitLock _ | .await _ | .wakeLock _ => false
  | _ => true

/-- The ticket of a wait. -/
def Pc.ticket : Pc → Option Nat
  | .await t => some t
  | .waitUnlock t => t
  | _ => none

/-- The wait has compared the word and has no ticket yet. -/
def Pc.linking : Pc → Bool
  | .waitAddr | .waitTicket => true
  | _ => false

def State.linking (s : State Tid) : List Tid :=
  match s.lock with
  | none => []
  | some t => if (s.pc t).linking then [t] else []

/-- What the thread with the lock knows. -/
def HolderOk (s : State Tid) : Pc → Prop
  | .waitTicket | .wakeGrant _ => s.addr = true
  | .wakeWrite _ g => s.addr = true ∧ g = s.grant
  | _ => True

/-- The mock and the abstract futex. -/
structure Sim (s : State Tid) (f : Futex Unit Tid) : Prop where
  lock : ∀ t, (s.pc t).inside = true ↔ s.lock = some t
  tickets : s.ticket = s.order.length
  room : s.order.length < 2 ^ 32
  grant : s.grant ≤ s.order.length
  addr : s.addr = false → s.order = []
  behind : ∀ u t, s.order[t]? = some u → s.grant ≤ t → (s.pc u).ticket = some t
  own : ∀ u t, (s.pc u).ticket = some t → s.order[t]? = some u
  holder : ∀ t, s.lock = some t → HolderOk s (s.pc t)
  word : f.word () = s.word
  waiting : (f.waiting ()).Perm (s.linking ++ s.order.drop s.grant)
  woken : ∀ u, u ∈ f.woken ↔ ∃ t, (s.pc u).ticket = some t ∧ t < s.grant

variable {s s' : State Tid} {f : Futex Unit Tid} {t u : Tid} {pc : Pc} {k n v : Nat}

theorem goto_self (s : State Tid) (t : Tid) (pc : Pc) : (s.goto t pc).pc t = pc :=
  update_self ..

theorem goto_other (s : State Tid) (pc : Pc) (hu : u ≠ t) : (s.goto t pc).pc u = s.pc u :=
  update_of_ne hu ..

section

omit [DecidableEq Tid]

theorem linking_some (hlock : s.lock = some t) :
    s.linking = if (s.pc t).linking then [t] else [] := by
  rw [State.linking, hlock]

theorem linking_none (hlock : s.lock = none) : s.linking = [] := by
  rw [State.linking, hlock]

theorem Sim.outside (hsim : Sim s f) (hs : s.lock = some t) (hu : u ≠ t) :
    (s.pc u).inside = false := by
  rw [Bool.eq_false_iff]
  intro hin
  exact hu (Option.some.inj (((hsim.lock u).mp hin).symm.trans hs))

theorem Sim.free (hsim : Sim s f) (hs : s.lock = none) (u : Tid) : (s.pc u).inside = false := by
  rw [Bool.eq_false_iff, Ne, hsim.lock, hs]
  nofun

end

/-- The lock is as the thread says that moves. -/
theorem Sim.lock_keep (hsim : Sim s f) (hinside : pc.inside = (s.pc t).inside) (u : Tid) :
    (update s.pc t pc u).inside = true ↔ s.lock = some u := by
  by_cases hut : u = t
  · rw [hut, update_self, hinside, hsim.lock]
  · rw [update_of_ne hut, hsim.lock]

theorem Sim.lock_take (hsim : Sim s f) (hs : s.lock = none) (hinside : pc.inside = true) (u : Tid) :
    (update s.pc t pc u).inside = true ↔ some t = some u := by
  by_cases hut : u = t
  · rw [hut, update_self]
    exact iff_of_true hinside rfl
  · rw [update_of_ne hut, hsim.free hs u]
    exact iff_of_false Bool.false_ne_true fun heq => hut (Option.some.inj heq).symm

theorem Sim.lock_free (hsim : Sim s f) (hin : (s.pc t).inside = true) (hinside : pc.inside = false)
    (u : Tid) : (update s.pc t pc u).inside = true ↔ none = some u := by
  refine iff_of_false ?_ nofun
  by_cases hut : u = t
  · rw [hut, update_self, hinside]
    exact Bool.false_ne_true
  · rw [update_of_ne hut, hsim.outside ((hsim.lock t).mp hin) hut]
    exact Bool.false_ne_true

theorem ticket_keep (hticket : pc.ticket = (s.pc t).ticket) (u : Tid) :
    (update s.pc t pc u).ticket = (s.pc u).ticket := by
  by_cases hut : u = t
  · rw [hut, update_self, hticket]
  · rw [update_of_ne hut]

theorem Sim.still (hsim : Sim s f) (hpc : s'.pc = update s.pc t pc)
    (hword : s'.word = s.word) (haddr : s'.addr = true ∨ s'.addr = s.addr)
    (hgrant : s'.grant = s.grant) (hticket : s'.ticket = s.ticket) (horder : s'.order = s.order)
    (hmine : pc.ticket = (s.pc t).ticket) (hlinking : s'.linking = s.linking)
    (hlock : ∀ u, (update s.pc t pc u).inside = true ↔ s'.lock = some u)
    (hholder : ∀ u, s'.lock = some u → HolderOk s' (s'.pc u)) : Sim s' f := by
  have hkeep (u : Tid) : (s'.pc u).ticket = (s.pc u).ticket := by
    rw [hpc]
    exact ticket_keep hmine u
  refine ⟨fun u => ?_, ?_, ?_, ?_, fun hnone => ?_, fun u k hk hle => ?_, fun u k hk => ?_, hholder,
    hsim.word.trans hword.symm, ?_, fun u => ?_⟩
  · rw [hpc]
    exact hlock u
  · rw [hticket, horder]
    exact hsim.tickets
  · rw [horder]
    exact hsim.room
  · rw [horder, hgrant]
    exact hsim.grant
  · rw [horder]
    refine hsim.addr ?_
    rcases haddr with haddr | haddr
    · rw [haddr] at hnone
      cases hnone
    · exact haddr.symm.trans hnone
  · rw [horder] at hk
    rw [hgrant] at hle
    rw [hkeep]
    exact hsim.behind u k hk hle
  · rw [hkeep] at hk
    rw [horder]
    exact hsim.own u k hk
  · rw [hlinking, horder, hgrant]
    exact hsim.waiting
  · rw [hkeep, hgrant]
    exact hsim.woken u

theorem Sim.inner (hsim : Sim s f) (hin : (s.pc t).inside = true) (hinside : pc.inside = true)
    (hmine : pc.ticket = (s.pc t).ticket) (hlinking : pc.linking = (s.pc t).linking)
    (hok : HolderOk (s.goto t pc) pc) : Sim (s.goto t pc) f := by
  have hs := (hsim.lock t).mp hin
  refine hsim.still rfl rfl (.inr rfl) rfl rfl rfl hmine ?_
    (hsim.lock_keep (hinside.trans hin.symm)) fun u hu => ?_
  · rw [linking_some hs, linking_some (s := s.goto t pc) hs, goto_self, hlinking]
  · obtain rfl : t = u := Option.some.inj (hs.symm.trans hu)
    rw [goto_self]
    exact hok

omit [DecidableEq Tid] in
theorem HolderOk.congr (hok : HolderOk s pc) (haddr : s'.addr = s.addr)
    (hgrant : s'.grant = s.grant) : HolderOk s' pc := by
  cases pc <;> simp only [HolderOk, haddr, hgrant] at hok ⊢ <;> exact hok

theorem Sim.outer (hsim : Sim s f) (hout : (s.pc t).inside = false) (hinside : pc.inside = false)
    (hmine : pc.ticket = (s.pc t).ticket) : Sim (s.goto t pc) f := by
  have hnot : s.lock ≠ some t := by
    rw [Ne, ← hsim.lock, hout]
    exact Bool.false_ne_true
  have hne {u : Tid} (hu : s.lock = some u) : u ≠ t := by
    rintro rfl
    exact hnot hu
  refine hsim.still rfl rfl (.inr rfl) rfl rfl rfl hmine ?_
    (hsim.lock_keep (hinside.trans hout.symm)) fun u hu => ?_
  · cases hs : s.lock with
    | none => rw [linking_none hs, linking_none (s := s.goto t pc) hs]
    | some u => rw [linking_some hs, linking_some (s := s.goto t pc) hs, goto_other _ _ (hne hs)]
  · rw [goto_other _ _ (hne hu)]
    exact (hsim.holder u hu).congr rfl rfl

theorem Sim.acquire (hsim : Sim s f) (hs : s.lock = none) (hinside : pc.inside = true)
    (hmine : pc.ticket = (s.pc t).ticket) (hlinking : pc.linking = false)
    (hok : HolderOk s pc) : Sim ({ s with lock := some t }.goto t pc) f := by
  refine hsim.still rfl rfl (.inr rfl) rfl rfl rfl hmine ?_ (hsim.lock_take hs hinside)
    fun u hu => ?_
  · rw [linking_none hs, linking_some (s := ({ s with lock := some t } : State Tid).goto t pc) rfl,
      goto_self, hlinking]
    rfl
  · obtain rfl : t = u := Option.some.inj hu
    rw [goto_self]
    exact hok.congr rfl rfl

theorem Sim.release (hsim : Sim s f) (hin : (s.pc t).inside = true) (hinside : pc.inside = false)
    (hmine : pc.ticket = (s.pc t).ticket) (hlinking : (s.pc t).linking = false) :
    Sim (s.release t pc) f := by
  refine hsim.still rfl rfl (.inr rfl) rfl rfl rfl hmine ?_ (hsim.lock_free hin hinside)
    fun u hu => nomatch hu
  rw [linking_some ((hsim.lock t).mp hin), hlinking]
  rfl

theorem Sim.sleep (hsim : Sim s f) (hat : s.pc t = .waitRead v) (hword : s.word = v) :
    ∃ f', Futex.Step f (.sleep () v t) f' ∧ Sim (s.goto t .waitAddr) f' := by
  have hs : s.lock = some t := (hsim.lock t).mp (by rw [hat]; rfl)
  have hnone : (s.pc t).ticket = none := by
    rw [hat]
    rfl
  have hlinking : s.linking = [] := by
    rw [linking_some hs, hat]
    rfl
  have hlinking' : (s.goto t .waitAddr).linking = [t] := by
    rw [linking_some (s := s.goto t .waitAddr) hs, goto_self]
    rfl
  have hwaiting := hsim.waiting
  rw [hlinking] at hwaiting
  have hout : t ∉ f.waiting () := by
    rw [hwaiting.mem_iff]
    intro hmem
    obtain ⟨i, hi⟩ := List.mem_iff_getElem?.mp hmem
    rw [List.nil_append, List.getElem?_drop] at hi
    rw [hsim.behind t _ hi (Nat.le_add_right ..)] at hnone
    cases hnone
  refine ⟨{ f with waiting := update f.waiting () (t :: f.waiting ()) },
    .sleep f (hsim.word.trans hword) (fun _ => hout) ?_ (.refl _), ?_⟩
  · rw [hsim.woken, hnone]
    rintro ⟨k, hk, -⟩
    cases hk
  have hkeep (u : Tid) : ((s.goto t .waitAddr).pc u).ticket = (s.pc u).ticket :=
    ticket_keep (show Pc.waitAddr.ticket = _ from hnone.symm) u
  refine ⟨hsim.lock_keep (by rw [hat]; rfl), hsim.tickets, hsim.room, hsim.grant, hsim.addr,
    fun u k hk hle => ?_, fun u k hk => ?_, fun u hu => ?_, hsim.word, ?_, fun u => ?_⟩
  · rw [hkeep]
    exact hsim.behind u k hk hle
  · rw [hkeep] at hk
    exact hsim.own u k hk
  · obtain rfl : t = u := Option.some.inj (hs.symm.trans hu)
    rw [goto_self]
    trivial
  · rw [hlinking']
    change (update f.waiting () (t :: f.waiting ()) ()).Perm _
    rw [update_self]
    exact hwaiting.cons t
  · rw [hkeep]
    exact hsim.woken u

theorem Sim.takeTicket (hsim : Sim s f) (hat : s.pc t = .waitTicket)
    (hfew : s.ticket + 1 < 2 ^ 32) :
    Sim ({ s with ticket := wadd 32 s.ticket 1, order := s.order ++ [t] }.goto t
      (.waitUnlock (some s.ticket))) f := by
  have hs : s.lock = some t := (hsim.lock t).mp (by rw [hat]; rfl)
  have haddr := hsim.holder t hs
  rw [hat] at haddr
  set s' := ({ s with ticket := wadd 32 s.ticket 1, order := s.order ++ [t] } : State Tid).goto t
    (.waitUnlock (some s.ticket))
  have hself : s'.pc t = .waitUnlock (some s.ticket) := goto_self ..
  have hother : ∀ u, u ≠ t → s'.pc u = s.pc u := fun u hu => goto_other _ _ hu
  have hnone : (s.pc t).ticket = none := by
    rw [hat]
    rfl
  have hnew : s'.order[s.ticket]? = some t := by
    rw [hsim.tickets]
    exact List.getElem?_concat_length
  have hnot (u : Tid) (k : Nat) (hk : s.order[k]? = some u) (hle : s.grant ≤ k) : u ≠ t := by
    rintro rfl
    rw [hsim.behind u k hk hle] at hnone
    cases hnone
  refine ⟨hsim.lock_keep (by rw [hat]; rfl), ?_, ?_, ?_, fun hfalse => ?_, fun u k hk hle => ?_,
    fun u k hk => ?_, fun u hu => ?_, hsim.word, ?_, fun u => ?_⟩
  · change wadd 32 s.ticket 1 = (s.order ++ [t]).length
    rw [List.length_append, ← hsim.tickets, wadd_of_lt hfew]
    rfl
  · change (s.order ++ [t]).length < 2 ^ 32
    rw [List.length_append, ← hsim.tickets]
    exact hfew
  · change s.grant ≤ (s.order ++ [t]).length
    rw [List.length_append]
    exact hsim.grant.trans (Nat.le_add_right ..)
  · change s.addr = false at hfalse
    rw [show s.addr = true from haddr] at hfalse
    cases hfalse
  · change (s.order ++ [t])[k]? = some u at hk
    rcases Nat.lt_or_ge k s.order.length with hlt | hge
    · rw [List.getElem?_append_left hlt] at hk
      rw [hother u (hnot u k hk hle)]
      exact hsim.behind u k hk hle
    · rw [List.getElem?_append_right hge] at hk
      obtain ⟨hkey, rfl⟩ := List.getElem?_eq_some_iff.mp hk
      have hzero : k - s.order.length = 0 := Nat.lt_one_iff.mp hkey
      have hlast : k = s.ticket := by
        rw [hsim.tickets]
        omega
      simp only [hzero, List.getElem_cons_zero]
      rw [hself, hlast]
      rfl
  · by_cases hut : u = t
    · rw [hut, hself] at hk
      obtain rfl : s.ticket = k := Option.some.inj hk
      rw [hut]
      exact hnew
    · rw [hother u hut] at hk
      have hold := hsim.own u k hk
      change (s.order ++ [t])[k]? = some u
      rw [List.getElem?_append_left (List.getElem?_eq_some_iff.mp hold).1]
      exact hold
  · obtain rfl : t = u := Option.some.inj (hs.symm.trans hu)
    rw [hself]
    trivial
  · have hwaiting := hsim.waiting
    rw [linking_some hs, hat] at hwaiting
    rw [linking_some (s := s') hs, hself]
    change (f.waiting ()).Perm ([] ++ (s.order ++ [t]).drop s.grant)
    rw [List.drop_append_of_le_length hsim.grant, List.nil_append]
    exact hwaiting.trans List.perm_append_comm
  · rw [hsim.woken]
    by_cases hut : u = t
    · rw [hut, hnone, hself]
      refine iff_of_false ?_ ?_
      · rintro ⟨k, hk, -⟩
        cases hk
      · rintro ⟨k, hk, hlt⟩
        obtain rfl : s.ticket = k := Option.some.inj hk
        have hle := hsim.grant
        rw [← hsim.tickets] at hle
        exact Nat.lt_irrefl _ (Nat.lt_of_lt_of_le hlt hle)
    · rw [hother u hut]
      rfl

theorem Sim.back (hsim : Sim s f) (hat : s.pc t = .await k) (hlt : k < s.grant) :
    ∃ f', Futex.Step f (.back t) f' ∧ Sim (s.goto t .idle) f' := by
  have hmine : (s.pc t).ticket = some k := by
    rw [hat]
    rfl
  have hnot : s.lock ≠ some t := by
    rw [Ne, ← hsim.lock, hat]
    exact Bool.false_ne_true
  have hne {u : Tid} (hu : s.lock = some u) : u ≠ t := by
    rintro rfl
    exact hnot hu
  refine ⟨{ f with woken := f.woken \ {t} }, .back f ((hsim.woken t).mpr ⟨k, hmine, hlt⟩),
    ⟨hsim.lock_keep (by rw [hat]; rfl), hsim.tickets, hsim.room, hsim.grant, hsim.addr,
      fun u i hi hle => ?_, fun u i hi => ?_, fun u hu => ?_, hsim.word, ?_, fun u => ?_⟩⟩
  · have hut : u ≠ t := by
      rintro rfl
      obtain rfl : k = i := Option.some.inj (hmine.symm.trans (hsim.behind u i hi hle))
      exact Nat.lt_irrefl _ (Nat.lt_of_lt_of_le hlt hle)
    rw [goto_other _ _ hut]
    exact hsim.behind u i hi hle
  · have hut : u ≠ t := by
      rintro rfl
      rw [goto_self] at hi
      cases hi
    rw [goto_other _ _ hut] at hi
    exact hsim.own u i hi
  · rw [goto_other _ _ (hne hu)]
    exact (hsim.holder u hu).congr rfl rfl
  · have hlinking : (s.goto t .idle).linking = s.linking := by
      cases hs : s.lock with
      | none => rw [linking_none hs, linking_none (s := s.goto t .idle) hs]
      | some u => rw [linking_some hs, linking_some (s := s.goto t .idle) hs,
        goto_other _ _ (hne hs)]
    rw [hlinking]
    exact hsim.waiting
  · change u ∈ f.woken ∧ u ∉ ({t} : Set Tid) ↔ _
    rw [hsim.woken, Set.mem_singleton_iff]
    by_cases hut : u = t
    · rw [hut, goto_self]
      exact iff_of_false (fun hu => hu.2 rfl) fun ⟨_, hi, _⟩ => nomatch hi
    · rw [goto_other _ _ hut]
      exact and_iff_left hut

/-- A wake call moves `grant` on over the tickets that it selects. -/
theorem Sim.select (hsim : Sim s f) (hin : (s.pc t).inside = true)
    (hlinking : (s.pc t).linking = false) (hnone : (s.pc t).ticket = none)
    (hgrant : k = s.grant + min (s.order.length - s.grant) n) :
    ∃ f', Futex.Step f (.wake () n) f' ∧ Sim ({ s with grant := k }.goto t .wakeUnlock) f' := by
  have hs := (hsim.lock t).mp hin
  have hwaiting := hsim.waiting
  rw [linking_some hs, hlinking] at hwaiting
  set waiting := s.order.drop s.grant
  have hlength : waiting.length = s.order.length - s.grant := List.length_drop
  have hdrop : waiting.drop n = s.order.drop k := by
    rw [hgrant, ← hlength, ← List.drop_drop]
    rcases Nat.le_total waiting.length n with hle | hle
    · rw [Nat.min_eq_left hle, List.drop_eq_nil_of_le hle, List.drop_length]
    · rw [Nat.min_eq_right hle]
  have hhigh : k ≤ s.order.length := by
    have hle := hsim.grant
    omega
  have hlow : s.grant ≤ k := by omega
  set s' := ({ s with grant := k } : State Tid).goto t .wakeUnlock
  have hkeep (u : Tid) : (s'.pc u).ticket = (s.pc u).ticket :=
    ticket_keep (show Pc.wakeUnlock.ticket = _ from hnone.symm) u
  have hperm : (f.waiting ()).Perm (waiting.take n ++ waiting.drop n) := by
    rw [List.take_append_drop]
    exact hwaiting
  have hcount : (waiting.take n).length = min n (f.waiting ()).length := by
    rw [List.length_take, hwaiting.length_eq]
    rfl
  refine ⟨_, .wake f hperm hcount, hsim.lock_keep hin.symm, hsim.tickets, hsim.room, hhigh,
    hsim.addr, fun u i hi hle => ?_, fun u i hi => ?_, fun u hu => ?_, hsim.word, ?_, fun u => ?_⟩
  · rw [hkeep]
    exact hsim.behind u i hi (hlow.trans hle)
  · rw [hkeep] at hi
    exact hsim.own u i hi
  · obtain rfl : t = u := Option.some.inj (hs.symm.trans hu)
    rw [goto_self]
    trivial
  · rw [linking_some (s := s') hs, goto_self]
    change (update f.waiting () (waiting.drop n) ()).Perm ([] ++ s.order.drop k)
    rw [update_self, hdrop]
    exact .refl _
  · change u ∈ f.woken ∨ u ∈ waiting.take n ↔ ∃ i, (s'.pc u).ticket = some i ∧ i < k
    rw [hkeep, hsim.woken]
    constructor
    · rintro (⟨i, hi, hlt⟩ | hmem)
      · exact ⟨i, hi, Nat.lt_of_lt_of_le hlt hlow⟩
      · obtain ⟨i, hi⟩ := List.mem_iff_getElem?.mp hmem
        have hin := List.getElem?_eq_some_iff.mp hi
        have hlt : i < (waiting.take n).length := hin.1
        rw [List.length_take] at hlt
        rw [List.getElem?_take_of_lt (by omega), List.getElem?_drop] at hi
        exact ⟨s.grant + i, hsim.behind u _ hi (Nat.le_add_right ..), by omega⟩
    · rintro ⟨i, hi, hlt⟩
      rcases Nat.lt_or_ge i s.grant with hold | hnew
      · exact .inl ⟨i, hi, hold⟩
      · have hord := hsim.own u i hi
        refine .inr (List.mem_iff_getElem?.mpr ⟨i - s.grant, ?_⟩)
        rw [List.getElem?_take_of_lt (by omega), List.getElem?_drop, Nat.add_sub_cancel' hnew]
        exact hord

theorem Sim.nextStep (hsim : Sim s f) (hfew : Few s (.step t)) (hold : NotOldest s (.step t))
    (hstep : nextStep s t = some s') : Matches Futex.Step Sim (event s (.step t)) s' f := by
  have hok := hsim.holder t
  rw [FutexMockSimple.nextStep] at hstep
  rw [event]
  cases hat : s.pc t with
  | idle =>
    rw [hat] at hstep
    cases hstep
  | waitLock v | wakeLock v =>
    rw [hat] at hstep
    obtain ⟨hs, heq⟩ := Option.ite_none_right_eq_some.mp hstep
    cases heq
    exact .inl ⟨rfl, hsim.acquire hs rfl (by rw [hat]; rfl) rfl trivial⟩
  | waitRead v =>
    rw [hat] at hstep
    dsimp only at hstep ⊢
    split at hstep
    · rename_i hword
      cases hstep
      rw [if_pos hword]
      exact .inl ⟨rfl, hsim.inner (by rw [hat]; rfl) rfl (by rw [hat]; rfl) (by rw [hat]; rfl)
        trivial⟩
    · rename_i hword
      cases hstep
      rw [if_neg hword]
      obtain ⟨f', hf, hsim'⟩ := hsim.sleep hat (not_not.mp hword)
      exact .inr ⟨_, f', rfl, hf, hsim'⟩
  | waitAddr =>
    rw [hat] at hstep
    cases hstep
    have hs := (hsim.lock t).mp (by rw [hat]; rfl)
    refine .inl ⟨rfl, hsim.still rfl rfl (.inl rfl) rfl rfl rfl (by rw [hat]; rfl) ?_
      (hsim.lock_keep (by rw [hat]; rfl)) fun u hu => ?_⟩
    · rw [linking_some hs, hat,
        linking_some (s := ({ s with addr := true } : State Tid).goto t .waitTicket) hs, goto_self]
      rfl
    · obtain rfl : t = u := Option.some.inj (hs.symm.trans hu)
      rw [goto_self]
      rfl
  | waitTicket =>
    rw [hat] at hstep
    cases hstep
    exact .inl ⟨rfl, hsim.takeTicket hat (hfew t rfl hat)⟩
  | waitUnlock ticket =>
    rw [hat] at hstep
    cases ticket <;> cases hstep <;>
      exact .inl ⟨rfl, hsim.release (by rw [hat]; rfl) rfl (by rw [hat]; rfl) (by rw [hat]; rfl)⟩
  | await k =>
    rw [hat] at hstep
    obtain ⟨hle, heq⟩ := Option.ite_none_right_eq_some.mp hstep
    cases heq
    have hlt : k < s.grant := Nat.lt_of_le_of_ne hle (hold t k rfl hat).symm
    obtain ⟨f', hf, hsim'⟩ := hsim.back hat hlt
    exact .inr ⟨_, f', rfl, hf, hsim'⟩
  | wakeAddr v =>
    rw [hat] at hstep
    cases haddr : s.addr with
    | true =>
      simp only [haddr, if_true, Option.some.injEq] at hstep ⊢
      subst hstep
      exact .inl ⟨rfl, hsim.inner (by rw [hat]; rfl) rfl (by rw [hat]; rfl) (by rw [hat]; rfl)
        haddr⟩
    | false =>
      -- no wait has set the address, so there is no ticket
      simp only [haddr, Bool.false_eq_true, if_false, Option.some.injEq] at hstep ⊢
      subst hstep
      have hempty := hsim.addr haddr
      have hgrant : s.grant = s.grant + min (s.order.length - s.grant) v := by
        rw [hempty, List.length_nil, Nat.zero_sub, Nat.zero_min]
        rfl
      obtain ⟨f', hf, hsim'⟩ := hsim.select (by rw [hat]; rfl) (by rw [hat]; rfl)
        (by rw [hat]; rfl) hgrant
      exact .inr ⟨_, f', rfl, hf, hsim'⟩
  | wakeGrant v =>
    rw [hat] at hstep
    cases hstep
    have haddr := hok ((hsim.lock t).mp (by rw [hat]; rfl))
    rw [hat] at haddr
    exact .inl ⟨rfl, hsim.inner (by rw [hat]; rfl) rfl (by rw [hat]; rfl) (by rw [hat]; rfl)
      ⟨haddr, rfl⟩⟩
  | wakeWrite v g =>
    rw [hat] at hstep
    have hread := hok ((hsim.lock t).mp (by rw [hat]; rfl))
    rw [hat] at hread
    obtain ⟨-, rfl⟩ := hread
    have hroom := hsim.room
    dsimp only at hstep
    split at hstep
    · rename_i hmore
      cases hstep
      have hlt : s.grant < s.order.length := by
        rw [← hsim.tickets]
        exact hmore
      have hdiff : wsub 32 s.ticket s.grant = s.order.length - s.grant := by
        rw [hsim.tickets, wsub]
        omega
      have hgrant : wadd 32 s.grant (min (wsub 32 s.ticket s.grant) v) =
          s.grant + min (s.order.length - s.grant) v := by
        rw [hdiff, wadd]
        omega
      obtain ⟨f', hf, hsim'⟩ := hsim.select (by rw [hat]; rfl) (by rw [hat]; rfl)
        (by rw [hat]; rfl) hgrant
      exact .inr ⟨_, f', rfl, hf, hsim'⟩
    · rename_i hnone
      cases hstep
      rw [hsim.tickets] at hnone
      have hgrant : s.grant = s.grant + min (s.order.length - s.grant) v := by omega
      obtain ⟨f', hf, hsim'⟩ := hsim.select (by rw [hat]; rfl) (by rw [hat]; rfl)
        (by rw [hat]; rfl) hgrant
      exact .inr ⟨_, f', rfl, hf, hsim'⟩
  | wakeUnlock =>
    rw [hat] at hstep
    cases hstep
    exact .inl ⟨rfl, hsim.release (by rw [hat]; rfl) rfl (by rw [hat]; rfl) (by rw [hat]; rfl)⟩

theorem Sim.matches {a : Act Tid} (hsim : Sim s f) (hfew : Few s a) (hold : NotOldest s a)
    (hstep : step s a = some s') : Matches Futex.Step Sim (event s a) s' f := by
  cases a with
  | vfutexWait t v | vfutexWake t v =>
    obtain ⟨hat, heq⟩ := Option.ite_none_right_eq_some.mp hstep
    cases heq
    exact .inl ⟨rfl, hsim.outer (by rw [hat]; rfl) rfl (by rw [hat]; rfl)⟩
  | write v =>
    cases hstep
    have hsim' : Sim { s with word := v } { f with word := update f.word () v } :=
      ⟨hsim.lock, hsim.tickets, hsim.room, hsim.grant, hsim.addr, hsim.behind, hsim.own,
        fun t ht => (hsim.holder t ht).congr rfl rfl, update_self () v f.word,
        hsim.waiting, hsim.woken⟩
    exact .inr ⟨_, _, rfl, .write f () v, hsim'⟩
  | step t => exact hsim.nextStep hfew hold hstep

section

omit [DecidableEq Tid]

theorem Initial.sim (hs : Initial s) : ∃ f, Futex.Initial f ∧ Sim s f := by
  have hidle (t : Tid) : s.pc t = .idle := congrFun hs.pc t
  refine ⟨⟨fun _ => s.word, fun _ => [], ∅⟩, ⟨fun _ => rfl, rfl⟩, fun t => ?_, ?_, ?_, ?_,
    fun _ => hs.order, fun u k hk => ?_, fun u k hk => ?_, fun t ht => ?_, rfl, ?_, fun u => ?_⟩
  · rw [hidle t, hs.lock]
    exact iff_of_false Bool.false_ne_true nofun
  · rw [hs.ticket, hs.order]
    rfl
  · rw [hs.order]
    exact Nat.two_pow_pos 32
  · rw [hs.grant]
    exact Nat.zero_le _
  · rw [hs.order] at hk
    cases hk
  · rw [hidle u] at hk
    cases hk
  · rw [hs.lock] at ht
    cases ht
  · rw [linking_none hs.lock, hs.order, List.drop_nil]
    exact .refl _
  · rw [hidle u]
    exact iff_of_false (fun hu => hu) fun ⟨_, hk, _⟩ => nomatch hk

theorem Sim.agrees (hsim : Sim s f) : Agrees s f := by
  refine ⟨hsim.word, fun u hu k hat => ?_, fun hs u hu => ?_, fun hs u k hat => ?_⟩
  · have hmine : (s.pc u).ticket = some k := by
      rw [hat]
      rfl
    rw [hsim.waiting.mem_iff, List.mem_append] at hu
    rcases hu with hu | hu
    · cases hs : s.lock with
      | none =>
        rw [linking_none hs] at hu
        cases hu
      | some t =>
        rw [linking_some hs] at hu
        split at hu
        · rename_i ht
          obtain rfl := List.mem_singleton.mp hu
          rw [hat] at ht
          cases ht
        · cases hu
    · obtain ⟨i, hi⟩ := List.mem_iff_getElem?.mp hu
      rw [List.getElem?_drop] at hi
      have hk := hsim.behind u _ hi (Nat.le_add_right ..)
      obtain rfl : k = s.grant + i := Option.some.inj (hmine.symm.trans hk)
      exact Nat.le_add_right ..
  · obtain ⟨k, hk, hlt⟩ := (hsim.woken u).mp hu
    have hfree := hsim.free hs u
    cases hat : s.pc u with
    | await i =>
      rw [hat] at hk
      obtain rfl : i = k := Option.some.inj hk
      exact ⟨i, rfl, hlt⟩
    | _ => rw [hat] at hk hfree; first | (cases hk; done) | cases hfree
  · have hmine : (s.pc u).ticket = some k := by
      rw [hat]
      rfl
    rcases Nat.lt_or_ge k s.grant with hlt | hge
    · exact .inl ((hsim.woken u).mpr ⟨k, hmine, hlt⟩)
    · refine .inr (hsim.waiting.mem_iff.mpr (List.mem_append_right _ ?_))
      refine List.mem_iff_getElem?.mpr ⟨k - s.grant, ?_⟩
      rw [List.getElem?_drop, Nat.add_sub_cancel' hge]
      exact hsim.own u k hmine

end

/-- The mock is a futex as long as no wait returns as the oldest one that was not selected. -/
theorem run_trace {past : List (State Tid × Act Tid)} (run : (machine Tid).Run past s)
    (hok : AllSteps (fun s a => Few s a ∧ NotOldest s a) past) :
    ∃ f, Futex.Trace (eventsOf event past) f ∧ Agrees s f := by
  obtain ⟨f, htrace, hsim⟩ := run.simulates (R := Sim) (fun _ hs => Initial.sim hs)
    (fun _ _ _ _ hsim hok hstep => hsim.matches hok.1 hok.2 hstep) hok
  exact ⟨f, htrace, hsim.agrees⟩

/-- The places of the calls while no wait has found its value. -/
def Pc.early : Pc → Bool
  | .idle | .waitLock _ | .waitRead _ | .waitUnlock none | .wakeLock _ | .wakeAddr _
  | .wakeUnlock => true
  | _ => false

structure Unused (s : State Tid) : Prop where
  addr : s.addr = false
  grant : s.grant = 0
  ticket : s.ticket = 0
  pc : ∀ t, (s.pc t).early = true

theorem Unused.goto (h : Unused s) (hs' : s'.addr = s.addr ∧ s'.grant = s.grant ∧
    s'.ticket = s.ticket) (hpc : s'.pc = update s.pc t pc) (hearly : pc.early = true) :
    Unused s' := by
  refine ⟨hs'.1.trans h.addr, hs'.2.1.trans h.grant, hs'.2.2.trans h.ticket, fun u => ?_⟩
  rw [hpc]
  by_cases hut : u = t
  · rw [hut, update_self]
    exact hearly
  · rw [update_of_ne hut]
    exact h.pc u

theorem Unused.step (h : Unused s) {a : Act Tid} (hnot : NotFound s a)
    (hstep : step s a = some s') : Unused s' := by
  cases a with
  | vfutexWait t v | vfutexWake t v =>
    obtain ⟨-, heq⟩ := Option.ite_none_right_eq_some.mp hstep
    cases heq
    exact h.goto ⟨rfl, rfl, rfl⟩ rfl rfl
  | write v =>
    cases hstep
    exact ⟨h.addr, h.grant, h.ticket, h.pc⟩
  | step t =>
    have hearly := h.pc t
    rw [FutexMockSimple.step, nextStep] at hstep
    cases hat : s.pc t with
    | idle =>
      rw [hat] at hstep
      cases hstep
    | waitLock v | wakeLock v =>
      rw [hat] at hstep
      obtain ⟨-, heq⟩ := Option.ite_none_right_eq_some.mp hstep
      cases heq
      exact h.goto ⟨rfl, rfl, rfl⟩ rfl rfl
    | waitRead v =>
      rw [hat] at hstep
      cases (if_pos (hnot t v rfl hat)).symm.trans hstep
      exact h.goto ⟨rfl, rfl, rfl⟩ rfl rfl
    | waitUnlock ticket =>
      rw [hat] at hstep hearly
      cases ticket with
      | none =>
        cases hstep
        exact h.goto ⟨rfl, rfl, rfl⟩ rfl rfl
      | some k => cases hearly
    | wakeAddr v =>
      simp only [hat, h.addr, Bool.false_eq_true, if_false] at hstep
      cases hstep
      exact h.goto ⟨rfl, rfl, rfl⟩ rfl rfl
    | wakeUnlock =>
      rw [hat] at hstep
      cases hstep
      exact h.goto ⟨rfl, rfl, rfl⟩ rfl rfl
    | _ =>
      rw [hat] at hearly
      cases hearly

variable {past : List (State Tid × Act Tid)}

/-- While no wait finds its value, no ticket is taken and no wait is in its loop. -/
theorem run_unused (run : (machine Tid).Run past s) (hnot : AllSteps NotFound past) :
    Unused s ∧ AllSteps (fun s a => Few s a ∧ NotOldest s a) past := by
  induction run with
  | start hs =>
    refine ⟨⟨hs.addr, hs.grant, hs.ticket, fun t => ?_⟩, fun p hp => absurd hp List.not_mem_nil⟩
    rw [hs.pc]
    rfl
  | @step past s s' a prior hstep ih =>
    obtain ⟨h, hok⟩ := ih hnot.tail
    refine ⟨h.step hnot.head hstep, hok.cons ⟨fun t _ hat => ?_, fun u t _ hat => ?_⟩⟩
    · have hearly := h.pc t
      rw [hat] at hearly
      cases hearly
    · have hearly := h.pc u
      rw [hat] at hearly
      cases hearly

/-- A wait that finds its value while nobody waits comes back by its own steps. -/
theorem returns_alone (hat : s.pc t = .waitRead v) (hword : s.word = v)
    (hlone : s.ticket ≤ s.grant) :
    ∃ s', (machine Tid).exec s (List.replicate 5 (.step t)) = some s' ∧ s'.pc t = .idle ∧
      eventsOf event ((machine Tid).pastOf s past (List.replicate 5 (.step t))) =
        .back t :: .sleep () v t :: eventsOf event past := by
  have hread : (machine Tid).step s (.step t) = some (s.goto t .waitAddr) := by
    show nextStep s t = _
    rw [nextStep, hat]
    exact if_neg (not_not.mpr hword)
  have hsleep : event s (.step t) = some (.sleep () v t) := by
    rw [event, hat]
    exact if_neg (not_not.mpr hword)
  let named : State Tid := { s.goto t .waitAddr with addr := true }
  have haddr : (machine Tid).step (s.goto t .waitAddr) (.step t) =
      some (named.goto t .waitTicket) := by
    show nextStep _ t = _
    rw [nextStep, goto_self]
  let given : State Tid :=
    { named.goto t .waitTicket with ticket := wadd 32 s.ticket 1, order := s.order ++ [t] }
  have hticket : (machine Tid).step (named.goto t .waitTicket) (.step t) =
      some (given.goto t (.waitUnlock (some s.ticket))) := by
    show nextStep _ t = _
    rw [nextStep, goto_self]
    rfl
  have hunlock : (machine Tid).step (given.goto t (.waitUnlock (some s.ticket))) (.step t) =
      some ((given.goto t (.waitUnlock (some s.ticket))).release t (.await s.ticket)) := by
    show nextStep _ t = _
    rw [nextStep, goto_self]
  have hawait : (machine Tid).step ((given.goto t (.waitUnlock (some s.ticket))).release t
      (.await s.ticket)) (.step t) = some (((given.goto t (.waitUnlock (some s.ticket))).release t
      (.await s.ticket)).goto t .idle) := by
    show nextStep _ t = _
    rw [nextStep, State.release, goto_self]
    exact if_pos hlone
  refine ⟨_, Machine.exec_cons hread (Machine.exec_cons haddr (Machine.exec_cons hticket
    (Machine.exec_cons hunlock (Machine.exec_cons hawait rfl)))), goto_self _ t _, ?_⟩
  simp only [List.replicate, Machine.pastOf, hread, haddr, hticket, hunlock, hawait, eventsOf,
    List.filterMap_cons, hsleep]
  simp only [event, State.release, goto_self]

end Libvsync.Thread.FutexMockSimple
