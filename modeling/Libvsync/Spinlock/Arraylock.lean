import Mathlib.Data.Fintype.Card
import Libvsync.Core.Machine
import Libvsync.Core.Turns
import Libvsync.Core.Word

/-!
The array lock. A thread takes the slot that the tail counts and waits for the flag of the
slot; a release clears the flag of its slot and sets the flag of the next one. The tail is
a byte, so acquire goes around after 256 slots, while release goes around after
`flags_len` slots. The two agree when the length divides 256.

`arrived` and `granted` are not read by the code: they log who took a slot and who got the
lock.
-/

namespace Libvsync.Spinlock.Arraylock

open Libvsync.Core Function

/-- `V_IS_POWER_OF_TWO`, on a `vuint32_t`. -/
def isPowerOfTwo (num : Nat) : Bool := num ≠ 0 ∧ num &&& (num - 1) = 0

/-- What `arraylock_init` asserts of the length. -/
def accepted (len : Nat) : Bool := 0 < len ∧ isPowerOfTwo len

inductive Pc where
  | idle
  | acqInc
  | acqAwait (slot : Nat)
  | critical (slot : Nat)
  | relClear (slot : Nat)
  | relSet (slot : Nat)
  deriving DecidableEq

structure State (Tid : Type) where
  tail : Nat
  flags : Nat → Nat
  pc : Tid → Pc
  arrived : List Tid
  granted : List Tid

inductive Act (Tid : Type) where
  | acquire (t : Tid)
  | release (t : Tid)
  | step (t : Tid)

variable {Tid : Type} [DecidableEq Tid]

def State.goto (s : State Tid) (t : Tid) (pc : Pc) : State Tid :=
  { s with pc := update s.pc t pc }

def State.setFlag (s : State Tid) (slot flag : Nat) : State Tid :=
  { s with flags := update s.flags slot flag }

/-- The next atomic operation of thread `t`. -/
def nextStep (len : Nat) (s : State Tid) (t : Tid) : Option (State Tid) :=
  match s.pc t with
  | .idle | .critical _ => none
  | .acqInc =>
    some ({ s with
      tail := wadd 8 s.tail 1
      arrived := s.arrived ++ [t] }.goto t (.acqAwait (s.tail % len)))
  | .acqAwait slot =>
    if s.flags slot = 0 then none
    else some ({ s with granted := s.granted ++ [t] }.goto t (.critical slot))
  | .relClear slot => some ((s.setFlag slot 0).goto t (.relSet slot))
  | .relSet slot => some ((s.setFlag ((slot + 1) % len) 1).goto t .idle)

/-- The slot that acquire returned is the argument of release. -/
def step (len : Nat) (s : State Tid) : Act Tid → Option (State Tid)
  | .acquire t => if s.pc t = .idle then some (s.goto t .acqInc) else none
  | .release t =>
    match s.pc t with
    | .critical slot => some (s.goto t (.relClear slot))
    | _ => none
  | .step t => nextStep len s t

/-- `arraylock_init` -/
structure Initial (len : Nat) (s : State Tid) : Prop where
  accepted : accepted len = true
  tail : s.tail = 0
  first : s.flags 0 = 1
  rest : ∀ i, 1 ≤ i → i < len → s.flags i = 0
  pc : s.pc = fun _ => .idle
  arrived : s.arrived = []
  granted : s.granted = []

def machine (Tid : Type) [DecidableEq Tid] (len : Nat) : Machine (State Tid) (Act Tid) where
  start := Initial len
  step := step len

/-- From the return of acquire to the return of release. -/
def Pc.holds : Pc → Bool
  | .critical _ | .relClear _ | .relSet _ => true
  | _ => false

/-- The slot of a thread that has taken one and that has not returned from release. -/
def Pc.slot : Pc → Option Nat
  | .acqAwait slot | .critical slot | .relClear slot | .relSet slot => some slot
  | _ => none

/-- The thread is inside release. -/
def Pc.releases : Pc → Bool
  | .relClear _ | .relSet _ => true
  | _ => false

/-- The thread is between the two writes of release. -/
def Pc.cleared : Pc → Bool
  | .relSet _ => true
  | _ => false

/-- The flag of the slot of the first thread in the line is set, or of the slot that the
next thread is going to take; between the two writes of release no flag is set. -/
structure Inv (len : Nat) (s : State Tid) (gone line : List Tid) : Prop where
  nodup : line.Nodup
  mem : ∀ t, t ∈ line ↔ (s.pc t).slot ≠ none
  turns : Turns (fun t => (s.pc t).holds) s.arrived s.granted gone line
  tail : s.tail = (gone.length + line.length) % 2 ^ 8
  slots : ∀ (i : Nat) (t : Tid), (line)[i]? = some t →
    (s.pc t).slot = some ((gone.length + i) % len)
  flags : ∀ n, n < len → (s.flags n ≠ 0 ↔
    n = gone.length % len ∧ ∀ t, line.head? = some t → (s.pc t).cleared = false)

variable {len : Nat} {s s' : State Tid} {gone line rest : List Tid} {t : Tid}

theorem accepted_pos (h : accepted len = true) : 0 < len := by
  simp only [accepted, decide_eq_true_eq] at h
  exact h.1

/-- The lengths that `arraylock_init` accepts and that a byte counts around. -/
theorem accepted_dvd (h : accepted len = true) (hle : len ≤ 256) : len ∣ 2 ^ 8 := by
  simp only [accepted, isPowerOfTwo, decide_eq_true_eq,
    Nat.ne_zero_and_sub_one_eq_zero_iff_isPowerOfTwo] at h
  obtain ⟨-, k, rfl⟩ := h
  have hk : k ≤ 8 := (Nat.pow_le_pow_iff_right (by decide : 1 < 2)).mp hle
  exact Nat.pow_dvd_pow 2 hk

theorem goto_self (s : State Tid) (t : Tid) (pc : Pc) : (s.goto t pc).pc t = pc :=
  update_self ..

theorem goto_other {u : Tid} (s : State Tid) (pc : Pc) (hu : u ≠ t) :
    (s.goto t pc).pc u = s.pc u := update_of_ne hu ..

/-- A property of the program position that the step of `t` keeps. -/
theorem goto_same {β : Type} (f : Pc → β) {pc : Pc} (hf : f pc = f (s.pc t)) (u : Tid) :
    f ((s.goto t pc).pc u) = f (s.pc u) := by
  by_cases hut : u = t
  · rw [hut, goto_self, hf]
  · rw [goto_other _ _ hut]

section

omit [DecidableEq Tid]

/-- A thread that has the lock is the first of the line. -/
theorem Inv.first_of_holds (h : Inv len s gone line) (hholds : (s.pc t).holds = true) :
    ∃ rest, line = t :: rest := by
  refine h.turns.first ((h.mem t).mpr ?_) hholds
  cases hat : s.pc t <;> rw [hat] at hholds <;>
    first | exact Option.some_ne_none _ | cases hholds

theorem Inv.first_slot (h : Inv len s gone (t :: rest)) :
    (s.pc t).slot = some (gone.length % len) := h.slots 0 t rfl

end

theorem Inv.goto (h : Inv len s gone line) {pc : Pc} (hslot : pc.slot = (s.pc t).slot)
    (hholds : pc.holds = (s.pc t).holds) (hcleared : pc.cleared = (s.pc t).cleared) :
    Inv len (s.goto t pc) gone line := by
  refine ⟨h.nodup, fun u => ?_, h.turns.congr fun u _ => goto_same Pc.holds hholds u, h.tail,
    fun i u hu => ?_, fun n hn => ?_⟩
  · rw [goto_same Pc.slot hslot]
    exact h.mem u
  · rw [goto_same Pc.slot hslot]
    exact h.slots i u hu
  · rw [forall_congr' fun u => by rw [goto_same Pc.cleared hcleared u]]
    exact h.flags n hn

theorem Inv.acqInc (h : Inv len s gone line) (hdvd : len ∣ 2 ^ 8) (hat : s.pc t = .acqInc) :
    Inv len ({ s with tail := wadd 8 s.tail 1, arrived := s.arrived ++ [t] }.goto t
      (.acqAwait (s.tail % len))) gone (line ++ [t]) := by
  have hout : t ∉ line := by
    rw [h.mem, hat]
    exact fun hslot => hslot rfl
  set s' := ({ s with tail := wadd 8 s.tail 1, arrived := s.arrived ++ [t] } : State Tid).goto t
    (.acqAwait (s.tail % len)) with hs'
  have hself : s'.pc t = .acqAwait (s.tail % len) := goto_self ..
  have hpc : ∀ u, u ≠ t → s'.pc u = s.pc u := fun u hu => goto_other _ _ hu
  have hin : ∀ u ∈ line, u ≠ t := fun u hu heq => hout (heq ▸ hu)
  refine ⟨?_, fun u => ?_, h.turns.join (fun u hu => ?_) (by rw [hself]; rfl), ?_,
    fun i u hu => ?_, fun n hn => ?_⟩
  · exact List.nodup_append.mpr ⟨h.nodup, List.nodup_singleton t, fun a ha b hb heq =>
      hout (List.mem_singleton.mp hb ▸ heq ▸ ha)⟩
  · rw [List.mem_append, List.mem_singleton]
    by_cases hut : u = t
    · rw [hut, hself]
      exact iff_of_true (.inr rfl) (Option.some_ne_none _)
    · rw [hpc u hut, ← h.mem u]
      exact or_iff_left hut
  · rw [hpc u (hin u hu)]
  · change wadd 8 s.tail 1 = _
    rw [h.tail, wadd_mod, List.length_append]
    rfl
  · rw [List.getElem?_append] at hu
    split at hu
    · rw [hpc u (hin u (List.mem_of_getElem? hu))]
      exact h.slots i u hu
    · rw [List.getElem?_singleton] at hu
      split at hu
      · obtain rfl := Option.some.inj hu
        have hlength : i = line.length := by omega
        rw [hself, hlength, h.tail]
        exact congrArg some (Nat.mod_mod_of_dvd _ hdvd)
      · cases hu
  · refine (h.flags n hn).trans ?_
    cases line with
    | nil =>
      refine and_congr_right fun _ => iff_of_true (fun u hu => by cases hu) fun u hu => ?_
      cases hu
      rw [hself]
      rfl
    | cons f rest =>
      refine and_congr_right fun _ => forall_congr' fun u => ?_
      refine forall_congr' fun hu => ?_
      rw [hpc u (hin u (List.mem_of_mem_head? hu))]

/-- Only the first thread of the line can find its flag set. -/
theorem Inv.enter [Fintype Tid] (h : Inv len s gone line) (hcard : Fintype.card Tid ≤ len)
    {slot : Nat} (hat : s.pc t = .acqAwait slot) (hflag : s.flags slot ≠ 0) :
    Inv len ({ s with granted := s.granted ++ [t] }.goto t (.critical slot)) gone line := by
  have hmem : t ∈ line := by
    rw [h.mem, hat]
    exact Option.some_ne_none _
  obtain ⟨i, hi⟩ := List.mem_iff_getElem?.mp hmem
  have hlen : i < len := by
    have hlength := h.nodup.length_le_card
    have hindex := (List.getElem?_eq_some_iff.mp hi).1
    omega
  have hslot := h.slots i t hi
  rw [hat] at hslot
  obtain rfl := Option.some.inj hslot
  have hzero : i = 0 := by
    obtain ⟨heq, -⟩ := (h.flags _ (Nat.mod_lt _ (by omega))).mp hflag
    have hmod : gone.length + i ≡ gone.length + 0 [MOD len] := heq
    exact Nat.ModEq.eq_of_lt_of_lt (Nat.ModEq.add_left_cancel' _ hmod) hlen (by omega)
  subst hzero
  obtain ⟨rest, rfl⟩ := List.head?_eq_some_iff.mp (List.head?_eq_getElem?.trans hi)
  have hne : ∀ u ∈ rest, u ≠ t := fun u hu heq => (List.nodup_cons.mp h.nodup).1 (heq ▸ hu)
  set s' := ({ s with granted := s.granted ++ [t] } : State Tid).goto t
    (.critical ((gone.length + 0) % len)) with hs'
  have hself : s'.pc t = .critical ((gone.length + 0) % len) := goto_self ..
  have hsame (u : Tid) : (s'.pc u).slot = (s.pc u).slot :=
    goto_same (s := { s with granted := s.granted ++ [t] }) Pc.slot (by rw [hat]; rfl) u
  have hcleared (u : Tid) : (s'.pc u).cleared = (s.pc u).cleared :=
    goto_same (s := { s with granted := s.granted ++ [t] }) Pc.cleared (by rw [hat]; rfl) u
  refine ⟨h.nodup, fun u => ?_, h.turns.enter (by rw [hat]; rfl) (fun u hu => ?_)
    (by rw [hself]; rfl), h.tail, fun i u hu => ?_, fun n hn => ?_⟩
  · rw [hsame]
    exact h.mem u
  · rw [show s'.pc u = s.pc u from goto_other _ _ (hne u hu)]
  · rw [hsame]
    exact h.slots i u hu
  · rw [forall_congr' fun u => by rw [hcleared u]]
    exact h.flags n hn

theorem Inv.relClear (h : Inv len s gone line) {slot : Nat} (hat : s.pc t = .relClear slot) :
    Inv len ((s.setFlag slot 0).goto t (.relSet slot)) gone line := by
  obtain ⟨rest, rfl⟩ := h.first_of_holds (t := t) (by rw [hat]; rfl)
  have hslot := h.first_slot
  rw [hat] at hslot
  obtain rfl := Option.some.inj hslot
  set s' := (s.setFlag (gone.length % len) 0).goto t (.relSet (gone.length % len)) with hs'
  have hsame {β : Type} (f : Pc → β) (hf : f (.relSet (gone.length % len)) = f (s.pc t))
      (u : Tid) : f (s'.pc u) = f (s.pc u) :=
    goto_same (s := s.setFlag (gone.length % len) 0) f hf u
  refine ⟨h.nodup, fun u => ?_, h.turns.congr fun u _ => hsame Pc.holds (by rw [hat]; rfl) u,
    h.tail, fun i u hu => ?_, fun n hn => iff_of_false ?_ ?_⟩
  · rw [hsame Pc.slot (by rw [hat]; rfl)]
    exact h.mem u
  · rw [hsame Pc.slot (by rw [hat]; rfl)]
    exact h.slots i u hu
  · by_cases hn' : n = gone.length % len
    · rw [hn']
      exact fun hflag => hflag (update_self ..)
    · rw [show s'.flags n = s.flags n from update_of_ne hn' .., h.flags n hn]
      exact fun hflag => hn' hflag.1
  · rintro ⟨-, hfirst⟩
    have hcleared := hfirst t rfl
    rw [show s'.pc t = .relSet (gone.length % len) from goto_self ..] at hcleared
    cases hcleared

theorem Inv.relSet (h : Inv len s gone line) {slot : Nat} (hat : s.pc t = .relSet slot) :
    ∃ rest, Inv len ((s.setFlag ((slot + 1) % len) 1).goto t .idle) (gone ++ [t]) rest := by
  obtain ⟨rest, rfl⟩ := h.first_of_holds (t := t) (by rw [hat]; rfl)
  have hslot := h.first_slot
  rw [hat] at hslot
  obtain rfl := Option.some.inj hslot
  obtain ⟨hout, hnodup⟩ := List.nodup_cons.mp h.nodup
  have hnext : (gone.length % len + 1) % len = (gone ++ [t]).length % len := by
    rw [Nat.mod_add_mod, List.length_append]
    rfl
  rw [hnext]
  set s' := (s.setFlag ((gone ++ [t]).length % len) 1).goto t .idle with hs'
  have hself : s'.pc t = .idle := goto_self ..
  have hpc : ∀ u, u ≠ t → s'.pc u = s.pc u := fun u hu => goto_other _ _ hu
  have hin : ∀ u ∈ rest, u ≠ t := fun u hu heq => hout (heq ▸ hu)
  refine ⟨rest, hnodup, fun u => ?_, h.turns.leave (by rw [hat]; rfl) (fun u hu => ?_), ?_,
    fun i u hu => ?_, fun n hn => ?_⟩
  · by_cases hut : u = t
    · rw [hut, hself]
      exact iff_of_false hout fun hslot => hslot rfl
    · rw [hpc u hut, ← h.mem u, List.mem_cons]
      exact (or_iff_right hut).symm
  · rw [hpc u (hin u hu)]
  · refine h.tail.trans ?_
    rw [List.length_append, List.length_cons, List.length_singleton]
    congr 1
    omega
  · rw [hpc u (hin u (List.mem_of_getElem? hu)), h.slots (i + 1) u hu, List.length_append,
      List.length_singleton]
    congr 2
    omega
  · by_cases hn' : n = (gone ++ [t]).length % len
    · rw [hn', show s'.flags _ = 1 from update_self ..]
      refine iff_of_true Nat.one_ne_zero ⟨rfl, fun u hu => ?_⟩
      have hmem := List.mem_of_mem_head? hu
      have hwaits := h.turns.waits u hmem
      rw [hpc u (hin u hmem)]
      cases hu : s.pc u <;> rw [hu] at hwaits <;> first | rfl | cases hwaits
    · rw [show s'.flags n = s.flags n from update_of_ne hn' .., h.flags n hn]
      refine iff_of_false (fun hflag => ?_) fun hflag => hn' hflag.1
      have hcleared := hflag.2 t rfl
      rw [hat] at hcleared
      cases hcleared

def Good (len : Nat) (s : State Tid) : Prop := ∃ gone line, Inv len s gone line

theorem Good.step [Fintype Tid] {a : Act Tid} (h : Good len s) (hdvd : len ∣ 2 ^ 8)
    (hcard : Fintype.card Tid ≤ len) (hstep : step len s a = some s') : Good len s' := by
  obtain ⟨gone, line, h⟩ := h
  cases a with
  | acquire t =>
    simp only [Arraylock.step] at hstep
    split at hstep
    · rename_i hat
      cases hstep
      exact ⟨gone, line, h.goto (by rw [hat]; rfl) (by rw [hat]; rfl) (by rw [hat]; rfl)⟩
    · cases hstep
  | release t =>
    simp only [Arraylock.step] at hstep
    split at hstep
    · rename_i slot hat
      cases hstep
      exact ⟨gone, line, h.goto (by rw [hat]; rfl) (by rw [hat]; rfl) (by rw [hat]; rfl)⟩
    · cases hstep
  | step t =>
    simp only [Arraylock.step, nextStep] at hstep
    cases hat : s.pc t <;> rw [hat] at hstep
    case idle | critical => cases hstep
    case acqInc =>
      cases hstep
      exact ⟨gone, line ++ [t], h.acqInc hdvd hat⟩
    case acqAwait slot =>
      dsimp only at hstep
      split at hstep
      · cases hstep
      · rename_i hflag
        cases hstep
        exact ⟨gone, line, h.enter hcard hat hflag⟩
    case relClear slot =>
      cases hstep
      exact ⟨gone, line, h.relClear hat⟩
    case relSet slot =>
      cases hstep
      exact ⟨gone ++ [t], h.relSet hat⟩

omit [DecidableEq Tid] in
theorem Initial.inv (h : Initial len s) : Inv len s [] [] := by
  have hpos := accepted_pos h.accepted
  refine ⟨List.nodup_nil, fun t => ?_, ?_, h.tail, fun i t ht => ?_, fun n hn => ?_⟩
  · rw [h.pc]
    exact iff_of_false List.not_mem_nil fun hslot => hslot rfl
  · rw [h.arrived, h.granted]
    exact Turns.init _
  · cases ht
  · rw [List.length_nil, Nat.zero_mod]
    cases n with
    | zero =>
      rw [h.first]
      refine iff_of_true Nat.one_ne_zero ⟨rfl, fun t ht => ?_⟩
      cases ht
    | succ n =>
      rw [h.rest (n + 1) (Nat.le_add_left 1 n) hn]
      exact iff_of_false (fun hflag => hflag rfl) fun hflag => absurd hflag.1 (Nat.succ_ne_zero n)

variable {past : List (State Tid × Act Tid)}

theorem run_inv [Fintype Tid] (hcard : Fintype.card Tid ≤ len) (hle : len ≤ 256)
    (run : (machine Tid len).Run past s) : Good len s := by
  have hboth : accepted len = true ∧ Good len s := by
    refine run.invariant (I := fun s => accepted len = true ∧ Good len s)
      (fun _ hstart => ⟨Initial.accepted hstart, _, _, Initial.inv hstart⟩) fun _ _ _ h hstep => ?_
    exact ⟨h.1, h.2.step (accepted_dvd h.1 hle) hcard hstep⟩
  exact hboth.2

/-- The slot that has the permission: that of the first thread of the line, or the slot
that the next thread is going to take. -/
def State.turn (len : Nat) (s : State Tid) (line : List Tid) : Option Nat :=
  match line.head? with
  | some t => (s.pc t).slot
  | none => some (s.tail % len)

/-- At most one thread has the lock and at most one flag is set. When no thread is inside
release, the flag is set that belongs to the oldest thread that took a slot and has not
released, or to the next slot to be taken when there is none. -/
structure Safe (len : Nat) (s : State Tid) : Prop where
  exclusive : ∀ t u, (s.pc t).holds = true → (s.pc u).holds = true → t = u
  oneFlag : ∀ m n, m < len → n < len → s.flags m ≠ 0 → s.flags n ≠ 0 → m = n
  place : (∀ t, (s.pc t).releases = false) → ∃ gone line, s.arrived = gone ++ line ∧
    line.Nodup ∧ (∀ t, t ∈ line ↔ (s.pc t).slot ≠ none) ∧
    ∀ n, n < len → (s.flags n ≠ 0 ↔ s.turn len line = some n)

section

omit [DecidableEq Tid]

theorem Inv.turn_eq (h : Inv len s gone line) (hdvd : len ∣ 2 ^ 8) :
    s.turn len line = some (gone.length % len) := by
  cases line with
  | nil =>
    refine congrArg some ?_
    rw [h.tail]
    exact Nat.mod_mod_of_dvd _ hdvd
  | cons f rest => exact h.first_slot

theorem Inv.safe (h : Inv len s gone line) (hdvd : len ∣ 2 ^ 8) : Safe len s := by
  refine ⟨fun t u ht hu => ?_, fun m n hm hn hmf hnf => ?_, fun hnone =>
    ⟨gone, line, h.turns.arrivals, h.nodup, h.mem, fun n hn => ?_⟩⟩
  · obtain ⟨rest, rfl⟩ := h.first_of_holds ht
    obtain ⟨rest', heq⟩ := h.first_of_holds hu
    exact (List.cons.inj heq).1
  · rw [((h.flags m hm).mp hmf).1, ((h.flags n hn).mp hnf).1]
  · rw [h.turn_eq hdvd, h.flags n hn]
    refine ⟨fun hflag => congrArg some hflag.1.symm, fun hflag => ⟨(Option.some.inj hflag).symm,
      fun t ht => ?_⟩⟩
    have hidle := hnone t
    cases hat : s.pc t <;> rw [hat] at hidle <;> first | rfl | cases hidle

end

def lap (t : Tid) : List (Act Tid) :=
  [.acquire t, .step t, .step t, .release t, .step t, .step t]

/-- The lock after `t` has acquired and released it `k` times. -/
def lapped (t : Tid) (k : Nat) : State Tid where
  tail := k % 2 ^ 8
  flags n := if n = k then 1 else 0
  pc _ := .idle
  arrived := List.replicate k t
  granted := List.replicate k t

theorem exec_lap {k : Nat} (hk : k < 256) (hlen : 256 < len) :
    (machine Tid len).exec (lapped t k) (lap t) = some (lapped t (k + 1)) := by
  have hslot : k % 2 ^ 8 % len = k := by
    rw [Nat.mod_eq_of_lt (a := k) (by omega), Nat.mod_eq_of_lt (by omega)]
  have hnext : (k + 1) % len = k + 1 := Nat.mod_eq_of_lt (by omega)
  have hpc (a b c d e : Pc) : update (update (update
      (update (update (update (fun _ => Pc.idle) t a) t b) t c) t d) t e)
      t .idle = fun _ : Tid => Pc.idle := by
    simp only [update_idem]
    exact update_eq_self (f := fun _ : Tid => Pc.idle) t
  have hflags : update (update (fun n => if n = k then 1 else 0) k 0) (k + 1) 1 =
      fun n => if n = k + 1 then 1 else 0 := by
    funext n
    by_cases hn : n = k + 1
    · rw [hn, update_self, if_pos rfl]
    · rw [update_of_ne hn, if_neg hn]
      by_cases hnk : n = k
      · rw [hnk, update_self]
      · rw [update_of_ne hnk, if_neg hnk]
  simp only [lap, Machine.exec, machine, step, nextStep, lapped, State.goto, State.setFlag,
    update_self, Option.bind_some, if_true, hslot, hnext, hpc, hflags, wadd_mod,
    Nat.one_ne_zero, if_false, List.replicate_succ']

theorem lapped_run (haccepted : accepted len = true) (hlen : 256 < len) (t : Tid) (k : Nat)
    (hk : k ≤ 256) : ∃ past, (machine Tid len).Run past (lapped t k) := by
  induction k with
  | zero =>
    refine ⟨[], .start ⟨haccepted, rfl, rfl, fun i hi _ => ?_, rfl, rfl, rfl⟩⟩
    exact if_neg (by omega)
  | succ k ih =>
    obtain ⟨past, run⟩ := ih (by omega)
    exact ⟨_, run.exec (exec_lap (by omega) hlen)⟩

omit [DecidableEq Tid] in
/-- The permission is at slot 256, and the next thread takes slot 0. -/
theorem lapped_unsafe (hlen : 256 < len) (t : Tid) : ¬ Safe len (lapped t 256) := by
  intro hsafe
  obtain ⟨gone, line, -, -, hmem, hflags⟩ := hsafe.place fun _ => rfl
  have hline : line = [] := by
    refine List.eq_nil_iff_forall_not_mem.mpr fun u hu => ?_
    exact (hmem u).mp hu rfl
  subst hline
  have hturn := (hflags 256 hlen).mp Nat.one_ne_zero
  have hzero : (lapped t 256).turn len [] = some (0 % len) := rfl
  rw [hzero, Nat.zero_mod] at hturn
  cases hturn

theorem long_unsafe [Nonempty Tid] (haccepted : accepted len = true) (hlen : 256 < len) :
    ¬ ∀ past s, (machine Tid len).Run past s → Safe len s := by
  intro hsafe
  obtain ⟨t⟩ := ‹Nonempty Tid›
  obtain ⟨past, run⟩ := lapped_run haccepted hlen t 256 le_rfl
  exact lapped_unsafe hlen t (hsafe past _ run)

theorem arraylock_safe_iff [Fintype Tid] [Nonempty Tid] (haccepted : accepted len = true)
    (hcard : Fintype.card Tid ≤ len) :
    (∀ past s, (machine Tid len).Run past s → Safe len s) ↔ len ≤ 256 := by
  constructor
  · intro hsafe
    by_contra hlen
    exact long_unsafe haccepted (not_le.mp hlen) hsafe
  · intro hle past s run
    obtain ⟨gone, line, h⟩ := run_inv hcard hle run
    exact h.safe (accepted_dvd haccepted hle)

theorem arraylock_safe_iff_four :
    accepted 4 = true ∧ Fintype.card Bool ≤ 4 ∧
      ∀ past s, (machine Bool 4).Run past s → Safe 4 s := by
  have haccepted : accepted 4 = true := by decide
  have hcard : Fintype.card Bool ≤ 4 := by decide
  exact ⟨haccepted, hcard, (arraylock_safe_iff haccepted hcard).mpr (by decide)⟩

/-- One thread and 512 slots. -/
theorem arraylock_unsafe :
    accepted 512 = true ∧ ¬ ∀ past s, (machine Unit 512).Run past s → Safe 512 s := by
  have haccepted : accepted 512 = true := by decide
  exact ⟨haccepted, long_unsafe haccepted (by decide)⟩

end Libvsync.Spinlock.Arraylock
