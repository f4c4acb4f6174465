import Mathlib.Data.List.Nodup
import Libvsync.Core.Machine

/-!
`vonce_call`. The first thread that changes the word from `VONCE_ZERO` to `VONCE_CALL`
executes the callback and wakes everybody afterwards; the others sleep while the word is
`VONCE_CALL`.

`vfutex_wait` compares the word and goes to sleep in one step. `vfutex_wake` with
`FUTEX_WAKE_ALL` wakes those that sleep one after the other and returns when nobody sleeps.
A thread may also return from its sleep without being woken.

Every call has a number. `started` are the calls that have begun the callback, `finished`
those that have got a value from it, and `returned` those that have returned; the code
reads none of them.
-/

namespace Libvsync.Thread.Once

open Libvsync.Core Function

/-- `VONCE_ZERO`, `VONCE_CALL` and `VONCE_DONE`. -/
def vonceZero : Nat := 0
def vonceCall : Nat := 1
def vonceDone : Nat := 2

/-- Where a call stands. A pointer is an optional value, NULL is `none`. `wait` is the call
of `vfutex_wait` and `wakeAll` the call of `vfutex_wake`. -/
inductive Pc (Val : Type) where
  | idle
  | readDone
  | cas
  | callback
  | writeDone (ret : Option Val)
  | wakeAll (ret : Option Val)
  | wait
  | asleep
  | readState
  deriving DecidableEq

structure State (Tid Val : Type) where
  o : Nat
  sleepers : List Tid
  pc : Tid → Pc Val
  calls : Nat
  call : Tid → Nat
  started : List Nat
  finished : List (Nat × Option Val)
  returned : List (Nat × Option Val)

inductive Act (Tid Val : Type) where
  | vonceCall (t : Tid)
  | callback (t : Tid) (ret : Option Val)
  | wake (t u : Tid)
  | spurious (t : Tid)
  | step (t : Tid)

variable {Tid Val : Type} [DecidableEq Tid]

def State.goto (s : State Tid Val) (t : Tid) (pc : Pc Val) : State Tid Val :=
  { s with pc := update s.pc t pc }

/-- The call of `t` returns. -/
def State.ret (s : State Tid Val) (t : Tid) (ret : Option Val) : State Tid Val :=
  { s with returned := s.returned ++ [(s.call t, ret)] }.goto t .idle

/-- `vfutex_wait(o, 1)` -/
def State.vfutexWait (s : State Tid Val) (t : Tid) : State Tid Val :=
  if s.o = vonceCall then { s with sleepers := t :: s.sleepers }.goto t .asleep
  else s.goto t .readState

/-- `u` returns from its sleep. -/
def State.awake (s : State Tid Val) (u : Tid) : State Tid Val :=
  { s with sleepers := s.sleepers.erase u }.goto u .readState

/-- The next atomic operation of `t`. -/
def nextStep (s : State Tid Val) (t : Tid) : Option (State Tid Val) :=
  match s.pc t with
  | .readDone => if s.o = vonceDone then some (s.ret t none) else some (s.goto t .cas)
  | .cas =>
    if s.o = vonceZero then
      some ({ s with o := vonceCall, started := s.started ++ [s.call t] }.goto t .callback)
    else if s.o = vonceCall then some (s.goto t .wait)
    else some (s.ret t none)
  | .writeDone ret => some ({ s with o := vonceDone }.goto t (.wakeAll ret))
  | .wakeAll ret => if s.sleepers = [] then some (s.ret t ret) else none
  | .wait => some (s.vfutexWait t)
  | .readState => if s.o = vonceCall then some (s.goto t .wait) else some (s.ret t none)
  | _ => none

def step (s : State Tid Val) : Act Tid Val → Option (State Tid Val)
  | .vonceCall t =>
    match s.pc t with
    | .idle =>
      some ({ s with calls := s.calls + 1, call := update s.call t s.calls }.goto t
        .readDone)
    | _ => none
  | .callback t ret =>
    match s.pc t with
    | .callback =>
      some ({ s with finished := s.finished ++ [(s.call t, ret)] }.goto t (.writeDone ret))
    | _ => none
  | .wake t u =>
    match s.pc t with
    | .wakeAll _ => if u ∈ s.sleepers then some (s.awake u) else none
    | _ => none
  | .spurious u => if u ∈ s.sleepers then some (s.awake u) else none
  | .step t => nextStep s t

/-- `VONCE_INIT` -/
structure Initial (s : State Tid Val) : Prop where
  o : s.o = vonceZero
  sleepers : s.sleepers = []
  pc : s.pc = fun _ => .idle
  started : s.started = []
  finished : s.finished = []
  returned : s.returned = []

def machine (Tid Val : Type) [DecidableEq Tid] : Machine (State Tid Val) (Act Tid Val) where
  start := Initial
  step := step

/-- What the word says about the calls so far. -/
inductive Phase : Nat → List Nat → List (Nat × Option Val) → List (Nat × Option Val) → Prop
  | zero : Phase vonceZero [] [] []
  | calling (e : Nat) : Phase vonceCall [e] [] []
  | called (e : Nat) (v : Option Val) : Phase vonceCall [e] [(e, v)] []
  | done (e : Nat) (v : Option Val) (returned : List (Nat × Option Val))
      (hreturned : ∀ c r, (c, r) ∈ returned → r = if c = e then v else none) :
      Phase vonceDone [e] [(e, v)] returned

/-- What a thread in call `c` knows. Only the executing call is in `started`. -/
def PcOk (s : State Tid Val) (c : Nat) : Pc Val → Prop
  | .idle => True
  | .readDone | .cas => c ∉ s.started
  | .callback => s.o = vonceCall ∧ c ∈ s.started ∧ s.finished = []
  | .writeDone ret => s.o = vonceCall ∧ (c, ret) ∈ s.finished
  | .wakeAll ret => s.o = vonceDone ∧ (c, ret) ∈ s.finished
  | .wait | .asleep | .readState => s.o ≠ vonceZero ∧ c ∉ s.started

structure Inv (s : State Tid Val) : Prop where
  phase : Phase s.o s.started s.finished s.returned
  pcs : ∀ t, PcOk s (s.call t) (s.pc t)
  number : ∀ t, s.pc t ≠ .idle → s.call t < s.calls
  distinct : ∀ t u, s.pc t ≠ .idle → s.pc u ≠ .idle → s.call t = s.call u → t = u
  starter : ∀ c ∈ s.started, c < s.calls
  sleepers : ∀ t, t ∈ s.sleepers ↔ s.pc t = .asleep
  nodup : s.sleepers.Nodup
  rouser : s.o = vonceDone → s.sleepers ≠ [] → ∃ t ret, s.pc t = .wakeAll ret

variable {s s' : State Tid Val} {t u : Tid} {pc : Pc Val} {c e : Nat} {ret v : Option Val}

theorem goto_self (s : State Tid Val) (t : Tid) (pc : Pc Val) : (s.goto t pc).pc t = pc :=
  update_self ..

theorem goto_other (s : State Tid Val) (pc : Pc Val) (hu : u ≠ t) :
    (s.goto t pc).pc u = s.pc u :=
  update_of_ne hu ..

omit [DecidableEq Tid] in
theorem PcOk.congr (h : PcOk s c pc) (ho : s'.o = s.o) (hstarted : s'.started = s.started)
    (hfinished : s'.finished = s.finished) : PcOk s' c pc := by
  cases pc <;> simp only [PcOk, ho, hstarted, hfinished] at h ⊢ <;> exact h

theorem Phase.done_of {o : Nat} {started : List Nat} {finished returned : List (Nat × Option Val)}
    (h : Phase o started finished returned) (hzero : o ≠ vonceZero) (hcall : o ≠ vonceCall) :
    o = vonceDone := by
  cases h with
  | zero => exact absurd rfl hzero
  | calling | called => exact absurd rfl hcall
  | done => rfl

theorem Phase.logs {o : Nat} {started : List Nat} {finished returned : List (Nat × Option Val)}
    (h : Phase o started finished returned) :
    started.length ≤ 1 ∧ finished.map Prod.fst <+: started ∧
      (returned ≠ [] → ∃ e v, started = [e] ∧ finished = [(e, v)] ∧
        ∀ c r, (c, r) ∈ returned → r = if c = e then v else none) := by
  cases h with
  | zero => exact ⟨Nat.zero_le 1, List.nil_prefix, absurd rfl⟩
  | calling e => exact ⟨le_rfl, List.nil_prefix, absurd rfl⟩
  | called e v => exact ⟨le_rfl, List.prefix_append [e] [], absurd rfl⟩
  | done e v returned hreturned =>
    exact ⟨le_rfl, List.prefix_append [e] [], fun _ => ⟨e, v, rfl, rfl, hreturned⟩⟩

/-- A thread in a call goes on, awake. What the words and logs are afterwards is said by
`s'`. -/
theorem Inv.move (h : Inv s) (hpc : s'.pc = update s.pc t pc) (hcall : s'.call = s.call)
    (hcalls : s'.calls = s.calls) (hsleepers : s'.sleepers = s.sleepers)
    (hbusy : s.pc t ≠ .idle) (hold : s.pc t ≠ .asleep) (hnew : pc ≠ .asleep)
    (hphase : Phase s'.o s'.started s'.finished s'.returned) (hown : PcOk s' (s.call t) pc)
    (hothers : ∀ u, u ≠ t → PcOk s (s.call u) (s.pc u) → PcOk s' (s.call u) (s.pc u))
    (hstarter : ∀ c ∈ s'.started, c < s.calls)
    (hrouser : s'.o = vonceDone → s.sleepers ≠ [] → (∃ ret, pc = .wakeAll ret) ∨
      (s.o = vonceDone ∧ ∀ ret, s.pc t ≠ .wakeAll ret)) : Inv s' := by
  have hself : s'.pc t = pc := by rw [hpc, update_self]
  have hother : ∀ u, u ≠ t → s'.pc u = s.pc u := fun u hu => by
    rw [hpc, update_of_ne hu]
  have hwas : ∀ u, s'.pc u ≠ .idle → s.pc u ≠ .idle := by
    intro u hu
    by_cases hut : u = t
    · rw [hut]
      exact hbusy
    · rw [← hother u hut]
      exact hu
  refine ⟨hphase, fun u => ?_, fun u hu => ?_, fun u w hu hw hsame => ?_, ?_, fun u => ?_, ?_,
    fun hdone hsome => ?_⟩
  · rw [hcall]
    by_cases hut : u = t
    · rw [hut, hself]
      exact hown
    · rw [hother u hut]
      exact hothers u hut (h.pcs u)
  · rw [hcall, hcalls]
    exact h.number u (hwas u hu)
  · rw [hcall] at hsame
    exact h.distinct u w (hwas u hu) (hwas w hw) hsame
  · rw [hcalls]
    exact hstarter
  · rw [hsleepers]
    by_cases hut : u = t
    · rw [hut, h.sleepers, hself]
      exact iff_of_false hold hnew
    · rw [hother u hut]
      exact h.sleepers u
  · rw [hsleepers]
    exact h.nodup
  · rw [hsleepers] at hsome
    rcases hrouser hdone hsome with ⟨ret, hret⟩ | ⟨hwas, hquiet⟩
    · exact ⟨t, ret, hself.trans hret⟩
    · obtain ⟨w, ret, hw⟩ := h.rouser hwas hsome
      have hwt : w ≠ t := by
        rintro rfl
        exact hquiet ret hw
      exact ⟨w, ret, (hother w hwt).trans hw⟩

/-- A thread in a call goes on and changes nothing else. -/
theorem Inv.goto (h : Inv s) (hbusy : s.pc t ≠ .idle) (hold : s.pc t ≠ .asleep)
    (hquiet : ∀ ret, s.pc t ≠ .wakeAll ret) (hnew : pc ≠ .asleep) (hown : PcOk s (s.call t) pc) :
    Inv (s.goto t pc) :=
  h.move rfl rfl rfl rfl hbusy hold hnew h.phase (hown.congr rfl rfl rfl)
    (fun _ _ hu => hu.congr rfl rfl rfl) h.starter fun hdone _ => .inr ⟨hdone, hquiet⟩

theorem Inv.retNull (h : Inv s) (hbusy : s.pc t ≠ .idle) (hold : s.pc t ≠ .asleep)
    (hquiet : ∀ ret, s.pc t ≠ .wakeAll ret) (hdone : s.o = vonceDone)
    (hout : s.call t ∉ s.started) : Inv (s.ret t none) := by
  refine h.move rfl rfl rfl rfl hbusy hold (fun heq => nomatch heq) ?_ trivial
    (fun _ _ hu => hu.congr rfl rfl rfl) h.starter fun hdone _ => .inr ⟨hdone, hquiet⟩
  have hphase := h.phase
  change Phase s.o s.started s.finished (s.returned ++ [(s.call t, none)])
  rw [hdone] at hphase ⊢
  generalize hstarted : s.started = started at *
  generalize s.finished = finished at *
  generalize s.returned = returned at *
  cases hphase with
  | done e v returned hreturned =>
    refine .done e v _ fun c r hmem => ?_
    rcases List.mem_append.mp hmem with hmem | hmem
    · exact hreturned c r hmem
    · obtain ⟨rfl, rfl⟩ := Prod.mk.inj (List.mem_singleton.mp hmem)
      have hne : s.call t ≠ e := fun heq => hout (heq ▸ List.mem_singleton_self e)
      rw [if_neg hne]

/-- The first thread that changes the word begins the callback. -/
theorem Inv.begin (h : Inv s) (hat : s.pc t = .cas) (hzero : s.o = vonceZero) :
    Inv ({ s with o := vonceCall, started := s.started ++ [s.call t] }.goto t .callback) := by
  have hphase := h.phase
  rw [hzero] at hphase
  have hlogs : s.started = [] ∧ s.finished = [] ∧ s.returned = [] := by
    generalize s.started = started at *
    generalize s.finished = finished at *
    generalize s.returned = returned at *
    cases hphase
    exact ⟨rfl, rfl, rfl⟩
  obtain ⟨hstarted, hfinished, hreturned⟩ := hlogs
  have hbusy : s.pc t ≠ .idle := by
    rw [hat]
    nofun
  refine h.move rfl rfl rfl rfl hbusy (by rw [hat]; nofun) (fun heq => nomatch heq) ?_
    ⟨rfl, ?_, hfinished⟩ (fun u hut hu => ?_) ?_ fun hdone => nomatch hdone
  · change Phase vonceCall (s.started ++ [s.call t]) s.finished s.returned
    rw [hstarted, hfinished, hreturned]
    exact .calling _
  · exact List.mem_append_right _ (List.mem_singleton_self _)
  · have hfresh (hbusyu : s.pc u ≠ .idle) : s.call u ∉ s.started ++ [s.call t] := by
      rw [hstarted]
      intro hmem
      exact hut (h.distinct u t hbusyu hbusy (List.mem_singleton.mp hmem))
    cases hpc : s.pc u <;> rw [hpc] at hu hfresh
    case idle => trivial
    case readDone | cas => exact hfresh (fun heq => nomatch heq)
    case callback | writeDone | wakeAll =>
      rw [PcOk, hzero] at hu
      exact nomatch hu.1
    case wait | asleep | readState => exact absurd hzero hu.1
  · intro c hc
    rw [hstarted] at hc
    obtain rfl := List.mem_singleton.mp hc
    exact h.number t hbusy

theorem Inv.callback (h : Inv s) (hat : s.pc t = .callback) (ret : Option Val) :
    Inv ({ s with finished := s.finished ++ [(s.call t, ret)] }.goto t (.writeDone ret)) := by
  have hown := h.pcs t
  rw [hat] at hown
  obtain ⟨hcall, hmine, hnone⟩ := hown
  have hbusy : s.pc t ≠ .idle := by
    rw [hat]
    nofun
  have hphase := h.phase
  rw [hcall, hnone] at hphase
  have hlogs : s.started = [s.call t] ∧ s.returned = [] := by
    generalize s.started = started at *
    generalize s.returned = returned at *
    cases hphase with
    | calling e => exact ⟨congrArg (fun c => [c]) (List.mem_singleton.mp hmine).symm, rfl⟩
  obtain ⟨hstarted, hreturned⟩ := hlogs
  refine h.move rfl rfl rfl rfl hbusy (by rw [hat]; nofun) (fun heq => nomatch heq) ?_
    ⟨hcall, List.mem_append_right _ (List.mem_singleton_self _)⟩ (fun u hut hu => ?_) h.starter
    fun hdone => ?_
  · change Phase s.o s.started (s.finished ++ [(s.call t, ret)]) s.returned
    rw [hcall, hstarted, hnone, hreturned]
    exact .called _ _
  · cases hpc : s.pc u <;> rw [hpc] at hu
    case callback =>
      have hsame := hu.2.1
      rw [hstarted] at hsame
      have hbusyu : s.pc u ≠ .idle := by
        rw [hpc]
        nofun
      exact absurd (h.distinct u t hbusyu hbusy (List.mem_singleton.mp hsame)) hut
    case writeDone | wakeAll => exact ⟨hu.1, List.mem_append_left _ hu.2⟩
    all_goals exact hu
  · change s.o = vonceDone at hdone
    rw [hcall] at hdone
    cases hdone

theorem Inv.writeDone (h : Inv s) (hat : s.pc t = .writeDone ret) :
    Inv ({ s with o := vonceDone }.goto t (.wakeAll ret)) := by
  have hown := h.pcs t
  rw [hat] at hown
  obtain ⟨hcall, hmine⟩ := hown
  have hbusy : s.pc t ≠ .idle := by
    rw [hat]
    nofun
  have hphase := h.phase
  rw [hcall] at hphase
  have hlogs : s.started = [s.call t] ∧ s.finished = [(s.call t, ret)] ∧ s.returned = [] := by
    generalize s.started = started at *
    generalize s.finished = finished at *
    generalize s.returned = returned at *
    cases hphase with
    | calling e => cases hmine
    | called e v =>
      obtain ⟨rfl, rfl⟩ := Prod.mk.inj (List.mem_singleton.mp hmine)
      exact ⟨rfl, rfl, rfl⟩
  obtain ⟨hstarted, hfinished, hreturned⟩ := hlogs
  refine h.move rfl rfl rfl rfl hbusy (by rw [hat]; nofun) (fun heq => nomatch heq) ?_
    ⟨rfl, hmine⟩ (fun u hut hu => ?_) h.starter fun _ _ => .inl ⟨ret, rfl⟩
  · change Phase vonceDone s.started s.finished s.returned
    rw [hstarted, hfinished, hreturned]
    exact .done _ _ _ fun c r hmem => absurd hmem List.not_mem_nil
  · cases hpc : s.pc u <;> rw [hpc] at hu
    case callback =>
      have hnone := hu.2.2
      rw [hfinished] at hnone
      cases hnone
    case writeDone ret' =>
      have hsame := hu.2
      rw [hfinished] at hsame
      have hbusyu : s.pc u ≠ .idle := by
        rw [hpc]
        nofun
      have hcalls := (Prod.mk.inj (List.mem_singleton.mp hsame)).1
      exact absurd (h.distinct u t hbusyu hbusy hcalls) hut
    case wakeAll => exact ⟨rfl, hu.2⟩
    case wait | asleep | readState => exact ⟨(fun heq => nomatch heq), hu.2⟩
    all_goals exact hu

/-- The executing call returns the value of the callback. -/
theorem Inv.retValue (h : Inv s) (hat : s.pc t = .wakeAll ret) (hnone : s.sleepers = []) :
    Inv (s.ret t ret) := by
  have hown := h.pcs t
  rw [hat] at hown
  obtain ⟨hdone, hmine⟩ := hown
  refine h.move rfl rfl rfl rfl (by rw [hat]; nofun) (by rw [hat]; nofun) (fun heq => nomatch heq)
    ?_ trivial (fun _ _ hu => hu.congr rfl rfl rfl) h.starter fun _ hsome => absurd hnone hsome
  have hphase := h.phase
  change Phase s.o s.started s.finished (s.returned ++ [(s.call t, ret)])
  rw [hdone] at hphase ⊢
  generalize s.started = started at *
  generalize s.finished = finished at *
  generalize s.returned = returned at *
  cases hphase with
  | done e v returned hreturned =>
    obtain ⟨hcall, rfl⟩ := Prod.mk.inj (List.mem_singleton.mp hmine)
    refine .done e ret _ fun c r hmem => ?_
    rcases List.mem_append.mp hmem with hmem | hmem
    · exact hreturned c r hmem
    · obtain ⟨rfl, rfl⟩ := Prod.mk.inj (List.mem_singleton.mp hmem)
      rw [if_pos hcall]

/-- A thread goes to sleep, or sees that the word is not `VONCE_CALL`. -/
theorem Inv.vfutexWait (h : Inv s) (hat : s.pc t = .wait) : Inv (s.vfutexWait t) := by
  have hown := h.pcs t
  rw [hat] at hown
  unfold State.vfutexWait
  split
  · rename_i hcall
    set s' := ({ s with sleepers := t :: s.sleepers } : State Tid Val).goto t .asleep
    have hself : s'.pc t = .asleep := goto_self ..
    have hother : ∀ u, u ≠ t → s'.pc u = s.pc u := fun u hu => goto_other _ _ hu
    have hwas : ∀ u, s'.pc u ≠ .idle → s.pc u ≠ .idle := by
      intro u hu
      by_cases hut : u = t
      · rw [hut, hat]
        nofun
      · rw [← hother u hut]
        exact hu
    refine ⟨h.phase, fun u => ?_, fun u hu => h.number u (hwas u hu),
      fun u w hu hw => h.distinct u w (hwas u hu) (hwas w hw), h.starter, fun u => ?_,
      List.nodup_cons.mpr ⟨fun ht => ?_, h.nodup⟩, fun hdone => ?_⟩
    · by_cases hut : u = t
      · rw [hut, hself]
        exact hown
      · rw [hother u hut]
        exact (h.pcs u).congr rfl rfl rfl
    · change u ∈ t :: s.sleepers ↔ _
      rw [List.mem_cons]
      by_cases hut : u = t
      · rw [hut, hself]
        exact iff_of_true (.inl rfl) rfl
      · rw [hother u hut, or_iff_right hut]
        exact h.sleepers u
    · rw [h.sleepers, hat] at ht
      cases ht
    · change s.o = vonceDone at hdone
      rw [hcall] at hdone
      cases hdone
  · exact h.goto (by rw [hat]; nofun) (by rw [hat]; nofun) (by rw [hat]; nofun)
      (fun heq => nomatch heq) hown

theorem Inv.awake (h : Inv s) (hu : u ∈ s.sleepers) : Inv (s.awake u) := by
  have hasleep := (h.sleepers u).mp hu
  have hself : (s.awake u).pc u = .readState := goto_self ..
  have hother : ∀ w, w ≠ u → (s.awake u).pc w = s.pc w := fun w hw => goto_other _ _ hw
  have hwas : ∀ w, (s.awake u).pc w ≠ .idle → s.pc w ≠ .idle := by
    intro w hw
    by_cases hwu : w = u
    · rw [hwu, hasleep]
      nofun
    · rw [← hother w hwu]
      exact hw
  refine ⟨h.phase, fun w => ?_, fun w hw => h.number w (hwas w hw),
    fun w x hw hx => h.distinct w x (hwas w hw) (hwas x hx), h.starter, fun w => ?_,
    h.nodup.erase u, fun hdone hsome => ?_⟩
  · by_cases hwu : w = u
    · have hown := h.pcs u
      rw [hasleep] at hown
      rw [hwu, hself]
      exact hown
    · rw [hother w hwu]
      exact (h.pcs w).congr rfl rfl rfl
  · change w ∈ s.sleepers.erase u ↔ _
    rw [h.nodup.mem_erase_iff]
    by_cases hwu : w = u
    · rw [hwu, hself]
      exact iff_of_false (fun hw => hw.1 rfl) fun heq => nomatch heq
    · rw [hother w hwu, ← h.sleepers w]
      exact and_iff_right hwu
  · obtain ⟨w, ret, hw⟩ := h.rouser hdone (List.ne_nil_of_mem hu)
    have hwu : w ≠ u := by
      rintro rfl
      rw [hasleep] at hw
      cases hw
    exact ⟨w, ret, (hother w hwu).trans hw⟩

/-- A call of `vonce_call` begins and gets its number. -/
theorem Inv.vonceCall (h : Inv s) (hat : s.pc t = .idle) :
    Inv ({ s with calls := s.calls + 1, call := update s.call t s.calls }.goto t
      .readDone) := by
  set s' := ({ s with calls := s.calls + 1, call := update s.call t s.calls } :
    State Tid Val).goto t .readDone
  have hself : s'.pc t = .readDone := goto_self ..
  have hother : ∀ u, u ≠ t → s'.pc u = s.pc u := fun u hu => goto_other _ _ hu
  have hnumber : s'.call t = s.calls := update_self ..
  have hcall : ∀ u, u ≠ t → s'.call u = s.call u := fun u hu => update_of_ne hu ..
  have hless : ∀ u, u ≠ t → s'.pc u ≠ .idle → s'.call u < s.calls := by
    intro u hut hu
    rw [hother u hut] at hu
    rw [hcall u hut]
    exact h.number u hu
  refine ⟨h.phase, fun u => ?_, fun u hu => ?_, fun u w hu hw hsame => ?_,
    fun c hc => Nat.lt_succ_of_lt (h.starter c hc), fun u => ?_, h.nodup, fun hdone hsome => ?_⟩
  · by_cases hut : u = t
    · rw [hut, hself, hnumber]
      exact fun hmem => Nat.lt_irrefl _ (h.starter _ hmem)
    · rw [hother u hut, hcall u hut]
      exact (h.pcs u).congr rfl rfl rfl
  · change s'.call u < s.calls + 1
    by_cases hut : u = t
    · rw [hut, hnumber]
      exact Nat.lt_succ_self _
    · exact Nat.lt_succ_of_lt (hless u hut hu)
  · by_cases hut : u = t
    · by_cases hwt : w = t
      · rw [hut, hwt]
      · rw [hut, hnumber] at hsame
        exact absurd hsame (hless w hwt hw).ne'
    · by_cases hwt : w = t
      · rw [hwt, hnumber] at hsame
        exact absurd hsame (hless u hut hu).ne
      · rw [hother u hut] at hu
        rw [hother w hwt] at hw
        rw [hcall u hut, hcall w hwt] at hsame
        exact h.distinct u w hu hw hsame
  · refine (h.sleepers u).trans ?_
    by_cases hut : u = t
    · rw [hut, hself, hat]
      exact iff_of_false (fun heq => nomatch heq) fun heq => nomatch heq
    · rw [hother u hut]
  · obtain ⟨w, ret, hw⟩ := h.rouser hdone hsome
    have hwt : w ≠ t := by
      rintro rfl
      rw [hat] at hw
      cases hw
    exact ⟨w, ret, (hother w hwt).trans hw⟩

theorem Inv.nextStep (h : Inv s) (hstep : nextStep s t = some s') : Inv s' := by
  have hown := h.pcs t
  unfold Once.nextStep at hstep
  cases hat : s.pc t <;> rw [hat] at hstep hown
  case readDone =>
    dsimp only at hstep
    split at hstep
    · rename_i hdone
      cases hstep
      exact h.retNull (by rw [hat]; nofun) (by rw [hat]; nofun) (by rw [hat]; nofun) hdone hown
    · cases hstep
      exact h.goto (by rw [hat]; nofun) (by rw [hat]; nofun) (by rw [hat]; nofun)
        (fun heq => nomatch heq) hown
  case cas =>
    dsimp only at hstep
    split at hstep
    · rename_i hzero
      cases hstep
      exact h.begin hat hzero
    · rename_i hzero
      split at hstep
      · cases hstep
        exact h.goto (by rw [hat]; nofun) (by rw [hat]; nofun) (by rw [hat]; nofun)
          (fun heq => nomatch heq) ⟨hzero, hown⟩
      · rename_i hcall
        cases hstep
        exact h.retNull (by rw [hat]; nofun) (by rw [hat]; nofun) (by rw [hat]; nofun)
          (h.phase.done_of hzero hcall) hown
  case writeDone ret =>
    cases hstep
    exact h.writeDone hat
  case wakeAll ret =>
    obtain ⟨hnone, hs⟩ := Option.ite_none_right_eq_some.mp hstep
    cases hs
    exact h.retValue hat hnone
  case wait =>
    cases hstep
    exact h.vfutexWait hat
  case readState =>
    dsimp only at hstep
    split at hstep
    · cases hstep
      exact h.goto (by rw [hat]; nofun) (by rw [hat]; nofun) (by rw [hat]; nofun)
        (fun heq => nomatch heq) hown
    · rename_i hcall
      cases hstep
      exact h.retNull (by rw [hat]; nofun) (by rw [hat]; nofun) (by rw [hat]; nofun)
        (h.phase.done_of hown.1 hcall) hown.2
  all_goals cases hstep

theorem Inv.step {a : Act Tid Val} (h : Inv s) (hstep : step s a = some s') : Inv s' := by
  cases a with
  | vonceCall t =>
    simp only [Once.step] at hstep
    cases hat : s.pc t <;> rw [hat] at hstep <;> cases hstep
    exact h.vonceCall hat
  | callback t ret =>
    simp only [Once.step] at hstep
    cases hat : s.pc t <;> rw [hat] at hstep <;> cases hstep
    exact h.callback hat ret
  | wake t u =>
    simp only [Once.step] at hstep
    cases hat : s.pc t <;> rw [hat] at hstep
    case wakeAll ret =>
      obtain ⟨hu, hs⟩ := Option.ite_none_right_eq_some.mp hstep
      cases hs
      exact h.awake hu
    all_goals cases hstep
  | spurious u =>
    obtain ⟨hu, hs⟩ := Option.ite_none_right_eq_some.mp hstep
    cases hs
    exact h.awake hu
  | step t => exact h.nextStep hstep

section

omit [DecidableEq Tid]

theorem Initial.inv (h : Initial s) : Inv s := by
  have hidle : ∀ t, s.pc t = .idle := fun t => congrFun h.pc t
  refine ⟨?_, fun t => ?_, fun t ht => absurd (hidle t) ht, fun t _ ht => absurd (hidle t) ht, ?_,
    fun t => ?_, ?_, fun hdone => ?_⟩
  · rw [h.o, h.started, h.finished, h.returned]
    exact .zero
  · rw [hidle t]
    trivial
  · rw [h.started]
    exact fun c hc => absurd hc List.not_mem_nil
  · rw [h.sleepers, hidle t]
    exact iff_of_false List.not_mem_nil fun heq => nomatch heq
  · rw [h.sleepers]
    exact List.nodup_nil
  · rw [h.o] at hdone
    cases hdone

/-- The callback is begun once at most. When a call has returned, one call `e` has executed
it, before, with the value `v`; `e` returns `v` and the others return NULL. When the word is
`VONCE_DONE` and the executing call is not in its wake call any more, nobody sleeps. -/
structure Safe (s : State Tid Val) : Prop where
  started : s.started.length ≤ 1
  finished : s.finished.map Prod.fst <+: s.started
  returned : s.returned ≠ [] → ∃ e v, s.started = [e] ∧ s.finished = [(e, v)] ∧
    ∀ c r, (c, r) ∈ s.returned → r = if c = e then v else none
  awake : s.o = vonceDone → (∀ t ret, s.pc t ≠ .wakeAll ret) → ∀ u, s.pc u ≠ .asleep

theorem Inv.safe (h : Inv s) : Safe s := by
  obtain ⟨hstarted, hfinished, hreturned⟩ := h.phase.logs
  refine ⟨hstarted, hfinished, hreturned, fun hdone hquiet u hu => ?_⟩
  obtain ⟨t, ret, ht⟩ := h.rouser hdone (List.ne_nil_of_mem ((h.sleepers u).mpr hu))
  exact hquiet t ret ht

end

theorem vonce_safe (Tid Val : Type) [DecidableEq Tid] {past : List (State Tid Val × Act Tid Val)}
    {s : State Tid Val} (run : (machine Tid Val).Run past s) : Safe s :=
  (run.invariant (I := Inv) (fun _ => Initial.inv) fun _ _ _ h hstep => h.step hstep).safe

def fresh : State Nat Nat := ⟨vonceZero, [], fun _ => .idle, 0, fun _ => 0, [], [], []⟩

/-- Thread 0 executes the callback while thread 1 sleeps and is woken afterwards; thread 2
comes later. -/
def late : List (Act Nat Nat) :=
  [.vonceCall 0, .step 0, .vonceCall 1, .step 0, .step 1, .step 1, .step 1, .callback 0 (some 7),
    .step 0, .wake 0 1, .step 1, .step 0, .vonceCall 2, .step 2]

theorem vonce_safe_late : ∃ past s, (machine Nat Nat).Run past s ∧ Safe s ∧ s.started = [0] ∧
    s.returned = [(1, none), (0, some 7), (2, none)] := by
  have hexec : ((machine Nat Nat).exec fresh late).map (fun s => (s.started, s.returned)) =
      some ([0], [(1, none), (0, some 7), (2, none)]) := by
    decide +kernel
  obtain ⟨s, hs, hview⟩ := Option.map_eq_some_iff.mp hexec
  obtain ⟨hstarted, hreturned⟩ := Prod.mk.inj hview
  have run := (Machine.Run.start (M := machine Nat Nat) (s := fresh)
    ⟨rfl, rfl, rfl, rfl, rfl, rfl⟩).exec hs
  exact ⟨_, s, run, vonce_safe Nat Nat run, hstarted, hreturned⟩

end Libvsync.Thread.Once
