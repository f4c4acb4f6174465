import Libvsync.Spinlock.Seqlock

/-!
The sequence counter for a single writer. A reader does not wait for an even value: it
clears the low bit, so that a reader that began inside of a section compares the counter
with a value that it had before the section.

`sections` is not read by the code: it counts how many writer sections are complete.
`seen` is what a reader has read since `seqcount_rbegin`.
-/

namespace Libvsync.Spinlock.Seqcount

open Libvsync.Core Function

/-- The writer. `seqcount_wend` takes the value that `seqcount_wbegin` returned. -/
inductive WPc where
  | idle
  | read
  | bump (s : Nat)
  | writing (s : Nat)
  | wend (s : Nat)
  deriving DecidableEq

/-- A reader. `began` is how many sections were complete when it began. -/
inductive RPc where
  | idle
  | rbegin
  | reading (s began : Nat)
  | rend (s began : Nat)
  | ret (ok : Bool)
  deriving DecidableEq

structure State (Tid Loc Val : Type) where
  sc : Nat
  mem : Loc → Val
  writer : WPc
  pc : Tid → RPc
  seen : Tid → List (Loc × Val)
  sections : Nat

inductive Act (Tid Loc Val : Type) where
  | wbegin
  | write (l : Loc) (v : Val)
  | wend
  | wstep
  | rbegin (t : Tid)
  | read (t : Tid) (l : Loc)
  | rend (t : Tid)
  | step (t : Tid)

variable {Tid Loc Val : Type} [DecidableEq Tid] [DecidableEq Loc]

def State.goto (s : State Tid Loc Val) (t : Tid) (pc : RPc) : State Tid Loc Val :=
  { s with pc := update s.pc t pc }

def seqcountStep : Nat := 2

/-- `x & ~1U` -/
def clearLow (x : Nat) : Nat := x &&& (2 ^ 32 - 2)

/-- The next atomic operation of the writer. -/
def writerStep (s : State Tid Loc Val) : Option (State Tid Loc Val) :=
  match s.writer with
  | .idle | .writing _ => none
  | .read => some { s with writer := .bump s.sc }
  | .bump v => some { s with sc := wadd 32 v 1, writer := .writing v }
  | .wend v =>
    some { s with sc := wadd 32 v seqcountStep, writer := .idle, sections := s.sections + 1 }

/-- The next atomic operation of reader `t`. -/
def readerStep (s : State Tid Loc Val) (t : Tid) : Option (State Tid Loc Val) :=
  match s.pc t with
  | .idle | .reading _ _ => none
  | .rbegin =>
    some ({ s with seen := update s.seen t [] }.goto t
      (.reading (clearLow s.sc) s.sections))
  | .rend v _ => some (s.goto t (.ret (s.sc = v)))
  | .ret _ => some (s.goto t .idle)

def step (s : State Tid Loc Val) : Act Tid Loc Val → Option (State Tid Loc Val)
  | .wbegin => if s.writer = .idle then some { s with writer := .read } else none
  | .write l v =>
    match s.writer with
    | .writing _ => some { s with mem := update s.mem l v }
    | _ => none
  | .wend =>
    match s.writer with
    | .writing v => some { s with writer := .wend v }
    | _ => none
  | .wstep => writerStep s
  | .rbegin t => if s.pc t = .idle then some (s.goto t .rbegin) else none
  | .read t l =>
    match s.pc t with
    | .reading _ _ => some { s with seen := update s.seen t ((l, s.mem l) :: s.seen t) }
    | _ => none
  | .rend t =>
    match s.pc t with
    | .reading v began => some (s.goto t (.rend v began))
    | _ => none
  | .step t => readerStep s t

/-- `seqcount_init`. The memory holds anything. -/
structure Initial (s : State Tid Loc Val) : Prop where
  sc : s.sc = 0
  writer : s.writer = .idle
  pc : s.pc = fun _ => .idle
  sections : s.sections = 0

def machine (Tid Loc Val : Type) [DecidableEq Tid] [DecidableEq Loc] :
    Machine (State Tid Loc Val) (Act Tid Loc Val) where
  start := Initial
  step := step

/-- From the first write of the counter to the second one. -/
def WPc.inside : WPc → Bool
  | .writing _ | .wend _ => true
  | _ => false

/-- The value of the counter that the writer has read. -/
def WPc.value : WPc → Option Nat
  | .bump v | .writing v | .wend v => some v
  | _ => none

/-- What a reader knows at its position. -/
def PcOk (s : State Tid Loc Val) (seen : List (Loc × Val)) : RPc → Prop
  | .reading v began | .rend v began =>
    v = seqWord 32 began false ∧ Snapshot s.mem s.sections s.writer.inside began seen
  | _ => True

structure Inv (s : State Tid Loc Val) : Prop where
  word : s.sc = seqWord 32 s.sections s.writer.inside
  value : ∀ v, s.writer.value = some v → v = seqWord 32 s.sections false
  pcs : ∀ t, PcOk s (s.seen t) (s.pc t)

variable {s s' : State Tid Loc Val} {t u : Tid} {pc : RPc} {seen : List (Loc × Val)}

/-- Clearing the low bit of a word. -/
theorem clearLow_eq {x : Nat} (hx : x < 2 ^ 32) : clearLow x = 2 * (x / 2) := by
  have hlow : clearLow x % 2 = 0 := by
    have h := Nat.and_mod_two_pow (a := x) (b := 2 ^ 32 - 2) (n := 1)
    rw [clearLow]
    simpa using h
  have hhigh : clearLow x / 2 = x / 2 := by
    rw [clearLow, Nat.and_div_two]
    change x / 2 &&& (2 ^ 31 - 1) = x / 2
    rw [Nat.and_two_pow_sub_one_eq_mod, Nat.mod_eq_of_lt (by omega)]
  omega

/-- The word without its low bit is the word before the open section. -/
theorem clearLow_seqWord (sections : Nat) (inside : Bool) :
    clearLow (seqWord 32 sections inside) = seqWord 32 sections false := by
  have hlt : seqWord 32 sections inside < 2 ^ 32 := Nat.mod_lt _ (Nat.two_pow_pos 32)
  rw [clearLow_eq hlt, seqWord, seqWord]
  cases inside
  · change 2 * ((2 * sections + 0) % 2 ^ 32 / 2) = (2 * sections + 0) % 2 ^ 32
    omega
  · change 2 * ((2 * sections + 1) % 2 ^ 32 / 2) = (2 * sections + 0) % 2 ^ 32
    omega

section

omit [DecidableEq Tid] [DecidableEq Loc]

/-- A section is opened, or the memory is written in an open one. -/
theorem PcOk.enter (h : PcOk s seen pc) (hinside : s'.writer.inside = true)
    (hsections : s'.sections = s.sections) : PcOk s' seen pc := by
  cases pc with
  | reading v began | rend v began =>
    refine ⟨h.1, ?_⟩
    rw [hsections, hinside]
    exact h.2.enter _
  | _ => trivial

theorem PcOk.leave (h : PcOk s seen pc) (hsections : s'.sections = s.sections + 1) :
    PcOk s' seen pc := by
  cases pc with
  | reading v began | rend v began =>
    refine ⟨h.1, ?_⟩
    rw [hsections]
    exact h.2.leave _ _
  | _ => trivial

/-- The writer moves on without opening or closing its section. -/
theorem Inv.turn (h : Inv s) {writer : WPc} (hinside : writer.inside = s.writer.inside)
    (hvalue : ∀ v, writer.value = some v → v = seqWord 32 s.sections false) :
    Inv { s with writer := writer } := by
  refine ⟨?_, hvalue, fun t => ?_⟩
  · change s.sc = seqWord 32 s.sections writer.inside
    rw [hinside]
    exact h.word
  · have hpc := h.pcs t
    cases hat : s.pc t <;> rw [hat] at hpc
    case reading v began | rend v began =>
      refine ⟨hpc.1, ?_⟩
      change Snapshot s.mem s.sections writer.inside began (s.seen t)
      rw [hinside]
      exact hpc.2
    all_goals trivial

theorem Inv.writerStep (h : Inv s) (hstep : writerStep s = some s') : Inv s' := by
  have hvalue := h.value
  have hword := h.word
  unfold Seqcount.writerStep at hstep
  cases hat : s.writer <;> rw [hat] at hstep hvalue hword
  case idle | writing => cases hstep
  case read =>
    cases hstep
    refine h.turn (by rw [hat]; rfl) fun v hv => ?_
    cases hv
    exact hword
  case bump v =>
    cases hstep
    refine ⟨?_, hvalue, fun t => (h.pcs t).enter rfl rfl⟩
    change wadd 32 v 1 = seqWord 32 s.sections true
    rw [hvalue v rfl, seqWord, seqWord, wadd_mod]
    rfl
  case wend v =>
    cases hstep
    refine ⟨?_, fun v hv => (by cases hv), fun t => (h.pcs t).leave rfl⟩
    change wadd 32 v 2 = seqWord 32 (s.sections + 1) false
    rw [hvalue v rfl, seqWord, seqWord, wadd_mod]
    rfl

end

section

omit [DecidableEq Loc]

theorem Inv.goto (h : Inv s) (hok : PcOk s (s.seen t) pc) : Inv (s.goto t pc) := by
  refine ⟨h.word, h.value, fun u => ?_⟩
  by_cases hut : u = t
  · subst hut
    rw [show (s.goto u pc).pc u = pc from update_self ..]
    exact hok
  · rw [show (s.goto t pc).pc u = s.pc u from update_of_ne hut ..]
    exact h.pcs u

theorem Inv.see (h : Inv s) (hok : PcOk s seen (s.pc t)) :
    Inv { s with seen := update s.seen t seen } := by
  refine ⟨h.word, h.value, fun u => ?_⟩
  by_cases hut : u = t
  · subst hut
    change PcOk _ (update s.seen u seen u) (s.pc u)
    rw [update_self]
    exact hok
  · change PcOk _ (update s.seen t seen u) (s.pc u)
    rw [update_of_ne hut]
    exact h.pcs u

theorem Inv.readerStep (h : Inv s) (hstep : readerStep s t = some s') : Inv s' := by
  unfold Seqcount.readerStep at hstep
  cases hat : s.pc t <;> rw [hat] at hstep
  case idle | reading => cases hstep
  case rbegin =>
    cases hstep
    refine Inv.goto (h.see (by rw [hat]; trivial)) ⟨?_, ?_⟩
    · rw [h.word]
      exact clearLow_seqWord _ _
    · change Snapshot s.mem s.sections _ s.sections (update s.seen t [] t)
      rw [update_self]
      exact Snapshot.start ..
  case rend v began =>
    cases hstep
    exact h.goto trivial
  case ret ok =>
    cases hstep
    exact h.goto trivial

end

theorem Inv.step {a : Act Tid Loc Val} (h : Inv s) (hstep : step s a = some s') : Inv s' := by
  cases a with
  | wbegin =>
    simp only [Seqcount.step] at hstep
    split at hstep
    · rename_i hat
      cases hstep
      exact h.turn (by rw [hat]; rfl) nofun
    · cases hstep
  | write l v =>
    simp only [Seqcount.step] at hstep
    split at hstep
    · rename_i hat
      cases hstep
      refine ⟨h.word, h.value, fun t => (h.pcs t).enter ?_ rfl⟩
      change s.writer.inside = true
      rw [hat]
      rfl
    · cases hstep
  | wend =>
    simp only [Seqcount.step] at hstep
    split at hstep
    · rename_i v hat
      cases hstep
      exact h.turn (by rw [hat]; rfl) fun v hv => h.value v (by rw [hat]; exact hv)
    · cases hstep
  | wstep => exact h.writerStep hstep
  | rbegin t =>
    simp only [Seqcount.step] at hstep
    split at hstep
    · cases hstep
      exact h.goto trivial
    · cases hstep
  | read t l =>
    simp only [Seqcount.step] at hstep
    split at hstep
    · rename_i v began hat
      cases hstep
      have hpc := h.pcs t
      rw [hat] at hpc
      refine h.see ?_
      rw [hat]
      exact ⟨hpc.1, hpc.2.read l⟩
    · cases hstep
  | rend t =>
    simp only [Seqcount.step] at hstep
    split at hstep
    · rename_i v began hat
      cases hstep
      have hpc := h.pcs t
      rw [hat] at hpc
      exact h.goto hpc
    · cases hstep
  | step t => exact h.readerStep hstep

omit [DecidableEq Tid] [DecidableEq Loc] in
theorem Initial.inv (h : Initial s) : Inv s := by
  refine ⟨?_, fun v hv => ?_, fun t => ?_⟩
  · rw [h.sc, h.sections, h.writer]
    rfl
  · rw [h.writer] at hv
    cases hv
  · rw [h.pc]
    trivial

variable {past : List (State Tid Loc Val × Act Tid Loc Val)}

theorem run_inv (run : (machine Tid Loc Val).Run past s) : Inv s :=
  run.invariant (I := Inv) (fun _ hstart => Initial.inv hstart) fun _ _ _ h hstep => h.step hstep

/-- When `seqcount_rend` is going to return true, and fewer than `2 ^ 31` sections were
completed since the reader began, then the writer is not in its section and all words that
were read are those that the memory has now. -/
structure Safe (s : State Tid Loc Val) : Prop where
  consistent : ∀ t s' v began, s.pc t = .rend v began → step s (.step t) = some s' →
    s'.pc t = .ret true → s.sections < began + 2 ^ 31 →
    s.writer.inside = false ∧ ∀ p ∈ s.seen t, s.mem p.1 = p.2

theorem seqcount_run_safe (run : (machine Tid Loc Val).Run past s) : Safe s := by
  have h := run_inv run
  refine ⟨fun t s' v began hat hstep hret hfit => ?_⟩
  have hpc := h.pcs t
  rw [hat] at hpc
  obtain ⟨hv, hsnapshot⟩ := hpc
  have hword : s.sc = v := by
    simp only [Seqcount.step, Seqcount.readerStep, hat] at hstep
    cases hstep
    rw [show (s.goto t (.ret (s.sc = v))).pc t = .ret (s.sc = v) from update_self ..]
      at hret
    exact of_decide_eq_true (RPc.ret.inj hret)
  rw [h.word, hv] at hword
  obtain ⟨hsections, hopen⟩ := seqWord_eq (by decide) hsnapshot.began_le hfit hword
  exact ⟨hopen, hsnapshot.seen_eq hsections hopen⟩

/-- The two sequence locks, for any number of threads and any memory. -/
theorem seqlock_seqcount_safe (Tid Loc Val : Type) [DecidableEq Tid] [DecidableEq Loc] :
    (∀ past s, (Seqlock.machine Tid Loc Val).Run past s → Seqlock.Safe s) ∧
      ∀ past s, (machine Tid Loc Val).Run past s → Safe s :=
  ⟨fun _ _ run => Seqlock.seqlock_run_safe run, fun _ _ run => seqcount_run_safe run⟩

def freeSeqlock : Seqlock.State Bool Bool Nat where
  seqcount := 0
  mem _ := 0
  pc _ := .idle
  seen _ := []
  sections := 0

def freeSeqcount : State Bool Bool Nat where
  sc := 0
  mem _ := 0
  writer := .idle
  pc _ := .idle
  seen _ := []
  sections := 0

/-- Thread `true` writes both words, and thread `false` reads them afterwards. -/
def writeThenRead : List (Seqlock.Act Bool Bool Nat) :=
  [.acquire true, .step true, .step true, .write true true 7, .write true false 8, .release true,
    .step true, .step true, .rbegin false, .step false, .read false true, .read false false,
    .rend false]

/-- Reader `true` begins inside of a section and reads the first word before and the second
word after it is written. -/
def readInside : List (Act Bool Bool Nat) :=
  [.wbegin, .wstep, .wstep, .rbegin true, .step true, .read true true, .write true 7,
    .write false 8, .read true false, .wend, .wstep, .rend true, .step true]

theorem seqlock_seqcount_safe_read :
    (∃ past s, (Seqlock.machine Bool Bool Nat).Run past s ∧ Seqlock.Safe s ∧
      s.pc false = .rEnd 2 1 ∧ s.seqcount = 2 ∧ s.seen false = [(false, 8), (true, 7)]) ∧
    ∃ past s, (machine Bool Bool Nat).Run past s ∧ Safe s ∧ s.pc true = .ret false ∧
      s.seen true = [(false, 8), (true, 0)] := by
  have hexec : ((Seqlock.machine Bool Bool Nat).exec freeSeqlock writeThenRead).map
      (fun s => (s.pc false, s.seqcount, s.seen false)) =
        some (.rEnd 2 1, 2, [(false, 8), (true, 7)]) := by
    decide +kernel
  have hexec' : ((machine Bool Bool Nat).exec freeSeqcount readInside).map
      (fun s => (s.pc true, s.seen true)) = some (.ret false, [(false, 8), (true, 0)]) := by
    decide +kernel
  obtain ⟨s, hs, hview⟩ := Option.map_eq_some_iff.mp hexec
  obtain ⟨hpc, hrest⟩ := Prod.mk.inj hview
  obtain ⟨hcount, hseen⟩ := Prod.mk.inj hrest
  obtain ⟨s', hs', hview'⟩ := Option.map_eq_some_iff.mp hexec'
  obtain ⟨hpc', hseen'⟩ := Prod.mk.inj hview'
  have run := (Machine.Run.start (M := Seqlock.machine Bool Bool Nat) (s := freeSeqlock)
    ⟨rfl, rfl, rfl⟩).exec hs
  have run' := (Machine.Run.start (M := machine Bool Bool Nat) (s := freeSeqcount)
    ⟨rfl, rfl, rfl, rfl⟩).exec hs'
  have hsafe := seqlock_seqcount_safe Bool Bool Nat
  exact ⟨⟨_, s, run, hsafe.1 _ _ run, hpc, hcount, hseen⟩,
    ⟨_, s', run', hsafe.2 _ _ run', hpc', hseen'⟩⟩

end Libvsync.Spinlock.Seqcount
