import Libvsync.Core.Machine
import Libvsync.Core.Snapshot

/-!
The sequence lock. The counter is odd while a writer is in its section. A reader waits for
an even value, reads any words of the memory and then compares the counter with the value
that it began with.

`sections` is not read by the code: it counts how many writer sections are complete.
`seen` is what the user of the lock has read since `seqlock_rbegin`.
-/

namespace Libvsync.Spinlock.Seqlock

open Libvsync.Core Function

/-- Where a call stands. `began` is how many sections were complete when the reader got its
value `sv`. An assertion that does not hold ends in `failed`. -/
inductive Pc where
  | idle
  | acqRead
  | acqAwait (count : Nat)
  | acqCas (count : Nat)
  | critical
  | relRead
  | relWrite (cur : Nat)
  | rRead
  | rAwait (count : Nat)
  | reading (sv began : Nat)
  | rEnd (sv began : Nat)
  | rRet (ok : Bool)
  | failed
  deriving DecidableEq

structure State (Tid Loc Val : Type) where
  seqcount : Nat
  mem : Loc → Val
  pc : Tid → Pc
  seen : Tid → List (Loc × Val)
  sections : Nat

inductive Act (Tid Loc Val : Type) where
  | acquire (t : Tid)
  | write (t : Tid) (l : Loc) (v : Val)
  | release (t : Tid)
  | rbegin (t : Tid)
  | read (t : Tid) (l : Loc)
  | rend (t : Tid)
  | step (t : Tid)

variable {Tid Loc Val : Type} [DecidableEq Tid] [DecidableEq Loc]

def State.goto (s : State Tid Loc Val) (t : Tid) (pc : Pc) : State Tid Loc Val :=
  { s with pc := update s.pc t pc }

/-- `_seqlock_await_even` with the value just read: it waits for another one when this one
is odd, and it returns this one otherwise. -/
def State.awaitEven (s : State Tid Loc Val) (t : Tid) (await : Nat → Pc)
    (done : State Tid Loc Val) : State Tid Loc Val :=
  if s.seqcount % 2 = 1 then s.goto t (await s.seqcount) else done

/-- `seqlock_rbegin` returns. -/
def State.beginRead (s : State Tid Loc Val) (t : Tid) : State Tid Loc Val :=
  { s with seen := update s.seen t [] }.goto t (.reading s.seqcount s.sections)

/-- The next atomic operation of thread `t`. -/
def nextStep (s : State Tid Loc Val) (t : Tid) : Option (State Tid Loc Val) :=
  match s.pc t with
  | .idle | .critical | .reading _ _ | .failed => none
  | .acqRead => some (s.awaitEven t .acqAwait (s.goto t (.acqCas s.seqcount)))
  | .acqAwait count =>
    if s.seqcount = count then none
    else some (s.awaitEven t .acqAwait (s.goto t (.acqCas s.seqcount)))
  | .acqCas count =>
    if s.seqcount = count then some ({ s with seqcount := wadd 32 count 1 }.goto t .critical)
    else some (s.goto t .acqRead)
  | .relRead =>
    if s.seqcount % 2 = 1 then some (s.goto t (.relWrite s.seqcount))
    else some (s.goto t .failed)
  | .relWrite cur =>
    some ({ s with
      seqcount := wadd 32 cur 1
      sections := s.sections + 1 }.goto t .idle)
  | .rRead => some (s.awaitEven t .rAwait (s.beginRead t))
  | .rAwait count =>
    if s.seqcount = count then none else some (s.awaitEven t .rAwait (s.beginRead t))
  | .rEnd sv _ =>
    if sv % 2 = 0 then some (s.goto t (.rRet (s.seqcount = sv))) else some (s.goto t .failed)
  | .rRet _ => some (s.goto t .idle)

def step (s : State Tid Loc Val) : Act Tid Loc Val → Option (State Tid Loc Val)
  | .acquire t => if s.pc t = .idle then some (s.goto t .acqRead) else none
  | .write t l v =>
    if s.pc t = .critical then some { s with mem := update s.mem l v } else none
  | .release t => if s.pc t = .critical then some (s.goto t .relRead) else none
  | .rbegin t => if s.pc t = .idle then some (s.goto t .rRead) else none
  | .read t l =>
    match s.pc t with
    | .reading _ _ => some { s with seen := update s.seen t ((l, s.mem l) :: s.seen t) }
    | _ => none
  | .rend t =>
    match s.pc t with
    | .reading sv began => some (s.goto t (.rEnd sv began))
    | _ => none
  | .step t => nextStep s t

/-- `seqlock_init`. The memory holds anything. -/
structure Initial (s : State Tid Loc Val) : Prop where
  seqcount : s.seqcount = 0
  pc : s.pc = fun _ => .idle
  sections : s.sections = 0

def machine (Tid Loc Val : Type) [DecidableEq Tid] [DecidableEq Loc] :
    Machine (State Tid Loc Val) (Act Tid Loc Val) where
  start := Initial
  step := step

/-- From the compare-and-exchange of acquire to the write of release. -/
def Pc.inside : Pc → Bool
  | .critical | .relRead | .relWrite _ => true
  | _ => false

/-- What a thread knows at its position; `isOpen` says if a section is open. -/
def PcOk (s : State Tid Loc Val) (isOpen : Bool) (seen : List (Loc × Val)) : Pc → Prop
  | .acqCas count => count % 2 = 0
  | .relWrite cur => cur = s.seqcount
  | .reading sv began | .rEnd sv began =>
    sv = seqWord 32 began false ∧ Snapshot s.mem s.sections isOpen began seen
  | .failed => False
  | _ => True

structure Inv (s : State Tid Loc Val) (holder : Option Tid) : Prop where
  word : s.seqcount = seqWord 32 s.sections holder.isSome
  holds : ∀ t, (s.pc t).inside = true ↔ holder = some t
  pcs : ∀ t, PcOk s holder.isSome (s.seen t) (s.pc t)

variable {s s' : State Tid Loc Val} {holder : Option Tid} {isOpen : Bool} {t u : Tid} {pc : Pc}
  {seen : List (Loc × Val)}

section

omit [DecidableEq Tid] [DecidableEq Loc]

/-- A section is opened, or the memory is written in an open one. -/
theorem PcOk.enter (h : PcOk s isOpen seen pc) (hpc : pc.inside = false)
    (hsections : s'.sections = s.sections) : PcOk s' true seen pc := by
  cases pc with
  | reading sv began | rEnd sv began =>
    refine ⟨h.1, ?_⟩
    rw [hsections]
    exact h.2.enter _
  | relWrite cur => cases hpc
  | failed => exact h
  | acqCas count => exact h
  | _ => trivial

theorem PcOk.leave (h : PcOk s isOpen seen pc) (hpc : pc.inside = false)
    (hsections : s'.sections = s.sections + 1) : PcOk s' false seen pc := by
  cases pc with
  | reading sv began | rEnd sv began =>
    refine ⟨h.1, ?_⟩
    rw [hsections]
    exact h.2.leave _ _
  | relWrite cur => cases hpc
  | failed => exact h
  | acqCas count => exact h
  | _ => trivial

end

section

omit [DecidableEq Loc]

theorem goto_self (s : State Tid Loc Val) (t : Tid) (pc : Pc) : (s.goto t pc).pc t = pc :=
  update_self ..

theorem goto_other (s : State Tid Loc Val) (pc : Pc) (hu : u ≠ t) :
    (s.goto t pc).pc u = s.pc u := update_of_ne hu ..

end

section

omit [DecidableEq Tid] [DecidableEq Loc]

/-- The counter is odd exactly when a section is open. -/
theorem Inv.parity (h : Inv s holder) : s.seqcount % 2 = holder.isSome.toNat := by
  rw [h.word, seqWord_mod_two (by decide)]

theorem Inv.none_of_even (h : Inv s holder) (heven : s.seqcount % 2 = 0) : holder = none := by
  rw [h.parity] at heven
  cases holder with
  | none => rfl
  | some u => cases heven

end

section

omit [DecidableEq Loc]

theorem Inv.goto (h : Inv s holder) (hinside : pc.inside = (s.pc t).inside)
    (hok : PcOk s holder.isSome (s.seen t) pc) : Inv (s.goto t pc) holder := by
  refine ⟨h.word, fun u => ?_, fun u => ?_⟩
  · by_cases hut : u = t
    · rw [hut, goto_self, hinside]
      exact h.holds t
    · rw [goto_other _ _ hut]
      exact h.holds u
  · by_cases hut : u = t
    · rw [hut, goto_self]
      exact hok
    · rw [goto_other _ _ hut]
      exact h.pcs u

theorem Inv.beginRead (h : Inv s holder) (heven : s.seqcount % 2 ≠ 1) :
    Inv (s.beginRead t) holder := by
  obtain rfl : holder = none := h.none_of_even (by omega)
  have hself : (s.beginRead t).pc t = .reading s.seqcount s.sections := goto_self ..
  have hpc : ∀ u, u ≠ t → (s.beginRead t).pc u = s.pc u := fun u hu => goto_other _ _ hu
  refine ⟨h.word, fun u => ?_, fun u => ?_⟩
  · by_cases hut : u = t
    · rw [hut, hself]
      exact iff_of_false Bool.false_ne_true nofun
    · rw [hpc u hut]
      exact h.holds u
  · by_cases hut : u = t
    · rw [hut, hself, show (s.beginRead t).seen t = [] from update_self ..]
      exact ⟨h.word, Snapshot.start ..⟩
    · rw [hpc u hut, show (s.beginRead t).seen u = s.seen u from update_of_ne hut ..]
      exact h.pcs u

theorem Inv.acqCas (h : Inv s holder) {count : Nat} (hat : s.pc t = .acqCas count)
    (hcount : s.seqcount = count) :
    Inv ({ s with seqcount := wadd 32 count 1 }.goto t .critical) (some t) := by
  have heven := h.pcs t
  rw [hat] at heven
  obtain rfl : holder = none := h.none_of_even (by rw [hcount]; exact heven)
  set s' := ({ s with seqcount := wadd 32 count 1 } : State Tid Loc Val).goto t .critical with hs'
  have hself : s'.pc t = .critical := goto_self ..
  have hpc : ∀ u, u ≠ t → s'.pc u = s.pc u := fun u hu => goto_other _ _ hu
  have houtside : ∀ u, (s.pc u).inside = false := fun u => by
    rw [Bool.eq_false_iff]
    exact fun hu => nomatch (h.holds u).mp hu
  refine ⟨?_, fun u => ?_, fun u => ?_⟩
  · change wadd 32 count 1 = _
    rw [← hcount, h.word, seqWord, wadd_mod]
    rfl
  · by_cases hut : u = t
    · rw [hut, hself]
      exact iff_of_true rfl rfl
    · rw [hpc u hut, houtside u]
      exact iff_of_false Bool.false_ne_true fun heq => hut (Option.some.inj heq).symm
  · by_cases hut : u = t
    · rw [hut, hself]
      trivial
    · rw [hpc u hut]
      exact (h.pcs u).enter (houtside u) rfl

theorem Inv.relWrite (h : Inv s holder) {cur : Nat} (hat : s.pc t = .relWrite cur) :
    Inv ({ s with seqcount := wadd 32 cur 1, sections := s.sections + 1 }.goto t .idle) none := by
  obtain rfl : holder = some t := (h.holds t).mp (by rw [hat]; rfl)
  have hcur := h.pcs t
  rw [hat] at hcur
  set s' := ({ s with seqcount := wadd 32 cur 1, sections := s.sections + 1 } :
    State Tid Loc Val).goto t .idle with hs'
  have hself : s'.pc t = .idle := goto_self ..
  have hpc : ∀ u, u ≠ t → s'.pc u = s.pc u := fun u hu => goto_other _ _ hu
  have houtside : ∀ u, u ≠ t → (s.pc u).inside = false := fun u hut => by
    rw [Bool.eq_false_iff]
    exact fun hu => hut (Option.some.inj ((h.holds u).mp hu)).symm
  refine ⟨?_, fun u => ?_, fun u => ?_⟩
  · change wadd 32 cur 1 = seqWord 32 (s.sections + 1) false
    rw [show cur = s.seqcount from hcur, h.word, seqWord, seqWord, wadd_mod]
    rfl
  · by_cases hut : u = t
    · rw [hut, hself]
      exact iff_of_false Bool.false_ne_true (Option.some_ne_none _).symm
    · rw [hpc u hut, houtside u hut]
      exact iff_of_false Bool.false_ne_true (Option.some_ne_none _).symm
  · by_cases hut : u = t
    · rw [hut, hself]
      trivial
    · rw [hpc u hut]
      exact (h.pcs u).leave (houtside u hut) rfl

end

theorem Inv.write (h : Inv s holder) (hat : s.pc t = .critical) (l : Loc) (v : Val) :
    Inv { s with mem := update s.mem l v } holder := by
  obtain rfl : holder = some t := (h.holds t).mp (by rw [hat]; rfl)
  refine ⟨h.word, h.holds, fun u => ?_⟩
  by_cases hut : u = t
  · rw [hut]
    change PcOk _ _ _ (s.pc t)
    rw [hat]
    trivial
  · refine (h.pcs u).enter (Bool.eq_false_iff.mpr fun hu => ?_) rfl
    exact hut (Option.some.inj ((h.holds u).mp hu)).symm

section

omit [DecidableEq Loc]

theorem Inv.read (h : Inv s holder) {sv began : Nat} (hat : s.pc t = .reading sv began)
    (l : Loc) : Inv { s with seen := update s.seen t ((l, s.mem l) :: s.seen t) }
      holder := by
  refine ⟨h.word, h.holds, fun u => ?_⟩
  have hold := h.pcs u
  by_cases hut : u = t
  · subst hut
    change PcOk _ _ (update s.seen u _ u) (s.pc u)
    rw [hat] at hold ⊢
    rw [update_self]
    exact ⟨hold.1, hold.2.read l⟩
  · change PcOk _ _ (update s.seen t _ u) (s.pc u)
    rw [update_of_ne hut]
    exact hold

theorem Inv.thread_step (h : Inv s holder) (hstep : nextStep s t = some s') :
    ∃ holder', Inv s' holder' := by
  have hpc := h.pcs t
  have hread {await : Nat → Pc} (hout : (s.pc t).inside = false)
      (hawait : ∀ count, (await count).inside = false ∧ ∀ b seen, PcOk s b seen (await count)) :
      Inv (s.awaitEven t await (s.beginRead t)) holder := by
    unfold State.awaitEven
    split
    · exact h.goto ((hawait _).1.trans hout.symm) ((hawait _).2 _ _)
    · rename_i heven
      exact h.beginRead heven
  have hacq (hout : (s.pc t).inside = false) :
      Inv (s.awaitEven t .acqAwait (s.goto t (.acqCas s.seqcount))) holder := by
    unfold State.awaitEven
    split
    · exact h.goto (by rw [hout]; rfl) trivial
    · rename_i heven
      refine h.goto (by rw [hout]; rfl) ?_
      change s.seqcount % 2 = 0
      omega
  cases hat : s.pc t <;> rw [nextStep, hat] at hstep <;> rw [hat] at hpc
  case idle | critical | reading | failed => cases hstep
  case acqRead =>
    cases hstep
    exact ⟨holder, hacq (by rw [hat]; rfl)⟩
  case acqAwait count =>
    dsimp only at hstep
    split at hstep
    · cases hstep
    · cases hstep
      exact ⟨holder, hacq (by rw [hat]; rfl)⟩
  case acqCas count =>
    dsimp only at hstep
    split at hstep
    · rename_i hcount
      cases hstep
      exact ⟨some t, h.acqCas hat hcount⟩
    · cases hstep
      exact ⟨holder, h.goto (by rw [hat]; rfl) trivial⟩
  case relRead =>
    dsimp only at hstep
    split at hstep
    · cases hstep
      exact ⟨holder, h.goto (by rw [hat]; rfl) rfl⟩
    · -- the writer has made the counter odd
      rename_i heven
      have hholder : holder = some t := (h.holds t).mp (by rw [hat]; rfl)
      rw [h.parity, hholder] at heven
      exact absurd rfl heven
  case relWrite cur =>
    cases hstep
    exact ⟨none, h.relWrite hat⟩
  case rRead =>
    cases hstep
    exact ⟨holder, hread (by rw [hat]; rfl) fun _ => ⟨rfl, fun _ _ => trivial⟩⟩
  case rAwait count =>
    dsimp only at hstep
    split at hstep
    · cases hstep
    · cases hstep
      exact ⟨holder, hread (by rw [hat]; rfl) fun _ => ⟨rfl, fun _ _ => trivial⟩⟩
  case rEnd sv began =>
    dsimp only at hstep
    split at hstep
    · cases hstep
      exact ⟨holder, h.goto (by rw [hat]; rfl) trivial⟩
    · rename_i hodd
      rw [hpc.1, seqWord_mod_two (by decide)] at hodd
      exact absurd rfl hodd
  case rRet ok =>
    cases hstep
    exact ⟨holder, h.goto (by rw [hat]; rfl) trivial⟩

end

theorem Inv.step {a : Act Tid Loc Val} (h : Inv s holder) (hstep : step s a = some s') :
    ∃ holder', Inv s' holder' := by
  cases a with
  | acquire t | rbegin t | release t =>
    simp only [Seqlock.step] at hstep
    split at hstep
    · rename_i hat
      cases hstep
      exact ⟨holder, h.goto (by rw [hat]; rfl) trivial⟩
    · cases hstep
  | write t l v =>
    simp only [Seqlock.step] at hstep
    split at hstep
    · rename_i hat
      cases hstep
      exact ⟨holder, h.write hat l v⟩
    · cases hstep
  | read t l =>
    simp only [Seqlock.step] at hstep
    split at hstep
    · rename_i hat
      cases hstep
      exact ⟨holder, h.read hat l⟩
    · cases hstep
  | rend t =>
    simp only [Seqlock.step] at hstep
    split at hstep
    · rename_i sv began hat
      cases hstep
      have hpc := h.pcs t
      rw [hat] at hpc
      exact ⟨holder, h.goto (by rw [hat]; rfl) hpc⟩
    · cases hstep
  | step t => exact h.thread_step hstep

omit [DecidableEq Tid] [DecidableEq Loc] in
theorem Initial.inv (h : Initial s) : Inv s none := by
  refine ⟨?_, fun t => ?_, fun t => ?_⟩
  · rw [h.seqcount, h.sections]
    rfl
  · rw [h.pc]
    exact iff_of_false Bool.false_ne_true nofun
  · rw [h.pc]
    trivial

variable {past : List (State Tid Loc Val × Act Tid Loc Val)}

theorem run_inv (run : (machine Tid Loc Val).Run past s) : ∃ holder, Inv s holder :=
  run.invariant (I := fun s => ∃ holder, Inv s holder)
    (fun _ hstart => ⟨none, Initial.inv hstart⟩) fun _ _ _ ⟨_, h⟩ hstep => h.step hstep

/-- At most one writer is in its section and no assertion fails. When `seqlock_rend` is
going to return true, and fewer than `2 ^ 31` sections were completed since the reader
began, then no writer is in its section and all words that were read are those that the
memory has now. -/
structure Safe (s : State Tid Loc Val) : Prop where
  exclusive : ∀ t u, (s.pc t).inside = true → (s.pc u).inside = true → t = u
  asserted : ∀ t, s.pc t ≠ .failed
  consistent : ∀ t s' sv began, s.pc t = .rEnd sv began → step s (.step t) = some s' →
    s'.pc t = .rRet true → s.sections < began + 2 ^ 31 →
    (∀ u, (s.pc u).inside = false) ∧ ∀ p ∈ s.seen t, s.mem p.1 = p.2

theorem seqlock_run_safe (run : (machine Tid Loc Val).Run past s) : Safe s := by
  obtain ⟨holder, h⟩ := run_inv run
  refine ⟨fun t u ht hu => ?_, fun t hfailed => ?_, fun t s' sv began hat hstep hret hfit => ?_⟩
  · exact Option.some.inj (((h.holds t).mp ht).symm.trans ((h.holds u).mp hu))
  · have hpc := h.pcs t
    rw [hfailed] at hpc
    exact hpc
  · have hpc := h.pcs t
    rw [hat] at hpc
    obtain ⟨hsv, hsnapshot⟩ := hpc
    have hword : s.seqcount = sv := by
      simp only [Seqlock.step, nextStep, hat] at hstep
      split at hstep
      · cases hstep
        rw [goto_self] at hret
        exact of_decide_eq_true (Pc.rRet.inj hret)
      · cases hstep
        rw [goto_self] at hret
        cases hret
    rw [h.word, hsv] at hword
    obtain ⟨hsections, hopen⟩ := seqWord_eq (by decide) hsnapshot.began_le hfit hword
    refine ⟨fun u => Bool.eq_false_iff.mpr fun hu => ?_, hsnapshot.seen_eq hsections hopen⟩
    rw [(h.holds u).mp hu] at hopen
    cases hopen

end Libvsync.Spinlock.Seqlock
