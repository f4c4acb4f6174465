import Libvsync.Core.Linear
import Libvsync.Core.Lock

/-!
Objects whose calls run under one lock. A call takes the lock, runs its body in
steps of any size on the memory that the lock protects, and releases the lock
when the body returns. What a body does when it runs alone is then what the
call does among the calls of all threads: the calls are atomic operations.

`base` is not read by the code: it is the memory as the last body that returned
has left it.
-/

namespace Libvsync.Core

open Function

/-- The code between the acquire and the release of the calls of an object. A
step can depend on a choice from outside. -/
structure Body (σ ι ρ κ β : Type*) where
  reads : ι → Bool
  /-- What a call returns that finds the lock taken; without that it waits. -/
  again : ι → Option ρ
  enter : ι → κ
  step : ι → κ → σ → β → Option (σ × (κ ⊕ ρ))

namespace Body

variable {σ ι ρ κ β τ : Type*} (B : Body σ ι ρ κ β)

/-- How far the body of call `i` can come from memory `m`. -/
inductive Reaches (i : ι) (m : σ) : σ → κ → Prop
  | enter : Reaches i m m (B.enter i)
  | step {m' m₁ : σ} {k k' : κ} {b : β} (prior : Reaches i m m' k)
      (h : B.step i k m' b = some (m₁, .inl k')) : Reaches i m m₁ k'

/-- What the body of call `i` leaves in memory and returns. -/
def Returns (i : ι) (m m' : σ) (r : ρ) : Prop :=
  ∃ m₁ k b, B.Reaches i m m₁ k ∧ B.step i k m₁ b = some (m', .inr r)

/-- The bodies, each run alone from a sound memory that meets the precondition
of the call. `apart` says which calls may be under way together. -/
structure Meets (sound : σ → Prop) (pre : ι → σ → Prop) (apart : ι → ι → Prop) (abs : σ → τ)
    (spec : τ → ι → ρ → τ → Prop) : Prop where
  /-- A call that shares the lock does not write. -/
  reads : ∀ i m m₁ k b m' x, sound m → pre i m → B.reads i = true → B.Reaches i m m₁ k →
    B.step i k m₁ b = some (m', x) → m' = m₁
  returns : ∀ i m m' r, sound m → pre i m → B.Returns i m m' r →
    sound m' ∧ spec (abs m) i r (abs m')
  keeps : ∀ i j m m' r, sound m → pre i m → pre j m → apart i j → B.Returns i m m' r → pre j m'
  again : ∀ i m r, sound m → B.again i = some r → spec (abs m) i r (abs m)

/-- The bodies do not stop before they return, from a fine memory. -/
def GoesOn (sound fine : σ → Prop) (pre : ι → σ → Prop) : Prop :=
  ∀ i m m₁ k, sound m → fine m → pre i m → B.Reaches i m m₁ k → ∃ b, (B.step i k m₁ b).isSome

end Body

namespace Locked

inductive Pc (ι ρ κ : Type*) where
  | idle
  | enters (i : ι)
  | inside (i : ι) (k : κ)
  | leaves (i : ι) (r : ρ)
  deriving DecidableEq

structure State {Tid : Type} (L : Lock Tid) (σ ι ρ κ : Type*) where
  lock : L.State
  mem : σ
  base : σ
  pc : Tid → Pc ι ρ κ

inductive Act (Tid ι β : Type*) where
  | call (t : Tid) (i : ι)
  | lock (t : Tid)
  | body (t : Tid) (b : β)
  | ret (t : Tid)

def Act.thread {Tid ι β : Type*} : Act Tid ι β → Tid
  | .call t _ | .lock t | .body t _ | .ret t => t

variable {Tid : Type} [DecidableEq Tid] {L : Lock Tid} {σ ι ρ κ β τ : Type*} {B : Body σ ι ρ κ β}

def State.goto (s : State L σ ι ρ κ) (t : Tid) (pc : Pc ι ρ κ) : State L σ ι ρ κ :=
  { s with pc := update s.pc t pc }

/-- Where a call stands after a step of its acquire or tryacquire. -/
def entered (B : Body σ ι ρ κ β) (i : ι) : Phase → Pc ι ρ κ
  | .has _ => .inside i (B.enter i)
  | .out =>
    match B.again i with
    | some r => .leaves i r
    | none => .enters i
  | _ => .enters i

/-- The call that a thread makes to enter. -/
def entry (B : Body σ ι ρ κ β) (t : Tid) (i : ι) : LockAct Tid :=
  if (B.again i).isSome then .tryacquire (B.reads i) t else .acquire (B.reads i) t

def lockStep (B : Body σ ι ρ κ β) (s : State L σ ι ρ κ) (t : Tid) : Option (State L σ ι ρ κ) :=
  match s.pc t with
  | .enters i => (L.machine.step s.lock (.step t)).map fun l =>
    { s with lock := l }.goto t (entered B i (L.phase l t))
  | .leaves _ _ => (L.machine.step s.lock (.step t)).map fun l => { s with lock := l }
  | .idle | .inside _ _ => none

def bodyStep (B : Body σ ι ρ κ β) (s : State L σ ι ρ κ) (t : Tid) (b : β) :
    Option (State L σ ι ρ κ) :=
  match s.pc t with
  | .inside i k =>
    match B.step i k s.mem b with
    | none => none
    | some (m, .inl k') => some ({ s with mem := m }.goto t (.inside i k'))
    | some (m, .inr r) => (L.machine.step s.lock (.release t)).map fun l =>
      { s with lock := l, mem := m, base := m }.goto t (.leaves i r)
  | .idle | .enters _ | .leaves _ _ => none

def step (B : Body σ ι ρ κ β) (s : State L σ ι ρ κ) : Act Tid ι β → Option (State L σ ι ρ κ)
  | .call t i =>
    match s.pc t with
    | .idle => (L.machine.step s.lock (entry B t i)).map fun l =>
      { s with lock := l }.goto t (.enters i)
    | _ => none
  | .lock t => lockStep B s t
  | .body t b => bodyStep B s t b
  | .ret t =>
    match s.pc t with
    | .leaves _ _ => if L.phase s.lock t = .out then some (s.goto t .idle) else none
    | _ => none

structure Initial (init : σ → Prop) (s : State L σ ι ρ κ) : Prop where
  lock : L.machine.start s.lock
  mem : init s.mem
  base : s.base = s.mem
  pc : s.pc = fun _ => .idle

def machine (L : Lock Tid) (B : Body σ ι ρ κ β) (init : σ → Prop) :
    Machine (State L σ ι ρ κ) (Act Tid ι β) where
  start := Initial init
  step := step B

/-- The call of a thread whose body has not returned. -/
def Pc.pending : Pc ι ρ κ → Option ι
  | .enters i | .inside i _ => some i
  | .idle | .leaves _ _ => none

def Pc.settled : Pc ι ρ κ → Option (ι × ρ)
  | .leaves i r => some (i, r)
  | .idle | .enters _ | .inside _ _ => none

def view (L : Lock Tid) (abs : σ → τ) : View (State L σ ι ρ κ) Tid τ ι ρ where
  abs s := abs s.base
  busy t s := s.pc t ≠ .idle
  settled t s := (s.pc t).settled
  settled_busy t s x h := by
    intro hidle
    rw [hidle] at h
    cases h

/-- The calls keep their preconditions and are not made while a call is under
way from which they are not apart. -/
def Allowed (pre : ι → σ → Prop) (apart : ι → ι → Prop) (s : State L σ ι ρ κ) :
    Act Tid ι β → Prop
  | .call _ i => pre i s.base ∧ ∀ u j, (s.pc u).pending = some j → apart i j ∧ apart j i
  | _ => True

/-- What the phase of a thread says of its call. -/
inductive Agrees (B : Body σ ι ρ κ β) : Pc ι ρ κ → Phase → Prop
  | idle : Agrees B .idle .out
  | acquires {i : ι} {reading : Bool} (hagain : B.again i = none)
      (h : reading = true → B.reads i = true) : Agrees B (.enters i) (.acquires reading)
  | tries {i : ι} {reading : Bool} {r : ρ} (hagain : B.again i = some r)
      (h : reading = true → B.reads i = true) : Agrees B (.enters i) (.tries reading)
  | inside {i : ι} {k : κ} {reading : Bool} (h : reading = true → B.reads i = true) :
      Agrees B (.inside i k) (.has reading)
  | releases {i : ι} {r : ρ} : Agrees B (.leaves i r) .releases
  | left {i : ι} {r : ρ} : Agrees B (.leaves i r) .out

structure Inv (B : Body σ ι ρ κ β) (sound : σ → Prop) (pre : ι → σ → Prop)
    (apart : ι → ι → Prop) (s : State L σ ι ρ κ) : Prop where
  run : ∃ past, L.machine.Run past s.lock
  agrees : ∀ t, Agrees B (s.pc t) (L.phase s.lock t)
  sound : sound s.base
  /-- While nobody may write, the memory is what the last body has left. -/
  quiet : (∀ t, L.phase s.lock t ≠ .has false) → s.mem = s.base
  inside : ∀ t i k, s.pc t = .inside i k → B.Reaches i s.base s.mem k
  pre : ∀ t i, (s.pc t).pending = some i → pre i s.base
  apart : ∀ t u i j, t ≠ u → (s.pc t).pending = some i → (s.pc u).pending = some j → apart i j

omit [DecidableEq Tid] in
/-- What is allowed in every state is allowed in a run. -/
theorem allowed_exec {M : Machine (State L σ ι ρ κ) (Act Tid ι β)}
    {ok : State L σ ι ρ κ → Act Tid ι β → Prop} {as : List (Act Tid ι β)}
    {past : List (State L σ ι ρ κ × Act Tid ι β)} (h : AllSteps ok past)
    (has : ∀ a ∈ as, ∀ s, ok s a) (s : State L σ ι ρ κ) : AllSteps ok (M.pastOf s past as) := by
  induction as generalizing past s with
  | nil => exact h
  | cons a as ih =>
    dsimp only [Machine.pastOf]
    split
    · exact h
    · apply ih
      · exact h.cons (has a List.mem_cons_self s)
      · intro b hb
        exact has b (List.mem_cons_of_mem _ hb)

variable {sound : σ → Prop} {pre : ι → σ → Prop} {apart : ι → ι → Prop} {s s' : State L σ ι ρ κ}
  {t u : Tid}

@[simp] theorem goto_self (s : State L σ ι ρ κ) (t : Tid) (pc : Pc ι ρ κ) :
    (s.goto t pc).pc t = pc :=
  update_self ..

theorem goto_other (s : State L σ ι ρ κ) (pc : Pc ι ρ κ) (hu : u ≠ t) :
    (s.goto t pc).pc u = s.pc u :=
  update_of_ne hu ..

section

omit [DecidableEq Tid]

/-- Beside a thread that may write nobody is inside. -/
theorem Inv.alone (h : Inv B sound pre apart s) (hhas : L.phase s.lock t = .has false) {i : ι}
    {k : κ} (hu : s.pc u = .inside i k) : u = t := by
  obtain ⟨past, run⟩ := h.run
  have hagrees := h.agrees u
  rw [hu] at hagrees
  generalize hphase : L.phase s.lock u = p at hagrees
  cases hagrees with
  | inside => exact L.excludes past s.lock run t u _ hhas hphase

/-- A call that does not only read has the lock alone. -/
theorem Inv.exclusive (h : Inv B sound pre apart s) {i : ι} {k : κ} (ht : s.pc t = .inside i k)
    (hreads : B.reads i = false) : L.phase s.lock t = .has false := by
  have hagrees := h.agrees t
  rw [ht] at hagrees
  generalize L.phase s.lock t = p at hagrees
  cases hagrees with
  | @inside _ _ reading hreading =>
    cases reading with
    | false => rfl
    | true =>
      rw [hreads] at hreading
      cases hreading rfl

/-- While no call is under way, the memory is what the last body has left. -/
theorem Inv.idle (h : Inv B sound pre apart s) (hidle : ∀ t, s.pc t = .idle) :
    s.mem = s.base := by
  apply h.quiet
  intro t ht
  have hagrees := h.agrees t
  rw [hidle t, ht] at hagrees
  cases hagrees

end

theorem Inv.move (h : Inv B sound pre apart s) {l : L.State} {pc : Pc ι ρ κ}
    (hrun : ∃ past, L.machine.Run past l)
    (hothers : ∀ u, u ≠ t → L.phase l u = L.phase s.lock u)
    (hphase : L.phase s.lock t ≠ .has false) (hagrees : Agrees B pc (L.phase l t))
    (hinside : ∀ i k, pc = .inside i k → B.Reaches i s.base s.mem k)
    (hpending : ∀ i, pc.pending = some i → pre i s.base ∧
      ∀ u j, u ≠ t → (s.pc u).pending = some j → apart i j ∧ apart j i) :
    Inv B sound pre apart ({ s with lock := l }.goto t pc) := by
  constructor
  · exact hrun
  · intro u
    rcases eq_or_ne u t with rfl | hu
    · rw [goto_self]
      exact hagrees
    · rw [goto_other _ _ hu]
      exact hothers u hu ▸ h.agrees u
  · exact h.sound
  · intro hnobody
    apply h.quiet
    intro u
    rcases eq_or_ne u t with rfl | hu
    · exact hphase
    · exact hothers u hu ▸ hnobody u
  · intro u i k hu
    rcases eq_or_ne u t with rfl | hne
    · rw [goto_self] at hu
      exact hinside i k hu
    · rw [goto_other _ _ hne] at hu
      exact h.inside u i k hu
  · intro u i hu
    rcases eq_or_ne u t with rfl | hne
    · rw [goto_self] at hu
      exact (hpending i hu).1
    · rw [goto_other _ _ hne] at hu
      exact h.pre u i hu
  · intro u v i j huv hu hv
    rcases eq_or_ne u t with rfl | hut
    · rw [goto_self] at hu
      rw [goto_other _ _ huv.symm] at hv
      exact ((hpending i hu).2 v j huv.symm hv).1
    · rw [goto_other _ _ hut] at hu
      rcases eq_or_ne v t with rfl | hvt
      · rw [goto_self] at hv
        exact ((hpending j hv).2 u i hut hu).2
      · rw [goto_other _ _ hvt] at hv
        exact h.apart u v i j huv hu hv

section Bodies

variable {abs : σ → τ} {spec : τ → ι → ρ → τ → Prop} (meets : B.Meets sound pre apart abs spec)

include meets

omit [DecidableEq Tid] in
/-- A body has the lock alone, or it only reads what the last body has left. -/
theorem Inv.shares (h : Inv B sound pre apart s) {i : ι} {k : κ} (hpc : s.pc t = .inside i k) :
    L.phase s.lock t = .has false ∨ s.mem = s.base ∧
      ∀ b m x, B.step i k s.mem b = some (m, x) → m = s.mem := by
  obtain ⟨past, run⟩ := h.run
  have hagrees := h.agrees t
  rw [hpc] at hagrees
  generalize hphase : L.phase s.lock t = p at hagrees
  cases hagrees with
  | @inside _ _ reading hreads =>
    cases reading with
    | false => exact .inl rfl
    | true =>
      refine .inr ⟨h.quiet ?_, ?_⟩
      · intro u hu
        obtain rfl := L.excludes past s.lock run u t true hu hphase
        rw [hphase] at hu
        cases hu
      · intro b m x hstep
        have hpre := h.pre t i (by rw [hpc]; rfl)
        exact meets.reads i s.base s.mem k b m x h.sound hpre (hreads rfl)
          (h.inside t i k hpc) hstep

theorem Inv.inner (h : Inv B sound pre apart s) {i : ι} {k k' : κ} {b : β} {m : σ}
    (hpc : s.pc t = .inside i k) (hstep : B.step i k s.mem b = some (m, .inl k')) :
    Inv B sound pre apart ({ s with mem := m }.goto t (.inside i k')) := by
  have hshares := h.shares meets hpc
  have hpending (u : Tid) :
      ((({ s with mem := m } : State L σ ι ρ κ).goto t (.inside i k')).pc u).pending =
        (s.pc u).pending := by
    rcases eq_or_ne u t with rfl | hu
    · rw [goto_self, hpc]
      rfl
    · rw [goto_other _ _ hu]
  constructor
  · exact h.run
  · intro u
    rcases eq_or_ne u t with rfl | hu
    · have hagrees := h.agrees u
      rw [hpc] at hagrees
      rw [goto_self]
      change Agrees B _ (L.phase s.lock u)
      generalize L.phase s.lock u = p at hagrees ⊢
      cases hagrees with
      | inside hreads => exact .inside hreads
    · rw [goto_other _ _ hu]
      exact h.agrees u
  · exact h.sound
  · intro hnobody
    rcases hshares with halone | ⟨hbase, hsame⟩
    · exact absurd halone (hnobody t)
    · exact (hsame _ _ _ hstep).trans hbase
  · intro u j q hu
    rcases eq_or_ne u t with rfl | hne
    · rw [goto_self] at hu
      cases hu
      exact (h.inside u i k hpc).step hstep
    · rw [goto_other _ _ hne] at hu
      rcases hshares with halone | ⟨-, hsame⟩
      · exact absurd (h.alone halone hu) hne
      · have hreach := h.inside u j q hu
        rw [← hsame _ _ _ hstep] at hreach
        exact hreach
  · intro u j hu
    exact h.pre u j ((hpending u).symm.trans hu)
  · intro u v j j' huv hu hv
    exact h.apart u v j j' huv ((hpending u).symm.trans hu) ((hpending v).symm.trans hv)

omit [DecidableEq Tid] in
/-- What a body has left in memory when it returns. -/
theorem Inv.returned (h : Inv B sound pre apart s) {i : ι} {k : κ} {b : β} {m : σ} {r : ρ}
    (hpc : s.pc t = .inside i k) (hstep : B.step i k s.mem b = some (m, .inr r)) :
    B.Returns i s.base m r ∧ sound m ∧ spec (abs s.base) i r (abs m) := by
  have hreturns : B.Returns i s.base m r := ⟨s.mem, k, b, h.inside t i k hpc, hstep⟩
  have hpre := h.pre t i (by rw [hpc]; rfl)
  exact ⟨hreturns, meets.returns i s.base m r h.sound hpre hreturns⟩

/-- A body returns, and the release of the lock begins. -/
theorem Inv.finish (h : Inv B sound pre apart s) {i : ι} {k : κ} {b : β} {m : σ} {r : ρ}
    {l : L.State} (hpc : s.pc t = .inside i k) (hstep : B.step i k s.mem b = some (m, .inr r))
    (hlock : L.machine.step s.lock (.release t) = some l) :
    Inv B sound pre apart ({ s with lock := l, mem := m, base := m }.goto t (.leaves i r)) := by
  obtain ⟨hreturns, hsound, -⟩ := h.returned meets hpc hstep
  have hshares := h.shares meets hpc
  have hmine : (s.pc t).pending = some i := by rw [hpc]; rfl
  have hothers := L.others _ _ _ hlock
  have howner : Phase.Next (.release t) (L.phase s.lock t) (L.phase l t) := L.own _ _ _ hlock
  obtain ⟨past, run⟩ := h.run
  have hkeeps (u : Tid) (j : ι) (hu : u ≠ t) (hj : (s.pc u).pending = some j) : pre j m :=
    meets.keeps i j s.base m r h.sound (h.pre t i hmine) (h.pre u j hj)
      (h.apart t u i j hu.symm hmine hj) hreturns
  constructor
  · exact ⟨_, run.step hlock⟩
  · intro u
    rcases eq_or_ne u t with rfl | hu
    · rw [goto_self]
      change Agrees B _ (L.phase l u)
      generalize L.phase s.lock u = p, L.phase l u = p' at howner
      cases howner with
      | release => exact .releases
    · rw [goto_other _ _ hu]
      exact hothers u hu ▸ h.agrees u
  · exact hsound
  · intro _
    rfl
  · intro u j q hu
    rcases eq_or_ne u t with rfl | hne
    · rw [goto_self] at hu
      cases hu
    · rw [goto_other _ _ hne] at hu
      rcases hshares with halone | ⟨hbase, hsame⟩
      · exact absurd (h.alone halone hu) hne
      · have hreach := h.inside u j q hu
        rw [← hbase, ← hsame _ _ _ hstep] at hreach
        exact hreach
  · intro u j hu
    rcases eq_or_ne u t with rfl | hne
    · rw [goto_self] at hu
      cases hu
    · rw [goto_other _ _ hne] at hu
      exact hkeeps u j hne hu
  · intro u v j j' huv hu hv
    rcases eq_or_ne u t with rfl | hut
    · rw [goto_self] at hu
      cases hu
    · rcases eq_or_ne v t with rfl | hvt
      · rw [goto_self] at hv
        cases hv
      · rw [goto_other _ _ hut] at hu
        rw [goto_other _ _ hvt] at hv
        exact h.apart u v j j' huv hu hv

end Bodies

theorem Inv.begins (h : Inv B sound pre apart s) {i : ι} {l : L.State} (hpc : s.pc t = .idle)
    (hlock : L.machine.step s.lock (entry B t i) = some l) (hpre : pre i s.base)
    (hapart : ∀ u j, (s.pc u).pending = some j → apart i j ∧ apart j i) :
    Inv B sound pre apart ({ s with lock := l }.goto t (.enters i)) := by
  have hthread : (entry B t i).thread = t := by
    dsimp only [entry]
    split <;> rfl
  have hout : L.phase s.lock t = .out := by
    have hagrees := h.agrees t
    rw [hpc] at hagrees
    generalize L.phase s.lock t = p at hagrees
    cases hagrees with
    | idle => rfl
  obtain ⟨past, run⟩ := h.run
  have howner := L.own _ _ _ hlock
  apply h.move ⟨_, run.step hlock⟩
  · intro u hu
    exact L.others _ _ _ hlock u (hthread.symm ▸ hu)
  · rw [hout]
    exact Phase.noConfusion
  · rw [hthread, hout] at howner
    generalize L.phase l t = p at howner
    dsimp only [entry] at howner
    split at howner
    next hagain =>
      obtain ⟨r, hr⟩ := Option.isSome_iff_exists.mp hagain
      cases howner with
      | tryacquire hgrant => exact .tries hr hgrant
    next hagain =>
      cases howner with
      | acquire hgrant => exact .acquires (Option.not_isSome_iff_eq_none.mp hagain) hgrant
  · intro j k hj
    cases hj
  · rintro j ⟨⟩
    exact ⟨hpre, fun u j _ hu => hapart u j hu⟩

section

omit [DecidableEq Tid]

theorem entered_inside {i j : ι} {k : κ} {p : Phase} (h : entered B i p = .inside j k) :
    j = i ∧ k = B.enter i ∧ ∃ reading, p = .has reading := by
  cases p with
  | has reading =>
    cases h
    exact ⟨rfl, rfl, reading, rfl⟩
  | out =>
    simp only [entered] at h
    split at h <;> cases h
  | acquires => cases h
  | tries => cases h
  | releases => cases h

theorem entered_pending {i j : ι} {p : Phase} (h : (entered B i p).pending = some j) : j = i := by
  cases p with
  | out =>
    simp only [entered] at h
    split at h <;> cases h
    rfl
  | has => exact (Option.some.inj h).symm
  | acquires => exact (Option.some.inj h).symm
  | tries => exact (Option.some.inj h).symm
  | releases => exact (Option.some.inj h).symm

theorem entered_leaves {i j : ι} {p : Phase} {r : ρ} (h : entered B i p = .leaves j r) :
    p = .out := by
  cases p with
  | out => rfl
  | has => cases h
  | acquires => cases h
  | tries => cases h
  | releases => cases h

theorem entered_settled {i : ι} {p : Phase} {x : ι × ρ} (h : (entered B i p).settled = some x) :
    B.again i = some x.2 ∧ x = (i, x.2) := by
  cases p with
  | out =>
    simp only [entered] at h
    split at h
    · next hagain =>
        cases h
        exact ⟨hagain, rfl⟩
    · cases h
  | has => cases h
  | acquires => cases h
  | tries => cases h
  | releases => cases h

end

theorem Inv.enter (h : Inv B sound pre apart s) {i : ι} {l : L.State} (hpc : s.pc t = .enters i)
    (hlock : L.machine.step s.lock (.step t) = some l) :
    Inv B sound pre apart ({ s with lock := l }.goto t (entered B i (L.phase l t))) := by
  have hmine : (s.pc t).pending = some i := by rw [hpc]; rfl
  have howner : Phase.Next (.step t) (L.phase s.lock t) (L.phase l t) := L.own _ _ _ hlock
  have hothers : ∀ u, u ≠ t → L.phase l u = L.phase s.lock u := L.others _ _ _ hlock
  have hagrees := h.agrees t
  rw [hpc] at hagrees
  obtain ⟨past, run⟩ := h.run
  have hbefore : L.phase s.lock t ≠ .has false := by
    intro hhas
    rw [hhas] at hagrees
    cases hagrees
  apply h.move ⟨_, run.step hlock⟩ hothers hbefore
  · generalize L.phase s.lock t = p, L.phase l t = p' at howner hagrees
    cases hagrees with
    | acquires hagain hgrant =>
      cases howner with
      | goesOn => exact .acquires hagain hgrant
      | acquired => exact .inside hgrant
    | tries hagain hgrant =>
      cases howner with
      | goesOn => exact .tries hagain hgrant
      | taken => exact .inside hgrant
      | failed =>
        simp only [entered, hagain]
        exact .left
  · intro j k hj
    obtain ⟨rfl, rfl, reading, hphase⟩ := entered_inside hj
    have hquiet : s.mem = s.base := by
      apply h.quiet
      intro u hu
      rcases eq_or_ne u t with rfl | hne
      · exact hbefore hu
      · rw [← hothers u hne] at hu
        exact hne (L.excludes _ l (run.step hlock) u t reading hu hphase).symm
    rw [hquiet]
    exact .enter
  · intro j hj
    obtain rfl := entered_pending hj
    exact ⟨h.pre t j hmine, fun u j' hu hj' => ⟨h.apart t u j j' hu.symm hmine hj',
      h.apart u t j' j hu hj' hmine⟩⟩

theorem Inv.leave (h : Inv B sound pre apart s) {i : ι} {r : ρ} {l : L.State}
    (hpc : s.pc t = .leaves i r) (hlock : L.machine.step s.lock (.step t) = some l) :
    Inv B sound pre apart { s with lock := l } := by
  have howner : Phase.Next (.step t) (L.phase s.lock t) (L.phase l t) := L.own _ _ _ hlock
  have hagrees := h.agrees t
  rw [hpc] at hagrees
  obtain ⟨past, run⟩ := h.run
  have hstay : ({ s with lock := l } : State L σ ι ρ κ).goto t (.leaves i r) =
      { s with lock := l } := by
    simp only [State.goto, ← hpc, update_eq_self]
  rw [← hstay]
  have hothers : ∀ u, u ≠ t → L.phase l u = L.phase s.lock u := L.others _ _ _ hlock
  apply h.move ⟨_, run.step hlock⟩ hothers
  · intro hhas
    rw [hhas] at hagrees
    cases hagrees
  · generalize L.phase s.lock t = p, L.phase l t = p' at howner hagrees
    cases hagrees with
    | releases =>
      cases howner with
      | goesOn => exact .releases
      | released => exact .left
    | left =>
      cases howner with
      | goesOn hcalling => cases hcalling
  · intro j k hj
    cases hj
  · intro j hj
    cases hj

/-- A call that is refused was in a tryacquire, which has failed. -/
theorem Inv.refused (h : Inv B sound pre apart s) {i j : ι} {r : ρ} (hpc : s.pc t = .enters i)
    (hstep : lockStep B s t = some s') (hleaves : s'.pc t = .leaves j r) :
    ∃ l reading, L.machine.step s.lock (.step t) = some l ∧
      L.phase s.lock t = .tries reading ∧ L.phase l t = .out := by
  simp only [lockStep, hpc, Option.map_eq_some_iff] at hstep
  obtain ⟨l, hlock, rfl⟩ := hstep
  rw [goto_self] at hleaves
  have hout := entered_leaves hleaves
  have howner : Phase.Next (.step t) (L.phase s.lock t) (L.phase l t) := L.own _ _ _ hlock
  have hagrees := h.agrees t
  rw [hpc] at hagrees
  rw [hout] at howner
  generalize hphase : L.phase s.lock t = p at howner hagrees
  refine ⟨l, ?_⟩
  cases hagrees with
  | acquires => cases howner
  | @tries _ reading => exact ⟨reading, hlock, rfl, hout⟩

theorem Inv.ret (h : Inv B sound pre apart s) (hout : L.phase s.lock t = .out) :
    Inv B sound pre apart (s.goto t .idle) := by
  apply h.move h.run (fun _ _ => rfl)
  · rw [hout]
    exact Phase.noConfusion
  · rw [hout]
    exact .idle
  · intro j k hj
    cases hj
  · intro j hj
    cases hj

section Runs

variable {abs : σ → τ} {spec : τ → ι → ρ → τ → Prop} (meets : B.Meets sound pre apart abs spec)

include meets

theorem Inv.step (h : Inv B sound pre apart s) {a : Act Tid ι β} (hok : Allowed pre apart s a)
    (hs : step B s a = some s') : Inv B sound pre apart s' := by
  cases a with
  | call t i =>
    cases hpc : s.pc t with
    | idle =>
      simp only [Locked.step, hpc, Option.map_eq_some_iff] at hs
      obtain ⟨l, hlock, rfl⟩ := hs
      exact h.begins hpc hlock hok.1 hok.2
    | _ => simp only [Locked.step, hpc] at hs; cases hs
  | lock t =>
    cases hpc : s.pc t with
    | enters i =>
      simp only [Locked.step, lockStep, hpc, Option.map_eq_some_iff] at hs
      obtain ⟨l, hlock, rfl⟩ := hs
      exact h.enter hpc hlock
    | leaves i r =>
      simp only [Locked.step, lockStep, hpc, Option.map_eq_some_iff] at hs
      obtain ⟨l, hlock, rfl⟩ := hs
      exact h.leave hpc hlock
    | _ => simp only [Locked.step, lockStep, hpc] at hs; cases hs
  | body t b =>
    cases hpc : s.pc t with
    | inside i k =>
      simp only [Locked.step, bodyStep, hpc] at hs
      rcases hstep : B.step i k s.mem b with _ | ⟨m, k' | r⟩
      · rw [hstep] at hs
        cases hs
      · rw [hstep] at hs
        cases hs
        exact h.inner meets hpc hstep
      · rw [hstep] at hs
        obtain ⟨l, hlock, rfl⟩ := Option.map_eq_some_iff.mp hs
        exact h.finish meets hpc hstep hlock
    | _ => simp only [Locked.step, bodyStep, hpc] at hs; cases hs
  | ret t =>
    cases hpc : s.pc t with
    | leaves i r =>
      simp only [Locked.step, hpc] at hs
      obtain ⟨hout, hs⟩ := Option.ite_none_right_eq_some.mp hs
      cases hs
      exact h.ret hout
    | _ => simp only [Locked.step, hpc] at hs; cases hs

theorem run_inv {init : σ → Prop} (hinit : ∀ m, init m → sound m)
    {past : List (State L σ ι ρ κ × Act Tid ι β)} (run : (machine L B init).Run past s)
    (hok : AllSteps (Allowed pre apart) past) : Inv B sound pre apart s := by
  apply run.invariant_if _ _ hok
  · intro s₀ h
    constructor
    · exact ⟨[], .start h.lock⟩
    · intro t
      rw [h.pc, L.start _ h.lock t]
      exact .idle
    · rw [h.base]
      exact hinit _ h.mem
    · intro _
      exact h.base.symm
    · intro t i k ht
      rw [h.pc] at ht
      cases ht
    · intro t i ht
      rw [h.pc] at ht
      cases ht
    · intro t u i j _ ht
      rw [h.pc] at ht
      cases ht
  · intro s₁ a s₂ h hok hs
    exact h.step meets hok hs

/-- A call is settled where its body returns, or its tryacquire fails. -/
theorem Inv.moves (h : Inv B sound pre apart s) {a : Act Tid ι β} (hs : Locked.step B s a = some s')
    (past : List (State L σ ι ρ κ × Act Tid ι β)) :
    Moves (view L abs) spec a.thread past s s' := by
  have hsettled (s₁ : State L σ ι ρ κ) (t : Tid) (pc : Pc ι ρ κ) (hpc : s₁.pc = s.pc) :
      (view L abs).settled t (s₁.goto t pc) = pc.settled ∧
        ∀ u, u ≠ t → (view L abs).settled u (s₁.goto t pc) = (view L abs).settled u s := by
    constructor
    · change ((s₁.goto t pc).pc t).settled = pc.settled
      rw [goto_self]
    · intro u hu
      change ((s₁.goto t pc).pc u).settled = (s.pc u).settled
      rw [goto_other _ _ hu, hpc]
  cases a with
  | call t i =>
    cases hpc : s.pc t with
    | idle =>
      simp only [Locked.step, hpc, Option.map_eq_some_iff] at hs
      obtain ⟨l, -, rfl⟩ := hs
      obtain ⟨hself, hothers⟩ := hsettled { s with lock := l } t (.enters i) rfl
      refine ⟨.walk rfl ?_, hothers⟩
      rw [Act.thread, hself]
      change none = (s.pc t).settled
      rw [hpc]
      rfl
    | _ => simp only [Locked.step, hpc] at hs; cases hs
  | lock t =>
    cases hpc : s.pc t with
    | enters i =>
      simp only [Locked.step, lockStep, hpc, Option.map_eq_some_iff] at hs
      obtain ⟨l, hlock, rfl⟩ := hs
      obtain ⟨hself, hothers⟩ := hsettled { s with lock := l } t
        (entered B i (L.phase l t)) rfl
      refine ⟨?_, hothers⟩
      have hbefore : (view L abs).settled t s = none := by
        change (s.pc t).settled = none
        rw [hpc]
        rfl
      cases hafter : (entered B i (L.phase l t)).settled with
      | none =>
        refine .walk rfl ?_
        rw [Act.thread, hself, hafter, hbefore]
      | some x =>
        obtain ⟨hagain, hx⟩ := entered_settled hafter
        rw [hx] at hafter
        refine .settle i x.2 hbefore (hself.trans hafter) ?_
        exact meets.again i s.base x.2 h.sound hagain
    | leaves i r =>
      simp only [Locked.step, lockStep, hpc, Option.map_eq_some_iff] at hs
      obtain ⟨l, -, rfl⟩ := hs
      exact ⟨.walk rfl rfl, fun _ _ => rfl⟩
    | _ => simp only [Locked.step, lockStep, hpc] at hs; cases hs
  | body t b =>
    cases hpc : s.pc t with
    | inside i k =>
      have hbefore : (view L abs).settled t s = none := by
        change (s.pc t).settled = none
        rw [hpc]
        rfl
      simp only [Locked.step, bodyStep, hpc] at hs
      rcases hstep : B.step i k s.mem b with _ | ⟨m, k' | r⟩
      · rw [hstep] at hs
        cases hs
      · rw [hstep] at hs
        cases hs
        obtain ⟨hself, hothers⟩ := hsettled { s with mem := m } t
          (.inside i k') rfl
        refine ⟨.walk rfl ?_, hothers⟩
        rw [Act.thread, hself, hbefore]
        rfl
      · rw [hstep] at hs
        obtain ⟨l, -, rfl⟩ := Option.map_eq_some_iff.mp hs
        obtain ⟨hself, hothers⟩ := hsettled { s with lock := l, mem := m, base := m }
          t (.leaves i r) rfl
        exact ⟨.settle i r hbefore hself (h.returned meets hpc hstep).2.2, hothers⟩
    | _ => simp only [Locked.step, bodyStep, hpc] at hs; cases hs
  | ret t =>
    cases hpc : s.pc t with
    | leaves i r =>
      simp only [Locked.step, hpc] at hs
      obtain ⟨-, hs⟩ := Option.ite_none_right_eq_some.mp hs
      cases hs
      refine ⟨.leave rfl ?_, (hsettled s t .idle rfl).2⟩
      intro hbusy
      exact hbusy (goto_self ..)
    | _ => simp only [Locked.step, hpc] at hs; cases hs

/-- The calls of an object under a lock are atomic operations. -/
theorem linear {init : σ → Prop} (hinit : ∀ m, init m → sound m)
    {past : List (State L σ ι ρ κ × Act Tid ι β)} (run : (machine L B init).Run past s)
    (hok : AllSteps (Allowed pre apart) past) :
    Linear (machine L B init) Act.thread (view L abs) spec past s := by
  apply run.linear _ _ hok
  · intro s₀ h t
    change (s₀.pc t).settled = none
    rw [h.pc]
    rfl
  · intro past s₁ a s₂ run hok hs
    exact (run_inv meets hinit run hok).moves meets hs past

end Runs

/-- A call that is inside always has its next step. -/
theorem Inv.bodyGoesOn {fine : σ → Prop} (h : Inv B sound pre apart s)
    (hgoes : B.GoesOn sound fine pre) (hfine : fine s.base) {i : ι} {k : κ}
    (hpc : s.pc t = .inside i k) : ∃ b s', Locked.step B s (.body t b) = some s' := by
  have hpre := h.pre t i (by rw [hpc]; rfl)
  obtain ⟨b, hb⟩ := hgoes i s.base s.mem k h.sound hfine hpre (h.inside t i k hpc)
  obtain ⟨⟨m, x⟩, hstep⟩ := Option.isSome_iff_exists.mp hb
  refine ⟨b, ?_⟩
  simp only [Locked.step, bodyStep, hpc, hstep]
  cases x with
  | inl k' => exact ⟨_, rfl⟩
  | inr r =>
    have hagrees := h.agrees t
    rw [hpc] at hagrees
    generalize hphase : L.phase s.lock t = p at hagrees
    cases hagrees with
    | inside =>
      obtain ⟨l, hl⟩ := Option.isSome_iff_exists.mp (L.leaves s.lock t _ hphase)
      simp only [hl]
      exact ⟨_, rfl⟩

theorem Inv.goesOn {fine : σ → Prop} (h : Inv B sound pre apart s)
    (hgoes : B.GoesOn sound fine pre) (hfine : fine s.base) (ht : s.pc t ≠ .idle) :
    ∃ a s', s.pc (Act.thread a) ≠ .idle ∧ Locked.step B s a = some s' := by
  have hbody {u : Tid} {i : ι} {k : κ} (hpc : s.pc u = .inside i k) :
      ∃ a s', s.pc (Act.thread a) ≠ .idle ∧ Locked.step B s a = some s' := by
    obtain ⟨b, s', hs⟩ := h.bodyGoesOn hgoes hfine hpc
    refine ⟨.body u b, s', ?_, hs⟩
    rw [Act.thread, hpc]
    intro heq
    cases heq
  have hlock {u : Tid} (hcalling : (L.phase s.lock u).calling = true) :
      ∃ a s', s.pc (Act.thread a) ≠ .idle ∧ Locked.step B s a = some s' := by
    obtain ⟨past, run⟩ := h.run
    rcases L.live past s.lock run u hcalling with ⟨v, reading, hv⟩ | ⟨v, l, hv, hl⟩
    · have hagrees := h.agrees v
      rw [hv] at hagrees
      generalize hpc : s.pc v = pc at hagrees
      cases hagrees with
      | inside => exact hbody hpc
    · have hagrees := h.agrees v
      generalize hphase : L.phase s.lock v = p at hagrees
      generalize hpc : s.pc v = pc at hagrees
      rw [hphase] at hv
      have hbusy (hne : pc ≠ .idle) : s.pc (Act.thread (.lock v : Act Tid ι β)) ≠ .idle := by
        rw [Act.thread, hpc]
        exact hne
      refine ⟨.lock v, ?_⟩
      cases hagrees with
      | idle => cases hv
      | inside => cases hv
      | left => cases hv
      | acquires | tries | releases =>
        simp only [Locked.step, lockStep, hpc, hl]
        refine ⟨_, hbusy ?_, rfl⟩
        intro heq
        cases heq
  have hagrees := h.agrees t
  generalize hphase : L.phase s.lock t = p at hagrees
  generalize hpc : s.pc t = pc at hagrees
  cases hagrees with
  | idle => exact absurd hpc ht
  | inside => exact hbody hpc
  | acquires => exact hlock (by rw [hphase]; rfl)
  | tries => exact hlock (by rw [hphase]; rfl)
  | releases => exact hlock (by rw [hphase]; rfl)
  | left =>
    refine ⟨.ret t, s.goto t .idle, ht, ?_⟩
    simp only [Locked.step, hpc, hphase]
    rfl

end Locked

end Libvsync.Core
