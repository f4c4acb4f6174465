import Libvsync.Core.Linear
import Libvsync.Core.Word
import Mathlib.Data.List.Nodup
import Mathlib.Data.List.Pairwise

/-!
The Chase-Lev deque: one owner pushes and pops at the bottom, any number of
thieves steal at the top. The model has one atomic operation per step. The
array pointer and its size never change after `vdeque_init`, so reading them
is not a step of its own.

`History` is not read by any step of the code. It numbers the pushes in the
order of their writes to `bottom` and records, for every call that returns
`VDEQUE_STATE_OK`, the push whose index the call took and the value that the
call returns.
-/

namespace Libvsync.Queue.ChaseLev

open Libvsync.Core Function

/-- `vdeque_state_t`. -/
inductive VdequeState where
  | ok
  | empty
  | full
  | abort
  deriving DecidableEq, Repr

/-- `vdeque_t` together with its array. -/
structure Vdeque (V : Type) where
  top : Nat
  bottom : Nat
  buffer : Nat → V

def vdequeInit {V : Type} (null : V) : Vdeque V :=
  { top := 0, bottom := 0, buffer := fun _ => null }

inductive DequeCall (V : Type) where
  | push (inObj : V)
  | pop
  | steal

/-- Where the owner stands: the next operation, with the locals it uses. -/
inductive OwnerPc (V : Type) where
  | idle
  | pushReadBottom (inObj : V)
  | pushReadTop (inObj : V) (bottom : Nat)
  | pushWriteSlot (inObj : V) (bottom : Nat)
  | pushWriteBottom (inObj : V) (bottom : Nat)
  | popReadBottom
  | popWriteBottom (bottom : Nat)
  | popReadTop (bottom : Nat)
  | popReadSlot (bottom top : Nat)
  | popCas (bottom top : Nat) (outObj : V)
  | popRestore (bottom : Nat) (state : VdequeState) (outObj : Option V)
  | ret (call : DequeCall V) (state : VdequeState) (outObj : Option V)

inductive ThiefPc (V : Type) where
  | idle
  | readTop
  | readBottom (top : Nat)
  | readSlot (top : Nat)
  | cas (top : Nat) (outObj : V)
  | ret (state : VdequeState) (outObj : Option V)

structure History (V : Type) where
  pushed : List V
  /-- The number of the push that last published an index. -/
  stamp : Nat → Nat
  stolen : List (Nat × V)
  popped : List (Nat × V)

/-- Every push that some successful call took, with the value returned. -/
def History.taken {V : Type} (h : History V) : List (Nat × V) := h.stolen ++ h.popped

structure State (Tid V : Type) where
  q : Vdeque V
  owner : OwnerPc V
  thief : Tid → ThiefPc V
  hist : History V

/-- A label: the owner or a thief begins a call, or takes its next step. -/
inductive Act (Tid V : Type) where
  | push (inObj : V)
  | pop
  | owner
  | steal (t : Tid)
  | thief (t : Tid)

/-- The thief that takes a step; `none` is the owner. -/
def Act.thread {Tid V : Type} : Act Tid V → Option Tid
  | .push _ | .pop | .owner => none
  | .steal t | .thief t => some t

variable {Tid V : Type}

def publish (h : History V) (v : V) (index : Nat) : History V :=
  { h with
    pushed := h.pushed ++ [v]
    stamp := update h.stamp index h.pushed.length }

def recordPop (h : History V) (index : Nat) (v : V) : History V :=
  { h with popped := h.popped ++ [(h.stamp index, v)] }

def recordSteal (h : History V) (index : Nat) (v : V) : History V :=
  { h with stolen := h.stolen ++ [(h.stamp index, v)] }

/-- One step of `vdeque_push_bottom` or `vdeque_pop_bottom`. -/
def ownerStep (size : Nat) (s : State Tid V) : Option (State Tid V) :=
  match s.owner with
  | .idle => none
  | .pushReadBottom v => some { s with owner := .pushReadTop v s.q.bottom }
  | .pushReadTop v bottom =>
    if wsub 64 bottom s.q.top > size - 1 then
      some { s with owner := .ret (.push v) .full none }
    else
      some { s with owner := .pushWriteSlot v bottom }
  | .pushWriteSlot v bottom =>
    some { s with
      q := { s.q with buffer := update s.q.buffer (bottom % size) v }
      owner := .pushWriteBottom v bottom }
  | .pushWriteBottom v bottom =>
    some { s with
      q := { s.q with bottom := wadd 64 bottom 1 }
      owner := .ret (.push v) .ok none
      hist := publish s.hist v bottom }
  | .popReadBottom =>
    if s.q.bottom = 0 then
      some { s with owner := .ret .pop .empty none }
    else
      some { s with owner := .popWriteBottom (s.q.bottom - 1) }
  | .popWriteBottom bottom =>
    some { s with q := { s.q with bottom := bottom }, owner := .popReadTop bottom }
  | .popReadTop bottom =>
    if s.q.top ≤ bottom then
      some { s with owner := .popReadSlot bottom s.q.top }
    else
      some { s with owner := .popRestore bottom .empty none }
  | .popReadSlot bottom top =>
    let outObj := s.q.buffer (bottom % size)
    if top = bottom then
      some { s with owner := .popCas bottom top outObj }
    else
      some { s with
        owner := .ret .pop .ok (some outObj)
        hist := recordPop s.hist bottom outObj }
  | .popCas bottom top outObj =>
    if s.q.top = top then
      some { s with
        q := { s.q with top := wadd 64 top 1 }
        owner := .popRestore bottom .ok (some outObj)
        hist := recordPop s.hist bottom outObj }
    else
      some { s with owner := .popRestore bottom .empty none }
  | .popRestore bottom state outObj =>
    some { s with
      q := { s.q with bottom := wadd 64 bottom 1 }
      owner := .ret .pop state outObj }
  | .ret _ _ _ => some { s with owner := .idle }

section Steps

variable [DecidableEq Tid]

/-- One step of `vdeque_steal`. -/
def thiefStep (size : Nat) (s : State Tid V) (t : Tid) : Option (State Tid V) :=
  match s.thief t with
  | .idle => none
  | .readTop => some { s with thief := update s.thief t (.readBottom s.q.top) }
  | .readBottom top =>
    if top < s.q.bottom then
      some { s with thief := update s.thief t (.readSlot top) }
    else
      some { s with thief := update s.thief t (.ret .empty none) }
  | .readSlot top =>
    some { s with
      thief := update s.thief t (.cas top (s.q.buffer (top % size))) }
  | .cas top outObj =>
    if s.q.top = top then
      some { s with
        q := { s.q with top := wadd 64 top 1 }
        thief := update s.thief t (.ret .ok (some outObj))
        hist := recordSteal s.hist top outObj }
    else
      some { s with thief := update s.thief t (.ret .abort none) }
  | .ret _ _ => some { s with thief := update s.thief t .idle }

def step (size : Nat) (s : State Tid V) : Act Tid V → Option (State Tid V)
  | .push v =>
    match s.owner with
    | .idle => some { s with owner := .pushReadBottom v }
    | _ => none
  | .pop =>
    match s.owner with
    | .idle => some { s with owner := .popReadBottom }
    | _ => none
  | .owner => ownerStep size s
  | .steal t =>
    match s.thief t with
    | .idle => some { s with thief := update s.thief t .readTop }
    | _ => none
  | .thief t => thiefStep size s t

def start (null : V) : State Tid V where
  q := vdequeInit null
  owner := .idle
  thief := fun _ => .idle
  hist := { pushed := [], stamp := fun _ => 0, stolen := [], popped := [] }

/-- The deque over an array of length `size`, from its initial state. -/
def machine (Tid : Type) [DecidableEq Tid] (size : Nat) (null : V) :
    Machine (State Tid V) (Act Tid V) where
  start s := s = start null
  step := step size

end Steps

/-- The indices stay below `2 ^ 64`. -/
def IndexFits (s : State Tid V) (_ : Act Tid V) : Prop := s.q.bottom + 1 < 2 ^ 64

instance (s : State Tid V) (a : Act Tid V) : Decidable (IndexFits s a) :=
  inferInstanceAs (Decidable (_ < _))

def Quiescent (s : State Tid V) : Prop :=
  (s.owner = .idle ∨ ∃ call state out, s.owner = .ret call state out) ∧
    ∀ t, s.thief t = .idle ∨ ∃ state out, s.thief t = .ret state out

/-- What the deque holds: the indices from `top` up to `limit` carry pushes
that nobody has returned, in push order, and every other push was returned by
exactly one call. `held i` is the value in the slot of index `i`. -/
structure Live (top limit : Nat) (held : Nat → V) (h : History V) : Prop where
  value : ∀ i, top ≤ i → i < limit → h.pushed[h.stamp i]? = some (held i)
  order : ∀ i j, top ≤ i → i < j → j < limit → h.stamp i < h.stamp j
  rest : ∀ n < h.pushed.length,
    n ∈ h.taken.map Prod.fst ↔ ∀ i, top ≤ i → i < limit → h.stamp i ≠ n
  takenValue : ∀ p ∈ h.taken, h.pushed[p.1]? = some p.2
  once : (h.taken.map Prod.fst).Nodup
  stealOrder : (h.stolen.map Prod.fst).Pairwise (· < ·)
  stolenBefore : ∀ n ∈ h.stolen.map Prod.fst, ∀ i, top ≤ i → i < limit → n < h.stamp i

section Live

variable {top limit : Nat} {held : Nat → V} {h : History V}

theorem Live.stamp_lt (l : Live top limit held h) {i : Nat} (hlow : top ≤ i)
    (hhigh : i < limit) : h.stamp i < h.pushed.length := by
  have hv := l.value i hlow hhigh
  exact (List.getElem?_eq_some_iff.mp hv).1

theorem Live.not_taken (l : Live top limit held h) {i : Nat} (hlow : top ≤ i)
    (hhigh : i < limit) : h.stamp i ∉ h.taken.map Prod.fst := by
  intro hmem
  exact (l.rest _ (l.stamp_lt hlow hhigh)).mp hmem i hlow hhigh rfl

theorem Live.taken_lt (l : Live top limit held h) {n : Nat}
    (hmem : n ∈ h.taken.map Prod.fst) : n < h.pushed.length := by
  obtain ⟨p, hp, rfl⟩ := List.mem_map.mp hmem
  exact (List.getElem?_eq_some_iff.mp (l.takenValue p hp)).1

theorem Live.congr (l : Live top limit held h) {held' : Nat → V}
    (heq : ∀ i, top ≤ i → i < limit → held' i = held i) : Live top limit held' h :=
  { l with value := fun i hlow hhigh => by rw [heq i hlow hhigh]; exact l.value i hlow hhigh }

/-- An empty range may be moved. -/
theorem Live.move (l : Live top limit held h) (hempty : limit ≤ top) {top' limit' : Nat}
    (hempty' : limit' ≤ top') : Live top' limit' held h where
  value i hlow hhigh := by omega
  order i j hlow hij hhigh := by omega
  rest n hn := by
    rw [l.rest n hn]
    constructor
    · intro _ i hlow hhigh
      omega
    · intro _ i hlow hhigh
      omega
  takenValue := l.takenValue
  once := l.once
  stealOrder := l.stealOrder
  stolenBefore n _ i hlow hhigh := by omega

/-- Publishing the index at the limit adds the newest push. -/
theorem Live.publish (l : Live top limit held h) (hle : top ≤ limit) {v : V}
    (hv : held limit = v) : Live top (limit + 1) held (publish h v limit) := by
  have hold : ∀ i, i < limit → (ChaseLev.publish h v limit).stamp i = h.stamp i := by
    intro i hi
    exact update_of_ne (by omega) _ _
  have hnew : (ChaseLev.publish h v limit).stamp limit = h.pushed.length :=
    update_self _ _ _
  have hpushed : (ChaseLev.publish h v limit).pushed = h.pushed ++ [v] := rfl
  have htaken : (ChaseLev.publish h v limit).taken = h.taken := rfl
  constructor
  · intro i hlow hhigh
    rcases Nat.lt_or_ge i limit with hi | hi
    · rw [hold i hi, hpushed, List.getElem?_append_left (l.stamp_lt hlow hi)]
      exact l.value i hlow hi
    · have : i = limit := by omega
      subst this
      rw [hnew, hpushed, hv]
      simp
  · intro i j hlow hij hhigh
    rcases Nat.lt_or_ge j limit with hj | hj
    · rw [hold i (by omega), hold j hj]
      exact l.order i j hlow hij hj
    · have : j = limit := by omega
      subst this
      rw [hnew, hold i hij]
      exact l.stamp_lt hlow hij
  · intro n hn
    rw [hpushed, List.length_append, List.length_singleton] at hn
    rw [htaken]
    rcases Nat.lt_or_ge n h.pushed.length with hlt | hge
    · rw [l.rest n hlt]
      constructor
      · intro hall i hlow hhigh
        rcases Nat.lt_or_ge i limit with hi | hi
        · rw [hold i hi]
          exact hall i hlow hi
        · have : i = limit := by omega
          subst this
          rw [hnew]
          omega
      · intro hall i hlow hhigh
        rw [← hold i hhigh]
        exact hall i hlow (by omega)
    · constructor
      · intro hmem
        have := l.taken_lt hmem
        omega
      · intro hall
        have hlast := hall limit hle (by omega)
        rw [hnew] at hlast
        omega
  · intro p hp
    have hv' := l.takenValue p hp
    rw [hpushed, List.getElem?_append_left (List.getElem?_eq_some_iff.mp hv').1]
    exact hv'
  · exact l.once
  · exact l.stealOrder
  · intro n hn i hlow hhigh
    rcases Nat.lt_or_ge i limit with hi | hi
    · rw [hold i hi]
      exact l.stolenBefore n hn i hlow hi
    · have : i = limit := by omega
      subst this
      rw [hnew]
      apply l.taken_lt
      simp only [History.taken, List.map_append, List.mem_append]
      exact Or.inl hn

theorem Live.steal (l : Live top limit held h) (hlt : top < limit) :
    Live (top + 1) limit held (recordSteal h top (held top)) := by
  have hstamp : (recordSteal h top (held top)).stamp = h.stamp := rfl
  have hpushed : (recordSteal h top (held top)).pushed = h.pushed := rfl
  have hmem : ∀ n, n ∈ (recordSteal h top (held top)).taken.map Prod.fst ↔
      n ∈ h.taken.map Prod.fst ∨ n = h.stamp top := by
    intro n
    simp only [History.taken, recordSteal, List.map_append, List.mem_append,
      List.map_cons, List.map_nil, List.mem_singleton]
    tauto
  constructor
  · intro i hlow hhigh
    rw [hstamp, hpushed]
    exact l.value i (by omega) hhigh
  · intro i j hlow hij hhigh
    rw [hstamp]
    exact l.order i j (by omega) hij hhigh
  · intro n hn
    rw [hmem, hstamp]
    rw [hpushed] at hn
    rw [l.rest n hn]
    constructor
    · rintro (hall | rfl) i hlow hhigh
      · exact hall i (by omega) hhigh
      · exact (l.order top i (le_refl _) (by omega) hhigh).ne'
    · intro hall
      by_cases hn' : n = h.stamp top
      · exact Or.inr hn'
      · refine Or.inl fun i hlow hhigh => ?_
        rcases Nat.eq_or_lt_of_le hlow with rfl | hgt
        · exact fun heq => hn' heq.symm
        · exact hall i hgt hhigh
  · intro p hp
    rw [hpushed]
    simp only [History.taken, recordSteal, List.mem_append, List.mem_singleton] at hp
    rcases hp with (hp | rfl) | hp
    · exact l.takenValue p (by simp [History.taken, hp])
    · exact l.value top (le_refl _) hlt
    · exact l.takenValue p (by simp [History.taken, hp])
  · have hfresh := l.not_taken (le_refl _) hlt
    have honce := l.once
    simp only [History.taken, List.map_append, List.mem_append, not_or] at hfresh honce
    simp only [History.taken, recordSteal, List.map_append, List.map_cons, List.map_nil,
      List.append_assoc]
    rw [List.nodup_append_comm, List.append_assoc, List.singleton_append, List.nodup_cons]
    simp only [List.mem_append, not_or]
    exact ⟨⟨hfresh.2, hfresh.1⟩, List.nodup_append_comm.mp honce⟩
  · simp only [recordSteal, List.map_append, List.map_cons, List.map_nil]
    rw [List.pairwise_append]
    refine ⟨l.stealOrder, List.pairwise_singleton _ _, ?_⟩
    intro n hn m hm
    rw [List.mem_singleton] at hm
    subst hm
    exact l.stolenBefore n hn top (le_refl _) hlt
  · intro n hn i hlow hhigh
    rw [hstamp]
    simp only [recordSteal, List.map_append, List.map_cons, List.map_nil,
      List.mem_append, List.mem_singleton] at hn
    rcases hn with hn | rfl
    · exact l.stolenBefore n hn i (by omega) hhigh
    · exact l.order top i (le_refl _) (by omega) hhigh

/-- The owner's pop takes the newest push that is left. -/
theorem Live.pop (l : Live top (limit + 1) held h) (hle : top ≤ limit) :
    Live top limit held (recordPop h limit (held limit)) := by
  have hstamp : (recordPop h limit (held limit)).stamp = h.stamp := rfl
  have hpushed : (recordPop h limit (held limit)).pushed = h.pushed := rfl
  have hmem : ∀ n, n ∈ (recordPop h limit (held limit)).taken.map Prod.fst ↔
      n ∈ h.taken.map Prod.fst ∨ n = h.stamp limit := by
    intro n
    simp only [History.taken, recordPop, List.map_append, List.mem_append,
      List.map_cons, List.map_nil, List.mem_singleton]
    tauto
  constructor
  · intro i hlow hhigh
    rw [hstamp, hpushed]
    exact l.value i hlow (by omega)
  · intro i j hlow hij hhigh
    rw [hstamp]
    exact l.order i j hlow hij (by omega)
  · intro n hn
    rw [hmem, hstamp]
    rw [hpushed] at hn
    rw [l.rest n hn]
    constructor
    · rintro (hall | rfl) i hlow hhigh
      · exact hall i hlow (by omega)
      · exact (l.order i limit hlow hhigh (by omega)).ne
    · intro hall
      by_cases hn' : n = h.stamp limit
      · exact Or.inr hn'
      · refine Or.inl fun i hlow hhigh => ?_
        rcases Nat.lt_or_ge i limit with hlt | hge
        · exact hall i hlow hlt
        · have : i = limit := by omega
          subst this
          exact fun heq => hn' heq.symm
  · intro p hp
    rw [hpushed]
    simp only [History.taken, recordPop, List.mem_append, List.mem_singleton] at hp
    rcases hp with hp | hp | rfl
    · exact l.takenValue p (by simp [History.taken, hp])
    · exact l.takenValue p (by simp [History.taken, hp])
    · exact l.value limit hle (by omega)
  · have hfresh := l.not_taken hle (Nat.lt_succ_self limit)
    have honce := l.once
    simp only [History.taken, recordPop, List.map_append, List.map_cons, List.map_nil,
      ← List.append_assoc]
    simp only [History.taken, List.map_append] at hfresh honce
    exact List.nodup_append_comm.mp (List.nodup_cons.mpr ⟨hfresh, honce⟩)
  · exact l.stealOrder
  · intro n hn i hlow hhigh
    exact l.stolenBefore n hn i hlow (by omega)

end Live

/-- The end of the held range. Between its two writes to `bottom` a pop still
owns the index it has given up. -/
def State.limit (s : State Tid V) : Nat :=
  match s.owner with
  | .popReadTop bottom | .popReadSlot bottom _ | .popCas bottom _ _
  | .popRestore bottom _ _ => bottom + 1
  | _ => s.q.bottom

/-- The owner will return the value of index `i` without a compare-and-swap. -/
def Claims : OwnerPc V → Nat → Prop
  | .popReadSlot bottom top, i => top < bottom ∧ i = bottom
  | _, _ => False

/-- A thief that read `top = i` may still win index `i`. -/
def Stealable (s : State Tid V) (i : Nat) : Prop :=
  i < s.limit ∧ ¬ Claims s.owner i

def OwnerOk (size : Nat) (s : State Tid V) : Prop :=
  match s.owner with
  | .pushReadTop _ bottom => bottom = s.q.bottom
  | .pushWriteSlot _ bottom => bottom = s.q.bottom ∧ bottom < s.q.top + size
  | .pushWriteBottom v bottom =>
    bottom = s.q.bottom ∧ bottom < s.q.top + size ∧ s.q.buffer (bottom % size) = v
  | .popWriteBottom bottom => s.q.bottom = bottom + 1
  | .popReadTop bottom => s.q.bottom = bottom
  | .popReadSlot bottom top =>
    s.q.bottom = bottom ∧ top ≤ bottom ∧ top ≤ s.q.top ∧
      (top < bottom → s.q.top ≤ bottom)
  | .popCas bottom top v =>
    s.q.bottom = bottom ∧ top = bottom ∧ top ≤ s.q.top ∧
      s.q.buffer (bottom % size) = v
  | .popRestore bottom _ _ => s.q.bottom = bottom ∧ s.q.top = bottom + 1
  | _ => True

def ThiefOk (size : Nat) (s : State Tid V) : ThiefPc V → Prop
  | .readBottom top => top ≤ s.q.top
  | .readSlot top => top ≤ s.q.top ∧ (s.q.top = top → Stealable s top)
  | .cas top v => top ≤ s.q.top ∧
      (s.q.top = top → Stealable s top ∧ s.q.buffer (top % size) = v)
  | _ => True

structure Inv (size : Nat) (s : State Tid V) : Prop where
  topLe : s.q.top ≤ s.limit
  span : s.limit ≤ s.q.top + size
  live : Live s.q.top s.limit (fun i => s.q.buffer (i % size)) s.hist
  owner : OwnerOk size s
  thieves : ∀ t, ThiefOk size s (s.thief t)

theorem slot_ne {size low i j : Nat} (hlow : low ≤ i) (hij : i < j)
    (hspan : j < low + size) : i % size ≠ j % size := by
  intro heq
  have hdvd := Nat.sub_mod_eq_zero_of_mod_eq heq.symm
  rw [Nat.mod_eq_of_lt (by omega)] at hdvd
  omega

theorem start_inv (size : Nat) (null : V) :
    Inv size (start null : State Tid V) where
  topLe := Nat.le_refl _
  span := Nat.zero_le _
  live :=
    { value := fun i _ hi => absurd hi (Nat.not_lt_zero i)
      order := fun _ j _ _ hj => absurd hj (Nat.not_lt_zero j)
      rest := fun n hn => absurd hn (Nat.not_lt_zero n)
      takenValue := fun p hp => by cases hp
      once := List.nodup_nil
      stealOrder := List.Pairwise.nil
      stolenBefore := fun n hn => by cases hn }
  owner := trivial
  thieves := fun _ => trivial

/-- While `top` stays, thieves keep their chances as long as the index at
`top` stays available in its slot. -/
theorem ThiefOk.keep {size : Nat} {s s' : State Tid V} {pc : ThiefPc V}
    (h : ThiefOk size s pc) (htop : s'.q.top = s.q.top)
    (hsteal : Stealable s s.q.top → Stealable s' s.q.top)
    (hslot : Stealable s s.q.top →
      s'.q.buffer (s.q.top % size) = s.q.buffer (s.q.top % size)) :
    ThiefOk size s' pc := by
  cases pc with
  | readBottom top =>
    have hle : top ≤ s.q.top := h
    show top ≤ s'.q.top
    omega
  | readSlot top =>
    refine ⟨htop ▸ h.1, ?_⟩
    intro heq
    rw [htop] at heq
    subst heq
    exact hsteal (h.2 rfl)
  | cas top v =>
    refine ⟨htop ▸ h.1, ?_⟩
    intro heq
    rw [htop] at heq
    subst heq
    obtain ⟨hstealable, hval⟩ := h.2 rfl
    exact ⟨hsteal hstealable, (hslot hstealable).trans hval⟩
  | idle => trivial
  | readTop => trivial
  | ret state out => trivial

/-- Once `top` has moved on, every older read of it is stale. -/
theorem ThiefOk.stale {size : Nat} {s s' : State Tid V} {pc : ThiefPc V}
    (h : ThiefOk size s pc) (htop : s'.q.top = s.q.top + 1) : ThiefOk size s' pc := by
  cases pc with
  | readBottom top =>
    have hle : top ≤ s.q.top := h
    show top ≤ s'.q.top
    omega
  | readSlot top | cas top v =>
    have hle : top ≤ s.q.top := h.1
    exact ⟨by omega, fun heq => by omega⟩
  | idle => trivial
  | readTop => trivial
  | ret state out => trivial

/-- A step that leaves the deque and the history alone keeps the invariant
when the mover's own clause holds again. -/
theorem Inv.local_owner {size : Nat} {s : State Tid V} (h : Inv size s)
    {pc : OwnerPc V} (hlimit : ({ s with owner := pc } : State Tid V).limit = s.limit)
    (hclaims : ∀ i, Claims pc i → Claims s.owner i ∨ s.q.top < i)
    (howner : OwnerOk size { s with owner := pc }) :
    Inv size { s with owner := pc } where
  topLe := by rw [hlimit]; exact h.topLe
  span := by rw [hlimit]; exact h.span
  live := by rw [hlimit]; exact h.live
  owner := howner
  thieves t := by
    apply ThiefOk.keep (h.thieves t)
    · rfl
    · rintro ⟨hlt, hnot⟩
      refine ⟨hlimit ▸ hlt, ?_⟩
      intro hc
      rcases hclaims _ hc with hc | hc
      · exact hnot hc
      · exact absurd hc (Nat.lt_irrefl _)
    · intro _
      rfl

theorem Inv.limit_le {size : Nat} {s : State Tid V} (h : Inv size s) :
    s.limit ≤ s.q.bottom + 1 := by
  have howner := h.owner
  unfold State.limit
  unfold OwnerOk at howner
  cases hpc : s.owner with
  | popReadTop b | popReadSlot b t | popCas b t v | popRestore b st o =>
    simp only [hpc] at howner ⊢
    omega
  | _ => simp

theorem wadd_one {i : Nat} (h : i + 1 < 2 ^ 64) : wadd 64 i 1 = i + 1 :=
  Nat.mod_eq_of_lt h

theorem wsub_le {i j : Nat} (hle : j ≤ i) (hi : i < 2 ^ 64) : wsub 64 i j = i - j := by
  have h := wsub_counter (w := 64) hle (by omega)
  rwa [Nat.mod_eq_of_lt hi, Nat.mod_eq_of_lt (by omega)] at h

theorem ownerStep_inv {size : Nat} {s s' : State Tid V} (h : Inv size s)
    (hsize : 1 ≤ size) (hfits : s.q.bottom + 1 < 2 ^ 64)
    (hstep : ownerStep size s = some s') : Inv size s' := by
  have howner := h.owner
  have htop := h.topLe
  have hspan := h.span
  have hlive := h.live
  have hthieves := h.thieves
  unfold OwnerOk at howner
  unfold ownerStep at hstep
  cases hpc : s.owner with
  | idle => simp [hpc] at hstep
  | pushReadBottom v | ret call state out =>
    simp only [hpc, Option.some.injEq] at hstep
    subst hstep
    apply h.local_owner
    · simp [State.limit, hpc]
    · simp [Claims]
    · simp [OwnerOk]
  | pushReadTop v b =>
    simp only [hpc] at howner hstep
    subst howner
    have hlim : s.limit = s.q.bottom := by simp [State.limit, hpc]
    rw [wsub_le (by omega) (by omega)] at hstep
    split at hstep <;> cases hstep
    · apply h.local_owner
      · simp [State.limit, hpc]
      · simp [Claims]
      · simp [OwnerOk]
    · apply h.local_owner
      · simp [State.limit, hpc]
      · simp [Claims]
      · simp only [OwnerOk, true_and]
        omega
  | pushWriteSlot v b =>
    simp only [hpc, Option.some.injEq] at howner hstep
    obtain ⟨rfl, hroom⟩ := howner
    subst hstep
    have hlim : s.limit = s.q.bottom := by simp [State.limit, hpc]
    have hother : ∀ i, s.q.top ≤ i → i < s.limit →
        update s.q.buffer (s.q.bottom % size) v (i % size) =
          s.q.buffer (i % size) := by
      intro i hlow hhigh
      apply update_of_ne
      exact slot_ne hlow (by omega) hroom
    constructor
    · simpa [State.limit, hpc] using htop
    · simpa [State.limit, hpc] using hspan
    · have hnew := hlive.congr hother
      simpa [State.limit, hpc] using hnew
    · simp [OwnerOk, hroom]
    · intro t
      apply ThiefOk.keep (hthieves t)
      · rfl
      · rintro ⟨hlt, _⟩
        exact ⟨by simpa [State.limit, hpc] using hlt, by simp [Claims]⟩
      · rintro ⟨hlt, _⟩
        exact hother _ (le_refl _) hlt
  | pushWriteBottom v b =>
    simp only [hpc, Option.some.injEq] at howner hstep
    obtain ⟨rfl, hroom, hval⟩ := howner
    subst hstep
    have hlim : s.limit = s.q.bottom := by simp [State.limit, hpc]
    rw [hlim] at htop hspan hlive
    rw [wadd_one hfits]
    constructor
    · show s.q.top ≤ s.q.bottom + 1
      omega
    · show s.q.bottom + 1 ≤ s.q.top + size
      omega
    · exact hlive.publish htop hval
    · trivial
    · intro t
      apply ThiefOk.keep (hthieves t)
      · rfl
      · rintro ⟨hlt, _⟩
        rw [hlim] at hlt
        exact ⟨Nat.lt_succ_of_lt hlt, by simp [Claims]⟩
      · intro _
        rfl
  | popReadBottom =>
    simp only [hpc] at hstep
    split at hstep <;> cases hstep
    · apply h.local_owner
      · simp [State.limit, hpc]
      · simp [Claims]
      · simp [OwnerOk]
    · apply h.local_owner
      · simp [State.limit, hpc]
      · simp [Claims]
      · simp only [OwnerOk]
        omega
  | popWriteBottom b =>
    simp only [hpc, Option.some.injEq] at howner hstep
    subst hstep
    have hlim : s.limit = b + 1 := by simp [State.limit, hpc, howner]
    rw [hlim] at htop hspan hlive
    constructor
    · exact htop
    · exact hspan
    · exact hlive
    · simp [OwnerOk]
    · intro t
      apply ThiefOk.keep (hthieves t)
      · rfl
      · rintro ⟨hlt, _⟩
        rw [hlim] at hlt
        exact ⟨hlt, by simp [Claims]⟩
      · intro _
        rfl
  | popReadTop b =>
    simp only [hpc] at howner hstep
    have hlim : s.limit = b + 1 := by simp [State.limit, hpc]
    split at hstep <;> cases hstep
    · apply h.local_owner
      · simp [State.limit, hpc]
      · rintro i ⟨hlt, rfl⟩
        exact Or.inr hlt
      · rename_i hle
        exact ⟨howner, hle, le_refl _, fun hlt => hlt.le⟩
    · apply h.local_owner
      · simp [State.limit, hpc]
      · simp [Claims]
      · refine ⟨howner, ?_⟩
        show s.q.top = b + 1
        omega
  | popReadSlot b t =>
    simp only [hpc] at howner hstep
    obtain ⟨hbot, htb, htt, hkeep⟩ := howner
    have hlim : s.limit = b + 1 := by simp [State.limit, hpc]
    split at hstep <;> cases hstep
    · rename_i heq
      apply h.local_owner
      · simp [State.limit, hpc]
      · simp [Claims]
      · exact ⟨hbot, heq, htt, rfl⟩
    · have hlt : t < b := by omega
      have htop' := hkeep hlt
      rw [hlim] at hspan hlive
      constructor
      · show s.q.top ≤ s.q.bottom
        omega
      · show s.q.bottom ≤ s.q.top + size
        omega
      · have hnew := hlive.pop htop'
        rw [← hbot] at hnew ⊢
        exact hnew
      · trivial
      · intro th
        apply ThiefOk.keep (hthieves th)
        · rfl
        · rintro ⟨hlt', hnot⟩
          refine ⟨?_, by simp [Claims]⟩
          show s.q.top < s.q.bottom
          have hne : s.q.top ≠ b := fun heq => hnot (by
            rw [hpc]
            exact ⟨hlt, heq⟩)
          omega
        · intro _
          rfl
  | popCas b t v =>
    simp only [hpc] at howner hstep
    obtain ⟨hbot, rfl, htt, hval⟩ := howner
    have hlim : s.limit = t + 1 := by simp [State.limit, hpc]
    split at hstep <;> cases hstep
    · rename_i heq
      rw [hlim, heq] at hlive hspan
      have hpop := hlive.pop (le_refl t)
      rw [wadd_one (by omega)]
      constructor
      · exact Nat.le_refl _
      · show t + 1 ≤ t + 1 + size
        omega
      · rw [hval] at hpop
        exact hpop.move (le_refl _) (le_refl _)
      · exact ⟨hbot, rfl⟩
      · intro th
        exact (hthieves th).stale (by simp [heq])
    · rename_i hne
      apply h.local_owner
      · simp [State.limit, hpc]
      · simp [Claims]
      · refine ⟨hbot, ?_⟩
        show s.q.top = t + 1
        omega
  | popRestore b state out =>
    simp only [hpc, Option.some.injEq] at howner hstep
    obtain ⟨hbot, heq⟩ := howner
    subst hstep
    have hlim : s.limit = b + 1 := by simp [State.limit, hpc]
    rw [hlim] at hlive
    rw [wadd_one (by omega)]
    constructor
    · show s.q.top ≤ b + 1
      omega
    · show b + 1 ≤ s.q.top + size
      omega
    · exact hlive
    · trivial
    · intro th
      apply ThiefOk.keep (hthieves th)
      · rfl
      · rintro ⟨hlt, _⟩
        rw [hlim] at hlt
        exact ⟨hlt, by simp [Claims]⟩
      · intro _
        rfl

/-- A successful steal advances `top` past an index that the owner does not
claim, so the owner's clause survives. -/
theorem OwnerOk.steal {size : Nat} {s s' : State Tid V} (h : OwnerOk size s)
    (hsteal : Stealable s s.q.top) (howner : s'.owner = s.owner)
    (hbottom : s'.q.bottom = s.q.bottom) (hbuffer : s'.q.buffer = s.q.buffer)
    (htop : s'.q.top = s.q.top + 1) : OwnerOk size s' := by
  obtain ⟨hlt, hnot⟩ := hsteal
  unfold OwnerOk State.limit at *
  rw [howner, hbottom, hbuffer, htop]
  cases hpc : s.owner with
  | pushWriteSlot v b =>
    simp only [hpc] at h ⊢
    exact ⟨h.1, by omega⟩
  | pushWriteBottom v b =>
    simp only [hpc] at h ⊢
    exact ⟨h.1, by omega, h.2.2⟩
  | popReadSlot b t =>
    simp only [hpc, Claims] at h hlt hnot ⊢
    refine ⟨h.1, h.2.1, by omega, ?_⟩
    intro htb
    have hne : s.q.top ≠ b := fun heq => hnot ⟨htb, heq⟩
    omega
  | popCas b t v =>
    simp only [hpc] at h ⊢
    exact ⟨h.1, h.2.1, by omega, h.2.2.2⟩
  | popRestore b st out =>
    simp only [hpc] at h hlt
    omega
  | _ =>
    simp only [hpc] at h ⊢
    try exact h

section Runs

variable [DecidableEq Tid]

/-- Moving one thief keeps the invariant when its new clause holds. -/
theorem Inv.local_thief {size : Nat} {s : State Tid V} (h : Inv size s) (t : Tid)
    {pc : ThiefPc V} (hpc : ThiefOk size s pc) :
    Inv size { s with thief := update s.thief t pc } where
  topLe := h.topLe
  span := h.span
  live := h.live
  owner := h.owner
  thieves u := by
    by_cases hu : u = t
    · subst hu
      simp only [update_self]
      exact hpc.keep rfl id fun _ => rfl
    · simp only [update_of_ne hu]
      exact (h.thieves u).keep rfl id fun _ => rfl

theorem thiefStep_inv {size : Nat} {s s' : State Tid V} (t : Tid) (h : Inv size s)
    (hfits : s.q.bottom + 1 < 2 ^ 64) (hstep : thiefStep size s t = some s') :
    Inv size s' := by
  have hthief := h.thieves t
  have hlimit := h.limit_le
  unfold thiefStep at hstep
  cases hpc : s.thief t with
  | idle => simp [hpc] at hstep
  | readTop =>
    simp only [hpc, Option.some.injEq] at hstep
    subst hstep
    apply h.local_thief t
    exact Nat.le_refl _
  | readBottom top =>
    simp only [hpc] at hthief hstep
    split at hstep <;> cases hstep
    · rename_i hlt
      apply h.local_thief t
      refine ⟨hthief, ?_⟩
      intro heq
      have howner := h.owner
      unfold Stealable State.limit
      unfold OwnerOk at howner
      cases ho : s.owner with
      | popReadSlot b tp =>
        simp only [ho, Claims] at howner ⊢
        omega
      | popReadTop b | popCas b tp v | popRestore b st out =>
        simp only [ho, Claims] at howner ⊢
        exact ⟨by omega, not_false⟩
      | _ => exact ⟨hlt, not_false⟩
    · apply h.local_thief t
      trivial
  | readSlot top =>
    simp only [hpc, Option.some.injEq] at hthief hstep
    subst hstep
    apply h.local_thief t
    exact ⟨hthief.1, fun heq => ⟨hthief.2 heq, rfl⟩⟩
  | cas top v =>
    simp only [hpc] at hthief hstep
    split at hstep <;> cases hstep
    · rename_i heq
      obtain ⟨hsteal, hval⟩ := hthief.2 heq
      subst heq
      have hlt := hsteal.1
      have hspan := h.span
      rw [wadd_one (by omega)]
      constructor
      · exact hlt
      · show s.limit ≤ s.q.top + 1 + size
        omega
      · have hnew := h.live.steal hlt
        simp only [hval] at hnew
        exact hnew
      · exact h.owner.steal hsteal rfl rfl rfl rfl
      · intro u
        by_cases hu : u = t
        · subst hu
          simp [ThiefOk]
        · simp only [update_of_ne hu]
          exact (h.thieves u).stale rfl
    · apply h.local_thief t
      trivial
  | ret state out =>
    simp only [hpc, Option.some.injEq] at hstep
    subst hstep
    apply h.local_thief t
    trivial

theorem step_inv {size : Nat} (hsize : 1 ≤ size) (s : State Tid V) (a : Act Tid V)
    (s' : State Tid V) (h : Inv size s) (hfits : IndexFits s a)
    (hstep : step size s a = some s') : Inv size s' := by
  cases a with
  | push v | pop =>
    cases hpc : s.owner with
    | idle =>
      simp only [step, hpc, Option.some.injEq] at hstep
      subst hstep
      apply h.local_owner
      · simp [State.limit, hpc]
      · simp [Claims]
      · simp [OwnerOk]
    | _ => simp [step, hpc] at hstep
  | owner => exact ownerStep_inv h hsize hfits hstep
  | steal t =>
    cases hpc : s.thief t with
    | idle =>
      simp only [step, hpc, Option.some.injEq] at hstep
      subst hstep
      apply h.local_thief t
      trivial
    | _ => simp [step, hpc] at hstep
  | thief t => exact thiefStep_inv t h hfits hstep

end Runs

/-- The pushes that no successful call has returned, oldest first. -/
def History.unreturned (h : History V) : List Nat :=
  (List.range h.pushed.length).filter fun n => n ∉ h.taken.map Prod.fst

/-- The unreturned pushes are those of the held indices, in order. -/
theorem Live.unreturned_eq {top limit : Nat} {held : Nat → V} {h : History V}
    (l : Live top limit held h) :
    h.unreturned = (List.range' top (limit - top)).map h.stamp := by
  have hsorted : ((List.range' top (limit - top)).map h.stamp).Pairwise (· < ·) := by
    rw [List.pairwise_map]
    have hrange := List.pairwise_lt_range' (s := top) (n := limit - top)
    apply hrange.imp_of_mem
    intro i j hi hj hij
    rw [List.mem_range'_1] at hi hj
    exact l.order i j hi.1 hij (by omega)
  have hleft : h.unreturned.Pairwise (· < ·) :=
    List.Pairwise.filter _ List.pairwise_lt_range
  have hperm : h.unreturned.Perm ((List.range' top (limit - top)).map h.stamp) := by
    rw [List.perm_ext_iff_of_nodup (hleft.imp Nat.ne_of_lt) (hsorted.imp Nat.ne_of_lt)]
    intro n
    simp only [History.unreturned, List.mem_filter, List.mem_range, decide_eq_true_eq,
      List.mem_map (f := h.stamp), List.mem_range'_1]
    constructor
    · rintro ⟨hn, hnot⟩
      rw [l.rest n hn] at hnot
      push Not at hnot
      obtain ⟨i, hlow, hhigh, rfl⟩ := hnot
      exact ⟨i, ⟨hlow, by omega⟩, rfl⟩
    · rintro ⟨i, ⟨hlow, hhigh⟩, rfl⟩
      have hlt : i < limit := by omega
      exact ⟨l.stamp_lt hlow hlt, l.not_taken hlow hlt⟩
  exact hperm.eq_of_pairwise (fun a b _ _ h1 h2 => absurd h1 (Nat.lt_asymm h2)) hleft hsorted

/-- The values that no successful call has returned, oldest first. -/
def History.contents (h : History V) : List V :=
  h.unreturned.filterMap fun n => h.pushed[n]?

/-- The values of the indices from `low` to `high - 1`. -/
def values (held : Nat → V) (low high : Nat) : List V :=
  (List.range' low (high - low)).map held

theorem values_push (held : Nat → V) {low high : Nat} (hle : low ≤ high) :
    values held low (high + 1) = values held low high ++ [held high] := by
  have hlast : low + (high - low) = high := by omega
  rw [values, values, Nat.succ_sub hle, List.range'_1_concat, List.map_append, hlast]
  rfl

theorem values_steal (held : Nat → V) {low high : Nat} (hlt : low < high) :
    values held low high = held low :: values held (low + 1) high := by
  have hlength : high - low = high - (low + 1) + 1 := by omega
  rw [values, hlength, List.range'_succ]
  rfl

theorem values_nil (held : Nat → V) {low high : Nat} (hle : high ≤ low) :
    values held low high = [] := by
  rw [values, Nat.sub_eq_zero_of_le hle]
  rfl

theorem Live.contents_eq {top limit : Nat} {held : Nat → V} {h : History V}
    (l : Live top limit held h) : h.contents = values held top limit := by
  rw [History.contents, l.unreturned_eq, List.filterMap_map]
  refine List.filterMap_eq_map_iff_forall_eq_some.mpr fun i hi => ?_
  obtain ⟨hlow, hhigh⟩ := List.mem_range'_1.mp hi
  exact l.value i hlow (by omega)

/-- The operations of a deque for `size` values. A steal may also give up. -/
def dequeSpec (size : Nat) (deque : List V) :
    DequeCall V → VdequeState × Option V → List V → Prop
  | .push v, (.ok, none), deque' => deque' = deque ++ [v]
  | .push _, (.full, none), deque' => size ≤ deque.length ∧ deque' = deque
  | .pop, (.ok, some v), deque' => deque = deque' ++ [v]
  | .pop, (.empty, none), deque' => deque = [] ∧ deque' = deque
  | .steal, (.ok, some v), deque' => deque = v :: deque'
  | .steal, (.empty, none), deque' | .steal, (.abort, none), deque' => deque' = deque
  | _, _, _ => False

/-- What a call will return, once that is fixed. -/
def OwnerPc.settled : OwnerPc V → Option (DequeCall V × (VdequeState × Option V))
  | .popRestore _ state outObj => some (.pop, (state, outObj))
  | .ret call state outObj => some (call, (state, outObj))
  | _ => none

def ThiefPc.settled : ThiefPc V → Option (DequeCall V × (VdequeState × Option V))
  | .ret state outObj => some (.steal, (state, outObj))
  | _ => none

def State.settled (s : State Tid V) : Option Tid → Option (DequeCall V × (VdequeState × Option V))
  | none => s.owner.settled
  | some t => (s.thief t).settled

def State.busy (s : State Tid V) : Option Tid → Prop
  | none => s.owner ≠ .idle
  | some t => s.thief t ≠ .idle

def view : View (State Tid V) (Option Tid) (List V) (DequeCall V) (VdequeState × Option V) where
  abs s := s.hist.contents
  busy p s := s.busy p
  settled p s := s.settled p
  settled_busy p s x hx := by
    cases p with
    | none | some t =>
      intro hidle
      rw [State.settled, hidle] at hx
      cases hx

section Calls

variable {size : Nat} {s s' : State Tid V} {past : List (State Tid V × Act Tid V)}

/-- The owner leaves the calls of the thieves as they are. -/
theorem owner_moves (hthief : s'.thief = s.thief)
    (own : Move view (dequeSpec size) none past s s') :
    Moves view (dequeSpec size) none past s s' := by
  refine ⟨own, fun p hp => ?_⟩
  cases p with
  | none => exact absurd rfl hp
  | some t => exact congrArg ThiefPc.settled (congrFun hthief t)

theorem ownerStep_moves (h : Inv size s) (hsize : 1 ≤ size) (hfits : s.q.bottom + 1 < 2 ^ 64)
    (hstep : ownerStep size s = some s') : Moves view (dequeSpec size) none past s s' := by
  have h' := ownerStep_inv h hsize hfits hstep
  have howner := h.owner
  have htop := h.topLe
  have hold := h.live.contents_eq
  have hnew := h'.live.contents_eq
  unfold OwnerOk at howner
  unfold ownerStep at hstep
  cases hpc : s.owner with
  | idle => simp [hpc] at hstep
  | pushReadBottom _ | pushWriteSlot _ _ | popWriteBottom _ | popRestore _ _ _ =>
    simp only [hpc, Option.some.injEq] at hstep
    subst hstep
    exact owner_moves rfl (.walk rfl (congrArg OwnerPc.settled hpc).symm)
  | ret _ _ _ =>
    simp only [hpc, Option.some.injEq] at hstep
    subst hstep
    exact owner_moves rfl (.leave rfl fun hbusy => hbusy rfl)
  | pushReadTop v b =>
    simp only [hpc] at howner hstep
    subst howner
    have hlim : s.limit = s.q.bottom := by simp [State.limit, hpc]
    rw [wsub_le (by omega) (by omega)] at hstep
    split at hstep <;> cases hstep
    · have hfull : size ≤ s.hist.contents.length := by
        rw [hold, values, List.length_map, List.length_range', hlim]
        omega
      exact owner_moves rfl
        (.settle (.push v) (.full, none) (congrArg OwnerPc.settled hpc) rfl ⟨hfull, rfl⟩)
    · exact owner_moves rfl (.walk rfl (congrArg OwnerPc.settled hpc).symm)
  | pushWriteBottom v b =>
    simp only [hpc, Option.some.injEq] at howner hstep
    obtain ⟨rfl, -, hval⟩ := howner
    subst hstep
    have hlim : s.limit = s.q.bottom := by simp [State.limit, hpc]
    rw [hlim] at htop hold
    change _ = values _ s.q.top (wadd 64 s.q.bottom 1) at hnew
    rw [wadd_one hfits, values_push _ htop, ← hold, hval] at hnew
    exact owner_moves rfl
      (.settle (.push v) (.ok, none) (congrArg OwnerPc.settled hpc) rfl hnew)
  | popReadBottom =>
    simp only [hpc] at hstep
    split at hstep <;> cases hstep
    · rename_i hzero
      have hlim : s.limit = s.q.bottom := by simp [State.limit, hpc]
      rw [values_nil _ (by omega)] at hold
      exact owner_moves rfl
        (.settle .pop (.empty, none) (congrArg OwnerPc.settled hpc) rfl ⟨hold, rfl⟩)
    · exact owner_moves rfl (.walk rfl (congrArg OwnerPc.settled hpc).symm)
  | popReadTop b =>
    simp only [hpc] at howner hstep
    split at hstep <;> cases hstep
    · exact owner_moves rfl (.walk rfl (congrArg OwnerPc.settled hpc).symm)
    · have hlim : s.limit = b + 1 := by simp [State.limit, hpc]
      rw [values_nil _ (by omega)] at hold
      exact owner_moves rfl
        (.settle .pop (.empty, none) (congrArg OwnerPc.settled hpc) rfl ⟨hold, rfl⟩)
  | popReadSlot b t =>
    simp only [hpc] at howner hstep
    obtain ⟨hbot, htb, -, hkeep⟩ := howner
    have hlim : s.limit = b + 1 := by simp [State.limit, hpc]
    split at hstep <;> cases hstep
    · exact owner_moves rfl (.walk rfl (congrArg OwnerPc.settled hpc).symm)
    · have htop' := hkeep (by omega)
      rw [hlim, values_push _ htop'] at hold
      change _ = values _ s.q.top s.q.bottom at hnew
      rw [hbot] at hnew
      exact owner_moves rfl (.settle .pop (.ok, some (s.q.buffer (b % size)))
        (congrArg OwnerPc.settled hpc) rfl (hold.trans (congrArg (· ++ _) hnew.symm)))
  | popCas b t v =>
    simp only [hpc] at howner hstep
    obtain ⟨hbot, rfl, htt, hval⟩ := howner
    have hlim : s.limit = t + 1 := by simp [State.limit, hpc]
    split at hstep <;> cases hstep
    · rename_i heq
      rw [hlim, heq, values_push _ le_rfl, values_nil _ le_rfl, hval] at hold
      change _ = values _ (wadd 64 t 1) (t + 1) at hnew
      rw [wadd_one (by omega), values_nil _ le_rfl] at hnew
      exact owner_moves rfl (.settle .pop (.ok, some v) (congrArg OwnerPc.settled hpc) rfl
        (hold.trans (congrArg (· ++ [v]) hnew.symm)))
    · rename_i hne
      rw [values_nil _ (by omega)] at hold
      exact owner_moves rfl
        (.settle .pop (.empty, none) (congrArg OwnerPc.settled hpc) rfl ⟨hold, rfl⟩)

variable [DecidableEq Tid] {t : Tid} {pc : ThiefPc V}

/-- A thief leaves the calls of the others as they are. -/
theorem thief_moves (howner : s'.owner = s.owner) (hthief : s'.thief = update s.thief t pc)
    (own : Move view (dequeSpec size) (some t) past s s') :
    Moves view (dequeSpec size) (some t) past s s' := by
  refine ⟨own, fun p hp => ?_⟩
  cases p with
  | none => exact congrArg OwnerPc.settled howner
  | some u =>
    have hu : u ≠ t := fun heq => hp (congrArg some heq)
    refine congrArg ThiefPc.settled ?_
    rw [hthief, update_of_ne hu]

theorem thiefStep_moves (h : Inv size s) (hfits : s.q.bottom + 1 < 2 ^ 64)
    (hstep : thiefStep size s t = some s') :
    Moves view (dequeSpec size) (some t) past s s' := by
  have h' := thiefStep_inv t h hfits hstep
  have hthief := h.thieves t
  have hold := h.live.contents_eq
  have hnew := h'.live.contents_eq
  have hlimit := h.limit_le
  have hself (pc : ThiefPc V) : (update s.thief t pc t).settled = pc.settled :=
    congrArg ThiefPc.settled (update_self ..)
  unfold thiefStep at hstep
  cases hpc : s.thief t with
  | idle => simp [hpc] at hstep
  | readTop | readSlot _ =>
    simp only [hpc, Option.some.injEq] at hstep
    subst hstep
    exact thief_moves rfl rfl
      (.walk rfl ((hself _).trans (congrArg ThiefPc.settled hpc).symm))
  | ret _ _ =>
    simp only [hpc, Option.some.injEq] at hstep
    subst hstep
    exact thief_moves rfl rfl (.leave rfl fun hbusy => hbusy (update_self ..))
  | readBottom top =>
    simp only [hpc] at hstep
    split at hstep <;> cases hstep
    · exact thief_moves rfl rfl
        (.walk rfl ((hself _).trans (congrArg ThiefPc.settled hpc).symm))
    · exact thief_moves rfl rfl
        (.settle .steal (.empty, none) (congrArg ThiefPc.settled hpc) (hself _) rfl)
  | cas top v =>
    simp only [hpc] at hthief hstep
    split at hstep <;> cases hstep
    · rename_i heq
      obtain ⟨hsteal, hval⟩ := hthief.2 heq
      subst heq
      rw [values_steal _ hsteal.1, hval] at hold
      change _ = values _ (wadd 64 s.q.top 1) s.limit at hnew
      have hlt := hsteal.1
      rw [wadd_one (by omega)] at hnew
      exact thief_moves rfl rfl (.settle .steal (.ok, some v) (congrArg ThiefPc.settled hpc)
        (hself _) (hold.trans (congrArg (_ :: ·) hnew.symm)))
    · exact thief_moves rfl rfl
        (.settle .steal (.abort, none) (congrArg ThiefPc.settled hpc) (hself _) rfl)

theorem step_moves (h : Inv size s) (hsize : 1 ≤ size) {a : Act Tid V} (hfits : IndexFits s a)
    (hstep : step size s a = some s') : Moves view (dequeSpec size) a.thread past s s' := by
  cases a with
  | push _ | pop =>
    cases hpc : s.owner with
    | idle =>
      simp only [step, hpc, Option.some.injEq] at hstep
      subst hstep
      exact owner_moves rfl (.walk rfl (congrArg OwnerPc.settled hpc).symm)
    | _ => simp [step, hpc] at hstep
  | owner => exact ownerStep_moves h hsize hfits hstep
  | steal t =>
    cases hpc : s.thief t with
    | idle =>
      simp only [step, hpc, Option.some.injEq] at hstep
      subst hstep
      refine thief_moves rfl rfl (.walk rfl ?_)
      exact (congrArg ThiefPc.settled (update_self t _ s.thief)).trans
        (congrArg ThiefPc.settled hpc).symm
    | _ => simp [step, hpc] at hstep
  | thief t => exact thiefStep_moves h hfits hstep

end Calls

section Answers

variable [DecidableEq Tid] {size : Nat} {s s' : State Tid V}

omit [DecidableEq Tid] in
theorem owner_answers (hstep : ownerStep size s = some s') (hidle : s'.owner = .idle) :
    ∃ x, s.owner.settled = some x := by
  unfold ownerStep at hstep
  cases hpc : s.owner with
  | ret _ _ _ | popRestore _ _ _ => exact ⟨_, rfl⟩
  | _ =>
    exfalso
    simp only [hpc] at hstep
    repeat' split at hstep
    all_goals cases hstep
    all_goals cases hidle

theorem thief_answers {t : Tid} (hstep : thiefStep size s t = some s')
    (hidle : s'.thief t = .idle) :
    ∃ x, (s.thief t).settled = some x := by
  unfold thiefStep at hstep
  cases hpc : s.thief t with
  | ret _ _ => exact ⟨_, rfl⟩
  | _ =>
    exfalso
    simp only [hpc] at hstep
    repeat' split at hstep
    all_goals cases hstep
    all_goals
      simp only [update_self] at hidle
      cases hidle

theorem run_answers {null : V} : Answers (machine Tid size null) Act.thread view s := by
  intro a s' hstep hbusy
  by_cases hidle : s'.busy a.thread
  · exact .inl hidle
  · refine .inr ?_
    cases a with
    | push _ | pop =>
      change s.owner ≠ .idle at hbusy
      simp only [machine, step] at hstep
      cases hstep
    | steal t =>
      change s.thief t ≠ .idle at hbusy
      simp only [machine, step] at hstep
      cases hstep
    | owner => exact owner_answers hstep (not_not.mp hidle)
    | thief t => exact thief_answers hstep (not_not.mp hidle)

end Answers

/-- Steps while the indices fit. -/
def guardedMachine (Tid : Type) [DecidableEq Tid] (size : Nat) (null : V) :
    Machine (State Tid V) (Act Tid V) :=
  (machine Tid size null).guarded fun s a => IndexFits s a

section Results

variable [DecidableEq Tid] {size : Nat} {null : V} {s : State Tid V}
  {past : List (State Tid V × Act Tid V)}

theorem run_inv (hsize : 1 ≤ size) (run : (machine Tid size null).Run past s)
    (hfits : AllSteps IndexFits past) : Inv size s := by
  apply run.invariant_if _ (step_inv hsize) hfits
  rintro s rfl
  exact start_inv size null

theorem run_linear (hsize : 1 ≤ size) (run : (machine Tid size null).Run past s)
    (hfits : AllSteps IndexFits past) :
    Linear (guardedMachine Tid size null) Act.thread view (dequeSpec size) past s := by
  have hall : AllSteps (fun s a => decide (IndexFits s a) = true) past :=
    fun p hp => decide_eq_true (hfits p hp)
  apply (run.guard hall).linear_always
  · rintro s rfl p
    cases p <;> rfl
  · intro past s a s' run hstep
    obtain ⟨hok, hstep⟩ := Option.ite_none_right_eq_some.mp hstep
    obtain ⟨run, hall⟩ := run.of_guarded
    have h := run_inv hsize run fun p hp => of_decide_eq_true (hall p hp)
    exact step_moves h hsize (of_decide_eq_true hok) hstep

end Results

/-- The calls that return OK are atomic operations of a deque, at the bottom for the owner and at
the top for the thieves. A successful call returns the value of one push and no two calls return the
same push; steals return pushes in order; once all calls have returned, the pushes not yet returned
are those at the indices from `top` to `bottom - 1`, in order and with their values in their slots;
a slot read by a call that can still succeed has not been overwritten; and `top` never passes
`bottom + 1`. -/
structure Safe [DecidableEq Tid] (size : Nat) (null : V)
    (past : List (State Tid V × Act Tid V)) (s : State Tid V) : Prop where
  linear : Linear (guardedMachine Tid size null) Act.thread view (dequeSpec size) past s
  answers : Answers (machine Tid size null) Act.thread view s
  once : (s.hist.taken.map Prod.fst).Nodup
  taken : ∀ p ∈ s.hist.taken, s.hist.pushed[p.1]? = some p.2
  stolen : (s.hist.stolen.map Prod.fst).Pairwise (· < ·)
  quiescent : Quiescent s →
    s.hist.unreturned = (List.range' s.q.top (s.q.bottom - s.q.top)).map s.hist.stamp ∧
      ∀ i, s.q.top ≤ i → i < s.q.bottom →
        s.hist.pushed[s.hist.stamp i]? = some (s.q.buffer (i % size))
  stealing : ∀ t top v, s.thief t = .cas top v → s.q.top = top →
    s.hist.pushed[s.hist.stamp top]? = some v
  popping : ∀ bottom top v, s.owner = .popCas bottom top v → s.q.top = top →
    s.hist.pushed[s.hist.stamp bottom]? = some v
  bounded : s.q.top ≤ s.q.bottom + 1

/-- Every interleaving of one owner and any number of thieves, for any array length and indices
below `2 ^ 64`. -/
theorem deque_returns_each_push_once [DecidableEq Tid] (size : Nat) (hsize : 1 ≤ size)
    (null : V) {past : List (State Tid V × Act Tid V)} {s : State Tid V}
    (run : (machine Tid size null).Run past s) (hfits : AllSteps IndexFits past) :
    Safe size null past s := by
  have h := run_inv hsize run hfits
  refine ⟨run_linear hsize run hfits, run_answers, h.live.once, h.live.takenValue,
    h.live.stealOrder, ?_, ?_, ?_, h.topLe.trans h.limit_le⟩
  · rintro ⟨howner, _⟩
    have hlimit : s.limit = s.q.bottom := by
      rcases howner with ho | ⟨call, state, out, ho⟩ <;> simp [State.limit, ho]
    have hlive := h.live
    rw [hlimit] at hlive
    exact ⟨hlive.unreturned_eq, hlive.value⟩
  · intro t top v hpc htop
    have hthief := h.thieves t
    rw [hpc] at hthief
    obtain ⟨hsteal, hval⟩ := hthief.2 htop
    subst htop
    have hvalue := h.live.value s.q.top (le_refl _) hsteal.1
    simpa only [hval] using hvalue
  · intro bottom top v hpc htop
    have howner := h.owner
    simp only [OwnerOk, hpc] at howner
    obtain ⟨_, rfl, _, hval⟩ := howner
    have hvalue := h.live.value top htop.le (by simp [State.limit, hpc])
    simpa only [hval] using hvalue

/-- The owner pushes 5 into a deque of length 1 and a thief steals it. -/
def pushThenSteal : List (Act Unit Nat) :=
  [.push 5, .owner, .owner, .owner, .owner, .owner,
    .steal (), .thief (), .thief (), .thief (), .thief ()]

theorem deque_returns_each_push_once_stolen :
    ∃ past s, (machine Unit 1 0).Run past s ∧ AllSteps IndexFits past ∧ Safe 1 0 past s ∧
      s.hist.taken = [(0, 5)] ∧ s.hist.unreturned = [] := by
  let M := machine Unit 1 0
  have hsome : (M.exec (start 0) pushThenSteal).isSome := rfl
  have hrun := M.run_of_exec rfl hsome
  have hfits : AllSteps IndexFits (M.pastOf (start 0) [] pushThenSteal) := by
    intro p hp
    have hall : ∀ p ∈ M.pastOf (start 0) [] pushThenSteal, p.1.q.bottom + 1 < 2 ^ 64 := by
      decide
    exact hall p hp
  have hsafe := deque_returns_each_push_once 1 (le_refl 1) 0 hrun hfits
  exact ⟨_, _, hrun, hfits, hsafe, rfl, rfl⟩

end Libvsync.Queue.ChaseLev
