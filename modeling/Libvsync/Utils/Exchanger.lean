import Libvsync.Core.Machine
import Mathlib.Algebra.Group.Nat.Defs
import Mathlib.Data.List.Basic

/-!
The exchanger. One word holds an item and the state of the slot in its two low
bits; it is read and compared as a whole, so it is a pair here. A call places its
item and waits, or takes the item of a waiting call and leaves its own. `none`
is NULL.

`calls`, `item` and `result` are not read by the code: every call has a number,
the item it was called with, and its result once it has returned.
-/

namespace Libvsync.Utils.Exchanger

open Libvsync.Core Function

/-- `exchanger_slot_state_t`; `unknown` is the value 0 of the two bits. -/
inductive SlotState where
  | unknown
  | empty
  | waiting
  | busy
  deriving DecidableEq

abbrev Slot (Addr : Type) := Option Addr × SlotState

/-- Where a call of `exchanger_xchg` stands. -/
inductive Pc (Addr : Type) where
  | get (trial : Nat)
  | offer (yourItem : Option Addr) (trial : Nat)
  | poll (trial : Nat)
  | abort
  | last
  | reset (yourItem : Option Addr)
  | take (yourItem : Option Addr) (trial : Nat)
  | ret (success : Bool) (yourItem : Option Addr)
  | failed (message : String)
  deriving DecidableEq

variable {Addr : Type}

/-- `exchanger_reset`. -/
def exchangerReset : Slot Addr := (none, .empty)

/-- The head of the outer loop. -/
def loop (maxTrials trial : Nat) : Pc Addr :=
  if maxTrials ≤ trial then .ret false none else .get (trial + 1)

/-- The head of the loop that waits for a partner. -/
def pollLoop (maxTrials trial : Nat) : Pc Addr :=
  if trial < maxTrials then .poll trial else .abort

/-- The next atomic operation of `exchanger_xchg`. -/
def xchgStep [DecidableEq Addr] (myItem : Option Addr) (maxTrials : Nat) (slot : Slot Addr) :
    Pc Addr → Option (Slot Addr × Pc Addr)
  | .get trial =>
    match slot with
    | (yourItem, .empty) => some (slot, .offer yourItem trial)
    | (yourItem, .waiting) => some (slot, .take yourItem trial)
    | (_, .busy) => some (slot, loop maxTrials trial)
    | (_, .unknown) => some (slot, .failed "0 && \"Unknown STATE!\"")
  | .offer yourItem trial =>
    if slot = (yourItem, .empty) then some ((myItem, .waiting), pollLoop maxTrials trial)
    else some (slot, loop maxTrials trial)
  | .poll trial =>
    match slot with
    | (yourItem, .busy) => some (slot, .reset yourItem)
    | _ => some (slot, pollLoop maxTrials (trial + 1))
  | .abort =>
    if slot = (myItem, .waiting) then some ((none, .empty), .ret false none)
    else some (slot, .last)
  | .last =>
    match slot with
    | (yourItem, .busy) => some (slot, .reset yourItem)
    | _ => some (slot, .failed "slot_state == SLOT_STATE_BUSY")
  | .reset yourItem => some (exchangerReset, .ret true yourItem)
  | .take yourItem trial =>
    if slot = (yourItem, .waiting) then some ((myItem, .busy), .ret true yourItem)
    else some (slot, loop maxTrials trial)
  | .ret _ _ | .failed _ => none

/-- A call in progress. -/
structure Frame (Addr : Type) where
  ident : Nat
  myItem : Option Addr
  maxTrials : Nat
  pc : Pc Addr
  deriving DecidableEq

structure State (Tid Addr : Type) where
  slot : Slot Addr
  frame : Tid → Option (Frame Addr)
  calls : Nat
  item : Nat → Option Addr
  result : Nat → Option (Bool × Option Addr)

inductive Act (Tid Addr : Type) where
  | call (t : Tid) (myItem : Option Addr) (maxTrials : Nat)
  | step (t : Tid)

variable {Tid : Type} [DecidableEq Tid]

/-- The beginning of a call; `max_trials` has 32 bits. -/
def beginCall (s : State Tid Addr) (t : Tid) (myItem : Option Addr) (maxTrials : Nat) :
    Option (State Tid Addr) :=
  if maxTrials < 2 ^ 32 then
    some { s with
      frame := update s.frame t (some ⟨s.calls, myItem, maxTrials, loop maxTrials 0⟩)
      calls := s.calls + 1
      item := update s.item s.calls myItem }
  else none

/-- The result of a call is recorded when it returns. -/
def endCall (s : State Tid Addr) (t : Tid) (ident : Nat) (result : Bool × Option Addr) :
    State Tid Addr :=
  { s with
    frame := update s.frame t none
    result := update s.result ident (some result) }

variable [DecidableEq Addr]

def nextStep (s : State Tid Addr) (t : Tid) : Option (State Tid Addr) :=
  match s.frame t with
  | none => none
  | some f =>
    match f.pc with
    | .ret success yourItem => some (endCall s t f.ident (success, yourItem))
    | pc =>
      match xchgStep f.myItem f.maxTrials s.slot pc with
      | none => none
      | some (slot, pc) =>
        some { s with
          slot := slot
          frame := update s.frame t (some { f with pc := pc }) }

def step (s : State Tid Addr) : Act Tid Addr → Option (State Tid Addr)
  | .call t myItem maxTrials =>
    match s.frame t with
    | none => beginCall s t myItem maxTrials
    | some _ => none
  | .step t => nextStep s t

def exchangerInit : State Tid Addr where
  slot := exchangerReset
  frame := fun _ => none
  calls := 0
  item := fun _ => none
  result := fun _ => none

def machine (Tid Addr : Type) [DecidableEq Tid] [DecidableEq Addr] :
    Machine (State Tid Addr) (Act Tid Addr) where
  start s := s = exchangerInit
  step := step

/-- The call has put its item in the slot and has not left the slot yet. -/
def Pc.waits : Pc Addr → Bool
  | .poll _ | .abort | .last | .reset _ => true
  | _ => false

/-- What the partner of a call, if it has one, means for where it stands. -/
def PcOk (item : Nat → Option Addr) (partner : Option Nat) : Pc Addr → Prop
  | .get _ | .offer _ _ | .take _ _ => partner = none
  | .poll _ | .abort => True
  | .last => partner ≠ none
  | .reset yourItem | .ret true yourItem => ∃ m, partner = some m ∧ item m = yourItem
  | .ret false yourItem => partner = none ∧ yourItem = none
  | .failed _ => False

/-- Thread `w` is the only one that waits. -/
structure Waiter (frame : Tid → Option (Frame Addr)) (w : Tid) (f : Frame Addr) : Prop where
  here : frame w = some f
  waits : f.pc.waits = true
  only : ∀ t g, frame t = some g → g.pc.waits = true → t = w

/-- The slot is empty, or holds the item of the waiting call, or the item of its
partner. -/
def SlotOk (frame : Tid → Option (Frame Addr)) (item : Nat → Option Addr)
    (partner : Nat → Option Nat) : Slot Addr → Prop
  | (x, .empty) => x = none ∧ ∀ t f, frame t = some f → f.pc.waits = false
  | (x, .waiting) => ∃ w f, Waiter frame w f ∧ f.myItem = x ∧ partner f.ident = none
  | (y, .busy) => ∃ w f m, Waiter frame w f ∧ partner f.ident = some m ∧ item m = y
  | (_, .unknown) => False

structure Inv (s : State Tid Addr) (partner : Nat → Option Nat) : Prop where
  slot : SlotOk s.frame s.item partner s.slot
  known : ∀ t f, s.frame t = some f →
    f.ident < s.calls ∧ s.item f.ident = f.myItem ∧ s.result f.ident = none
  distinct : ∀ t u f g, s.frame t = some f → s.frame u = some g → f.ident = g.ident → t = u
  pc : ∀ t f, s.frame t = some f → PcOk s.item (partner f.ident) f.pc
  ends : ∀ n, n < s.calls → s.result n = none → ∃ t f, s.frame t = some f ∧ f.ident = n
  past : ∀ n, s.result n ≠ none → n < s.calls
  pair : ∀ n m, partner n = some m → partner m = some n ∧ n ≠ m ∧ n < s.calls
  success : ∀ n y, s.result n = some (true, y) → ∃ m, partner n = some m ∧ s.item m = y
  failure : ∀ n y, s.result n = some (false, y) → partner n = none ∧ y = none

variable {s s' : State Tid Addr} {partner : Nat → Option Nat} {t : Tid} {f : Frame Addr}

/-- Thread `t` goes on to `pc`. -/
def moved (frame : Tid → Option (Frame Addr)) (t : Tid) (f : Frame Addr) (pc : Pc Addr) :
    Tid → Option (Frame Addr) :=
  update frame t (some { f with pc := pc })

section

omit [DecidableEq Addr]

theorem moved_self (frame : Tid → Option (Frame Addr)) (pc : Pc Addr) :
    moved frame t f pc t = some { f with pc := pc } := update_self ..

theorem moved_other (frame : Tid → Option (Frame Addr)) (pc : Pc Addr) {u : Tid} (hu : u ≠ t) :
    moved frame t f pc u = frame u := update_of_ne hu ..

end

variable {frame : Tid → Option (Frame Addr)}

section

omit [DecidableEq Addr]

/-- A frame after the step is the one of `t` or an old one. -/
theorem moved_cases {pc : Pc Addr} {u : Tid} {g : Frame Addr} (h : moved frame t f pc u = some g) :
    u = t ∧ g = { f with pc := pc } ∨ u ≠ t ∧ frame u = some g := by
  by_cases hu : u = t
  · subst hu
    rw [moved_self] at h
    exact .inl ⟨rfl, (Option.some.inj h).symm⟩
  · rw [moved_other _ _ hu] at h
    exact .inr ⟨hu, h⟩

theorem Waiter.self {pc : Pc Addr} (hpc : pc.waits = true)
    (hothers : ∀ u g, u ≠ t → frame u = some g → g.pc.waits = false) :
    Waiter (moved frame t f pc) t { f with pc := pc } := by
  refine ⟨moved_self _ _, hpc, ?_⟩
  intro u g hg hwaits
  rcases moved_cases hg with ⟨hu, -⟩ | ⟨hu, hg⟩
  · exact hu
  · rw [hothers u g hu hg] at hwaits
    cases hwaits

/-- The waiting thread is another one, and `t` does not begin to wait. -/
theorem Waiter.other {w : Tid} {g : Frame Addr} {pc : Pc Addr} (h : Waiter frame w g) (hw : w ≠ t)
    (hpc : pc.waits = false) : Waiter (moved frame t f pc) w g := by
  refine ⟨(moved_other _ _ hw).trans h.here, h.waits, ?_⟩
  intro u g' hg' hwaits
  rcases moved_cases hg' with ⟨-, rfl⟩ | ⟨-, hg'⟩
  · rw [hpc] at hwaits
    cases hwaits
  · exact h.only u g' hg' hwaits

end

section

omit [DecidableEq Tid] [DecidableEq Addr]

theorem Waiter.eq {w : Tid} {g : Frame Addr} (h : Waiter frame w g) (hf : frame t = some f)
    (hwaits : f.pc.waits = true) : w = t ∧ g = f := by
  have ht := h.only t f hf hwaits
  subst ht
  exact ⟨rfl, Option.some.inj (h.here.symm.trans hf)⟩

theorem Waiter.ne {w : Tid} {g : Frame Addr} (h : Waiter frame w g) (hf : frame t = some f)
    (hwaits : f.pc.waits = false) : w ≠ t := by
  rintro rfl
  have hself := h.waits
  rw [Option.some.inj (h.here.symm.trans hf), hwaits] at hself
  cases hself

end

omit [DecidableEq Addr] in
/-- The slot sees of a thread only whether it waits. -/
theorem SlotOk.quiet {item : Nat → Option Addr} {slot : Slot Addr} {pc : Pc Addr}
    (h : SlotOk frame item partner slot) (hf : frame t = some f) (hpc : pc.waits = f.pc.waits) :
    SlotOk (moved frame t f pc) item partner slot := by
  have hwaiter {w : Tid} {g : Frame Addr} (hw : Waiter frame w g) :
      ∃ w' g', Waiter (moved frame t f pc) w' g' ∧ g'.ident = g.ident ∧ g'.myItem = g.myItem := by
    cases hwaits : f.pc.waits with
    | true =>
      obtain ⟨rfl, rfl⟩ := hw.eq hf hwaits
      refine ⟨w, _, Waiter.self (hpc.trans hwaits) ?_, rfl, rfl⟩
      intro u g' hu hg'
      cases hother : g'.pc.waits with
      | false => rfl
      | true => exact absurd (hw.only u g' hg' hother) hu
    | false => exact ⟨w, g, hw.other (hw.ne hf hwaits) (hpc.trans hwaits), rfl, rfl⟩
  rcases slot with ⟨x, state⟩
  cases state with
  | unknown => exact h
  | empty =>
    refine ⟨h.1, ?_⟩
    intro u g hg
    rcases moved_cases hg with ⟨-, rfl⟩ | ⟨-, hg⟩
    · exact hpc.trans (h.2 t f hf)
    · exact h.2 u g hg
  | waiting =>
    obtain ⟨w, g, hw, hitem, hpartner⟩ := h
    obtain ⟨w', g', hw', hident, hmine⟩ := hwaiter hw
    exact ⟨w', g', hw', hmine.trans hitem, hident ▸ hpartner⟩
  | busy =>
    obtain ⟨w, g, m, hw, hpartner, hitem⟩ := h
    obtain ⟨w', g', hw', hident, -⟩ := hwaiter hw
    exact ⟨w', g', m, hw', hident ▸ hpartner, hitem⟩

omit [DecidableEq Tid] [DecidableEq Addr] in
theorem PcOk.congr {item item' : Nat → Option Addr} {p : Option Nat} {pc : Pc Addr}
    (h : PcOk item p pc) (hsame : ∀ m, p = some m → item' m = item m) : PcOk item' p pc := by
  have hget {y : Option Addr} (hy : ∃ m, p = some m ∧ item m = y) :
      ∃ m, p = some m ∧ item' m = y := by
    obtain ⟨m, hm, hitem⟩ := hy
    exact ⟨m, hm, (hsame m hm).trans hitem⟩
  cases pc with
  | reset y => exact hget h
  | ret success y =>
    cases success with
    | true => exact hget h
    | false => exact h
  | _ => exact h

section

omit [DecidableEq Addr]

theorem Inv.move (h : Inv s partner) (hf : s.frame t = some f) {slot : Slot Addr} {pc : Pc Addr}
    {partner' : Nat → Option Nat}
    (hslot : SlotOk (moved s.frame t f pc) s.item partner' slot)
    (hpc : PcOk s.item (partner' f.ident) pc)
    (hothers : ∀ u g, u ≠ t → s.frame u = some g → PcOk s.item (partner' g.ident) g.pc)
    (hpair : ∀ n m, partner' n = some m → partner' m = some n ∧ n ≠ m ∧ n < s.calls)
    (hended : ∀ n, s.result n ≠ none → partner' n = partner n) :
    Inv { s with slot := slot, frame := moved s.frame t f pc } partner' := by
  have hold {u : Tid} {g : Frame Addr} (hg : moved s.frame t f pc u = some g) :
      ∃ g', s.frame u = some g' ∧ g'.ident = g.ident ∧ g'.myItem = g.myItem := by
    rcases moved_cases hg with ⟨rfl, rfl⟩ | ⟨-, hg⟩
    · exact ⟨f, hf, rfl, rfl⟩
    · exact ⟨g, hg, rfl, rfl⟩
  constructor
  · exact hslot
  · intro u g hg
    obtain ⟨g', hg', hident, hmine⟩ := hold hg
    rw [← hident, ← hmine]
    exact h.known u g' hg'
  · intro u v g k hg hk heq
    obtain ⟨g', hg', hident, -⟩ := hold hg
    obtain ⟨k', hk', hident', -⟩ := hold hk
    exact h.distinct u v g' k' hg' hk' (hident.trans (heq.trans hident'.symm))
  · intro u g hg
    rcases moved_cases hg with ⟨-, rfl⟩ | ⟨hu, hg⟩
    · exact hpc
    · exact hothers u g hu hg
  · intro n hn hresult
    obtain ⟨u, g, hg, hident⟩ := h.ends n hn hresult
    by_cases hu : u = t
    · subst hu
      rw [hf] at hg
      cases hg
      exact ⟨u, _, moved_self _ _, hident⟩
    · exact ⟨u, g, (moved_other _ _ hu).trans hg, hident⟩
  · exact h.past
  · exact hpair
  · intro n y hresult
    rw [hended n (by rw [hresult]; simp)]
    exact h.success n y hresult
  · intro n y hresult
    rw [hended n (by rw [hresult]; simp)]
    exact h.failure n y hresult

theorem Inv.advance (h : Inv s partner) (hf : s.frame t = some f) {slot : Slot Addr} {pc : Pc Addr}
    (hslot : SlotOk (moved s.frame t f pc) s.item partner slot)
    (hpc : PcOk s.item (partner f.ident) pc) :
    Inv { s with slot := slot, frame := moved s.frame t f pc } partner :=
  h.move hf hslot hpc (fun u g _ hg => h.pc u g hg) h.pair (fun _ _ => rfl)

theorem Inv.look (h : Inv s partner) (hf : s.frame t = some f) {pc : Pc Addr}
    (hwaits : pc.waits = f.pc.waits) (hpc : PcOk s.item (partner f.ident) pc) :
    Inv { s with slot := s.slot, frame := moved s.frame t f pc } partner :=
  h.advance hf (h.slot.quiet hf hwaits) hpc

theorem loop_waits (maxTrials trial : Nat) : (loop maxTrials trial : Pc Addr).waits = false := by
  rw [loop]
  split <;> rfl

theorem loop_ok (item : Nat → Option Addr) (maxTrials trial : Nat) :
    PcOk item none (loop maxTrials trial) := by
  rw [loop]
  split
  · exact ⟨rfl, rfl⟩
  · rfl

theorem pollLoop_waits (maxTrials trial : Nat) :
    (pollLoop maxTrials trial : Pc Addr).waits = true := by
  rw [pollLoop]
  split <;> rfl

theorem pollLoop_ok (item : Nat → Option Addr) (p : Option Nat) (maxTrials trial : Nat) :
    PcOk item p (pollLoop maxTrials trial) := by
  rw [pollLoop]
  split <;> trivial

/-- Nobody waits when the slot is empty, so the item is placed by the only
waiting thread. -/
theorem Inv.place (h : Inv s partner) (hf : s.frame t = some f) {x : Option Addr}
    (hslot : s.slot = (x, .empty)) (hnone : partner f.ident = none) (trial : Nat) :
    Inv { s with
      slot := (f.myItem, .waiting)
      frame := moved s.frame t f (pollLoop f.maxTrials trial) } partner := by
  have hempty := h.slot
  rw [hslot] at hempty
  refine h.advance hf ?_ (pollLoop_ok _ _ _ _)
  exact ⟨t, _, Waiter.self (pollLoop_waits _ _) (fun u g _ hg => hempty.2 u g hg), rfl, hnone⟩

end

omit [DecidableEq Tid] [DecidableEq Addr] in
theorem Inv.others_wait_not (h : Inv s partner) (hf : s.frame t = some f)
    (hwaits : f.pc.waits = true) {u : Tid} {g : Frame Addr} (hu : u ≠ t)
    (hg : s.frame u = some g) : g.pc.waits = false := by
  cases hother : g.pc.waits with
  | false => rfl
  | true =>
    have hslot := h.slot
    rcases hword : s.slot with ⟨x, state⟩
    rw [hword] at hslot
    cases state with
    | unknown => exact hslot.elim
    | empty =>
      rw [hslot.2 t f hf] at hwaits
      cases hwaits
    | waiting =>
      obtain ⟨w, k, hw, -⟩ := hslot
      exact absurd ((hw.only u g hg hother).trans (hw.only t f hf hwaits).symm) hu
    | busy =>
      obtain ⟨w, k, m, hw, -⟩ := hslot
      exact absurd ((hw.only u g hg hother).trans (hw.only t f hf hwaits).symm) hu

omit [DecidableEq Addr] in
/-- The waiting thread empties the slot and waits no more. -/
theorem Inv.vacate (h : Inv s partner) (hf : s.frame t = some f) (hwaits : f.pc.waits = true)
    {pc : Pc Addr} (hpc : pc.waits = false) (hok : PcOk s.item (partner f.ident) pc) :
    Inv { s with slot := (none, .empty), frame := moved s.frame t f pc } partner := by
  refine h.advance hf ⟨rfl, ?_⟩ hok
  intro u g hg
  rcases moved_cases hg with ⟨-, rfl⟩ | ⟨hu, hg⟩
  · exact hpc
  · exact h.others_wait_not hf hwaits hu hg

/-- Two calls become partners. -/
def paired (partner : Nat → Option Nat) (a b : Nat) : Nat → Option Nat :=
  update (update partner a (some b)) b (some a)

theorem paired_left (partner : Nat → Option Nat) {a b : Nat} (hne : a ≠ b) :
    paired partner a b a = some b := by
  rw [paired, update_of_ne hne, update_self]

theorem paired_right (partner : Nat → Option Nat) (a b : Nat) :
    paired partner a b b = some a := update_self ..

theorem paired_other (partner : Nat → Option Nat) {a b n : Nat} (ha : n ≠ a) (hb : n ≠ b) :
    paired partner a b n = partner n := by
  rw [paired, update_of_ne hb, update_of_ne ha]

omit [DecidableEq Addr] in
/-- A waiting item is taken: the two calls are a pair from now on. -/
theorem Inv.meet (h : Inv s partner) (hf : s.frame t = some f) {x : Option Addr}
    (hslot : s.slot = (x, .waiting)) (hwaits : f.pc.waits = false)
    (hnone : partner f.ident = none) :
    ∃ partner', Inv { s with
      slot := (f.myItem, .busy)
      frame := moved s.frame t f (.ret true x) } partner' := by
  have hwait := h.slot
  rw [hslot] at hwait
  obtain ⟨w, g, hw, hitem, hnone'⟩ := hwait
  have hwt := hw.ne hf hwaits
  have hne : f.ident ≠ g.ident := fun heq => hwt (h.distinct w t g f hw.here hf heq.symm)
  refine ⟨paired partner f.ident g.ident, h.move hf ?_ ?_ ?_ ?_ ?_⟩
  · exact ⟨w, g, f.ident, hw.other hwt rfl, paired_right _ _ _, (h.known t f hf).2.1⟩
  · exact ⟨g.ident, paired_left _ hne, (h.known w g hw.here).2.1.trans hitem⟩
  · intro u k hu hk
    by_cases huw : u = w
    · subst huw
      rw [hw.here] at hk
      cases hk
      have hpc := h.pc u g hw.here
      have hstay := hw.waits
      rw [hnone'] at hpc
      rw [paired_right]
      cases hat : g.pc with
      | poll _ => trivial
      | abort => trivial
      | last =>
        rw [hat] at hpc
        exact absurd rfl hpc
      | reset y =>
        rw [hat] at hpc
        obtain ⟨m, hm, -⟩ := hpc
        cases hm
      | get _ | offer _ _ | take _ _ | ret _ _ | failed _ =>
        rw [hat] at hstay
        cases hstay
    · have hneF : k.ident ≠ f.ident := fun heq => hu (h.distinct u t k f hk hf heq)
      have hneG : k.ident ≠ g.ident := fun heq => huw (h.distinct u w k g hk hw.here heq)
      rw [paired_other _ hneF hneG]
      exact h.pc u k hk
  · intro n m hnm
    by_cases hn : n = g.ident
    · subst hn
      rw [paired_right] at hnm
      cases hnm
      exact ⟨paired_left _ hne, hne.symm, (h.known w g hw.here).1⟩
    · by_cases hn' : n = f.ident
      · subst hn'
        rw [paired_left _ hne] at hnm
        cases hnm
        exact ⟨paired_right _ _ _, hne, (h.known t f hf).1⟩
      · rw [paired_other _ hn' hn] at hnm
        obtain ⟨hback, hdiff, hlt⟩ := h.pair n m hnm
        have hmF : m ≠ f.ident := by
          rintro rfl
          rw [hnone] at hback
          cases hback
        have hmG : m ≠ g.ident := by
          rintro rfl
          rw [hnone'] at hback
          cases hback
        exact ⟨(paired_other _ hmF hmG).trans hback, hdiff, hlt⟩
  · intro n hended
    apply paired_other
    · rintro rfl
      exact hended (h.known t f hf).2.2
    · rintro rfl
      exact hended (h.known w g hw.here).2.2

omit [DecidableEq Tid] [DecidableEq Addr] in
theorem Inv.of_waits (h : Inv s partner) (hf : s.frame t = some f) (hwaits : f.pc.waits = true) :
    s.slot = (f.myItem, .waiting) ∧ partner f.ident = none ∨
      ∃ y m, s.slot = (y, .busy) ∧ partner f.ident = some m ∧ s.item m = y := by
  have hslot := h.slot
  rcases hword : s.slot with ⟨x, state⟩
  rw [hword] at hslot
  cases state with
  | unknown => exact hslot.elim
  | empty =>
    rw [hslot.2 t f hf] at hwaits
    cases hwaits
  | waiting =>
    obtain ⟨w, g, hw, hitem, hnone⟩ := hslot
    obtain ⟨-, rfl⟩ := hw.eq hf hwaits
    exact .inl ⟨by rw [hitem], hnone⟩
  | busy =>
    obtain ⟨w, g, m, hw, hpartner, hitem⟩ := hslot
    obtain ⟨-, rfl⟩ := hw.eq hf hwaits
    exact .inr ⟨x, m, rfl, hpartner, hitem⟩

/-- A step within a call keeps the invariant, possibly with a new pair. -/
theorem Inv.xchgStep (h : Inv s partner) (hf : s.frame t = some f) {slot : Slot Addr}
    {pc : Pc Addr} (hstep : xchgStep f.myItem f.maxTrials s.slot f.pc = some (slot, pc)) :
    ∃ partner', Inv { s with slot := slot, frame := moved s.frame t f pc } partner' := by
  have hpc := h.pc t f hf
  cases hat : f.pc with
  | get trial =>
    have hslot := h.slot
    rcases hword : s.slot with ⟨x, state⟩
    rw [hat] at hpc
    rw [hat, hword] at hstep
    rw [hword] at hslot
    have hnone : partner f.ident = none := hpc
    cases state with
    | unknown => exact hslot.elim
    | empty | waiting =>
      cases hstep
      rw [← hword]
      exact ⟨partner, h.look hf (by rw [hat]; rfl) hnone⟩
    | busy =>
      cases hstep
      rw [← hword]
      refine ⟨partner, h.look hf ?_ ?_⟩
      · rw [loop_waits, hat]
        rfl
      · rw [hnone]
        exact loop_ok _ _ _
  | offer y trial =>
    rw [hat] at hpc
    have hnone : partner f.ident = none := hpc
    simp only [hat, Exchanger.xchgStep] at hstep
    split at hstep
    · rename_i hempty
      cases hstep
      exact ⟨partner, h.place hf hempty hnone trial⟩
    · cases hstep
      refine ⟨partner, h.look hf ?_ ?_⟩
      · rw [loop_waits, hat]
        rfl
      · rw [hnone]
        exact loop_ok _ _ _
  | poll trial =>
    have hwaits : f.pc.waits = true := by rw [hat]; rfl
    rcases h.of_waits hf hwaits with ⟨hword, -⟩ | ⟨y, m, hword, hpartner, hitem⟩
    · rw [hat, hword] at hstep
      cases hstep
      rw [← hword]
      exact ⟨partner, h.look hf ((pollLoop_waits _ _).trans hwaits.symm) (pollLoop_ok _ _ _ _)⟩
    · rw [hat, hword] at hstep
      cases hstep
      rw [← hword]
      exact ⟨partner, h.look hf hwaits.symm ⟨m, hpartner, hitem⟩⟩
  | abort =>
    have hwaits : f.pc.waits = true := by rw [hat]; rfl
    rcases h.of_waits hf hwaits with ⟨hword, hnone⟩ | ⟨y, m, hword, hpartner, hitem⟩
    · rw [hat, hword, Exchanger.xchgStep, if_pos rfl] at hstep
      cases hstep
      exact ⟨partner, h.vacate hf hwaits rfl ⟨hnone, rfl⟩⟩
    · rw [hat, hword, Exchanger.xchgStep, if_neg (by simp)] at hstep
      cases hstep
      rw [← hword]
      refine ⟨partner, h.look hf hwaits.symm ?_⟩
      rw [hpartner]
      exact Option.some_ne_none m
  | last =>
    have hwaits : f.pc.waits = true := by rw [hat]; rfl
    rcases h.of_waits hf hwaits with ⟨-, hnone⟩ | ⟨y, m, hword, hpartner, hitem⟩
    · rw [hat] at hpc
      exact absurd hnone hpc
    · rw [hat, hword] at hstep
      cases hstep
      rw [← hword]
      exact ⟨partner, h.look hf hwaits.symm ⟨m, hpartner, hitem⟩⟩
  | reset y =>
    rw [hat] at hpc
    rw [hat] at hstep
    cases hstep
    exact ⟨partner, h.vacate hf (by rw [hat]; rfl) rfl hpc⟩
  | take y trial =>
    rw [hat] at hpc
    have hnone : partner f.ident = none := hpc
    simp only [hat, Exchanger.xchgStep] at hstep
    split at hstep
    · rename_i hwaiting
      cases hstep
      exact h.meet hf hwaiting (by rw [hat]; rfl) hnone
    · cases hstep
      refine ⟨partner, h.look hf ?_ ?_⟩
      · rw [loop_waits, hat]
        rfl
      · rw [hnone]
        exact loop_ok _ _ _
  | ret ok y =>
    rw [hat] at hstep
    cases hstep
  | failed message =>
    rw [hat] at hpc
    exact hpc.elim

section

omit [DecidableEq Addr]

theorem Inv.beginCall (h : Inv s partner) (hidle : s.frame t = none) {myItem : Option Addr}
    {maxTrials : Nat} (hstep : beginCall s t myItem maxTrials = some s') : Inv s' partner := by
  rw [Exchanger.beginCall] at hstep
  split at hstep
  · cases hstep
    let f : Frame Addr := ⟨s.calls, myItem, maxTrials, loop maxTrials 0⟩
    have hcases {u : Tid} {g : Frame Addr} (hg : update s.frame t (some f) u = some g) :
        u = t ∧ g = f ∨ u ≠ t ∧ s.frame u = some g := moved_cases (f := f) hg
    have hitem (n : Nat) (hn : n < s.calls) :
        update s.item s.calls myItem n = s.item n := update_of_ne hn.ne ..
    have hfresh : partner s.calls = none := by
      cases hpartner : partner s.calls with
      | none => rfl
      | some m => exact absurd (h.pair _ m hpartner).2.2 (lt_irrefl _)
    have hpartner {n m : Nat} (hnm : partner n = some m) : m < s.calls :=
      (h.pair m n (h.pair n m hnm).1).2.2
    have hresult : s.result s.calls = none := by
      by_contra hdone
      exact absurd (h.past _ hdone) (lt_irrefl _)
    have hwaiter {w : Tid} {g : Frame Addr} (hw : Waiter s.frame w g) :
        Waiter (update s.frame t (some f)) w g := by
      have hne : w ≠ t := by
        rintro rfl
        exact absurd (hw.here.symm.trans hidle) (by simp)
      exact hw.other (f := f) hne (loop_waits _ _)
    constructor
    · have hslot := h.slot
      rcases hword : s.slot with ⟨x, state⟩
      rw [hword] at hslot
      cases state with
      | unknown => exact hslot.elim
      | empty =>
        refine ⟨hslot.1, ?_⟩
        intro u g hg
        rcases hcases hg with ⟨-, rfl⟩ | ⟨-, hg⟩
        · exact loop_waits _ _
        · exact hslot.2 u g hg
      | waiting =>
        obtain ⟨w, g, hw, hrest⟩ := hslot
        exact ⟨w, g, hwaiter hw, hrest⟩
      | busy =>
        obtain ⟨w, g, m, hw, hm, hy⟩ := hslot
        exact ⟨w, g, m, hwaiter hw, hm, (hitem m (hpartner hm)).trans hy⟩
    · intro u g hg
      dsimp only
      rcases hcases hg with ⟨-, rfl⟩ | ⟨-, hg⟩
      · exact ⟨Nat.lt_succ_self _, update_self .., hresult⟩
      · obtain ⟨hlt, hmine, hnone⟩ := h.known u g hg
        exact ⟨Nat.lt_succ_of_lt hlt, (hitem _ hlt).trans hmine, hnone⟩
    · intro u v g k hg hk heq
      rcases hcases hg with ⟨hu, rfl⟩ | ⟨-, hg⟩ <;> rcases hcases hk with ⟨hv, rfl⟩ | ⟨-, hk⟩
      · exact hu.trans hv.symm
      · exact absurd (h.known v k hk).1 (by rw [← heq]; exact lt_irrefl _)
      · exact absurd (h.known u g hg).1 (by rw [heq]; exact lt_irrefl _)
      · exact h.distinct u v g k hg hk heq
    · intro u g hg
      rcases hcases hg with ⟨-, rfl⟩ | ⟨-, hg⟩
      · change PcOk _ (partner s.calls) _
        rw [hfresh]
        exact loop_ok _ _ _
      · exact (h.pc u g hg).congr fun m hm => hitem m (hpartner hm)
    · intro n hn hnone
      by_cases heq : n = s.calls
      · exact ⟨t, f, update_self .., heq.symm⟩
      · obtain ⟨u, g, hg, hident⟩ := h.ends n (by dsimp only at hn; omega) hnone
        refine ⟨u, g, ?_, hident⟩
        have hu : u ≠ t := by
          rintro rfl
          rw [hidle] at hg
          cases hg
        exact (update_of_ne hu ..).trans hg
    · intro n hn
      exact Nat.lt_succ_of_lt (h.past n hn)
    · intro n m hnm
      obtain ⟨hback, hne, hlt⟩ := h.pair n m hnm
      exact ⟨hback, hne, Nat.lt_succ_of_lt hlt⟩
    · intro n y hy
      obtain ⟨m, hm, hitem'⟩ := h.success n y hy
      exact ⟨m, hm, (hitem m (hpartner hm)).trans hitem'⟩
    · exact h.failure
  · cases hstep

theorem Inv.endCall (h : Inv s partner) (hf : s.frame t = some f) {success : Bool}
    {yourItem : Option Addr} (hret : f.pc = .ret success yourItem) :
    Inv (endCall s t f.ident (success, yourItem)) partner := by
  have hpc := h.pc t f hf
  rw [hret] at hpc
  have hcases {u : Tid} {g : Frame Addr} (hg : update s.frame t none u = some g) :
      u ≠ t ∧ s.frame u = some g := by
    by_cases hu : u = t
    · subst hu
      rw [update_self] at hg
      cases hg
    · rw [update_of_ne hu] at hg
      exact ⟨hu, hg⟩
  have hold {n : Nat} (hn : n ≠ f.ident) :
      update s.result f.ident (some (success, yourItem)) n = s.result n :=
    update_of_ne hn ..
  have hwaiter {w : Tid} {g : Frame Addr} (hw : Waiter s.frame w g) :
      Waiter (update s.frame t none) w g := by
    have hne := hw.ne hf (by rw [hret]; rfl)
    exact ⟨(update_of_ne hne ..).trans hw.here, hw.waits,
      fun u k hk => hw.only u k (hcases hk).2⟩
  constructor
  · have hslot := h.slot
    change SlotOk _ _ _ s.slot
    rcases hword : s.slot with ⟨x, state⟩
    rw [hword] at hslot
    cases state with
    | unknown => exact hslot.elim
    | empty => exact ⟨hslot.1, fun u g hg => hslot.2 u g (hcases hg).2⟩
    | waiting =>
      obtain ⟨w, g, hw, hrest⟩ := hslot
      exact ⟨w, g, hwaiter hw, hrest⟩
    | busy =>
      obtain ⟨w, g, m, hw, hrest⟩ := hslot
      exact ⟨w, g, m, hwaiter hw, hrest⟩
  · intro u g hg
    obtain ⟨hu, hg⟩ := hcases hg
    obtain ⟨hlt, hmine, hnone⟩ := h.known u g hg
    exact ⟨hlt, hmine, (hold fun heq => hu (h.distinct u t g f hg hf heq)).trans hnone⟩
  · intro u v g k hg hk
    exact h.distinct u v g k (hcases hg).2 (hcases hk).2
  · intro u g hg
    exact h.pc u g (hcases hg).2
  · intro n hn hnone
    have hne : n ≠ f.ident := by
      rintro rfl
      simp [Exchanger.endCall] at hnone
    obtain ⟨u, g, hg, hident⟩ := h.ends n hn ((hold hne).symm.trans hnone)
    refine ⟨u, g, ?_, hident⟩
    have hu : u ≠ t := by
      rintro rfl
      rw [hf] at hg
      cases hg
      exact hne hident.symm
    exact (update_of_ne hu ..).trans hg
  · intro n hn
    by_cases heq : n = f.ident
    · exact heq ▸ (h.known t f hf).1
    · exact h.past n (fun hnone => hn ((hold heq).trans hnone))
  · exact h.pair
  · intro n y hy
    by_cases heq : n = f.ident
    · subst heq
      simp only [Exchanger.endCall, update_self, Option.some.injEq, Prod.mk.injEq] at hy
      obtain ⟨rfl, rfl⟩ := hy
      exact hpc
    · exact h.success n y ((hold heq).symm.trans hy)
  · intro n y hy
    by_cases heq : n = f.ident
    · subst heq
      simp only [Exchanger.endCall, update_self, Option.some.injEq, Prod.mk.injEq] at hy
      obtain ⟨rfl, rfl⟩ := hy
      exact hpc
    · exact h.failure n y ((hold heq).symm.trans hy)

end

theorem call_cases {myItem : Option Addr} {maxTrials : Nat}
    (hstep : step s (.call t myItem maxTrials) = some s') :
    s.frame t = none ∧ s'.slot = s.slot ∧
      s'.frame = update s.frame t (some ⟨s.calls, myItem, maxTrials, loop maxTrials 0⟩) := by
  simp only [step] at hstep
  split at hstep
  · rename_i hidle
    rw [beginCall] at hstep
    split at hstep
    · cases hstep
      exact ⟨hidle, rfl, rfl⟩
    · cases hstep
  · cases hstep

/-- A call returns, or goes on with its next operation. -/
theorem nextStep_cases (hstep : nextStep s t = some s') :
    ∃ f, s.frame t = some f ∧
      ((∃ success yourItem, f.pc = .ret success yourItem ∧
        s' = endCall s t f.ident (success, yourItem)) ∨
      ((∀ success yourItem, f.pc ≠ .ret success yourItem) ∧ ∃ slot pc,
        Exchanger.xchgStep f.myItem f.maxTrials s.slot f.pc = some (slot, pc) ∧
        s' = { s with slot := slot, frame := moved s.frame t f pc })) := by
  rw [nextStep] at hstep
  split at hstep
  · cases hstep
  · rename_i f hf
    refine ⟨f, hf, ?_⟩
    split at hstep
    · rename_i success yourItem hret
      cases hstep
      exact .inl ⟨success, yourItem, hret, rfl⟩
    · rename_i hnot
      split at hstep
      · cases hstep
      · rename_i slot pc hxchg
        cases hstep
        exact .inr ⟨hnot, slot, pc, hxchg, rfl⟩

theorem Inv.step (h : Inv s partner) {a : Act Tid Addr} (hstep : step s a = some s') :
    ∃ partner', Inv s' partner' := by
  cases a with
  | call t myItem maxTrials =>
    simp only [Exchanger.step] at hstep
    split at hstep
    · rename_i hidle
      exact ⟨partner, h.beginCall hidle hstep⟩
    · cases hstep
  | step t =>
    obtain ⟨f, hf, ⟨success, yourItem, hret, rfl⟩ | ⟨-, slot, pc, hxchg, rfl⟩⟩ :=
      nextStep_cases hstep
    · exact ⟨partner, h.endCall hf hret⟩
    · exact h.xchgStep hf hxchg

omit [DecidableEq Tid] [DecidableEq Addr] in
theorem exchangerInit_inv : Inv (exchangerInit : State Tid Addr) (fun _ => none) where
  slot := ⟨rfl, nofun⟩
  known := nofun
  distinct := nofun
  pc := nofun
  ends n hn := by cases hn
  past n hn := absurd rfl hn
  pair := nofun
  success := nofun
  failure := nofun

theorem run_inv {past : List (State Tid Addr × Act Tid Addr)}
    (run : (machine Tid Addr).Run past s) : ∃ partner, Inv s partner := by
  apply run.invariant (I := fun s => ∃ partner, Inv s partner)
  · rintro s rfl
    exact ⟨_, exchangerInit_inv⟩
  · rintro s a s' ⟨partner, h⟩ hstep
    exact h.step hstep

/-- The item that a call will return, once it has met a partner. -/
def got (slot : Slot Addr) : Pc Addr → Option (Option Addr)
  | .poll _ | .abort | .last =>
    match slot with
    | (yourItem, .busy) => some yourItem
    | _ => none
  | .reset yourItem | .ret true yourItem => some yourItem
  | _ => none

section

omit [DecidableEq Addr]

theorem got_loop (slot : Slot Addr) (maxTrials trial : Nat) :
    got slot (loop maxTrials trial) = none := by
  rw [loop]
  split <;> rfl

theorem got_pollLoop (slot : Slot Addr) (maxTrials trial : Nat) :
    got slot (pollLoop maxTrials trial) = got slot .abort := by
  rw [pollLoop]
  split <;> rfl

/-- Only a waiting call looks at the slot. -/
theorem got_congr {pc : Pc Addr} (hpc : pc.waits = false) (slot slot' : Slot Addr) :
    got slot pc = got slot' pc := by
  cases pc with
  | poll _ | abort | last | reset _ => cases hpc
  | ret success y => cases success <;> rfl
  | _ => rfl

end

/-- A step gives nobody an item. -/
def Quiet (s : State Tid Addr) (t : Tid) (f : Frame Addr) (slot : Slot Addr) (pc : Pc Addr) :
    Prop :=
  got slot pc = got s.slot f.pc ∧
    ∀ u g, u ≠ t → s.frame u = some g → got slot g.pc = got s.slot g.pc

/-- Threads `t` and `w` get the items of each other. -/
structure Meeting (s : State Tid Addr) (t : Tid) (f : Frame Addr) (slot : Slot Addr) (pc : Pc Addr)
    (w : Tid) (g : Frame Addr) : Prop where
  apart : w ≠ t
  partner : s.frame w = some g
  before : got s.slot f.pc = none
  before' : got s.slot g.pc = none
  after : got slot pc = some g.myItem
  after' : got slot g.pc = some f.myItem
  others : ∀ u k, u ≠ t → u ≠ w → s.frame u = some k → got slot k.pc = got s.slot k.pc

omit [DecidableEq Tid] [DecidableEq Addr] in
theorem quiet_of_slot {pc : Pc Addr} (h : got s.slot pc = got s.slot f.pc) :
    Quiet s t f s.slot pc :=
  ⟨h, fun _ _ _ _ => rfl⟩

omit [DecidableEq Tid] in
theorem Inv.got_step (h : Inv s partner) (hf : s.frame t = some f) {slot : Slot Addr}
    {pc : Pc Addr} (hstep : Exchanger.xchgStep f.myItem f.maxTrials s.slot f.pc = some (slot, pc)) :
    Quiet s t f slot pc ∨ ∃ w g, Meeting s t f slot pc w g := by
  have hpc := h.pc t f hf
  cases hat : f.pc with
  | get trial =>
    rw [hat] at hpc hstep
    have hslot := h.slot
    rcases hword : s.slot with ⟨x, state⟩
    rw [hword] at hslot hstep
    cases state with
    | unknown => exact hslot.elim
    | empty | waiting =>
      cases hstep
      rw [← hword]
      exact .inl (quiet_of_slot (by rw [hat]; rfl))
    | busy =>
      cases hstep
      rw [← hword]
      exact .inl (quiet_of_slot (by rw [got_loop, hat]; rfl))
  | offer y trial =>
    simp only [hat, Exchanger.xchgStep] at hstep
    split at hstep
    · rename_i hempty
      cases hstep
      have hslot := h.slot
      rw [hempty] at hslot
      refine .inl ⟨?_, fun u g _ hg => got_congr (hslot.2 u g hg) _ _⟩
      rw [got_pollLoop, hat]
      rfl
    · cases hstep
      exact .inl (quiet_of_slot (by rw [got_loop, hat]; rfl))
  | poll trial =>
    have hwaits : f.pc.waits = true := by rw [hat]; rfl
    rcases h.of_waits hf hwaits with ⟨hword, -⟩ | ⟨y, m, hword, -, -⟩
    · rw [hat, hword] at hstep
      cases hstep
      rw [← hword]
      exact .inl (quiet_of_slot (by rw [got_pollLoop, hat]; rfl))
    · rw [hat, hword] at hstep
      cases hstep
      rw [← hword]
      exact .inl (quiet_of_slot (by rw [hat, hword]; rfl))
  | abort =>
    have hwaits : f.pc.waits = true := by rw [hat]; rfl
    rcases h.of_waits hf hwaits with ⟨hword, -⟩ | ⟨y, m, hword, -, -⟩
    · rw [hat, hword, Exchanger.xchgStep, if_pos rfl] at hstep
      cases hstep
      refine .inl ⟨by rw [hat, hword]; rfl, ?_⟩
      intro u g hu hg
      exact got_congr (h.others_wait_not hf hwaits hu hg) _ _
    · rw [hat, hword, Exchanger.xchgStep, if_neg (by simp)] at hstep
      cases hstep
      rw [← hword]
      exact .inl (quiet_of_slot (by rw [hat]; rfl))
  | last =>
    have hwaits : f.pc.waits = true := by rw [hat]; rfl
    rcases h.of_waits hf hwaits with ⟨-, hnone⟩ | ⟨y, m, hword, -, -⟩
    · rw [hat] at hpc
      exact absurd hnone hpc
    · rw [hat, hword] at hstep
      cases hstep
      rw [← hword]
      exact .inl (quiet_of_slot (by rw [hat, hword]; rfl))
  | reset y =>
    rw [hat] at hstep
    cases hstep
    refine .inl ⟨by rw [hat]; rfl, ?_⟩
    intro u g hu hg
    exact got_congr (h.others_wait_not hf (by rw [hat]; rfl) hu hg) _ _
  | take y trial =>
    rw [hat] at hpc
    simp only [hat, Exchanger.xchgStep] at hstep
    split at hstep
    · rename_i hwaiting
      cases hstep
      have hslot := h.slot
      rw [hwaiting] at hslot
      obtain ⟨w, g, hw, hitem, hnone⟩ := hslot
      have hpc' := h.pc w g hw.here
      have hstay := hw.waits
      rw [hnone] at hpc'
      have hplace : g.pc = .abort ∨ ∃ trial, g.pc = .poll trial := by
        cases hat' : g.pc with
        | poll trial => exact .inr ⟨trial, rfl⟩
        | abort => exact .inl rfl
        | last =>
          rw [hat'] at hpc'
          exact absurd rfl hpc'
        | reset y =>
          rw [hat'] at hpc'
          obtain ⟨m, hm, -⟩ := hpc'
          cases hm
        | get _ | offer _ _ | take _ _ | ret _ _ | failed _ =>
          rw [hat'] at hstay
          cases hstay
      refine .inr ⟨w, g, hw.ne hf (by rw [hat]; rfl), hw.here, by rw [hat]; rfl, ?_, ?_, ?_, ?_⟩
      · rw [hwaiting]
        rcases hplace with hplace | ⟨trial, hplace⟩ <;> rw [hplace] <;> rfl
      · rw [hitem]
        rfl
      · rcases hplace with hplace | ⟨trial, hplace⟩ <;> rw [hplace] <;> rfl
      · intro u k _ hu hk
        cases hother : k.pc.waits with
        | true => exact absurd (hw.only u k hk hother) hu
        | false => exact got_congr hother _ _
    · cases hstep
      exact .inl (quiet_of_slot (by rw [got_loop, hat]; rfl))
  | ret ok y =>
    rw [hat] at hstep
    cases hstep
  | failed message =>
    rw [hat] at hpc
    exact hpc.elim

/-- The calls that succeed are paired: each call of a pair returns the item of
the other one, unless it is still in progress. A call that fails has no partner. -/
structure Pairing (s : State Tid Addr) (partner : Nat → Option Nat) : Prop where
  symm : ∀ n m, partner n = some m → partner m = some n ∧ n ≠ m
  returns : ∀ n m, partner n = some m →
    s.result n = some (true, s.item m) ∨
      s.result n = none ∧ ∃ t f, s.frame t = some f ∧ f.ident = n
  success : ∀ n yourItem, s.result n = some (true, yourItem) → ∃ m, partner n = some m
  failure : ∀ n yourItem, s.result n = some (false, yourItem) → partner n = none

structure Safe (s : State Tid Addr) : Prop where
  pairing : ∃ partner, Pairing s partner
  quiet : (∀ t, s.frame t = none) → s.slot = exchangerReset
  asserts : ∀ t f message, s.frame t = some f → f.pc ≠ .failed message

theorem exchanger_safe {past : List (State Tid Addr × Act Tid Addr)}
    (run : (machine Tid Addr).Run past s) : Safe s := by
  obtain ⟨partner, h⟩ := run_inv run
  constructor
  · refine ⟨partner, ?_, ?_, ?_, ?_⟩
    · intro n m hnm
      obtain ⟨hback, hne, -⟩ := h.pair n m hnm
      exact ⟨hback, hne⟩
    · intro n m hnm
      cases hresult : s.result n with
      | none => exact .inr ⟨rfl, h.ends n (h.pair n m hnm).2.2 hresult⟩
      | some r =>
        obtain ⟨success, y⟩ := r
        cases success with
        | true =>
          obtain ⟨m', hm', rfl⟩ := h.success n y hresult
          rw [hnm] at hm'
          cases hm'
          exact .inl rfl
        | false =>
          rw [(h.failure n y hresult).1] at hnm
          cases hnm
    · intro n y hresult
      obtain ⟨m, hm, -⟩ := h.success n y hresult
      exact ⟨m, hm⟩
    · intro n y hresult
      exact (h.failure n y hresult).1
  · intro hidle
    have hslot := h.slot
    rcases hword : s.slot with ⟨x, state⟩
    rw [hword] at hslot
    cases state with
    | unknown => exact hslot.elim
    | empty => rw [hslot.1, exchangerReset]
    | waiting =>
      obtain ⟨w, g, hw, -⟩ := hslot
      exact absurd (hw.here.symm.trans (hidle w)) (by simp)
    | busy =>
      obtain ⟨w, g, m, hw, -⟩ := hslot
      exact absurd (hw.here.symm.trans (hidle w)) (by simp)
  · intro t f message hf hfailed
    have hpc := h.pc t f hf
    rw [hfailed] at hpc
    exact hpc

/-- Thread 0 offers NULL and gives up too late: thread 1 takes the offer before
the compare-and-swap that withdraws it. -/
def lateAbort : List (Act Nat Nat) :=
  [.call 0 none 1, .call 1 (some 7) 1, .step 0, .step 0, .step 1, .step 1, .step 0, .step 0,
    .step 0, .step 1, .step 0]

theorem exchanger_safe_late :
    ∃ past s, (machine Nat Nat).Run past s ∧ Safe s ∧ s.slot = exchangerReset ∧
      s.result 0 = some (true, some 7) ∧ s.result 1 = some (true, none) := by
  have hexec : ((machine Nat Nat).exec exchangerInit lateAbort).map
      (fun s => (s.slot, s.result 0, s.result 1)) =
      some (exchangerReset, some (true, some 7), some (true, none)) := by
    decide +kernel
  obtain ⟨s, hs, hview⟩ := Option.map_eq_some_iff.mp hexec
  obtain ⟨hslot, hresults⟩ := Prod.mk.inj hview
  obtain ⟨hzero, hone⟩ := Prod.mk.inj hresults
  have run := (Machine.Run.start (M := machine Nat Nat) rfl).exec hs
  exact ⟨_, s, run, exchanger_safe run, hslot, hzero, hone⟩

end Libvsync.Utils.Exchanger
