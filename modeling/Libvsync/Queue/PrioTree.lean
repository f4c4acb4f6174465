import Libvsync.Core.Machine
import Libvsync.Core.Word
import Libvsync.Core.Tally
import Libvsync.Core.IndexTree

/-!
The priority queue of a tree of counters over one stack per priority. The tree
lies in an array, the counter of an inner node counts what is stored in its left
subtree. An adder pushes first and then climbs to the root; a remover goes down
from the root, takes one off every counter it turns left at, and pops.

The priorities are the numbers below `2 ^ k`. A stack is linearizable, so one
push and one pop are one step each; every access to a counter is one step. The
flag of a remover, which the code does not have, says that it has decremented
a counter.
-/

namespace Libvsync.Queue.PrioTree

open Libvsync.Core Function

/-- `VQUEUE_PRIO_PRIORITY_RANGE`, a power of two. -/
def priorityRange (k : Nat) : Nat := 2 ^ k

/-- `VQUEUE_PRIO_GET_LEAF_IDX`. -/
def leafIdx (k i : Nat) : Nat := i + (priorityRange k - 1)

/-- `VQUEUE_PRIO_GET_LEFT_CHILD_IDX`. -/
def leftChildIdx (i : Nat) : Nat := i * 2 + 1

/-- `VQUEUE_PRIO_GET_RIGHT_CHILD_IDX`. -/
def rightChildIdx (i : Nat) : Nat := i * 2 + 2

/-- `VQUEUE_PRIO_GET_PARENT_IDX`. -/
def parentIdx (i : Nat) : Nat := (i - 1) / 2

/-- The `bin` pointers `_vqueue_prio_tree_init` leaves in the tree: the stack
of priority `i` at leaf `i`, null elsewhere. Nothing changes them later. -/
def treeBin (k : Nat) : Nat → Option Nat :=
  (List.range (priorityRange k)).foldl
    (fun bin i => update bin (leafIdx k i) (some i)) (fun _ => none)

inductive Call (Node : Type) where
  | add (node : Node) (priority : Nat)
  | removeMin

/-- Where a thread stands. `removeAt` is before the read of the counter of an
inner node, or before the pop of a leaf. -/
inductive Pc (Node : Type) where
  | idle
  | addPush (node : Node) (priority : Nat)
  | addClimb (idx : Nat)
  | addRet
  | removeAt (idx : Nat) (dec : Bool)
  | removeCas (idx oldVal : Nat) (dec : Bool)
  | removeRetire (node : Node) (dec : Bool)
  | removeRet (result : Option Node) (dec : Bool)
  | failed
  deriving DecidableEq

structure State (Tid Node : Type) where
  counter : Nat → Nat
  leaves : Nat → List Node
  retired : List Node
  pc : Tid → Pc Node

inductive Act (Tid Node : Type) where
  | call (t : Tid) (call : Call Node)
  | step (t : Tid)

variable {Tid Node : Type} [DecidableEq Tid] {k : Nat}

def State.goto (s : State Tid Node) (t : Tid) (pc : Pc Node) : State Tid Node :=
  { s with pc := update s.pc t pc }

/-- The loop of `vqueue_prio_add`: it ends at the root. -/
def climb (idx : Nat) : Pc Node :=
  if idx = 0 then .addRet else .addClimb idx

/-- The loop of `_vqueue_prio_bounded_get_dec` with the value it has read: at
zero the remover goes right. -/
def decLoop (idx oldVal : Nat) (dec : Bool) : Pc Node :=
  if oldVal = 0 then .removeAt (rightChildIdx idx) dec else .removeCas idx oldVal dec

def begin (k : Nat) : Call Node → Pc Node
  | .add node priority =>
    -- ASSERT(priority < VQUEUE_PRIO_PRIORITY_RANGE)
    if priority < priorityRange k then .addPush node priority else .failed
  | .removeMin => .removeAt 0 false

/-- The next step of thread `t`. -/
def threadStep (k : Nat) (s : State Tid Node) (t : Tid) : Option (State Tid Node) :=
  match s.pc t with
  | .idle => none
  | .failed => none
  | .addPush node priority =>
    some ({ s with
      leaves := update s.leaves priority (node :: s.leaves priority) }.goto t
        (climb (leafIdx k priority)))
  | .addClimb idx =>
    if idx = leftChildIdx (parentIdx idx) then
      some ({ s with
        counter := update s.counter (parentIdx idx)
          (wadd 32 (s.counter (parentIdx idx)) 1) }.goto t (climb (parentIdx idx)))
    else some (s.goto t (climb (parentIdx idx)))
  | .addRet => some (s.goto t .idle)
  | .removeAt idx dec =>
    match treeBin k idx with
    | some priority =>
      match s.leaves priority with
      | [] => some (s.goto t (.removeRet none dec))
      | node :: rest =>
        some ({ s with leaves := update s.leaves priority rest }.goto t
          (.removeRetire node dec))
    | none => some (s.goto t (decLoop idx (s.counter idx) dec))
  | .removeCas idx oldVal dec =>
    if s.counter idx = oldVal then
      some ({ s with counter := update s.counter idx (oldVal - 1) }.goto t
        (.removeAt (leftChildIdx idx) true))
    else some (s.goto t (decLoop idx (s.counter idx) dec))
  | .removeRetire node dec =>
    some ({ s with retired := node :: s.retired }.goto t (.removeRet (some node) dec))
  | .removeRet _ _ => some (s.goto t .idle)

def step (k : Nat) (s : State Tid Node) : Act Tid Node → Option (State Tid Node)
  | .call t call =>
    match s.pc t with
    | .idle => some (s.goto t (begin k call))
    | _ => none
  | .step t => threadStep k s t

def machine (Tid Node : Type) [DecidableEq Tid] (k : Nat) :
    Machine (State Tid Node) (Act Tid Node) where
  start s := (∀ v, s.counter v = 0) ∧ (∀ p, s.leaves p = []) ∧ s.retired = [] ∧
    ∀ t, s.pc t = .idle
  step := step k

/-- No call is in progress. -/
def Quiet (s : State Tid Node) : Prop := ∀ t, s.pc t = .idle

/-- The number of items stored in the subtree of node `v`. -/
def items (k : Nat) (leaves : Nat → List Node) (v : Nat) : Nat :=
  ∑ p ∈ Finset.range (priorityRange k),
    if under v (leafIdx k p) then (leaves p).length else 0

/-- The increment of this step, if it makes one, does not wrap. -/
def CounterFits (s : State Tid Node) : Act Tid Node → Prop
  | .call _ _ => True
  | .step t =>
    match s.pc t with
    | .addClimb idx => idx = leftChildIdx (parentIdx idx) →
        s.counter (parentIdx idx) + 1 < 2 ^ 32
    | _ => True

theorem priorityRange_pos (k : Nat) : 0 < priorityRange k := Nat.two_pow_pos k

theorem leftChildIdx_eq (i : Nat) : leftChildIdx i = 2 * i + 1 := by
  rw [leftChildIdx, mul_comm]

theorem rightChildIdx_eq (i : Nat) : rightChildIdx i = 2 * i + 2 := by
  rw [rightChildIdx, mul_comm]

theorem treeBin_eq (k idx : Nat) :
    treeBin k idx = if priorityRange k ≤ idx + 1 ∧ idx + 1 < 2 * priorityRange k
      then some (idx - (priorityRange k - 1)) else none := by
  have hpos := priorityRange_pos k
  have hfold (n : Nat) :
      (List.range n).foldl (fun bin i => update bin (leafIdx k i) (some i))
        (fun _ => none) idx =
      if priorityRange k ≤ idx + 1 ∧ idx + 1 < n + priorityRange k
        then some (idx - (priorityRange k - 1)) else none := by
    induction n with
    | zero => rw [List.range_zero, List.foldl_nil, if_neg (by omega)]
    | succ n ih =>
      rw [List.range_succ, List.foldl_append, List.foldl_cons, List.foldl_nil,
        update_apply, ih, leafIdx]
      by_cases hlast : idx = n + (priorityRange k - 1)
      · rw [if_pos hlast, if_pos (by omega)]
        congr 1
        omega
      · rw [if_neg hlast]
        congr 1
        apply propext
        omega
  rw [treeBin, hfold, two_mul]

theorem treeBin_leaf {p : Nat} (hp : p < priorityRange k) : treeBin k (leafIdx k p) = some p := by
  have hpos := priorityRange_pos k
  rw [treeBin_eq, if_pos (by rw [leafIdx]; omega), leafIdx]
  congr 1
  omega

theorem treeBin_some {idx p : Nat} (h : treeBin k idx = some p) :
    p < priorityRange k ∧ idx = leafIdx k p := by
  have hpos := priorityRange_pos k
  rw [treeBin_eq] at h
  split at h
  · cases h
    rw [leafIdx]
    omega
  · cases h

theorem treeBin_none {idx : Nat} (hidx : idx + 1 < 2 * priorityRange k)
    (h : treeBin k idx = none) : idx + 1 < priorityRange k := by
  rw [treeBin_eq] at h
  split at h
  · cases h
  · omega

theorem items_update {p : Nat} (hp : p < priorityRange k) (leaves : Nat → List Node)
    (stack : List Node) (v : Nat) :
    items k (update leaves p stack) v +
        (if under v (leafIdx k p) then (leaves p).length else 0) =
      items k leaves v + (if under v (leafIdx k p) then stack.length else 0) := by
  have hmem : p ∈ Finset.range (priorityRange k) := Finset.mem_range.mpr hp
  rw [items, items, ← Finset.add_sum_erase _ _ hmem, ← Finset.add_sum_erase _ _ hmem]
  have hothers : ∀ q ∈ (Finset.range (priorityRange k)).erase p,
      (if under v (leafIdx k q) then (update leaves p stack q).length else 0) =
        if under v (leafIdx k q) then (leaves q).length else 0 := by
    intro q hq
    rw [update_of_ne (Finset.ne_of_mem_erase hq)]
  rw [Finset.sum_congr rfl hothers, update_self]
  omega

theorem under_leaf {p q : Nat} (hq : q < priorityRange k) :
    under (leafIdx k p) (leafIdx k q) = true ↔ q = p := by
  have hpos := priorityRange_pos k
  rw [priorityRange] at hq hpos
  constructor
  · intro h
    have hsame := under_same_level (k := k) (by rw [leafIdx, priorityRange]; omega)
      (by rw [leafIdx, priorityRange, pow_succ]; omega) h
    rw [leafIdx, leafIdx] at hsame
    omega
  · rintro rfl
    exact under_self _

theorem items_leaf {p : Nat} (hp : p < priorityRange k) (leaves : Nat → List Node) :
    items k leaves (leafIdx k p) = (leaves p).length := by
  rw [items, Finset.sum_eq_single_of_mem p (Finset.mem_range.mpr hp), if_pos (under_self _)]
  intro q hq hne
  rw [if_neg]
  rw [under_leaf (Finset.mem_range.mp hq)]
  exact hne

/-- An inner node stores what its two subtrees store. -/
theorem items_split {v : Nat} (hv : v + 1 < priorityRange k) (leaves : Nat → List Node) :
    items k leaves v = items k leaves (2 * v + 1) + items k leaves (2 * v + 2) := by
  rw [items, items, items, ← Finset.sum_add_distrib]
  apply Finset.sum_congr rfl
  intro p _
  have hleaf : leafIdx k p ≠ v := by
    rw [leafIdx]
    omega
  have hsplit := under_split v (leafIdx k p)
  by_cases hleft : under (2 * v + 1) (leafIdx k p) = true
  · rw [if_pos hleft, if_pos (hsplit.mpr (.inr (.inl hleft))), if_neg, Nat.add_zero]
    rw [under_disjoint hleft]
    exact Bool.false_ne_true
  · by_cases hright : under (2 * v + 2) (leafIdx k p) = true
    · rw [if_pos hright, if_neg hleft, if_pos (hsplit.mpr (.inr (.inr hright))), Nat.zero_add]
    · rw [if_neg hright, if_neg hleft, if_neg]
      rw [hsplit]
      tauto

/-- A remover on its way in the subtree of `v`. -/
def remIn (v : Nat) : Pc Node → Nat
  | .removeAt idx _ => if under v idx then 1 else 0
  | .removeCas idx _ _ => if under v idx then 1 else 0
  | _ => 0

/-- A remover that stands at `v`. -/
def remAt (v : Nat) : Pc Node → Nat
  | .removeAt idx _ => if idx = v then 1 else 0
  | .removeCas idx _ _ => if idx = v then 1 else 0
  | _ => 0

/-- An adder that has pushed and has not left the subtree of `v`. -/
def addIn (v : Nat) : Pc Node → Nat
  | .addClimb idx => if under v idx then 1 else 0
  | _ => 0

/-- An adder that has pushed and has not reached `v`. -/
def addBelow (v : Nat) : Pc Node → Nat
  | .addClimb idx => if under v idx ∧ idx ≠ v then 1 else 0
  | _ => 0

/-- Node `v` is in the left subtree of some node. -/
def Guarded (v : Nat) : Prop := ∃ w, under (2 * w + 1) v = true

def PcOk (k : Nat) : Pc Node → Prop
  | .addPush _ priority => priority < priorityRange k
  | .addClimb idx => 0 < idx ∧ idx + 1 < 2 * priorityRange k
  | .removeAt idx dec => idx + 1 < 2 * priorityRange k ∧ (dec = true → Guarded idx)
  | .removeCas idx oldVal dec =>
    idx + 1 < priorityRange k ∧ 0 < oldVal ∧ (dec = true → Guarded idx)
  | .removeRet none dec => dec = false
  | _ => True

/-- What is stored in a left subtree is counted by its parent, claimed by a
remover inside, or not yet counted by its adder. A subtree that removers were
sent into has an item for each of them, besides the items of adders that have
not reached its root. -/
structure Inv [Fintype Tid] (k : Nat) (s : State Tid Node) : Prop where
  balance : ∀ v, v + 1 < priorityRange k →
    s.counter v + tally (remIn (2 * v + 1)) s.pc + tally (addIn (2 * v + 1)) s.pc =
      items k s.leaves (2 * v + 1)
  cover : ∀ v, v + 1 < 2 * priorityRange k → Guarded v →
    tally (remIn v) s.pc + tally (addBelow v) s.pc ≤ items k s.leaves v
  place : ∀ t, PcOk k (s.pc t)

theorem guarded_left (v : Nat) : Guarded (2 * v + 1) := ⟨v, under_self _⟩

theorem Guarded.right {v : Nat} (h : Guarded v) : Guarded (2 * v + 2) := by
  obtain ⟨w, hw⟩ := h
  refine ⟨w, ?_⟩
  rw [under_right, hw, Bool.or_true]

theorem Guarded.of_right {v : Nat} (h : Guarded (2 * v + 2)) : Guarded v := by
  obtain ⟨w, hw⟩ := h
  refine ⟨w, ?_⟩
  rwa [under_right, decide_eq_false (by omega), Bool.false_or] at hw

theorem remIn_split (v : Nat) (pc : Pc Node) :
    remIn v pc = remAt v pc + (remIn (2 * v + 1) pc + remIn (2 * v + 2) pc) := by
  have hcount (idx : Nat) : (if under v idx = true then 1 else 0) =
      (if idx = v then 1 else 0) + ((if under (2 * v + 1) idx = true then 1 else 0) +
        if under (2 * v + 2) idx = true then 1 else 0) := by
    have hsplit := under_split v idx
    have hdisjoint := under_disjoint (v := v) (i := idx)
    have hleft := under_le (v := 2 * v + 1) (i := idx)
    have hright := under_le (v := 2 * v + 2) (i := idx)
    grind
  cases pc with
  | removeAt idx dec => exact hcount idx
  | removeCas idx oldVal dec => exact hcount idx
  | _ => rfl

theorem addBelow_split (v : Nat) (pc : Pc Node) :
    addBelow v pc = addIn (2 * v + 1) pc + addIn (2 * v + 2) pc := by
  cases pc with
  | addClimb idx =>
    have hsplit := under_split v idx
    have hdisjoint := under_disjoint (v := v) (i := idx)
    have hleft := under_le (v := 2 * v + 1) (i := idx)
    have hright := under_le (v := 2 * v + 2) (i := idx)
    simp only [addBelow, addIn]
    grind
  | _ => rfl

theorem addBelow_le (v : Nat) (pc : Pc Node) : addBelow v pc ≤ addIn v pc := by
  cases pc with
  | addClimb idx =>
    simp only [addBelow, addIn]
    split <;> split <;> simp_all
  | _ => exact Nat.le_refl _

section Balance

variable [Fintype Tid] {s s' : State Tid Node} {t : Tid}

omit [DecidableEq Tid] in
/-- At an inner node whose counter is zero, the removers that stand there can
all be sent to the right. -/
theorem Inv.cover_right (h : Inv k s) {v : Nat} (hv : v + 1 < priorityRange k)
    (hguarded : Guarded v) (hzero : s.counter v = 0) :
    tally (remAt v) s.pc + tally (remIn (2 * v + 2)) s.pc + tally (addIn (2 * v + 2)) s.pc ≤
      items k s.leaves (2 * v + 2) := by
  have hcover := h.cover v (by omega) hguarded
  have hbalance := h.balance v hv
  have hremovers : tally (remIn v) s.pc = tally (remAt v) s.pc +
      (tally (remIn (2 * v + 1)) s.pc + tally (remIn (2 * v + 2)) s.pc) := by
    rw [tally_congr (remIn_split v), tally_add, tally_add]
  have hadders : tally (addBelow v) s.pc =
      tally (addIn (2 * v + 1)) s.pc + tally (addIn (2 * v + 2)) s.pc := by
    rw [tally_congr (addBelow_split v), tally_add]
  rw [items_split hv] at hcover
  omega

/-- One thread moves: the balance changes by its weights. -/
theorem Inv.move (h : Inv k s) {pc : Pc Node} (hpc : s'.pc = update s.pc t pc)
    (hok : PcOk k pc)
    (hbalance : ∀ v, v + 1 < priorityRange k →
      s'.counter v + remIn (2 * v + 1) pc + addIn (2 * v + 1) pc + items k s.leaves (2 * v + 1) =
        s.counter v + remIn (2 * v + 1) (s.pc t) + addIn (2 * v + 1) (s.pc t) +
          items k s'.leaves (2 * v + 1))
    (hcover : ∀ v, v + 1 < 2 * priorityRange k → Guarded v →
      tally (remIn v) s.pc + tally (addBelow v) s.pc + remIn v pc + addBelow v pc ≤
        items k s'.leaves v + remIn v (s.pc t) + addBelow v (s.pc t)) : Inv k s' where
  balance v hv := by
    have hrem := tally_update (remIn (2 * v + 1)) s.pc t pc
    have hadd := tally_update (addIn (2 * v + 1)) s.pc t pc
    have hold := h.balance v hv
    have hchange := hbalance v hv
    rw [hpc]
    omega
  cover v hv hguarded := by
    have hrem := tally_update (remIn v) s.pc t pc
    have hadd := tally_update (addBelow v) s.pc t pc
    have hchange := hcover v hv hguarded
    rw [hpc]
    omega
  place u := by
    rw [hpc]
    by_cases hu : u = t
    · subst hu
      rwa [update_self]
    · rw [update_of_ne hu]
      exact h.place u

theorem Inv.same (h : Inv k s) {pc : Pc Node} (hpc : s'.pc = update s.pc t pc)
    (hcounter : s'.counter = s.counter) (hleaves : s'.leaves = s.leaves) (hok : PcOk k pc)
    (hrem : ∀ v, remIn v pc = remIn v (s.pc t)) (hadd : ∀ v, addIn v pc = addIn v (s.pc t))
    (hbelow : ∀ v, addBelow v pc = addBelow v (s.pc t)) : Inv k s' := by
  apply h.move hpc hok
  · intro v hv
    rw [hcounter, hleaves, hrem, hadd]
  · intro v hv hguarded
    have hcover := h.cover v hv hguarded
    rw [hleaves, hrem, hbelow]
    omega

theorem Guarded.ne_zero {v : Nat} (h : Guarded v) : v ≠ 0 := by
  rintro rfl
  obtain ⟨w, hw⟩ := h
  rw [under_root (by omega)] at hw
  cases hw

theorem addIn_climb {v : Nat} (hv : v ≠ 0) (idx : Nat) :
    addIn v (climb idx : Pc Node) = if under v idx then 1 else 0 := by
  rw [climb]
  split
  · rename_i hidx
    rw [hidx, under_root hv]
    rfl
  · rfl

theorem addBelow_climb {v : Nat} (hv : v ≠ 0) (idx : Nat) :
    addBelow v (climb idx : Pc Node) = if under v idx ∧ idx ≠ v then 1 else 0 := by
  rw [climb]
  split
  · rename_i hidx
    rw [hidx, under_root hv]
    rfl
  · rfl

theorem remIn_climb (v idx : Nat) : remIn v (climb idx : Pc Node) = 0 := by
  rw [climb]
  split <;> rfl

theorem climb_ok {idx : Nat} (hidx : idx + 1 < 2 * priorityRange k) :
    PcOk k (climb idx : Pc Node) := by
  rw [climb]
  split
  · trivial
  · exact ⟨by omega, hidx⟩

theorem Inv.push (h : Inv k s) {node : Node} {p : Nat} (hat : s.pc t = .addPush node p)
    (hpc : s'.pc = update s.pc t (climb (leafIdx k p)))
    (hcounter : s'.counter = s.counter)
    (hleaves : s'.leaves = update s.leaves p (node :: s.leaves p)) : Inv k s' := by
  have hpos := priorityRange_pos k
  have hp : p < priorityRange k := by
    have hok := h.place t
    rwa [hat] at hok
  have hitems (v : Nat) : items k s'.leaves v =
      items k s.leaves v + if under v (leafIdx k p) then 1 else 0 := by
    have hupdate := items_update hp s.leaves (node :: s.leaves p) v
    rw [← hleaves, List.length_cons] at hupdate
    split at hupdate <;> simp_all
    omega
  apply h.move hpc (climb_ok (by rw [leafIdx]; omega))
  · intro v hv
    rw [hitems, hcounter, hat, remIn_climb, addIn_climb (by omega)]
    simp only [remIn, addIn]
    omega
  · intro v hv hguarded
    have hcover := h.cover v hv hguarded
    rw [hitems, hat, remIn_climb, addBelow_climb hguarded.ne_zero]
    simp only [remIn, addBelow]
    split <;> split <;> simp_all
    omega

/-- The climb from a child to its parent, with the increment when the child is
the left one. -/
theorem Inv.climb_up (h : Inv k s) {idx : Nat} (hat : s.pc t = .addClimb idx)
    (hpc : s'.pc = update s.pc t (climb (parentIdx idx)))
    (hleaves : s'.leaves = s.leaves)
    (hcounter : ∀ v, s'.counter v = s.counter v + if 2 * v + 1 = idx then 1 else 0) :
    Inv k s' := by
  obtain ⟨hidx, hrange⟩ : 0 < idx ∧ idx + 1 < 2 * priorityRange k := by
    have hok := h.place t
    rwa [hat] at hok
  have hchild : idx = 2 * parentIdx idx + 1 ∨ idx = 2 * parentIdx idx + 2 := by
    rw [parentIdx]
    omega
  have hunder (v : Nat) : under v idx = (decide (v = idx) || under v (parentIdx idx)) := by
    rcases hchild with hleft | hright
    · rw [hleft, under_left, ← hleft]
    · rw [hright, under_right, ← hright]
  apply h.move hpc (climb_ok (by rw [parentIdx]; omega))
  · intro v hv
    rw [hcounter, hleaves, hat, remIn_climb, addIn_climb (by omega)]
    simp only [remIn, addIn, hunder]
    have hlow := under_le (v := 2 * v + 1) (i := parentIdx idx)
    by_cases hedge : 2 * v + 1 = idx
    · have hnot : ¬ under (2 * v + 1) (parentIdx idx) = true := by
        intro hup
        have := hlow hup
        omega
      rw [if_pos hedge, if_neg hnot, decide_eq_true hedge, Bool.true_or, if_pos rfl]
    · rw [if_neg hedge, decide_eq_false hedge, Bool.false_or]
  · intro v hv hguarded
    have hcover := h.cover v hv hguarded
    have hlow := under_le (v := v) (i := parentIdx idx)
    rw [hleaves, hat, remIn_climb, addBelow_climb hguarded.ne_zero]
    simp only [remIn, addBelow, hunder]
    by_cases hup : under v (parentIdx idx) = true
    · have hne : idx ≠ v := by
        have := hlow hup
        omega
      rw [hup, Bool.or_true, if_pos (show true = true ∧ idx ≠ v from ⟨rfl, hne⟩)]
      split <;> omega
    · rw [if_neg (fun h => hup h.1)]
      omega

omit [DecidableEq Tid] in
/-- A remover at an empty leaf was never sent to the left. -/
theorem Inv.empty_leaf (h : Inv k s) {idx p : Nat} {dec : Bool} (hat : s.pc t = .removeAt idx dec)
    (hbin : treeBin k idx = some p) (hempty : s.leaves p = []) : ¬ Guarded idx := by
  intro hguarded
  obtain ⟨hp, rfl⟩ := treeBin_some hbin
  have hcover := h.cover (leafIdx k p) (by have := priorityRange_pos k; rw [leafIdx]; omega)
    hguarded
  rw [items_leaf hp, hempty, List.length_nil] at hcover
  have hself : remIn (leafIdx k p) (s.pc t) ≤ tally (remIn (leafIdx k p)) s.pc := le_tally t
  rw [hat] at hself
  simp only [remIn, under_self, if_true] at hself
  omega

theorem Inv.pop_empty (h : Inv k s) {idx p : Nat} {dec : Bool}
    (hat : s.pc t = .removeAt idx dec) (hbin : treeBin k idx = some p)
    (hempty : s.leaves p = []) (hpc : s'.pc = update s.pc t (.removeRet none dec))
    (hcounter : s'.counter = s.counter) (hleaves : s'.leaves = s.leaves) : Inv k s' := by
  have hlast := h.empty_leaf hat hbin hempty
  have hdec : dec = false := by
    have hok := h.place t
    rw [hat] at hok
    rw [← Bool.not_eq_true]
    exact fun hdec => hlast (hok.2 hdec)
  apply h.move hpc hdec
  · intro v hv
    have hunder : ¬ under (2 * v + 1) idx = true := fun hv => hlast ⟨v, hv⟩
    rw [hcounter, hleaves, hat]
    simp only [remIn, addIn, if_neg hunder]
  · intro v hv hguarded
    have hcover := h.cover v hv hguarded
    rw [hleaves, hat]
    simp only [remIn, addBelow]
    omega

theorem Inv.pop (h : Inv k s) {idx p : Nat} {dec : Bool} {node : Node} {rest : List Node}
    (hat : s.pc t = .removeAt idx dec) (hbin : treeBin k idx = some p)
    (hstack : s.leaves p = node :: rest)
    (hpc : s'.pc = update s.pc t (.removeRetire node dec))
    (hcounter : s'.counter = s.counter)
    (hleaves : s'.leaves = update s.leaves p rest) : Inv k s' := by
  obtain ⟨hp, rfl⟩ := treeBin_some hbin
  have hitems (v : Nat) : items k s.leaves v =
      items k s'.leaves v + if under v (leafIdx k p) then 1 else 0 := by
    have hupdate := items_update hp s.leaves rest v
    rw [← hleaves, hstack, List.length_cons] at hupdate
    split at hupdate <;> simp_all
    omega
  apply h.move hpc trivial
  · intro v hv
    rw [hitems, hcounter, hat]
    simp only [remIn, addIn]
    omega
  · intro v hv hguarded
    have hcover := h.cover v hv hguarded
    rw [hitems] at hcover
    rw [hat]
    simp only [remIn, addBelow]
    omega

/-- A remover turns right at a counter that is zero. -/
theorem Inv.turn_right (h : Inv k s) {idx : Nat} {dec : Bool} (hidx : idx + 1 < priorityRange k)
    (hat : ∀ v, remIn v (s.pc t) = if under v idx then 1 else 0)
    (hstand : remAt idx (s.pc t) = 1) (hadd : ∀ v, addIn v (s.pc t) = 0)
    (hdec : dec = true → Guarded idx) (hzero : s.counter idx = 0)
    (hpc : s'.pc = update s.pc t (.removeAt (rightChildIdx idx) dec))
    (hcounter : s'.counter = s.counter) (hleaves : s'.leaves = s.leaves) : Inv k s' := by
  rw [rightChildIdx_eq] at hpc
  have hok : PcOk k (.removeAt (2 * idx + 2) dec : Pc Node) :=
    ⟨by omega, fun hd => (hdec hd).right⟩
  apply h.move hpc hok
  · intro v hv
    rw [hcounter, hleaves, hat, hadd]
    simp only [remIn, addIn, under_right, decide_eq_false (show ¬ 2 * v + 1 = 2 * idx + 2 by omega),
      Bool.false_or]
  · intro v hv hguarded
    have hcover := h.cover v hv hguarded
    rw [hleaves, hat]
    simp only [remIn, addBelow, under_right]
    by_cases hnew : v = 2 * idx + 2
    · -- the only subtree that is entered
      subst hnew
      have hroom := h.cover_right hidx hguarded.of_right hzero
      have hself : remAt idx (s.pc t) ≤ tally (remAt idx) s.pc := le_tally t
      have hbelow : tally (addBelow (2 * idx + 2)) s.pc ≤ tally (addIn (2 * idx + 2)) s.pc :=
        tally_mono (addBelow_le _)
      rw [hstand] at hself
      simp only [decide_true, Bool.true_or, if_true]
      omega
    · rw [decide_eq_false hnew, Bool.false_or]
      omega

theorem Inv.turn_left (h : Inv k s) {idx oldVal : Nat} {dec : Bool}
    (hat : s.pc t = .removeCas idx oldVal dec) (hread : s.counter idx = oldVal)
    (hpc : s'.pc = update s.pc t (.removeAt (leftChildIdx idx) true))
    (hcounter : s'.counter = update s.counter idx (oldVal - 1))
    (hleaves : s'.leaves = s.leaves) : Inv k s' := by
  rw [leftChildIdx_eq] at hpc
  obtain ⟨hidx, hpos, -⟩ : PcOk k (.removeCas idx oldVal dec : Pc Node) := hat ▸ h.place t
  have hok : PcOk k (.removeAt (2 * idx + 1) true : Pc Node) :=
    ⟨by omega, fun _ => guarded_left idx⟩
  have houtside : ¬ under (2 * idx + 1) idx = true := by
    intro hin
    have := under_le hin
    omega
  apply h.move hpc hok
  · intro v hv
    rw [hcounter, hleaves, hat]
    simp only [remIn, addIn, under_left]
    by_cases hv : v = idx
    · subst hv
      rw [update_self, if_neg houtside]
      simp only [decide_true, Bool.true_or, if_true]
      omega
    · rw [update_of_ne hv, decide_eq_false (by omega), Bool.false_or]
  · intro v hv hguarded
    have hcover := h.cover v hv hguarded
    rw [hleaves, hat]
    simp only [remIn, addBelow, under_left]
    by_cases hnew : v = 2 * idx + 1
    · subst hnew
      have hbalance := h.balance idx hidx
      have hbelow : tally (addBelow (2 * idx + 1)) s.pc ≤ tally (addIn (2 * idx + 1)) s.pc :=
        tally_mono (addBelow_le _)
      simp only [decide_true, Bool.true_or, if_true]
      omega
    · rw [decide_eq_false hnew, Bool.false_or]
      omega

theorem Inv.read_counter (h : Inv k s) {idx value : Nat} {dec : Bool}
    (hidx : idx + 1 < priorityRange k)
    (hat : ∀ v, remIn v (s.pc t) = if under v idx then 1 else 0)
    (hstand : remAt idx (s.pc t) = 1) (hadd : ∀ v, addIn v (s.pc t) = 0)
    (hbelow : ∀ v, addBelow v (s.pc t) = 0) (hdec : dec = true → Guarded idx)
    (hvalue : s.counter idx = value) : Inv k (s.goto t (decLoop idx value dec)) := by
  rw [decLoop]
  split
  · rename_i hzero
    exact h.turn_right hidx hat hstand hadd hdec (hvalue.trans hzero) rfl rfl rfl
  · refine h.same rfl rfl rfl (show PcOk k (.removeCas idx value dec) from ⟨hidx, by omega, hdec⟩)
      ?_ ?_ ?_
    · exact fun v => (hat v).symm
    · exact fun v => (hadd v).symm
    · exact fun v => (hbelow v).symm

theorem Inv.thread_step (h : Inv k s) (hfit : CounterFits s (.step t))
    (hstep : threadStep k s t = some s') : Inv k s' := by
  have hok := h.place t
  simp only [threadStep] at hstep
  simp only [CounterFits] at hfit
  cases hat : s.pc t with
  | idle => rw [hat] at hstep; cases hstep
  | failed => rw [hat] at hstep; cases hstep
  | addPush node priority =>
    rw [hat] at hstep
    cases hstep
    exact h.push hat rfl rfl rfl
  | addClimb idx =>
    rw [hat] at hstep hok hfit
    dsimp only at hstep hfit
    have hparent : 2 * parentIdx idx + 1 = idx ∨ 2 * parentIdx idx + 2 = idx := by
      have := hok.1
      rw [parentIdx]
      omega
    split at hstep
    · rename_i hleft
      cases hstep
      refine h.climb_up hat rfl rfl ?_
      intro v
      have hroom := hfit hleft
      rw [leftChildIdx_eq] at hleft
      dsimp only [State.goto]
      by_cases hv : v = parentIdx idx
      · subst hv
        rw [update_self, if_pos hleft.symm, wadd_of_lt hroom]
      · rw [update_of_ne hv, if_neg (by omega), Nat.add_zero]
    · rename_i hright
      cases hstep
      refine h.climb_up hat rfl rfl ?_
      intro v
      rw [leftChildIdx_eq] at hright
      dsimp only [State.goto]
      rw [if_neg (by omega), Nat.add_zero]
  | addRet | removeRetire node dec | removeRet result dec =>
    rw [hat] at hstep
    cases hstep
    exact h.same rfl rfl rfl trivial (fun v => by rw [hat]; rfl) (fun v => by rw [hat]; rfl)
      (fun v => by rw [hat]; rfl)
  | removeAt idx dec =>
    rw [hat] at hstep hok
    dsimp only at hstep
    split at hstep
    · rename_i priority hbin
      split at hstep
      · rename_i hempty
        cases hstep
        exact h.pop_empty hat hbin hempty rfl rfl rfl
      · rename_i node rest hstack
        cases hstep
        exact h.pop hat hbin hstack rfl rfl rfl
    · rename_i hbin
      cases hstep
      exact h.read_counter (treeBin_none hok.1 hbin) (fun v => by rw [hat]; rfl)
        (by rw [hat]; exact if_pos rfl) (fun v => by rw [hat]; rfl) (fun v => by rw [hat]; rfl)
        hok.2 rfl
  | removeCas idx oldVal dec =>
    rw [hat] at hstep hok
    dsimp only at hstep
    split at hstep
    · rename_i hread
      cases hstep
      exact h.turn_left hat hread rfl rfl rfl
    · cases hstep
      exact h.read_counter hok.1 (fun v => by rw [hat]; rfl)
        (by rw [hat]; exact if_pos rfl) (fun v => by rw [hat]; rfl) (fun v => by rw [hat]; rfl)
        hok.2.2 rfl

theorem Inv.begin_call (h : Inv k s) {call : Call Node} (hidle : s.pc t = .idle) :
    Inv k (s.goto t (begin k call)) := by
  cases call with
  | add node priority =>
    rw [begin]
    split
    · rename_i hp
      exact h.same rfl rfl rfl hp (fun v => by rw [hidle]; rfl) (fun v => by rw [hidle]; rfl)
        (fun v => by rw [hidle]; rfl)
    · exact h.same rfl rfl rfl trivial (fun v => by rw [hidle]; rfl)
        (fun v => by rw [hidle]; rfl) (fun v => by rw [hidle]; rfl)
  | removeMin =>
    have hpos := priorityRange_pos k
    rw [begin]
    refine h.move rfl (show PcOk k (.removeAt 0 false) from ⟨by omega, nofun⟩) ?_ ?_
    · intro v hv
      rw [hidle]
      simp only [remIn, addIn, under_root (show 2 * v + 1 ≠ 0 by omega)]
      rfl
    · intro v hv hguarded
      have hcover := h.cover v hv hguarded
      rw [hidle]
      simp only [remIn, addBelow, under_root hguarded.ne_zero, State.goto]
      simpa using hcover

theorem Inv.run {past : List (State Tid Node × Act Tid Node)}
    (run : (machine Tid Node k).Run past s) (hfit : AllSteps CounterFits past) : Inv k s := by
  refine run.invariant_if ?_ ?_ hfit
  · rintro s ⟨hcounter, hleaves, -, hidle⟩
    have hempty (v : Nat) : items k s.leaves v = 0 := by
      rw [items]
      apply Finset.sum_eq_zero
      intro p _
      rw [hleaves]
      exact ite_self 0
    have hnone (weight : Pc Node → Nat) (hweight : weight .idle = 0) : tally weight s.pc = 0 :=
      tally_eq_zero fun t => by rw [hidle, hweight]
    constructor
    · intro v _
      rw [hcounter, hempty, hnone _ rfl, hnone _ rfl]
    · intro v _ _
      rw [hempty, hnone _ rfl, hnone _ rfl]
    · intro t
      rw [hidle]
      trivial
  · intro s a s' h hok hstep
    cases a with
    | call t call =>
      simp only [machine, step] at hstep
      split at hstep
      · rename_i hidle
        cases hstep
        exact h.begin_call hidle
      · cases hstep
    | step t => exact h.thread_step hok hstep

end Balance

/-- What a removal does to the stacks of a priority queue: it takes the top item
of the smallest priority that has any, and nothing only when there is nothing. -/
def TakesMin (k : Nat) (leaves : Nat → List Node) (leaves' : Nat → List Node) :
    Option Node → Prop
  | none => (∀ p, p < priorityRange k → leaves p = []) ∧ leaves' = leaves
  | some node => ∃ p rest, p < priorityRange k ∧ leaves p = node :: rest ∧
      (∀ q, q < p → leaves q = []) ∧ leaves' = update leaves p rest

theorem items_eq_zero {leaves : Nat → List Node} {v : Nat} :
    items k leaves v = 0 ↔
      ∀ p, p < priorityRange k → under v (leafIdx k p) = true → leaves p = [] := by
  rw [items, Finset.sum_eq_zero_iff]
  constructor
  · intro h p hp hunder
    have hzero := h p (Finset.mem_range.mpr hp)
    rw [if_pos hunder] at hzero
    exact List.eq_nil_of_length_eq_zero hzero
  · intro h p hp
    split
    · rename_i hunder
      rw [h p (Finset.mem_range.mp hp) hunder, List.length_nil]
    · rfl

/-- The leaves below node `m` of height `e`. -/
theorem items_left_eq_zero (leaves : Nat → List Node) {v m e : Nat} (he : e + 1 ≤ k)
    (hv : v + 1 = 2 ^ (k - (e + 1)) + m) (hm : m < 2 ^ (k - (e + 1))) :
    items k leaves (2 * v + 1) = 0 ↔
      ∀ p, p < priorityRange k → p / 2 ^ e = 2 * m → leaves p = [] := by
  have hdouble : 2 ^ (k - e) = 2 * 2 ^ (k - (e + 1)) := by
    rw [show k - e = (k - (e + 1)) + 1 by omega, pow_succ, mul_comm]
  rw [items_eq_zero]
  have hlevel (p : Nat) (hp : p < priorityRange k) :
      under (2 * v + 1) (leafIdx k p) = true ↔ p / 2 ^ e = 2 * m :=
    under_level (by omega) (by omega) (by omega) hp
  constructor
  · intro h p hp hdiv
    exact h p hp ((hlevel p hp).mpr hdiv)
  · intro h p hp hunder
    exact h p hp ((hlevel p hp).mp hunder)

section Alone

variable {s s' : State Tid Node} {t : Tid}

theorem exec_step {n : Nat} (hstep : threadStep k s t = some s')
    {final : State Tid Node}
    (hrest : (machine Tid Node k).exec s' (List.replicate n (.step t)) = some final) :
    (machine Tid Node k).exec s (List.replicate (n + 1) (.step t)) = some final := by
  rw [List.replicate_succ]
  exact Machine.exec_cons hstep hrest

/-- The pop of the removal that has reached leaf `m`. -/
theorem alone_pop {m : Nat} {dec : Bool} (hm : m < priorityRange k)
    (hat : s.pc t = .removeAt (leafIdx k m) dec)
    (hmin : ∀ p, p < priorityRange k → s.leaves p ≠ [] → m ≤ p)
    (hin : (∃ p, p < priorityRange k ∧ s.leaves p ≠ []) → s.leaves m ≠ []) :
    ∃ n final result, (machine Tid Node k).exec s (List.replicate n (.step t)) = some final ∧
      final.pc t = .removeRet result dec ∧ TakesMin k s.leaves final.leaves result := by
  have hbin := treeBin_leaf hm
  cases hstack : s.leaves m with
  | nil =>
    have hstep : threadStep k s t = some (s.goto t (.removeRet none dec)) := by
      simp only [threadStep, hat, hbin, hstack]
    refine ⟨1, _, none, exec_step hstep rfl, update_self .., ?_, rfl⟩
    intro p hp
    by_contra hne
    exact hin ⟨p, hp, hne⟩ hstack
  | cons node rest =>
    let popped : State Tid Node :=
      { s with leaves := update s.leaves m rest }.goto t (.removeRetire node dec)
    have hstep : threadStep k s t = some popped := by
      simp only [threadStep, hat, hbin, hstack, popped]
    have hpopped : popped.pc t = .removeRetire node dec := update_self ..
    have hretire : threadStep k popped t = some ({ popped with
        retired := node :: popped.retired }.goto t (.removeRet (some node) dec)) := by
      simp only [threadStep, hpopped]
    refine ⟨2, _, some node, exec_step hstep (exec_step hretire rfl), update_self ..,
      m, rest, hm, hstack, ?_, rfl⟩
    intro q hq
    by_contra hne
    have := hmin q (by omega) hne
    omega

/-- The way down from node `m` of height `e`, when the counters below it are
exact: nothing of smaller priority is stored outside of it, and what is stored
somewhere is stored below it too. -/
theorem alone_down {e : Nat} (he : e ≤ k) {m idx : Nat} {dec : Bool}
    (hidx : idx + 1 = 2 ^ (k - e) + m) (hm : m < 2 ^ (k - e))
    (hat : s.pc t = .removeAt idx dec)
    (hexact : ∀ v, under idx v = true → v + 1 < priorityRange k →
      s.counter v = items k s.leaves (2 * v + 1))
    (hmin : ∀ p, p < priorityRange k → s.leaves p ≠ [] → m ≤ p / 2 ^ e)
    (hin : (∃ p, p < priorityRange k ∧ s.leaves p ≠ []) →
      ∃ p, p < priorityRange k ∧ p / 2 ^ e = m ∧ s.leaves p ≠ []) :
    ∃ n final result dec', (machine Tid Node k).exec s (List.replicate n (.step t)) = some final ∧
      final.pc t = .removeRet result dec' ∧ TakesMin k s.leaves final.leaves result := by
  induction e generalizing s m idx dec with
  | zero =>
    have hleaf : idx = leafIdx k m := by
      have hpos := Nat.two_pow_pos k
      rw [Nat.sub_zero] at hidx
      rw [leafIdx, priorityRange]
      omega
    subst hleaf
    simp only [pow_zero, Nat.div_one] at hmin hin
    have hhere : (∃ p, p < priorityRange k ∧ s.leaves p ≠ []) → s.leaves m ≠ [] := by
      intro hsome
      obtain ⟨p, -, rfl, hp⟩ := hin hsome
      exact hp
    obtain ⟨n, final, result, hexec, hret, htakes⟩ := alone_pop hm hat hmin hhere
    exact ⟨n, final, result, dec, hexec, hret, htakes⟩
  | succ e ih =>
    have hdouble : 2 ^ (k - e) = 2 * 2 ^ (k - (e + 1)) := by
      rw [show k - e = (k - (e + 1)) + 1 by omega, pow_succ, mul_comm]
    have hle : 2 ^ (k - e) ≤ 2 ^ k := Nat.pow_le_pow_right (by omega) (by omega)
    have hinner : idx + 1 < priorityRange k := by
      rw [priorityRange]
      omega
    have hbin : treeBin k idx = none := by
      rw [treeBin_eq, if_neg (by omega)]
    have hhalf (p : Nat) : p / 2 ^ (e + 1) = p / 2 ^ e / 2 := by
      rw [pow_succ, Nat.div_div_eq_div_mul]
    have hleft := items_left_eq_zero s.leaves he hidx hm
    have hcount := hexact idx (under_self idx) hinner
    have hread : threadStep k s t = some (s.goto t (decLoop idx (s.counter idx) dec)) := by
      simp only [threadStep, hat, hbin]
    simp only [hhalf] at hmin hin
    by_cases hzero : s.counter idx = 0
    · -- nothing is stored on the left
      rw [hzero, eq_comm, hleft] at hcount
      rw [decLoop, if_pos hzero, rightChildIdx_eq] at hread
      have hnotleft (p : Nat) (hp : p < priorityRange k) (hne : s.leaves p ≠ []) :
          p / 2 ^ e ≠ 2 * m := fun hdiv => hne (hcount p hp hdiv)
      have hright : 2 * idx + 2 + 1 = 2 ^ (k - e) + (2 * m + 1) := by omega
      obtain ⟨n, final, result, dec', hexec, hret, htakes⟩ :=
        ih (s := s.goto t (.removeAt (2 * idx + 2) dec)) (m := 2 * m + 1)
          (by omega) hright (by omega) (update_self ..)
          (fun v hv => hexact v ((under_split idx v).mpr (.inr (.inr hv))))
          (fun p hp hne => by
            have := hmin p hp hne
            have := hnotleft p hp hne
            omega)
          (fun hsome => by
            obtain ⟨p, hp, hdiv, hne⟩ := hin hsome
            have := hnotleft p hp hne
            exact ⟨p, hp, by omega, hne⟩)
      exact ⟨n + 1, final, result, dec', exec_step hread hexec, hret, htakes⟩
    · -- the compare-and-swap succeeds, no other thread moves
      rw [decLoop, if_neg hzero] at hread
      let turned : State Tid Node :=
        { s.goto t (.removeCas idx (s.counter idx) dec) with
          counter := update s.counter idx (s.counter idx - 1) }.goto t
            (.removeAt (2 * idx + 1) true)
      have hcas : threadStep k (s.goto t (.removeCas idx (s.counter idx) dec)) t =
          some turned := by
        simp only [threadStep, State.goto, update_self, leftChildIdx_eq, turned]
        rfl
      have hsome : ∃ p, p < priorityRange k ∧ p / 2 ^ e = 2 * m ∧ s.leaves p ≠ [] := by
        rw [hcount, hleft] at hzero
        push Not at hzero
        exact hzero
      have hleftIdx : 2 * idx + 1 + 1 = 2 ^ (k - e) + 2 * m := by omega
      obtain ⟨n, final, result, dec', hexec, hret, htakes⟩ :=
        ih (s := turned) (m := 2 * m)
          (by omega) hleftIdx (by omega) (update_self ..)
          (fun v hv hinner => by
            have hbelow := under_le hv
            have hother : v ≠ idx := by omega
            show update s.counter idx _ v = _
            rw [update_of_ne hother]
            exact hexact v ((under_split idx v).mpr (.inr (.inl hv))) hinner)
          (fun p hp hne => by
            have := hmin p hp hne
            omega)
          (fun _ => hsome)
      exact ⟨n + 2, final, result, dec', exec_step hread (exec_step hcas hexec), hret, htakes⟩

end Alone

/-- What is promised of a state: a remover that has decremented a counter finds
a node in its leaf and does not return null; and when no call is in progress
the counters are exact, and a removal that runs alone takes an item of the
smallest stored priority. -/
structure Sound (k : Nat) (s : State Tid Node) : Prop where
  finds : ∀ t idx p, s.pc t = .removeAt idx true → treeBin k idx = some p → s.leaves p ≠ []
  returns : ∀ t, s.pc t ≠ .removeRet none true
  exact_counters : Quiet s → ∀ v, v + 1 < priorityRange k →
    s.counter v = items k s.leaves (leftChildIdx v)
  takes_min : Quiet s → ∀ t, ∃ n final result dec,
    (machine Tid Node k).exec s (.call t .removeMin :: List.replicate n (.step t)) = some final ∧
      final.pc t = .removeRet result dec ∧ TakesMin k s.leaves final.leaves result

section Queue

variable [Fintype Tid] {s : State Tid Node}

omit [DecidableEq Tid] in
theorem Inv.exact (h : Inv k s) (hquiet : Quiet s) {v : Nat} (hv : v + 1 < priorityRange k) :
    s.counter v = items k s.leaves (2 * v + 1) := by
  have hnone (weight : Pc Node → Nat) (hweight : weight .idle = 0) : tally weight s.pc = 0 :=
    tally_eq_zero fun t => by rw [hquiet t, hweight]
  have hbalance := h.balance v hv
  rwa [hnone _ rfl, hnone _ rfl] at hbalance

theorem Inv.takes_min (h : Inv k s) (hquiet : Quiet s) (t : Tid) :
    ∃ n final result dec, (machine Tid Node k).exec s
        (.call t .removeMin :: List.replicate n (.step t)) = some final ∧
      final.pc t = .removeRet result dec ∧ TakesMin k s.leaves final.leaves result := by
  have hcall : (machine Tid Node k).step s (.call t .removeMin) =
      some (s.goto t (.removeAt 0 false)) := by
    simp only [machine, step, hquiet t, begin]
  have hexact (v : Nat) (_ : under 0 v = true) (hv : v + 1 < priorityRange k) :
      (s.goto t (.removeAt 0 false)).counter v =
        items k (s.goto t (.removeAt 0 false)).leaves (2 * v + 1) :=
    h.exact hquiet hv
  have hdiv (p : Nat) (hp : p < priorityRange k) : p / 2 ^ k = 0 := Nat.div_eq_of_lt hp
  obtain ⟨n, final, result, dec, hexec, hret, htakes⟩ :=
    alone_down (s := s.goto t (.removeAt 0 false)) (le_refl k) (m := 0) (by simp)
      (Nat.two_pow_pos _) (update_self ..) hexact (fun _ _ _ => Nat.zero_le _)
      (by rintro ⟨p, hp, hne⟩; exact ⟨p, hp, hdiv p hp, hne⟩)
  exact ⟨n, final, result, dec, Machine.exec_cons hcall hexec, hret, htakes⟩

/-- In every run in which no increment wraps a counter. -/
theorem prio_tree_sound {past : List (State Tid Node × Act Tid Node)}
    (run : (machine Tid Node k).Run past s) (hfit : AllSteps CounterFits past) : Sound k s := by
  have h := Inv.run run hfit
  constructor
  · intro t idx p hat hbin hempty
    have hok := h.place t
    rw [hat] at hok
    exact h.empty_leaf hat hbin hempty (hok.2 rfl)
  · intro t hat
    have hok := h.place t
    rw [hat] at hok
    cases hok
  · intro hquiet v hv
    rw [leftChildIdx_eq]
    exact h.exact hquiet hv
  · intro hquiet t
    exact h.takes_min hquiet t

end Queue

instance (s : State Tid Node) (a : Act Tid Node) : Decidable (CounterFits s a) := by
  unfold CounterFits
  split
  · infer_instance
  · split <;> infer_instance

/-- The queue after `vqueue_prio_init`. -/
def prioInit : State Tid Node where
  counter := fun _ => 0
  leaves := fun _ => []
  retired := []
  pc := fun _ => .idle

theorem prioInit_start : (machine Tid Node k).start prioInit :=
  ⟨fun _ => rfl, fun _ => rfl, rfl, fun _ => rfl⟩

/-- One thread adds an item at priority 0, another one is on its way to it. -/
def addThenRemove : List (Act Bool Nat) :=
  [.call false (.add 7 0), .step false, .step false, .step false,
    .call true .removeMin, .step true, .step true]

theorem prio_tree_sound_one :
    ∃ past s, (machine Bool Nat 1).Run past s ∧ s.pc true = .removeAt 1 true ∧ Sound 1 s := by
  have hexec : ((machine Bool Nat 1).exec prioInit addThenRemove).map (fun s => s.pc true) =
      some (.removeAt 1 true) := by
    decide +kernel
  obtain ⟨s, hs, hpc⟩ := Option.map_eq_some_iff.mp hexec
  have hrun := (Machine.Run.start (M := machine Bool Nat 1) prioInit_start).exec hs
  have hfit : AllSteps CounterFits ((machine Bool Nat 1).pastOf prioInit [] addThenRemove) := by
    unfold AllSteps
    decide +kernel
  exact ⟨_, s, hrun, hpc, prio_tree_sound hrun hfit⟩

/-- Adds at priority 0 of a queue with two priorities, with the counter of the
root as the word it is. -/
theorem adds_at_zero (n : Nat) :
    ∃ past s, (machine Unit Nat 1).Run past s ∧ Quiet s ∧ s.counter 0 = n % 2 ^ 32 ∧
      s.leaves 0 = (List.range n).reverse ∧ s.leaves 1 = [] := by
  induction n with
  | zero => exact ⟨[], prioInit, .start prioInit_start, fun _ => rfl, rfl, rfl, rfl⟩
  | succ n ih =>
    obtain ⟨past, s, run, hquiet, hcounter, hzero, hone⟩ := ih
    have hexec : (machine Unit Nat 1).exec s
        [.call () (.add n 0), .step (), .step (), .step ()] = some { s with
          counter := update s.counter 0 (wadd 32 (s.counter 0) 1)
          leaves := update s.leaves 0 (n :: s.leaves 0) } := by
      have hpc : update s.pc () .idle = s.pc := by
        rw [← hquiet (), update_eq_self]
      simp [Machine.exec, machine, step, threadStep, hquiet (), begin, priorityRange, State.goto,
        climb, leafIdx, leftChildIdx, parentIdx, hpc]
    refine ⟨_, _, run.exec hexec, hquiet, ?_, ?_, ?_⟩
    · dsimp only
      rw [update_self, hcounter, wadd_mod]
    · dsimp only
      rw [update_self, hzero, List.range_succ, List.reverse_append]
      rfl
    · dsimp only
      rw [update_of_ne (by decide), hone]

/-- After 2³² adds the counter of the root is zero again: it differs from the
number of items on its left, and a removal that runs alone returns null. -/
theorem prio_tree_counter_wraps :
    ∃ past s, (machine Unit Nat 1).Run past s ∧ Quiet s ∧ s.leaves 0 ≠ [] ∧
      s.counter 0 ≠ items 1 s.leaves (leftChildIdx 0) ∧
      ((machine Unit Nat 1).exec s [.call () .removeMin, .step (), .step ()]).map
        (fun final => final.pc ()) = some (.removeRet none false) := by
  obtain ⟨past, s, run, hquiet, hcounter, hzero, hone⟩ := adds_at_zero (2 ^ 32)
  have hlength : (s.leaves 0).length = 2 ^ 32 := by
    rw [hzero, List.length_reverse, List.length_range]
  have hwrapped : s.counter 0 = 0 := by
    rw [hcounter, Nat.mod_self]
  have hleft : items 1 s.leaves (leafIdx 1 0) = 2 ^ 32 := by
    rw [items_leaf (priorityRange_pos 1), hlength]
  refine ⟨past, s, run, hquiet, ?_, ?_, ?_⟩
  · intro hnil
    rw [hnil] at hlength
    cases hlength
  · rw [hwrapped, show leftChildIdx 0 = leafIdx 1 0 from rfl, hleft]
    decide
  · have hroot : treeBin 1 0 = none := by decide
    have hlast : treeBin 1 2 = some 1 := by decide
    simp [Machine.exec, machine, step, threadStep, hquiet (), begin, State.goto, hroot, hlast,
      decLoop, hwrapped, rightChildIdx, hone]

end Libvsync.Queue.PrioTree
