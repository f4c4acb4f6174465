import Libvsync.Map.SkiplistDuty
import Mathlib.Data.Fintype.Basic

/-!
The skiplist while no call is in progress. Nothing is left half done: a node that was added is
linked on all its levels, a removed one is marked on all of them, `non_snipped_level` is the number
of levels where the node still is, and it has been handed over when there is none.
-/

namespace Libvsync.Map.Skiplist

open Libvsync.Core

variable {Tid Node Key : Type} {c : Config Node Key} {s s' : State Tid Node Key}

/-- No call is in progress. -/
def Quiet (s : State Tid Node Key) : Prop := ∀ t, s.pc t = .idle

def Pc.isIdle : Pc Node Key → Bool
  | .idle => true
  | _ => false

theorem Pc.isIdle_iff (pc : Pc Node Key) : pc.isIdle = true ↔ pc = .idle := by
  cases pc <;> simp [Pc.isIdle]

instance [Fintype Tid] : Decidable (Quiet s) :=
  decidable_of_iff (∀ t, (s.pc t).isIdle = true) (forall_congr' fun t => (s.pc t).isIdle_iff)

/-- The node is on the way from head to tail. -/
def State.OnLevel (s : State Tid Node Key) (l : Nat) (n : Node) : Prop :=
  s.linked n l = true ∧ s.snipped n l = false

/-- A node that is no sentinel and has been linked at the bottom. -/
structure Added (c : Config Node Key) (s : State Tid Node Key) (n : Node) : Prop where
  notHead : n ≠ c.head
  notTail : n ≠ c.tail
  linked : s.linked n 0 = true

structure Settled (c : Config Node Key) (s : State Tid Node Key) : Prop extends LinksInv c s where
  full : ∀ n l, s.linked n 0 = true → l < s.height n → s.linked n l = true
  uniform : ∀ n l k, s.isMarked n l → k < s.height n → s.isMarked n k
  count : ∀ n, s.linked n 0 = true →
    s.nonSnippedLevel n = ((Finset.range (s.height n)).filter (s.snipped n · = false)).card
  handed : ∀ n, n ∈ s.handed ↔ s.linked n 0 = true ∧ ∀ l < s.height n, s.snipped n l = true
  once : s.handed.Nodup

section Levels

variable {l : Nat} {n : Node}

theorem LinksInv.bottom (h : LinksInv c s) (hn : s.linked n l = true) : s.linked n 0 = true :=
  h.down n l 0 hn (Nat.zero_le l)

theorem LinksInv.level_tail (h : LinksInv c s) (l : Nat) : s.level l c.tail = none :=
  congrArg Prod.fst (h.sentinels l).2

theorem LinksInv.reaches_iff (h : LinksInv c s) (hl : l ≤ c.topLevel) :
    Reaches (s.level l) c.head n ↔ s.OnLevel l n := by
  obtain ⟨nodes, hchain, hmem⟩ := h.chain l hl
  refine ⟨fun hreach => (hmem n).mp (hchain.reaches_mem (h.level_tail l) hreach), fun hon => ?_⟩
  exact hchain.mem_reaches ((hmem n).mpr hon)

theorem LinksInv.head_on (h : LinksInv c s) (hl : l ≤ c.topLevel) : s.OnLevel l c.head :=
  (h.reaches_iff hl).mp .refl

/-- A node that is not marked has not been snipped. -/
theorem LinksInv.on_of_unmarked (h : LinksInv c s) (hn : s.linked n l = true)
    (hunmarked : (s.next n l).2 = false) : s.OnLevel l n := by
  refine ⟨hn, ?_⟩
  by_contra hsnipped
  have hfrozen := h.frozen n l (by simpa using hsnipped)
  rw [hunmarked] at hfrozen
  cases hfrozen.2

theorem LinksInv.next_on (h : LinksInv c s) (hl : l ≤ c.topLevel) (hn : s.OnLevel l n)
    (htail : n ≠ c.tail) : ∃ m, (s.next n l).1 = some m ∧ s.OnLevel l m ∧ m ≠ c.head := by
  obtain ⟨m, hm, -, hhead⟩ := h.closed n l hn.1 htail
  obtain ⟨nodes, hchain, hmem⟩ := h.chain l hl
  exact ⟨m, hm, (hmem m).mp (hchain.next_mem ((hmem n).mpr hn) htail hm), hhead⟩

theorem LinksInv.ne_tail (h : LinksInv c s) {m : Node}
    (hnext : s.level l n = some m) : n ≠ c.tail := by
  rintro rfl
  rw [h.level_tail] at hnext
  cases hnext

theorem LinksInv.ne_head (h : LinksInv c s) {m : Node} (hn : s.linked n l = true)
    (hnext : s.level l n = some m) : m ≠ c.head := by
  obtain ⟨m', hm, -, hhead⟩ := h.closed n l hn (h.ne_tail hnext)
  have heq : some m = some m' := hnext.symm.trans hm
  rwa [Option.some.inj heq]

theorem LinksInv.head_unmarked (h : LinksInv c s) (l : Nat) : ¬ s.isMarked c.head l := by
  rw [State.isMarked, (h.sentinels l).1]
  exact Bool.false_ne_true

theorem LinksInv.tail_unmarked (h : LinksInv c s) (l : Nat) : ¬ s.isMarked c.tail l := by
  rw [State.isMarked, (h.sentinels l).2]
  exact Bool.false_ne_true

theorem LinksInv.rest (h : LinksInv c s) (hl : l ≤ c.topLevel) (hn : s.OnLevel l n) :
    ∃ nodes, Chain (s.level l) n c.tail (n :: nodes) ∧ ∀ m ∈ n :: nodes, s.OnLevel l m := by
  obtain ⟨nodes, hchain, hmem⟩ := h.chain l hl
  obtain ⟨before, after, rfl⟩ := List.append_of_mem ((hmem n).mpr hn)
  exact ⟨after, hchain.behind, fun m hm => (hmem m).mp (List.mem_append_right _ hm)⟩

end Levels

theorem Quiet.settled [DecidableEq Node] (h : Inv c s) (d : DutyInv s) (hquiet : Quiet s) :
    Settled c s := by
  have hcounted (n : Node) (l : Nat) : s.snipped n l = true ↔ s.counted n l = true := by
    refine ⟨fun hsnipped => d.snips.settled (fun t x hx => ?_) (x := (n, l)) hsnipped,
      h.heap.counted n l⟩
    simp [hquiet t, Pc.tasks] at hx
  have hfull (n : Node) (l : Nat) (hn : s.linked n 0 = true) (hl : l < s.height n) :
      s.linked n l = true := by
    refine d.adds.settled (fun t x hx => ?_) hn l hl
    simp [hquiet t, Pc.tasks] at hx
  refine { h.heap.toLinksInv with
    full := hfull, uniform := ?_, count := ?_, handed := ?_, once := h.heap.once }
  · intro n l k hn hk
    have hbottom : s.isMarked n 0 := by
      refine d.marks.settled (fun t x hx => ?_) ⟨l, hn⟩
      simp [hquiet t, Pc.marking] at hx
    exact d.down n 0 k hbottom (Nat.zero_le k) hk
  · intro n hn
    have hcount := h.heap.count n
    have hsplit := Finset.card_filter_add_card_filter_not (s := Finset.range (s.height n))
      (fun l => s.counted n l = true)
    rw [Finset.card_range] at hsplit
    have hsame : (Finset.range (s.height n)).filter (s.snipped n · = false) =
        (Finset.range (s.height n)).filter (fun l => ¬ s.counted n l = true) := by
      refine Finset.filter_congr fun l _ => ?_
      rw [← hcounted, Bool.not_eq_true]
    rw [hsame]
    simp only [State.countedLevels] at hcount
    omega
  · intro n
    constructor
    · intro hn
      obtain ⟨hpos, hall⟩ := h.heap.handed n hn
      have hsnipped (l : Nat) (hl : l < s.height n) := (hcounted n l).mpr (hall l hl)
      exact ⟨(h.heap.frozen n 0 (hsnipped 0 hpos)).1, hsnipped⟩
    · rintro ⟨hn, hall⟩
      refine d.hands.settled (fun t x hx => ?_)
        ⟨h.heap.height n 0 hn, fun l hl => (hcounted n l).mp (hall l hl)⟩
      simp [hquiet t, Pc.tasks] at hx

/-- What runs leave behind when no call is in progress. -/
theorem run_settled [DecidableEq Tid] [DecidableEq Node]
    {past : List (State Tid Node Key × Act Tid Node Key)} (run : (machine Tid c).Run past s)
    (hquiet : Quiet s) : Settled c s := by
  have h : Inv c s ∧ DutyInv s := by
    refine run.invariant (I := fun s => Inv c s ∧ DutyInv s) (fun s hs => ?_)
      fun s a s' h hstep => ?_
    · rw [hs]
      exact ⟨vskiplistInit_inv c, vskiplistInit_dutyInv c⟩
    · exact ⟨step_inv h.1 hstep, step_dutyInv h.1 h.2 hstep⟩
  exact hquiet.settled h.1 h.2

end Libvsync.Map.Skiplist
