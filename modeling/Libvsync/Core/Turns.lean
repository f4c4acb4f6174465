import Mathlib.Order.Nat
import Libvsync.Core.Follows

/-!
First come, first served. Those who arrive stand in a line, at most the first of the line
is being served, and it leaves the line when it is done. Two logs say who arrived and who
was served; the second one is a prefix of the first. `Turns` is about the line, `Serving`
about the numbers of those who arrived, who may have arrived more than once.
-/

namespace Libvsync.Core

variable {α : Type*}

/-- `gone` were served and left, in the order in which they arrived, and `line` is there.
Only the first of the line can be one that is served now. -/
structure Turns (served : α → Bool) (arrivals grants gone line : List α) : Prop where
  arrivals : arrivals = gone ++ line
  grants : grants = gone ++ line.filter served
  waits : ∀ a ∈ line.tail, served a = false

namespace Turns

variable {served served' : α → Bool} {arrivals grants gone line rest : List α} {a : α}

theorem init (served : α → Bool) : Turns served [] [] [] [] :=
  ⟨rfl, rfl, fun _ ha => absurd ha List.not_mem_nil⟩

theorem congr (h : Turns served arrivals grants gone line)
    (hsame : ∀ b ∈ line, served' b = served b) : Turns served' arrivals grants gone line := by
  refine ⟨h.arrivals, ?_, fun b hb => ?_⟩
  · rw [h.grants, List.filter_congr hsame]
  · rw [hsame b (List.mem_of_mem_tail hb)]
    exact h.waits b hb

theorem rest_filter (h : Turns served arrivals grants gone (a :: rest)) :
    rest.filter served = [] :=
  List.filter_eq_nil_iff.mpr fun b hb => by
    rw [h.waits b hb]
    exact Bool.false_ne_true

/-- One arrives behind the others. -/
theorem join (h : Turns served arrivals grants gone line)
    (hsame : ∀ b ∈ line, served' b = served b) (ha : served' a = false) :
    Turns served' (arrivals ++ [a]) grants gone (line ++ [a]) := by
  refine ⟨?_, ?_, fun b hb => ?_⟩
  · rw [h.arrivals, List.append_assoc]
  · rw [h.grants, List.filter_append, List.filter_cons, ha, List.filter_congr hsame]
    exact congrArg _ (List.append_nil _).symm
  · cases line with
    | nil => cases hb
    | cons c rest =>
      rcases List.mem_append.mp hb with hb | hb
      · rw [hsame b (List.mem_cons_of_mem _ hb)]
        exact h.waits b hb
      · rw [List.mem_singleton.mp hb]
        exact ha

theorem enter (h : Turns served arrivals grants gone (a :: rest)) (hold : served a = false)
    (hsame : ∀ b ∈ rest, served' b = served b) (ha : served' a = true) :
    Turns served' arrivals (grants ++ [a]) gone (a :: rest) := by
  refine ⟨h.arrivals, ?_, fun b hb => ?_⟩
  · rw [h.grants, List.filter_cons, List.filter_cons, hold, ha, List.filter_congr hsame,
      h.rest_filter]
    simp
  · rw [hsame b hb]
    exact h.waits b hb

/-- One arrives at the empty line and is served at once. -/
theorem join_enter (h : Turns served arrivals grants gone []) (ha : served' a = true) :
    Turns served' (arrivals ++ [a]) (grants ++ [a]) gone [a] := by
  refine ⟨?_, ?_, fun b hb => absurd hb List.not_mem_nil⟩
  · rw [h.arrivals, List.append_nil]
  · rw [h.grants, List.filter_cons, ha, List.filter_nil, List.append_nil]
    rfl

theorem leave (h : Turns served arrivals grants gone (a :: rest)) (ha : served a = true)
    (hsame : ∀ b ∈ rest, served' b = served b) :
    Turns served' arrivals grants (gone ++ [a]) rest := by
  refine ⟨?_, ?_, fun b hb => ?_⟩
  · rw [h.arrivals, List.append_assoc]
    rfl
  · rw [h.grants, List.filter_cons, ha, List.filter_congr hsame, h.rest_filter, List.append_nil]
    rfl
  · rw [hsame b (List.mem_of_mem_tail hb)]
    exact h.waits b (List.mem_of_mem_tail hb)

theorem fifo (h : Turns served arrivals grants gone line) : grants <+: arrivals := by
  rw [h.grants, h.arrivals]
  refine (List.prefix_append_right_inj gone).mpr ?_
  cases line with
  | nil => exact List.nil_prefix
  | cons a rest =>
    rw [List.filter_cons, h.rest_filter]
    split
    · exact List.prefix_append [a] rest
    · exact List.nil_prefix

theorem first (h : Turns served arrivals grants gone line) (ha : a ∈ line)
    (hserved : served a = true) : ∃ rest, line = a :: rest := by
  cases line with
  | nil => cases ha
  | cons b rest =>
    rcases List.mem_cons.mp ha with rfl | ha
    · exact ⟨rest, rfl⟩
    · rw [h.waits a ha] at hserved
      cases hserved

end Turns

theorem getElem?_mono {xs ys : List α} {a : α} {i : Nat} (h : xs <+: ys)
    (hi : xs[i]? = some a) : ys[i]? = some a := by
  obtain ⟨rest, rfl⟩ := h
  rw [List.getElem?_append_left (List.getElem?_eq_some_iff.mp hi).1]
  exact hi

/-- `grants` were served, and all but the last of them or all have left. `held` is who is
being served. -/
structure Serving (arrivals grants : List α) (left : Nat) (held : α → Bool) : Prop where
  fifo : grants <+: arrivals
  low : left ≤ grants.length
  high : grants.length ≤ left + 1
  held : ∀ a, held a = true ↔ grants.length = left + 1 ∧ arrivals[left]? = some a

namespace Serving

variable {arrivals grants : List α} {left : Nat} {held held' : α → Bool} {a b : α}

theorem init : Serving ([] : List α) [] 0 fun _ => false := by
  refine ⟨List.prefix_rfl, le_rfl, Nat.zero_le 1, fun a => ?_⟩
  exact iff_of_false Bool.false_ne_true fun h => Nat.zero_ne_one h.1

theorem left_le (h : Serving arrivals grants left held) : left ≤ arrivals.length :=
  h.low.trans h.fifo.length_le

theorem holder (h : Serving arrivals grants left held) (ha : held a = true) (hb : held b = true) :
    a = b :=
  Option.some.inj (((h.held a).mp ha).2.symm.trans ((h.held b).mp hb).2)

theorem arrive (h : Serving arrivals grants left held) (a : α) :
    Serving (arrivals ++ [a]) grants left held := by
  refine ⟨h.fifo.trans (List.prefix_append ..), h.low, h.high, fun b => ?_⟩
  refine (h.held b).trans (and_congr_right fun hlen => ?_)
  have hlt : left < arrivals.length := by
    have hle := h.fifo.length_le
    omega
  rw [List.getElem?_append_left hlt]

/-- The next one is served. -/
theorem enter (h : Serving arrivals grants left held) (hfree : grants.length = left)
    (hat : arrivals[left]? = some a) (ha : held' a = true)
    (hother : ∀ b, b ≠ a → held' b = held b) : Serving arrivals (grants ++ [a]) left held' := by
  have hlen : (grants ++ [a]).length = left + 1 := by
    rw [List.length_append, hfree]
    rfl
  refine ⟨?_, ?_, hlen.le, fun b => ?_⟩
  · obtain ⟨rest, rfl⟩ := h.fifo
    rw [← hfree, List.getElem?_append_right le_rfl, Nat.sub_self, ← List.head?_eq_getElem?] at hat
    obtain ⟨rest, rfl⟩ := List.head?_eq_some_iff.mp hat
    exact ⟨rest, List.append_assoc grants [a] rest⟩
  · rw [hlen]
    exact Nat.le_succ _
  · rw [hat]
    by_cases hba : b = a
    · rw [hba]
      exact iff_of_true ha ⟨hlen, rfl⟩
    · refine iff_of_false (fun hheld => ?_) fun heq => hba (Option.some.inj heq.2).symm
      rw [hother b hba, h.held] at hheld
      omega

theorem leave (h : Serving arrivals grants left held) (ha : held a = true)
    (hnew : held' a = false) (hother : ∀ b, b ≠ a → held' b = held b) :
    Serving arrivals grants (left + 1) held' := by
  have hlen := ((h.held a).mp ha).1
  refine ⟨h.fifo, hlen.ge, hlen.le.trans (Nat.le_succ _), fun b => ?_⟩
  refine iff_of_false (fun hb => ?_) fun hb => by omega
  by_cases hba : b = a
  · rw [hba, hnew] at hb
    cases hb
  · rw [hother b hba] at hb
    exact hba (h.holder hb ha)

end Serving

end Libvsync.Core
