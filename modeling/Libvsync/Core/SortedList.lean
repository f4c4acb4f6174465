import Libvsync.Core.Chain
import Mathlib.Order.Lattice

/-!
Sorted linked lists that nodes are linked into and detached from. A detached
node keeps its pointer, so that a walk that stands on it finds its way back:
every node that was ever linked points to one of higher rank. The nodes that
are linked and not detached are the chain from the first node to the last.
-/

namespace Libvsync.Core

open Function

variable {N R : Type*} [LinearOrder R]

structure SortedList (rank : N → R) (first last : N) (next : N → Option N)
    (linked detached : N → Bool) : Prop where
  chain : ∃ nodes, Chain next first last nodes ∧
    ∀ n, n ∈ nodes ↔ linked n = true ∧ detached n = false
  closed : ∀ n, linked n = true → n ≠ last →
    ∃ m, next n = some m ∧ linked m = true ∧ rank n < rank m
  last : next last = none

variable {rank : N → R} {first last : N} {next : N → Option N} {linked detached : N → Bool}

/-- The node is on the way from the first to the last. -/
def InList (linked detached : N → Bool) (n : N) : Prop := linked n = true ∧ detached n = false

/-- The list of the first node and the last. -/
theorem SortedList.ends [DecidableEq N] (hne : first ≠ last) (hrank : rank first < rank last)
    (hfirst : next first = some last) (hlast : next last = none) :
    SortedList rank first last next (fun n => n = first ∨ n = last) fun _ => false where
  chain := by
    refine ⟨[first, last], ⟨?_, rfl, rfl, ?_⟩, ?_⟩
    · exact List.isChain_cons_cons.mpr ⟨hfirst, .singleton _⟩
    · simp [hne]
    · intro n
      simp
  closed := by
    intro n hn hnlast
    obtain rfl := (of_decide_eq_true hn).resolve_right hnlast
    exact ⟨last, hfirst, decide_eq_true (.inr rfl), hrank⟩
  last := hlast

section Facts

variable (h : SortedList rank first last next linked detached)

include h

theorem SortedList.reaches_iff {n : N} : Reaches next first n ↔ InList linked detached n := by
  obtain ⟨nodes, hchain, hmem⟩ := h.chain
  constructor
  · intro hreach
    exact (hmem n).mp (hchain.reaches_mem h.last hreach)
  · intro hin
    exact hchain.mem_reaches ((hmem n).mpr hin)

theorem SortedList.first_in : InList linked detached first := by
  obtain ⟨nodes, hchain, hmem⟩ := h.chain
  exact (hmem first).mp hchain.first_mem

theorem SortedList.last_in : InList linked detached last := by
  obtain ⟨nodes, hchain, hmem⟩ := h.chain
  exact (hmem last).mp hchain.last_mem

theorem SortedList.next_in {p q : N} (hp : InList linked detached p) (hpq : next p = some q) :
    InList linked detached q := by
  obtain ⟨nodes, hchain, hmem⟩ := h.chain
  have hne : p ≠ last := by
    rintro rfl
    rw [h.last] at hpq
    cases hpq
  exact (hmem q).mp (hchain.next_mem ((hmem p).mpr hp) hne hpq)

theorem SortedList.linked_next {p q : N} (hp : linked p = true) (hpq : next p = some q) :
    linked q = true ∧ rank p < rank q := by
  have hne : p ≠ last := by
    rintro rfl
    rw [h.last] at hpq
    cases hpq
  obtain ⟨m, hm, hlinked, hrank⟩ := h.closed p hp hne
  rw [hpq] at hm
  cases hm
  exact ⟨hlinked, hrank⟩

/-- Nothing of the list lies between neighbours. -/
theorem SortedList.gap {p q m : N} (hp : InList linked detached p) (hpq : next p = some q)
    (hm : InList linked detached m) : rank m ≤ rank p ∨ rank q ≤ rank m := by
  obtain ⟨nodes, hchain, hmem⟩ := h.chain
  have hne : p ≠ last := by
    rintro rfl
    rw [h.last] at hpq
    cases hpq
  refine hchain.gap ?_ ((hmem p).mpr hp) hne hpq ((hmem m).mpr hm)
  intro a ha b hb
  exact (h.linked_next ((hmem a).mp ha).1 hb).2

theorem SortedList.rank_inj {m n : N} (hm : InList linked detached m)
    (hn : InList linked detached n) (heq : rank m = rank n) : m = n := by
  obtain ⟨nodes, hchain, hmem⟩ := h.chain
  have hsorted : nodes.Pairwise (fun a b => rank a < rank b) :=
    hchain.sorted fun a ha b hb => (h.linked_next ((hmem a).mp ha).1 hb).2
  by_contra hne
  have hapart : nodes.Pairwise (fun a b => rank a ≠ rank b) := hsorted.imp ne_of_lt
  have : Std.Symm (fun a b => rank a ≠ rank b) := ⟨fun _ _ => Ne.symm⟩
  exact hapart.forall ((hmem m).mpr hm) ((hmem n).mpr hn) hne heq

theorem SortedList.sorted : ∃ nodes, Chain next first last nodes ∧
    nodes.Pairwise (fun a b => rank a < rank b) := by
  obtain ⟨nodes, hchain, hmem⟩ := h.chain
  exact ⟨nodes, hchain, hchain.sorted fun a ha b hb => (h.linked_next ((hmem a).mp ha).1 hb).2⟩

/-- The nodes that were detached are forgotten. -/
theorem SortedList.renew : SortedList rank first last next (fun n => linked n && !detached n)
    fun _ => false := by
  obtain ⟨nodes, hchain, hmem⟩ := h.chain
  have hin {n : N} : (linked n && !detached n) = true ↔ InList linked detached n := by
    simp [InList]
  constructor
  · refine ⟨nodes, hchain, fun n => ?_⟩
    rw [hin, hmem]
    exact (and_iff_left rfl).symm
  · intro n hn hne
    obtain ⟨m, hm, -, hrank⟩ := h.closed n (hin.mp hn).1 hne
    exact ⟨m, hm, hin.mpr (h.next_in (hin.mp hn) hm), hrank⟩
  · exact h.last

/-- Of the nodes in use those remain that are in the list. -/
theorem SortedList.renew_used {used : N → Bool}
    (hknown : ∀ n, linked n = true → used n = true ∨ n = first ∨ n = last) :
    (∀ n, (linked n && !detached n) = true →
      (used n && (linked n && !detached n)) = true ∨ n = first ∨ n = last) ∧
    ∀ n, ¬ Reaches next first n → (used n && (linked n && !detached n)) = false := by
  constructor
  · intro n hn
    refine (hknown n (Bool.and_eq_true_iff.mp hn).1).imp_left fun hused => ?_
    exact Bool.and_eq_true_iff.mpr ⟨hused, hn⟩
  · intro n hout
    rw [h.reaches_iff] at hout
    by_contra hused
    simp only [Bool.not_eq_false, Bool.and_eq_true_iff, Bool.not_eq_true'] at hused
    exact hout hused.2

variable [DecidableEq N]

/-- The pointer of a node that is not linked is written. -/
theorem SortedList.prepare {n : N} (hn : linked n = false) (link : Option N) :
    SortedList rank first last (update next n link) linked detached := by
  have hsame {m : N} (hm : linked m = true) : update next n link m = next m := by
    apply update_of_ne
    rintro rfl
    rw [hn] at hm
    cases hm
  obtain ⟨nodes, hchain, hmem⟩ := h.chain
  constructor
  · refine ⟨nodes, hchain.congr fun m hm _ => hsame ((hmem m).mp hm).1, hmem⟩
  · intro m hm hne
    rw [hsame hm]
    exact h.closed m hm hne
  · rw [hsame h.last_in.1]
    exact h.last

theorem SortedList.link {p n q : N} (hp : InList linked detached p) (hpq : next p = some q)
    (hn : linked n = false) (hfresh : detached n = false) (hnq : next n = some q)
    (hbelow : rank p < rank n) (habove : rank n < rank q) :
    SortedList rank first last (update next p (some n)) (update linked n true)
      detached := by
  have hpn : p ≠ n := by
    rintro rfl
    have hlinked := hp.1
    rw [hn] at hlinked
    cases hlinked
  have hplast : p ≠ last := by
    rintro rfl
    rw [h.last] at hpq
    cases hpq
  have hnlast : n ≠ last := by
    rintro rfl
    rw [h.last_in.1] at hn
    cases hn
  obtain ⟨nodes, hchain, hmem⟩ := h.chain
  have hout : n ∉ nodes := by
    intro hin
    rw [((hmem n).mp hin).1] at hn
    cases hn
  have hother {m : N} (hm : m ≠ p) : update next p (some n) m = next m :=
    update_of_ne hm _ _
  have hlinked {m : N} : update linked n true m = true ↔ m = n ∨ linked m = true := by
    by_cases hmn : m = n
    · subst hmn
      simp
    · simp [hmn]
  obtain ⟨nodes', hchain', hmem'⟩ := hchain.link (update next p (some n))
    ((hmem p).mpr hp) hplast hpq hout (update_self ..) ((hother hpn.symm).trans hnq)
    (fun m hm _ => hother hm)
  constructor
  · refine ⟨nodes', hchain', fun m => ?_⟩
    rw [hmem', hlinked, hmem]
    constructor
    · rintro (rfl | hm)
      · exact ⟨.inl rfl, hfresh⟩
      · exact ⟨.inr hm.1, hm.2⟩
    · rintro ⟨rfl | hm, hd⟩
      · exact .inl rfl
      · exact .inr ⟨hm, hd⟩
  · intro m hm hne
    by_cases hmp : m = p
    · subst hmp
      exact ⟨n, update_self .., hlinked.mpr (.inl rfl), hbelow⟩
    · rw [hother hmp]
      rcases hlinked.mp hm with rfl | hm
      · exact ⟨q, hnq, hlinked.mpr (.inr (h.linked_next hp.1 hpq).1), habove⟩
      · obtain ⟨k, hk, hklinked, hrank⟩ := h.closed m hm hne
        exact ⟨k, hk, hlinked.mpr (.inr hklinked), hrank⟩
  · rw [hother hplast.symm]
    exact h.last

theorem SortedList.detach {p n q : N} (hp : InList linked detached p) (hpn : next p = some n)
    (hnq : next n = some q) :
    SortedList rank first last (update next p (some q)) linked
      (update detached n true) := by
  have hplast : p ≠ last := by
    rintro rfl
    rw [h.last] at hpn
    cases hpn
  have hnlast : n ≠ last := by
    rintro rfl
    rw [h.last] at hnq
    cases hnq
  have hother {m : N} (hm : m ≠ p) : update next p (some q) m = next m :=
    update_of_ne hm _ _
  obtain ⟨nodes, hchain, hmem⟩ := h.chain
  obtain ⟨nodes', hchain', hmem'⟩ := hchain.unlink (update next p (some q))
    ((hmem p).mpr hp) hplast hpn hnlast hnq (update_self ..) (fun m hm => hother hm)
  constructor
  · refine ⟨nodes', hchain', fun m => ?_⟩
    rw [hmem', hmem]
    by_cases hmn : m = n
    · subst hmn
      simp
    · rw [update_of_ne hmn]
      tauto
  · intro m hm hne
    by_cases hmp : m = p
    · subst hmp
      obtain ⟨hnlinked, hmn⟩ := h.linked_next hp.1 hpn
      obtain ⟨hqlinked, hnq'⟩ := h.linked_next hnlinked hnq
      exact ⟨q, update_self .., hqlinked, hmn.trans hnq'⟩
    · rw [hother hmp]
      exact h.closed m hm hne
  · rw [hother hplast.symm]
    exact h.last

end Facts

end Libvsync.Core
