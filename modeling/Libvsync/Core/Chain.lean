import Mathlib.Data.List.Chain
import Mathlib.Data.List.Nodup

/-!
Linked chains. The successor pointers of a heap are a partial function; a
chain is the list of nodes that they visit from a first node to a last one,
each node once. Pushing a node in behind another and unlinking a node are
local edits, and what is reachable from the first node is exactly the chain.
-/

namespace Libvsync.Core

variable {N : Type*}

structure Chain (next : N → Option N) (first last : N) (nodes : List N) : Prop where
  links : nodes.IsChain (fun a b => next a = some b)
  head : nodes.head? = some first
  last : nodes.getLast? = some last
  nodup : nodes.Nodup

variable {next next' : N → Option N} {first last : N} {nodes : List N}

/-- The links of a list do not involve the pointer of its last node. -/
theorem links_congr {l : List N} {z : N} (h : (l ++ [z]).IsChain (fun a b => next a = some b))
    (hsame : ∀ a ∈ l, next' a = next a) :
    (l ++ [z]).IsChain (fun a b => next' a = some b) := by
  induction l with
  | nil => exact List.IsChain.singleton z
  | cons a l ih =>
    rw [List.cons_append, List.isChain_cons] at h ⊢
    constructor
    · intro b hb
      rw [hsame a (by simp)]
      exact h.1 b hb
    · apply ih h.2
      intro b hb
      exact hsame b (by simp [hb])

theorem Chain.first_mem (h : Chain next first last nodes) : first ∈ nodes :=
  List.mem_of_mem_head? h.head

theorem Chain.last_mem (h : Chain next first last nodes) : last ∈ nodes :=
  List.mem_of_mem_getLast? h.last

theorem Chain.eq_cons (h : Chain next first last nodes) : ∃ rest, nodes = first :: rest := by
  cases nodes with
  | nil => cases h.head
  | cons n rest =>
    have hn : n = first := Option.some.inj h.head
    exact ⟨rest, by rw [hn]⟩

/-- The neighbour of a node that is not the last one. -/
theorem Chain.split (h : Chain next first last nodes) {n : N} (hn : n ∈ nodes)
    (hlast : n ≠ last) :
    ∃ m before after, nodes = before ++ n :: m :: after ∧ next n = some m := by
  obtain ⟨before, after, rfl⟩ := List.append_of_mem hn
  cases after with
  | nil =>
    have hend := h.last
    rw [List.getLast?_append_cons] at hend
    exact absurd (Option.some.inj hend) hlast
  | cons m after =>
    have hlink := (List.isChain_append_cons_cons.mp h.links).2.1
    exact ⟨m, before, after, rfl, hlink⟩

theorem Chain.before_nil {before after : List N}
    (h : Chain next first last (before ++ first :: after)) : before = [] := by
  cases before with
  | nil => rfl
  | cons b before =>
    have hb : b = first := by simpa using h.head
    have hnodup := h.nodup
    simp [hb] at hnodup

theorem Chain.behind {before after : List N} {n : N}
    (h : Chain next first last (before ++ n :: after)) : Chain next n last (n :: after) := by
  refine ⟨(List.isChain_append.mp h.links).2.1, rfl, ?_, (List.nodup_append'.mp h.nodup).2.1⟩
  rw [← h.last, List.getLast?_append_cons]

theorem Chain.tail {n : N} {rest : List N} (h : Chain next first last (first :: n :: rest)) :
    Chain next n last (n :: rest) := by
  rw [← List.singleton_append] at h
  exact h.behind

theorem Chain.after_nil {before after : List N}
    (h : Chain next first last (before ++ last :: after)) : after = [] := by
  rcases List.eq_nil_or_concat after with rfl | ⟨after, z, rfl⟩
  · rfl
  · have hz : z = last := by
      have hlast := h.last
      rw [List.concat_eq_append, List.getLast?_append_cons, ← List.cons_append,
        List.getLast?_concat, Option.some.injEq] at hlast
      exact hlast
    have hnodup := h.nodup
    simp [hz, List.nodup_append] at hnodup

theorem Chain.stop {rest : List N} (h : Chain next last last (last :: rest)) : rest = [] := by
  rw [← List.nil_append (last :: rest)] at h
  exact h.after_nil

/-- The pointers determine the chain from one node to another. -/
theorem Chain.unique {nodes' : List N} (h : Chain next first last nodes)
    (h' : Chain next first last nodes') : nodes = nodes' := by
  induction nodes generalizing first nodes' with
  | nil => cases h.head
  | cons a rest ih =>
    obtain rfl : a = first := Option.some.inj h.head
    obtain ⟨rest', rfl⟩ := h'.eq_cons
    cases rest with
    | nil =>
      obtain rfl : a = last := Option.some.inj h.last
      rw [h'.stop]
    | cons b rest =>
      cases rest' with
      | nil =>
        obtain rfl : a = last := Option.some.inj h'.last
        exact absurd h.stop (List.cons_ne_nil _ _)
      | cons b' rest' =>
        have hb : next a = some b := (List.isChain_cons_cons.mp h.links).1
        have hb' : next a = some b' := (List.isChain_cons_cons.mp h'.links).1
        rw [hb] at hb'
        cases hb'
        rw [ih h.tail h'.tail]

/-- A chain sees only the pointers of its own nodes. -/
theorem Chain.congr (h : Chain next first last nodes)
    (hsame : ∀ n ∈ nodes, n ≠ last → next' n = next n) : Chain next' first last nodes := by
  obtain ⟨links, head, hlast, nodup⟩ := h
  obtain ⟨l, rfl⟩ := List.getLast?_eq_some_iff.mp hlast
  refine ⟨links_congr links ?_, head, hlast, nodup⟩
  intro a ha
  apply hsame a (List.mem_append_left _ ha)
  rintro rfl
  exact (List.nodup_append'.mp nodup).2.2 ha (by simp)

theorem Chain.mono (h : Chain next first last nodes)
    (hkeep : ∀ n ∈ nodes, ∀ m, next n = some m → next' n = some m) :
    Chain next' first last nodes := by
  refine ⟨h.links.imp_of_mem_imp ?_, h.head, h.last, h.nodup⟩
  intro a b ha _ hab
  exact hkeep a ha b hab

theorem Chain.singleton (next : N → Option N) (n : N) : Chain next n n [n] :=
  ⟨.singleton n, rfl, rfl, List.nodup_singleton n⟩

/-- Two chains, the first of which points to the second. -/
theorem Chain.append {first' last' : N} {nodes' : List N} (h : Chain next first last nodes)
    (h' : Chain next first' last' nodes') (hlink : next last = some first')
    (hnodup : (nodes ++ nodes').Nodup) : Chain next first last' (nodes ++ nodes') := by
  refine ⟨h.links.append h'.links ?_, ?_, ?_, hnodup⟩
  · intro a ha b hb
    have hlast := h.last
    rw [Option.mem_def.mp ha] at hlast
    have hhead := h'.head
    rw [Option.mem_def.mp hb] at hhead
    cases hlast
    cases hhead
    exact hlink
  · rw [List.head?_append, h.head]
    rfl
  · rw [List.getLast?_append, h'.last]
    rfl

theorem Chain.insert {before after : List N} {p q n : N}
    (h : Chain next first last (before ++ p :: q :: after))
    (hnew : n ∉ before ++ p :: q :: after) (hp : next' p = some n) (hn : next' n = some q)
    (hsame : ∀ m, m ≠ p → m ≠ n → next' m = next m) :
    Chain next' first last (before ++ p :: n :: q :: after) := by
  obtain ⟨hleft, _, hright⟩ := List.isChain_append_cons_cons.mp h.links
  obtain ⟨hbefore, hrest, hdisjoint⟩ := List.nodup_append'.mp h.nodup
  obtain ⟨hpnot, hrest⟩ := List.nodup_cons.mp hrest
  constructor
  · rw [List.isChain_append_cons_cons, List.isChain_cons_cons]
    refine ⟨links_congr hleft ?_, hp, hn, ?_⟩
    · intro a ha
      apply hsame
      · rintro rfl
        exact hdisjoint ha (by simp)
      · rintro rfl
        exact hnew (by simp [ha])
    · apply hright.imp_of_mem_imp
      intro a b ha _ hab
      rw [hsame a]
      · exact hab
      · rintro rfl
        exact hpnot ha
      · rintro rfl
        exact hnew (by simp [List.mem_cons.mp ha])
  · have hhead := h.head
    cases before with
    | nil => simpa using hhead
    | cons b before => simpa using hhead
  · have hlast := h.last
    rw [List.getLast?_append_cons] at hlast ⊢
    simpa using hlast
  · have hperm : (before ++ p :: n :: q :: after).Perm (n :: (before ++ p :: q :: after)) := by
      have hmiddle : (before ++ [p] ++ n :: (q :: after)).Perm
          (n :: (before ++ [p] ++ (q :: after))) := List.perm_middle
      simpa using hmiddle
    rw [hperm.nodup_iff]
    exact List.nodup_cons.mpr ⟨hnew, h.nodup⟩

theorem Chain.snip {before after : List N} {p c q : N}
    (h : Chain next first last (before ++ p :: c :: q :: after)) (hp : next' p = some q)
    (hsame : ∀ m, m ≠ p → next' m = next m) :
    Chain next' first last (before ++ p :: q :: after) := by
  obtain ⟨hleft, _, hright⟩ := List.isChain_append_cons_cons.mp h.links
  obtain ⟨hbefore, hrest, hdisjoint⟩ := List.nodup_append'.mp h.nodup
  obtain ⟨hpnot, hrest⟩ := List.nodup_cons.mp hrest
  constructor
  · rw [List.isChain_append_cons_cons]
    refine ⟨links_congr hleft ?_, hp, ?_⟩
    · intro a ha
      apply hsame
      rintro rfl
      exact hdisjoint ha (by simp)
    · apply (List.isChain_cons_cons.mp hright).2.imp_of_mem_imp
      intro a b ha _ hab
      rw [hsame a]
      · exact hab
      · rintro rfl
        exact hpnot (by simp [List.mem_cons.mp ha])
  · have hhead := h.head
    cases before with
    | nil => simpa using hhead
    | cons b before => simpa using hhead
  · have hlast := h.last
    rw [List.getLast?_append_cons] at hlast ⊢
    simpa using hlast
  · have hsub : (before ++ p :: q :: after).Sublist (before ++ p :: c :: q :: after) := by
      simp
    exact h.nodup.sublist hsub

theorem Chain.link (h : Chain next first last nodes) (next' : N → Option N) {p q n : N}
    (hp : p ∈ nodes) (hlast : p ≠ last) (hpq : next p = some q) (hnew : n ∉ nodes)
    (hp' : next' p = some n) (hn' : next' n = some q)
    (hsame : ∀ m, m ≠ p → m ≠ n → next' m = next m) :
    ∃ nodes', Chain next' first last nodes' ∧ ∀ m, m ∈ nodes' ↔ m = n ∨ m ∈ nodes := by
  obtain ⟨m, before, after, rfl, hm⟩ := h.split hp hlast
  rw [hpq] at hm
  cases hm
  refine ⟨before ++ p :: n :: q :: after, h.insert hnew hp' hn' hsame, ?_⟩
  intro m
  simp only [List.mem_append, List.mem_cons]
  tauto

theorem Chain.unlink (h : Chain next first last nodes) (next' : N → Option N) {p c q : N}
    (hp : p ∈ nodes) (hlast : p ≠ last) (hpc : next p = some c) (hc : c ≠ last)
    (hcq : next c = some q)
    (hp' : next' p = some q) (hsame : ∀ m, m ≠ p → next' m = next m) :
    ∃ nodes', Chain next' first last nodes' ∧ ∀ m, m ∈ nodes' ↔ m ≠ c ∧ m ∈ nodes := by
  obtain ⟨m, before, after, rfl, hm⟩ := h.split hp hlast
  rw [hpc] at hm
  cases hm
  cases after with
  | nil =>
    have hend := h.last
    simp only [List.getLast?_append_cons, List.getLast?_cons_cons, List.getLast?_singleton,
      Option.some.injEq] at hend
    exact absurd hend hc
  | cons r after =>
    have hlinks := (List.isChain_append_cons_cons.mp h.links).2.2
    have hr := (List.isChain_cons_cons.mp hlinks).1
    rw [hcq] at hr
    cases hr
    refine ⟨before ++ p :: q :: after, h.snip hp' hsame, ?_⟩
    have hperm : (before ++ p :: c :: q :: after).Perm
        (c :: (before ++ p :: q :: after)) := by
      have hmiddle : (before ++ [p] ++ c :: (q :: after)).Perm
          (c :: (before ++ [p] ++ (q :: after))) := List.perm_middle
      simpa using hmiddle
    have hnot := (List.nodup_cons.mp (hperm.nodup_iff.mp h.nodup)).1
    intro m
    rw [hperm.mem_iff, List.mem_cons]
    constructor
    · intro hm
      refine ⟨?_, Or.inr hm⟩
      rintro rfl
      exact hnot hm
    · rintro ⟨hne, hm⟩
      exact hm.resolve_left hne

/-- Following the pointers from `first`. -/
def Reaches (next : N → Option N) : N → N → Prop :=
  Relation.ReflTransGen (fun a b => next a = some b)

theorem reaches_of_links {l : List N} {a : N}
    (h : (a :: l).IsChain (fun a b => next a = some b)) {n : N} (hn : n ∈ a :: l) :
    Reaches next a n := by
  induction l generalizing a with
  | nil =>
    rw [List.mem_singleton] at hn
    subst hn
    exact Relation.ReflTransGen.refl
  | cons b l ih =>
    obtain ⟨hab, hrest⟩ := List.isChain_cons_cons.mp h
    rcases List.mem_cons.mp hn with rfl | hn
    · exact Relation.ReflTransGen.refl
    · exact Relation.ReflTransGen.head hab (ih hrest hn)

theorem Chain.mem_reaches (h : Chain next first last nodes) {n : N} (hn : n ∈ nodes) :
    Reaches next first n := by
  obtain ⟨links, head, -, -⟩ := h
  cases nodes with
  | nil => cases hn
  | cons a l =>
    cases head
    exact reaches_of_links links hn

/-- Of two nodes of a chain one reaches the other. -/
theorem Chain.total (h : Chain next first last nodes) {p q : N} (hp : p ∈ nodes)
    (hq : q ∈ nodes) : Reaches next p q ∨ Reaches next q p := by
  obtain ⟨before, after, rfl⟩ := List.append_of_mem hp
  rcases List.mem_append.mp hq with hbefore | hbehind
  · obtain ⟨first', between, rfl⟩ := List.append_of_mem hbefore
    rw [List.append_assoc, List.cons_append] at h
    exact .inr (h.behind.mem_reaches (List.mem_cons_of_mem _ (by simp)))
  · exact .inl (h.behind.mem_reaches hbehind)

/-- When the last node points nowhere, what is reachable is the chain. -/
theorem Chain.reaches_mem (h : Chain next first last nodes) (hend : next last = none) {n : N}
    (hreach : Reaches next first n) : n ∈ nodes := by
  induction hreach with
  | refl => exact h.first_mem
  | @tail b c _ hbc ih =>
    have hne : b ≠ last := by
      rintro rfl
      rw [hend] at hbc
      cases hbc
    obtain ⟨m, before, after, rfl, hm⟩ := h.split ih hne
    rw [hm] at hbc
    cases hbc
    simp

/-- A chain along which a rank grows is sorted by it. -/
theorem Chain.sorted {R : Type*} [Preorder R] (h : Chain next first last nodes) {rank : N → R}
    (hgrow : ∀ a ∈ nodes, ∀ b, next a = some b → rank a < rank b) :
    nodes.Pairwise (fun a b => rank a < rank b) := by
  have htrans : nodes.IsChain (fun a b => rank a < rank b) := by
    apply h.links.imp_of_mem_imp
    intro a b ha _ hab
    exact hgrow a ha b hab
  exact List.isChain_iff_pairwise.mp htrans

/-- Nothing of a sorted chain lies between neighbours. -/
theorem Chain.gap {R : Type*} [Preorder R] (h : Chain next first last nodes) {rank : N → R}
    (hgrow : ∀ a ∈ nodes, ∀ b, next a = some b → rank a < rank b) {p q : N} (hp : p ∈ nodes)
    (hlast : p ≠ last) (hpq : next p = some q) {m : N} (hm : m ∈ nodes) :
    rank m ≤ rank p ∨ rank q ≤ rank m := by
  have hsorted := h.sorted hgrow
  obtain ⟨r, before, after, rfl, hr⟩ := h.split hp hlast
  rw [hpq] at hr
  cases hr
  obtain ⟨-, hright, hcross⟩ := List.pairwise_append.mp hsorted
  rcases List.mem_append.mp hm with hm | hm
  · exact .inl (hcross m hm p (by simp)).le
  · rcases List.mem_cons.mp hm with rfl | hm
    · exact .inl le_rfl
    · rcases List.mem_cons.mp hm with rfl | hm
      · exact .inr le_rfl
      · exact .inr ((List.pairwise_cons.mp (List.pairwise_cons.mp hright).2).1 m hm).le

/-- The neighbour of a node of a chain is in the chain. -/
theorem Chain.next_mem (h : Chain next first last nodes) {p q : N} (hp : p ∈ nodes)
    (hlast : p ≠ last) (hpq : next p = some q) : q ∈ nodes := by
  obtain ⟨r, before, after, rfl, hr⟩ := h.split hp hlast
  rw [hpq] at hr
  cases hr
  simp

end Libvsync.Core
