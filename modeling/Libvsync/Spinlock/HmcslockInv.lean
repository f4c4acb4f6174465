import Libvsync.Spinlock.Hmcslock

/-!
The invariant of the HMCS lock. A thread owns the locks from its leaf up to some height. Its
node, or the node embedded in the lock below, is the first in the queue of each of them; so
by induction from the leaf on a lock has one owner only, and one thread at a time works with
the node embedded in a lock. A node that is not the first in its queue belongs to a thread
that waits with it.

When a node gets the count of its cohort, the thread that waits with it owns all locks up to
the root from this moment on, and when it is asked to acquire the parent, it owns the lock of
its queue.
-/

namespace Libvsync.Spinlock.Hmcslock

open Libvsync.Core

variable {Tid Lock : Type}

/-- The number of the call. -/
def Pc.call : Pc Tid Lock → Nat
  | .idle | .acqUnlocked | .critical => 0
  | .acqStatus k | .acqNext k | .acqXchg k | .acqLink k _ | .acqAwait k | .acqStart k
  | .relStatus k | .relNext k _ | .relPass k _ _
  | .helpNext k | .helpCas k | .helpAwait k | .helpPass k _ => k

/-- How many locks the thread owns, where `status` is the status of its node. -/
def Pc.owned (top status : Nat) : Pc Tid Lock → Nat
  | .idle => 0
  | .acqStatus k | .acqNext k | .acqXchg k | .acqLink k _ => k
  | .acqAwait k =>
    if status = waitStatus top k then k
    else if status = acquireParent then k + 1 else top + 1
  | .acqUnlocked | .critical | .relStatus _ | .relNext _ _ | .relPass _ _ _ => top + 1
  | .acqStart k | .helpNext k | .helpCas k | .helpAwait k | .helpPass k _ => k + 1

/-- For how many of its nodes the status is a count that the threshold allows. -/
def Pc.counted (top status : Nat) : Pc Tid Lock → Nat
  | .idle | .helpNext _ | .helpCas _ | .helpAwait _ | .helpPass _ _ => 0
  | .acqStatus k | .acqNext k | .acqXchg k | .acqLink k _ | .acqStart k => k
  | .acqAwait k => if status = waitStatus top k ∨ status = acquireParent then k else top
  | .acqUnlocked | .critical | .relStatus _ | .relNext _ _ | .relPass _ _ _ => top

/-- The call that acquires a lock. -/
def Pc.acquires : Pc Tid Lock → Option Nat
  | .acqStatus k | .acqNext k | .acqXchg k | .acqLink k _ | .acqAwait k => some k
  | _ => none

/-- The call that has enqueued its node and waits. -/
def Pc.queued : Pc Tid Lock → Option Nat
  | .acqLink k _ | .acqAwait k => some k
  | _ => none

variable (T : Tree Lock) (top : Nat)

def State.owned (s : State Tid Lock) (t : Tid) : Nat :=
  (s.pc t).owned top (s.status (s.qnodeOf T t (s.pc t).call))

def State.counted (s : State Tid Lock) (t : Tid) : Nat :=
  (s.pc t).counted top (s.status (s.qnodeOf T t (s.pc t).call))

/-- The node of call `k` of thread `t` is in a queue. -/
def InLine (s : State Tid Lock) (t : Tid) (k : Nat) : Prop :=
  k < s.owned T top t ∨ (s.pc t).queued = some k

/-- Thread `t` works with the node of its call `k`. -/
def Drives (s : State Tid Lock) (t : Tid) (k : Nat) : Prop :=
  k < s.owned T top t ∨ (s.pc t).acquires = some k

def PcOk (s : State Tid Lock) (t : Tid) : Pc Tid Lock → Prop
  | .idle | .acqUnlocked | .critical => True
  | .acqStatus k | .helpNext k | .helpCas k | .helpAwait k => k ≤ top
  | .acqNext k => k ≤ top ∧ s.status (s.qnodeOf T t k) = waitStatus top k
  | .acqXchg k =>
    k ≤ top ∧ s.status (s.qnodeOf T t k) = waitStatus top k ∧ s.next (s.qnodeOf T t k) = none
  | .acqLink k pred =>
    k ≤ top ∧ s.status (s.qnodeOf T t k) = waitStatus top k ∧
      Follows (s.line (s.lockOf T t k)) pred (s.qnodeOf T t k) ∧ s.next pred = none
  | .acqAwait k =>
    k ≤ top ∧ (s.status (s.qnodeOf T t k) = waitStatus top k → ∃ pred,
      Follows (s.line (s.lockOf T t k)) pred (s.qnodeOf T t k) ∧
        s.next pred = some (s.qnodeOf T t k))
  | .acqStart k | .relStatus k => k < top
  | .relNext k count =>
    k < top ∧ s.status (s.qnodeOf T t k) = count ∧ count < T.threshold (s.lockOf T t k)
  | .relPass k succ count =>
    k < top ∧ s.status (s.qnodeOf T t k) = count ∧ count < T.threshold (s.lockOf T t k) ∧
      s.next (s.qnodeOf T t k) = some succ
  | .helpPass k succ => k ≤ top ∧ s.next (s.qnodeOf T t k) = some succ

structure Inv (s : State Tid Lock) : Prop where
  leaf : ∀ t, s.pc t ≠ .idle → T.isLeaf (s.leaf t) = true
  nodup : ∀ l, (s.line l).Nodup
  lock : ∀ l, s.lock l = (s.line l).getLast?
  first : ∀ t k, k < s.owned T top t →
    (s.line (s.lockOf T t k)).head? = some (s.qnodeOf T t k)
  cover : ∀ l n, n ∈ s.line l →
    ∃ t k, InLine T top s t k ∧ s.lockOf T t k = l ∧ s.qnodeOf T t k = n
  last : ∀ l n, (s.line l).getLast? = some n → s.next n = none
  counts : ∀ t k, k < s.counted T top t →
    s.status (s.qnodeOf T t k) ≤ T.threshold (s.lockOf T t k)
  pcs : ∀ t, PcOk T top s t (s.pc t)

variable {T top} {s s' : State Tid Lock} {t u : Tid} {i j k : Nat} {l : Lock}
  {n m : Node Tid Lock}

theorem owned_eq (T : Tree Lock) (top : Nat) {pc : Pc Tid Lock} (hat : s.pc t = pc) :
    s.owned T top t = pc.owned top (s.status (s.qnodeOf T t pc.call)) := by
  rw [State.owned, hat]

theorem counted_eq (T : Tree Lock) (top : Nat) {pc : Pc Tid Lock} (hat : s.pc t = pc) :
    s.counted T top t = pc.counted top (s.status (s.qnodeOf T t pc.call)) := by
  rw [State.counted, hat]

theorem Pc.queued_cases {pc : Pc Tid Lock} (h : pc.queued = some k) :
    (∃ pred, pc = .acqLink k pred) ∨ pc = .acqAwait k := by
  cases pc <;> cases h
  · exact .inl ⟨_, rfl⟩
  · exact .inr rfl

theorem Inv.owned_le (h : Inv T top s) (t : Tid) : s.owned T top t ≤ top + 1 := by
  have hok := h.pcs t
  rw [State.owned]
  cases hat : s.pc t <;> rw [hat] at hok <;> dsimp only [Pc.owned, PcOk] at hok ⊢ <;>
    (try split) <;> (try split) <;> omega

theorem Inv.acquires_le (h : Inv T top s) (hk : (s.pc t).acquires = some k) :
    k ≤ s.owned T top t ∧ k ≤ top := by
  have hok := h.pcs t
  rw [State.owned]
  cases hat : s.pc t <;> rw [hat] at hok hk <;> cases hk <;> dsimp only [Pc.owned, PcOk] at hok ⊢
  case acqAwait =>
    split
    · omega
    · split <;> omega
  all_goals omega

theorem Pc.acquires_of_queued {pc : Pc Tid Lock} (h : pc.queued = some k) :
    pc.acquires = some k := by
  cases pc <;> cases h <;> rfl

theorem InLine.drives (h : InLine T top s t k) : Drives T top s t k :=
  h.imp_right Pc.acquires_of_queued

/-- The locks below the node that a thread works with are its own. -/
theorem Drives.below (h : Inv T top s) (hk : Drives T top s t (k + 1)) :
    k < s.owned T top t := by
  rcases hk with hk | hk
  · omega
  · exact (h.acquires_le hk).1

theorem Drives.le (h : Inv T top s) (hk : Drives T top s t k) : k ≤ top := by
  rcases hk with hk | hk
  · have hle := h.owned_le t
    omega
  · exact (h.acquires_le hk).2

theorem Drives.leaf (h : Inv T top s) (hk : Drives T top s t k) :
    T.isLeaf (s.leaf t) = true := by
  refine h.leaf t fun hidle => ?_
  rcases hk with hk | hk
  · rw [State.owned, hidle] at hk
    cases hk
  · rw [hidle] at hk
    cases hk

/-- A lock is met at one distance from the leaves only. -/
theorem Drives.level (hT : T.Uniform top) (h : Inv T top s) (hi : Drives T top s t i)
    (hj : Drives T top s u j) (heq : s.lockOf T t i = s.lockOf T u j) : i = j :=
  hT.level _ _ _ _ (hi.leaf h) (hj.leaf h) (hi.le h) (hj.le h) heq

/-- The first node of a queue belongs to one thread: it is its own, or it is embedded in a
lock that has one owner only. -/
theorem Inv.owner_unique (hT : T.Uniform top) (h : Inv T top s) (hi : i < s.owned T top t)
    (hj : j < s.owned T top u) (heq : s.lockOf T t i = s.lockOf T u j) : t = u ∧ i = j := by
  have hij : i = j := Drives.level hT h (.inl hi) (.inl hj) heq
  subst hij
  refine ⟨?_, rfl⟩
  induction i with
  | zero =>
    have hfirst := h.first t 0 hi
    rw [heq, h.first u 0 hj] at hfirst
    exact (Node.own.inj (Option.some.inj hfirst)).symm
  | succ i ih =>
    have hfirst := h.first t (i + 1) hi
    rw [heq, h.first u (i + 1) hj] at hfirst
    have hbelow : s.lockOf T t i = s.lockOf T u i :=
      (Node.inner.inj (Option.some.inj hfirst)).symm
    exact ih (by omega) (by omega) hbelow

theorem Inv.drives_unique (hT : T.Uniform top) (h : Inv T top s) (hi : Drives T top s t i)
    (hj : Drives T top s u j) (heq : s.qnodeOf T t i = s.qnodeOf T u j) : t = u ∧ i = j := by
  cases i with
  | zero =>
    cases j with
    | zero => exact ⟨Node.own.inj heq, rfl⟩
    | succ j => cases heq
  | succ i =>
    cases j with
    | zero => cases heq
    | succ j =>
      obtain ⟨rfl, rfl⟩ := h.owner_unique hT (hi.below h) (hj.below h) (Node.inner.inj heq)
      exact ⟨rfl, rfl⟩

theorem Inv.one_line (hT : T.Uniform top) (h : Inv T top s) {l' : Lock} (hl : n ∈ s.line l)
    (hl' : n ∈ s.line l') : l = l' := by
  obtain ⟨t, i, hi, rfl, hn⟩ := h.cover l n hl
  obtain ⟨u, j, hj, rfl, hn'⟩ := h.cover l' n hl'
  obtain ⟨rfl, rfl⟩ := h.drives_unique hT hi.drives hj.drives (hn.trans hn'.symm)
  rfl

/-- A thread that waits and does not own the lock has not been notified. -/
theorem await_status (hat : s.pc t = .acqAwait k) (hle : k ≤ top)
    (hnot : ¬ k < s.owned T top t) : s.status (s.qnodeOf T t k) = waitStatus top k := by
  rw [owned_eq T top hat] at hnot
  dsimp only [Pc.owned, Pc.call] at hnot
  split at hnot
  · assumption
  · split at hnot <;> omega

theorem Inv.not_in_line (hT : T.Uniform top) (h : Inv T top s)
    (hk : (s.pc t).acquires = some k) (hqueued : (s.pc t).queued = none)
    (howned : s.owned T top t = k) (l : Lock) : s.qnodeOf T t k ∉ s.line l := by
  intro hmem
  obtain ⟨u, j, hj, -, hn⟩ := h.cover l _ hmem
  obtain ⟨rfl, rfl⟩ := h.drives_unique hT hj.drives (.inr hk) hn
  rcases hj with hj | hj
  · omega
  · rw [hqueued] at hj
    cases hj

/-- The thread whose node stands behind another one waits with it. -/
theorem Inv.behind (h : Inv T top s) (hfollows : Follows (s.line l) n m) :
    ∃ u k, s.lockOf T u k = l ∧ s.qnodeOf T u k = m ∧ s.owned T top u = k ∧
      ((s.pc u = .acqLink k n ∧ s.next n = none) ∨ (s.pc u = .acqAwait k ∧ s.next n = some m)) ∧
      s.status m = waitStatus top k := by
  obtain ⟨u, k, hk, rfl, rfl⟩ := h.cover l m hfollows.right_mem
  have hnot : ¬ k < s.owned T top u := by
    intro howned
    obtain ⟨rest, hrest⟩ := List.head?_eq_some_iff.mp (h.first u k howned)
    have hnodup := h.nodup (s.lockOf T u k)
    rw [hrest] at hfollows hnodup
    exact (List.nodup_cons.mp hnodup).1 hfollows.right_mem_tail
  have hok := h.pcs u
  have hfront {p : Node Tid Lock} (hp : Follows (s.line (s.lockOf T u k)) p (s.qnodeOf T u k)) :
      p = n := hp.front_unique (h.nodup _) hfollows
  rcases Pc.queued_cases (hk.resolve_left hnot) with ⟨pred, hat⟩ | hat <;> rw [hat] at hok
  · obtain ⟨-, hstatus, hpred, hnext⟩ := hok
    obtain rfl := hfront hpred
    exact ⟨u, k, rfl, rfl, owned_eq T top hat, .inl ⟨hat, hnext⟩, hstatus⟩
  · have hwait := await_status hat hok.1 hnot
    obtain ⟨pred, hpred, hnext⟩ := hok.2 hwait
    obtain rfl := hfront hpred
    exact ⟨u, k, rfl, rfl, (owned_eq T top hat).trans (if_pos hwait), .inr ⟨hat, hnext⟩, hwait⟩

theorem lockAt_above {a b : Lock} (heq : T.lockAt a k = T.lockAt b k) (hle : k ≤ i) :
    T.lockAt a i = T.lockAt b i := by
  induction i, hle using Nat.le_induction with
  | base => exact heq
  | succ i _ ih => rw [Tree.lockAt, Tree.lockAt, ih]

theorem qnodeAt_above {a b : Lock} (heq : T.lockAt a k = T.lockAt b k) (hlt : k < i) (t u : Tid) :
    T.qnodeAt t a i = T.qnodeAt u b i := by
  cases i with
  | zero => cases hlt
  | succ i => exact congrArg Node.inner (lockAt_above heq (Nat.lt_succ_iff.mp hlt))

/-- The node behind the first one is the one it is linked to, and its thread waits with it. -/
theorem Inv.second (hT : T.Uniform top) (h : Inv T top s) (hk : k < s.owned T top t)
    {succ : Node Tid Lock} (hnext : s.next (s.qnodeOf T t k) = some succ) :
    ∃ u rest, s.line (s.lockOf T t k) = s.qnodeOf T t k :: succ :: rest ∧
      s.pc u = .acqAwait k ∧ s.lockOf T u k = s.lockOf T t k ∧ s.qnodeOf T u k = succ ∧
      s.owned T top u = k ∧ s.status succ = waitStatus top k := by
  obtain ⟨rest, hrest⟩ := List.head?_eq_some_iff.mp (h.first t k hk)
  have hnodup := h.nodup (s.lockOf T t k)
  have hlast : (s.line (s.lockOf T t k)).getLast? ≠ some (s.qnodeOf T t k) := by
    intro hlast
    rw [h.last _ _ hlast] at hnext
    cases hnext
  obtain ⟨m, hm⟩ := Follows.exists_behind (List.mem_of_mem_head? (h.first t k hk)) hlast
  obtain ⟨u, j, hl, hq, howned, hpc, hstatus⟩ := h.behind hm
  rcases hpc with ⟨-, hnone⟩ | ⟨hat, hsome⟩
  · rw [hnone] at hnext
    cases hnext
  · obtain rfl := Option.some.inj (hsome.symm.trans hnext)
    obtain rfl : j = k := Drives.level hT h (.inr (by rw [hat]; rfl)) (.inl hk) hl
    rw [hrest] at hm hnodup
    have hhead : rest.head? = some m := by
      rcases Follows.cons_iff.mp hm with ⟨-, hhead⟩ | hbehind
      · exact hhead
      · exact absurd hbehind.left_mem (List.nodup_cons.mp hnodup).1
    obtain ⟨rest, rfl⟩ := List.head?_eq_some_iff.mp hhead
    exact ⟨u, rest, hrest, hat, hl, hq, howned, hstatus⟩

theorem returned_owned (status : Nat) : (returned k : Pc Tid Lock).owned top status = k := by
  cases k <;> rfl

theorem returned_counted (status : Nat) : (returned k : Pc Tid Lock).counted top status = 0 := by
  cases k <;> rfl

end Libvsync.Spinlock.Hmcslock
