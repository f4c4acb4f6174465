import Libvsync.Core.Linked
import Libvsync.Core.Machine

/-!
Quack, the stack that is popped as a whole. A thread pushes a node that belongs to it; the
nodes of a popped batch belong to the thread that popped it, which may write their pointers,
push them again or hand them to another thread. `quack_reverse` turns a chain round in place.

A pusher may find the head that it read although the node was popped and pushed again in
between. What counts is that its own node points to the head, and only the pusher writes it.
-/

namespace Libvsync.Stack.Quack

open Libvsync.Core Function

/-- The memory and the local variables of `quack_reverse`. -/
structure Reversal (N : Type) where
  next : N → Option N
  prev : Option N
  curr : Option N

variable {N : Type} [DecidableEq N]

/-- One round of the loop. -/
def reverseStep (r : Reversal N) : Reversal N :=
  match r.curr with
  | none => r
  | some curr => ⟨update r.next curr r.prev, some curr, r.next curr⟩

def reverseLoop : Nat → Reversal N → Option (Reversal N)
  | fuel, r =>
    match r.curr, fuel with
    | none, _ => some r
    | some _, 0 => none
    | some _, fuel + 1 => reverseLoop fuel (reverseStep r)

/-- `quack_reverse`: the memory afterwards and what is returned. -/
def quackReverse (fuel : Nat) (next : N → Option N) (n : Option N) :
    Option ((N → Option N) × Option N) :=
  (reverseLoop fuel ⟨next, none, n⟩).map fun r => (r.next, r.prev)

/-- Where a thread stands. The `nodes` of a reversal are those of its chain; the code does not
read them. -/
inductive Pc (N : Type) where
  | idle
  | pushRead (n : N)
  | pushWrite (n : N) (next : Option N)
  | pushCas (n : N) (next : Option N)
  | reverse (nodes : List N) (prev curr : Option N)
  | reverseWrite (nodes : List N) (prev : Option N) (curr : N) (next : Option N)
  deriving DecidableEq

/-- `owner` is the thread that a node belongs to, none while it is in the quack, and `nodes`
are those in the quack. The code reads neither. -/
structure State (Tid N : Type) where
  head : Option N
  next : N → Option N
  pc : Tid → Pc N
  result : Tid → Option N
  owner : N → Option Tid
  nodes : List N

inductive Act (Tid N : Type) where
  | push (t : Tid) (n : N)
  | popall (t : Tid)
  | reverse (t : Tid) (n : Option N) (nodes : List N)
  | write (t : Tid) (n : N) (next : Option N)
  | give (t u : Tid) (n : N)
  | step (t : Tid)

variable {Tid : Type} [DecidableEq Tid]

def State.goto (s : State Tid N) (t : Tid) (pc : Pc N) : State Tid N :=
  { s with pc := update s.pc t pc }

def State.setNext (s : State Tid N) (n : N) (next : Option N) : State Tid N :=
  { s with next := update s.next n next }

def State.return (s : State Tid N) (t : Tid) (result : Option N) : State Tid N :=
  { s with result := update s.result t result }

/-- The next step of `t` in `quack_push` or `quack_reverse`. -/
def nextStep (s : State Tid N) (t : Tid) : Option (State Tid N) :=
  match s.pc t with
  | .idle => none
  | .pushRead n => some (s.goto t (.pushWrite n s.head))
  | .pushWrite n next => some ((s.setNext n next).goto t (.pushCas n next))
  | .pushCas n next =>
    if s.head = next then
      some ({ s with
        head := some n
        owner := update s.owner n none
        nodes := n :: s.nodes }.goto t .idle)
    else some (s.goto t (.pushRead n))
  | .reverse nodes prev curr =>
    match curr with
    | some curr => some (s.goto t (.reverseWrite nodes prev curr (s.next curr)))
    | none => some ((s.return t prev).goto t .idle)
  | .reverseWrite nodes prev curr next =>
    some ((s.setNext curr prev).goto t (.reverse nodes (some curr) next))

/-- A thread pushes, writes and gives away nodes of its own, and reverses a chain of them. -/
def step (s : State Tid N) : Act Tid N → Option (State Tid N)
  | .push t n =>
    if s.pc t = .idle ∧ s.owner n = some t then some (s.goto t (.pushRead n)) else none
  | .popall t =>
    if s.pc t = .idle then
      some ({ s with
        head := none
        owner := fun n => if n ∈ s.nodes then some t else s.owner n
        nodes := [] }.return t s.head)
    else none
  | .reverse t n nodes =>
    if s.pc t = .idle ∧ Linked s.next n nodes ∧ ∀ m ∈ nodes, s.owner m = some t then
      some (s.goto t (.reverse nodes none n))
    else none
  | .write t n next =>
    if s.pc t = .idle ∧ s.owner n = some t then some (s.setNext n next) else none
  | .give t u n =>
    if s.pc t = .idle ∧ s.owner n = some t then
      some { s with owner := update s.owner n (some u) }
    else none
  | .step t => nextStep s t

structure Initial (s : State Tid N) : Prop where
  head : s.head = none
  pc : s.pc = fun _ => .idle
  nodes : s.nodes = []

def machine (Tid N : Type) [DecidableEq Tid] [DecidableEq N] :
    Machine (State Tid N) (Act Tid N) where
  start := Initial
  step := step

/-- The node that a step pushes. -/
def pushed (s : State Tid N) : Act Tid N → Option N
  | .step t =>
    match s.pc t with
    | .pushCas n next => if s.head = next then some n else none
    | _ => none
  | _ => none

/-- The pushes in the order of their compare-and-swaps. -/
def pushes (past : List (State Tid N × Act Tid N)) : List N :=
  (past.filterMap fun p => pushed p.1 p.2).reverse

/-- The lists are what `quack_reverse` makes of the batches, in the order of the exchanges. A
batch is the chain that the pointer leads to which `quack_popall` has returned. -/
inductive Reversed : List (State Tid N × Act Tid N × State Tid N) → List (List N) → Prop
  | nil : Reversed [] []
  | popall {past : List (State Tid N × Act Tid N × State Tid N)} {lists : List (List N)}
      {s s' : State Tid N} {t : Tid} {fuel : Nat} {next : N → Option N} {p : Option N}
      {nodes : List N} (before : Reversed past lists)
      (hreverse : quackReverse fuel s'.next (s'.result t) = some (next, p))
      (hnodes : Linked next p nodes) : Reversed ((s, .popall t, s') :: past) (lists ++ [nodes])
  | other {past : List (State Tid N × Act Tid N × State Tid N)} {lists : List (List N)}
      {s s' : State Tid N} {a : Act Tid N} (before : Reversed past lists)
      (ha : ∀ t, a ≠ .popall t) : Reversed ((s, a, s') :: past) lists

section Reverse

variable {next next' : N → Option N} {p : Option N} {nodes : List N}

theorem reversing_step {r : Reversal N} {k : Nat}
    (h : Reversing r.next nodes k r.prev r.curr) (hk : k < nodes.length) :
    Reversing (reverseStep r).next nodes (k + 1) (reverseStep r).prev (reverseStep r).curr := by
  obtain ⟨next, prev, curr⟩ := r
  obtain rfl : curr = some nodes[k] := h.curr_eq.trans (List.getElem?_eq_getElem hk)
  exact h.step

/-- The rounds of the loop visit the nodes of the chain one after the other. -/
theorem reversing_iterate (h : Linked next p nodes) {k : Nat} (hk : k ≤ nodes.length) :
    Reversing (reverseStep^[k] ⟨next, none, p⟩).next nodes k (reverseStep^[k] ⟨next, none, p⟩).prev
      (reverseStep^[k] ⟨next, none, p⟩).curr := by
  induction k with
  | zero => exact .start h
  | succ k ih =>
    rw [Function.iterate_succ_apply']
    exact reversing_step (ih (Nat.le_of_succ_le hk)) hk

theorem reverseLoop_iterate {r : Reversal N} {k : Nat}
    (hbefore : ∀ j < k, (reverseStep^[j] r).curr ≠ none) (hend : (reverseStep^[k] r).curr = none) :
    reverseLoop k r = some (reverseStep^[k] r) := by
  induction k generalizing r with
  | zero =>
    obtain ⟨next, prev, curr⟩ := r
    obtain rfl : curr = none := hend
    rfl
  | succ k ih =>
    obtain ⟨n, hn⟩ := Option.ne_none_iff_exists'.mp (hbefore 0 (Nat.succ_pos k))
    obtain ⟨next, prev, curr⟩ := r
    obtain rfl : curr = some n := hn
    exact ih (fun j hj => hbefore (j + 1) (Nat.succ_lt_succ hj)) hend

theorem reverseStep_next_other {r : Reversal N} {n : N} (hn : r.curr ≠ some n) :
    (reverseStep r).next n = r.next n := by
  rw [reverseStep]
  split
  · rfl
  · rename_i curr hcurr
    refine update_of_ne ?_ _ _
    rintro rfl
    exact hn hcurr

theorem quackReverse_eq (h : Linked next p nodes) :
    ∃ next', quackReverse nodes.length next p = some (next', nodes.getLast?) ∧
      Linked next' nodes.getLast? nodes.reverse ∧ ∀ n, n ∉ nodes → next' n = next n := by
  have hiterate {k : Nat} (hk : k ≤ nodes.length) := reversing_iterate h hk
  have hbefore (j : Nat) (hj : j < nodes.length) :
      (reverseStep^[j] ⟨next, none, p⟩).curr ≠ none := by
    rw [(hiterate hj.le).curr_eq, List.getElem?_eq_getElem hj]
    exact Option.some_ne_none _
  have hlast := hiterate (Nat.le_refl _)
  have hend : (reverseStep^[nodes.length] ⟨next, none, p⟩).curr = none := by
    rw [hlast.curr_eq, List.getElem?_eq_none_iff]
  rw [hend] at hlast
  have hlinked := hlast.finish
  have hprev := hlinked.first
  rw [List.head?_reverse] at hprev
  refine ⟨_, ?_, hprev ▸ hlinked, fun n hn => ?_⟩
  · rw [quackReverse, reverseLoop_iterate hbefore hend, ← hprev]
    rfl
  · have hsame (k : Nat) (hk : k ≤ nodes.length) :
        (reverseStep^[k] ⟨next, none, p⟩).next n = next n := by
      induction k with
      | zero => rfl
      | succ k ih =>
        rw [Function.iterate_succ_apply', reverseStep_next_other, ih (Nat.le_of_succ_le hk)]
        rw [(hiterate (Nat.le_of_succ_le hk)).curr_eq]
        exact fun hmem => hn (List.mem_of_getElem? hmem)
    exact hsame _ (Nat.le_refl _)

end Reverse

/-- What a thread at work knows: the nodes are its own, and nobody else writes them. -/
def PcOk (next : N → Option N) (owner : N → Option Tid) (t : Tid) : Pc N → Prop
  | .idle => True
  | .pushRead n | .pushWrite n _ => owner n = some t
  | .pushCas n p => owner n = some t ∧ next n = p
  | .reverse nodes prev curr =>
    (∀ n ∈ nodes, owner n = some t) ∧ ∃ k, Reversing next nodes k prev curr
  | .reverseWrite nodes prev curr p =>
    (∀ n ∈ nodes, owner n = some t) ∧ p = next curr ∧
      ∃ k, Reversing next nodes k prev (some curr)

structure Inv (s : State Tid N) : Prop where
  linked : Linked s.next s.head s.nodes
  free : ∀ n ∈ s.nodes, s.owner n = none
  pc : ∀ t, PcOk s.next s.owner t (s.pc t)

variable {s s' : State Tid N} {t : Tid} {q : Pc N} {n : N}

omit [DecidableEq N] [DecidableEq Tid] in
theorem PcOk.congr {next next' : N → Option N} {owner owner' : N → Option Tid}
    (h : PcOk next owner t q)
    (hsame : ∀ n, owner n = some t → owner' n = some t ∧ next' n = next n) :
    PcOk next' owner' t q := by
  cases q with
  | idle => trivial
  | pushRead n | pushWrite n p => exact (hsame n h).1
  | pushCas n p => exact ⟨(hsame n h.1).1, (hsame n h.1).2.trans h.2⟩
  | reverse nodes prev curr =>
    obtain ⟨hmine, k, hk⟩ := h
    exact ⟨fun n hn => (hsame n (hmine n hn)).1, k, hk.congr fun n hn => (hsame n (hmine n hn)).2⟩
  | reverseWrite nodes prev curr p =>
    obtain ⟨hmine, hp, k, hk⟩ := h
    exact ⟨fun n hn => (hsame n (hmine n hn)).1, hp.trans (hsame curr (hmine curr hk.mem)).2.symm,
      k, hk.congr fun n hn => (hsame n (hmine n hn)).2⟩

section

omit [DecidableEq N]

/-- A step of `t` that leaves the nodes of the other threads as they are. -/
theorem Inv.pcs (h : Inv s) (hpc : s'.pc = update s.pc t q)
    (hothers : ∀ u, u ≠ t → ∀ n, s.owner n = some u → s'.owner n = some u ∧ s'.next n = s.next n)
    (hok : PcOk s'.next s'.owner t q) (u : Tid) : PcOk s'.next s'.owner u (s'.pc u) := by
  rw [hpc]
  by_cases hut : u = t
  · subst hut
    rw [update_self]
    exact hok
  · rw [update_of_ne hut]
    exact (h.pc u).congr (hothers u hut)

theorem Inv.goto (h : Inv s) (hok : PcOk s.next s.owner t q) : Inv (s.goto t q) :=
  ⟨h.linked, h.free, h.pcs rfl (fun _ _ _ hn => ⟨hn, rfl⟩) hok⟩

end

/-- A thread writes the pointer of a node of its own. -/
theorem Inv.setNext (h : Inv s) {p : Option N} (hmine : s.owner n = some t)
    (hok : PcOk (update s.next n p) s.owner t q) : Inv ((s.setNext n p).goto t q) := by
  refine ⟨h.linked.congr fun m hm => update_of_ne ?_ _ _, h.free,
    h.pcs rfl (fun u hu m hm => ⟨hm, update_of_ne ?_ _ _⟩) hok⟩
  · rintro rfl
    exact Option.some_ne_none t (hmine.symm.trans (h.free m hm))
  · rintro rfl
    exact hu (Option.some.inj (hm.symm.trans hmine))

theorem Inv.push (h : Inv s) (hat : s.pc t = .pushCas n s.head) :
    Inv ({ s with
      head := some n
      owner := update s.owner n none
      nodes := n :: s.nodes }.goto t .idle) := by
  have hown := h.pc t
  rw [hat] at hown
  obtain ⟨hmine, hnext⟩ := hown
  refine ⟨h.linked.push hnext, fun m hm => ?_, h.pcs rfl (fun u hu m hm => ⟨?_, rfl⟩) trivial⟩
  · change update s.owner n none m = none
    by_cases hmn : m = n
    · rw [hmn, update_self]
    · rw [update_of_ne hmn]
      exact h.free m (List.mem_of_ne_of_mem hmn hm)
  · change update s.owner n none m = some u
    rw [update_of_ne, hm]
    rintro rfl
    exact hu (Option.some.inj (hm.symm.trans hmine))

theorem Inv.nextStep (h : Inv s) (hstep : Quack.nextStep s t = some s') : Inv s' := by
  have hown := h.pc t
  unfold Quack.nextStep at hstep
  cases hat : s.pc t with
  | idle =>
    rw [hat] at hstep
    cases hstep
  | pushRead n =>
    rw [hat] at hstep hown
    cases hstep
    exact h.goto hown
  | pushWrite n p =>
    rw [hat] at hstep hown
    cases hstep
    exact h.setNext hown ⟨hown, update_self ..⟩
  | pushCas n p =>
    rw [hat] at hstep hown
    dsimp only at hstep
    split at hstep <;> cases hstep
    · rename_i hhead
      subst hhead
      exact h.push hat
    · exact h.goto hown.1
  | reverse nodes prev curr =>
    rw [hat] at hstep hown
    obtain ⟨hmine, k, hk⟩ := hown
    cases curr with
    | none =>
      cases hstep
      exact ⟨h.linked, h.free, h.pcs rfl (fun _ _ _ hn => ⟨hn, rfl⟩) trivial⟩
    | some curr =>
      cases hstep
      exact h.goto ⟨hmine, rfl, k, hk⟩
  | reverseWrite nodes prev curr p =>
    rw [hat] at hstep hown
    obtain ⟨hmine, rfl, k, hk⟩ := hown
    cases hstep
    exact h.setNext (hmine curr hk.mem) ⟨hmine, k + 1, hk.step⟩

theorem Inv.step (h : Inv s) {a : Act Tid N} (hstep : Quack.step s a = some s') : Inv s' := by
  cases a with
  | push t n =>
    obtain ⟨⟨-, hmine⟩, heq⟩ := Option.ite_none_right_eq_some.mp hstep
    cases heq
    exact h.goto hmine
  | popall t =>
    obtain ⟨hidle, heq⟩ := Option.ite_none_right_eq_some.mp hstep
    cases heq
    refine ⟨rfl, fun n hn => absurd hn List.not_mem_nil, h.pcs (t := t) (q := s.pc t) ?_
      (fun u _ n hn => ⟨?_, rfl⟩) ?_⟩
    · exact (update_eq_self t s.pc).symm
    · -- the nodes of the batch belonged to nobody
      refine (if_neg fun hmem => ?_).trans hn
      exact Option.some_ne_none u (hn.symm.trans (h.free n hmem))
    · rw [hidle]
      trivial
  | reverse t p nodes =>
    obtain ⟨⟨-, hlinked, hmine⟩, heq⟩ := Option.ite_none_right_eq_some.mp hstep
    cases heq
    exact h.goto ⟨hmine, 0, .start hlinked⟩
  | write t n p =>
    obtain ⟨⟨hidle, hmine⟩, heq⟩ := Option.ite_none_right_eq_some.mp hstep
    cases heq
    have hwrite := h.setNext (q := .idle) (p := p) hmine trivial
    have hsame : (s.setNext n p).goto t .idle = s.setNext n p := by
      rw [State.goto, ← hidle]
      exact congrArg (fun q => { s.setNext n p with pc := q }) (update_eq_self t s.pc)
    rw [hsame] at hwrite
    exact hwrite
  | give t u n =>
    obtain ⟨⟨hidle, hmine⟩, heq⟩ := Option.ite_none_right_eq_some.mp hstep
    cases heq
    refine ⟨h.linked, fun m hm => ?_, h.pcs (t := t) (q := s.pc t) ?_
      (fun w hw m hm => ⟨?_, rfl⟩) ?_⟩
    · change update s.owner n (some u) m = none
      rw [update_of_ne, h.free m hm]
      rintro rfl
      exact Option.some_ne_none t (hmine.symm.trans (h.free m hm))
    · exact (update_eq_self t s.pc).symm
    · change update s.owner n (some u) m = some w
      rw [update_of_ne, hm]
      rintro rfl
      exact hw (Option.some.inj (hm.symm.trans hmine))
    · rw [hidle]
      trivial
  | step t => exact h.nextStep hstep

omit [DecidableEq N] [DecidableEq Tid] in
theorem Initial.inv (hs : Initial s) : Inv s := by
  refine ⟨?_, fun n hn => ?_, fun t => ?_⟩
  · rw [hs.head, hs.nodes]
    rfl
  · rw [hs.nodes] at hn
    cases hn
  · rw [hs.pc]
    trivial

/-- A push puts its node in front, and only a pop takes nodes out. -/
theorem step_nodes {a : Act Tid N} (ha : ∀ t, a ≠ .popall t) (hstep : step s a = some s') :
    s'.nodes = (pushed s a).toList ++ s.nodes := by
  cases a with
  | popall t => exact absurd rfl (ha t)
  | push t n | reverse t p nodes | write t n p | give t u n =>
    obtain ⟨-, heq⟩ := Option.ite_none_right_eq_some.mp hstep
    cases heq
    rfl
  | step t =>
    have hstep : nextStep s t = some s' := hstep
    unfold nextStep at hstep
    rw [pushed]
    cases hat : s.pc t with
    | idle =>
      rw [hat] at hstep
      cases hstep
    | pushCas n p =>
      rw [hat] at hstep
      dsimp only at hstep ⊢
      split at hstep <;> cases hstep
      · rename_i hhead
        rw [if_pos hhead]
        rfl
      · rename_i hhead
        rw [if_neg hhead]
        rfl
    | reverse nodes prev curr =>
      rw [hat] at hstep
      cases curr <;> cases hstep <;> rfl
    | _ =>
      rw [hat] at hstep
      cases hstep
      rfl

/-- The node that a call of `quack_push` has in hand. -/
def Pc.pushing : Pc N → Option N
  | .pushRead n | .pushWrite n _ | .pushCas n _ => some n
  | _ => none

/-- The lists that the batches make, one after the other, and then the nodes in the quack from
the bottom up are the pushes. A push returns when it has put its node in front, and a reversal
returns the chain turned round. -/
structure Safe (past : List (State Tid N × Act Tid N)) (s : State Tid N) : Prop where
  pushes : ∃ lists, Reversed (transitions past s) lists ∧
    pushes past = lists.flatten ++ s.nodes.reverse
  linked : Linked s.next s.head s.nodes
  push : ∀ t n s', (s.pc t).pushing = some n → step s (.step t) = some s' →
    (s'.pc t).pushing = some n ∨ s'.pc t = .idle ∧ pushed s (.step t) = some n
  reverse : ∀ t nodes prev s', s.pc t = .reverse nodes prev none → step s (.step t) = some s' →
    s'.pc t = .idle ∧ Linked s'.next (s'.result t) nodes.reverse

omit [DecidableEq Tid] in
theorem pushes_cons {past : List (State Tid N × Act Tid N)} {a : Act Tid N} :
    pushes ((s, a) :: past) = pushes past ++ (pushed s a).toList := by
  simp only [pushes, List.filterMap_cons]
  cases pushed s a with
  | none => exact (List.append_nil _).symm
  | some n => exact List.reverse_cons

theorem run_pushes {past : List (State Tid N × Act Tid N)} (run : (machine Tid N).Run past s) :
    ∃ lists, Reversed (transitions past s) lists ∧
      pushes past = lists.flatten ++ s.nodes.reverse := by
  have hall : AllSteps (fun _ _ => True) past := fun _ _ => trivial
  refine (run.history_invariant (I := fun past s => Inv s ∧ ∃ lists,
    Reversed (transitions past s) lists ∧ pushes past = lists.flatten ++ s.nodes.reverse)
    (fun s hs => ⟨Initial.inv hs, [], .nil, ?_⟩)
    (fun past s a s' _ ⟨h, lists, hlists, hpushes⟩ _ hstep => ⟨h.step hstep, ?_⟩) hall).2
  · rw [hs.nodes]
    rfl
  · by_cases ha : ∃ t, a = .popall t
    · obtain ⟨t, rfl⟩ := ha
      obtain ⟨-, heq⟩ := Option.ite_none_right_eq_some.mp hstep
      cases heq
      obtain ⟨next, hreverse, hlinked, -⟩ := quackReverse_eq h.linked
      have hreturned : quackReverse s.nodes.length s.next (update s.result t s.head t) =
          some (next, s.nodes.getLast?) := by
        rw [update_self]
        exact hreverse
      refine ⟨lists ++ [s.nodes.reverse], .popall hlists hreturned hlinked, ?_⟩
      have hnone : pushed s (.popall t) = none := rfl
      rw [pushes_cons, hpushes, hnone, List.flatten_append, List.flatten_singleton]
      rfl
    · have hother : ∀ t, a ≠ .popall t := fun t ht => ha ⟨t, ht⟩
      refine ⟨lists, .other hlists hother, ?_⟩
      rw [pushes_cons, hpushes, step_nodes hother hstep, List.reverse_append, List.append_assoc]
      cases pushed s a <;> rfl

/-- A push goes on until its compare-and-swap has put its node in front. -/
theorem step_pushing (hpush : (s.pc t).pushing = some n) (hstep : step s (.step t) = some s') :
    (s'.pc t).pushing = some n ∨ s'.pc t = .idle ∧ pushed s (.step t) = some n := by
  have hstep : nextStep s t = some s' := hstep
  have hself (s₁ : State Tid N) (q : Pc N) : (s₁.goto t q).pc t = q := update_self ..
  unfold nextStep at hstep
  rw [pushed]
  cases hat : s.pc t with
  | pushRead m | pushWrite m p =>
    rw [hat] at hpush hstep
    cases hpush
    cases hstep
    exact .inl (by rw [hself]; rfl)
  | pushCas m p =>
    rw [hat] at hpush hstep
    cases hpush
    dsimp only at hstep ⊢
    split at hstep <;> cases hstep
    · rename_i hhead
      exact .inr ⟨hself .., if_pos hhead⟩
    · exact .inl (by rw [hself]; rfl)
  | _ =>
    rw [hat] at hpush
    cases hpush

theorem run_safe {past : List (State Tid N × Act Tid N)} (run : (machine Tid N).Run past s) :
    Safe past s := by
  have h := run.invariant (I := Inv) (fun _ => Initial.inv) fun _ _ _ h hstep => h.step hstep
  refine ⟨run_pushes run, h.linked, fun _ _ _ => step_pushing, fun t nodes prev s' hat hstep => ?_⟩
  have hown := h.pc t
  rw [hat] at hown
  obtain ⟨-, k, hk⟩ := hown
  have hstep : nextStep s t = some s' := hstep
  unfold nextStep at hstep
  rw [hat] at hstep
  cases hstep
  refine ⟨update_self .., ?_⟩
  change Linked s.next (update s.result t prev t) nodes.reverse
  rw [update_self]
  exact hk.finish

def fresh : State Nat Nat :=
  ⟨none, fun _ => none, fun _ => .idle, fun _ => none, fun n => some (n / 2), []⟩

end Libvsync.Stack.Quack
