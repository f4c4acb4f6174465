import Libvsync.Core.Locked
import Libvsync.Map.ListsetLfInv
import Libvsync.Spinlock.Caslock

/-!
The list set under one lock. `vlistset_add`, `vlistset_remove` and
`vlistset_get` take the lock, walk along the list one read at a time, and write
its pointers one by one. A removed node is retired before the lock is released,
and its memory may be used for a new node from then on.

`retired` records the calls of the retire callback, newest first.
-/

namespace Libvsync.Map.ListsetCoarse

open Libvsync.Core Function
open Libvsync.Map.ListsetLf (Config rankOf)

structure Mem (Node : Type) where
  next : Node → Option Node
  retired : List Node

/-- The next step of a call that has the lock, with its local variables. -/
inductive Loc (Node : Type) where
  | first
  | loop (pred curr : Node)
  | linkNode (node pred curr : Node)
  | linkPred (node pred : Node)
  | readSucc (pred curr : Node)
  | unlink (pred curr : Node) (succ : Option Node)
  | retire (curr : Node)
  deriving DecidableEq

abbrev Call (Node Key : Type) := SetCall Node Key
abbrev Result (Node : Type) := SetResult Node

variable {Node Key : Type} [DecidableEq Node] [LinearOrder Key]

def callKey : Call Node Key → Key
  | .add key _ | .remove key | .get key => key

def Mem.setNext (m : Mem Node) (n : Node) (next : Option Node) : Mem Node :=
  { m with next := update m.next n next }

/-- `curr = pred->next`, with `pred` not NULL. -/
def Mem.walk (m : Mem Node) (pred : Node) : Option (Mem Node × (Loc Node ⊕ Result Node)) :=
  (m.next pred).map fun curr => (m, .inl (.loop pred curr))

/-- The test behind the loop. -/
def decideStep (c : Config Node Key) (call : Call Node Key) (pred curr : Node) :
    Loc Node ⊕ Result Node :=
  if curr ≠ c.tail ∧ c.cmpFun curr (callKey call) = 0 then
    match call with
    | .add _ _ => .inr (.success false)
    | .remove _ => .inl (.readSucc pred curr)
    | .get _ => .inr (.found (some curr))
  else
    match call with
    | .add _ node => .inl (.linkNode node pred curr)
    | .remove _ => .inr (.success false)
    | .get _ => .inr (.found none)

def bodyStep (c : Config Node Key) (call : Call Node Key) (loc : Loc Node) (m : Mem Node)
    (_ : Unit) : Option (Mem Node × (Loc Node ⊕ Result Node)) :=
  match loc with
  | .first => m.walk c.head
  | .loop pred curr =>
    if curr ≠ c.tail ∧ c.cmpFun curr (callKey call) < 0 then m.walk curr
    else some (m, decideStep c call pred curr)
  | .linkNode node pred curr => some (m.setNext node (some curr), .inl (.linkPred node pred))
  | .linkPred node pred => some (m.setNext pred (some node), .inr (.success true))
  | .readSucc pred curr => some (m, .inl (.unlink pred curr (m.next curr)))
  | .unlink pred curr succ => some (m.setNext pred succ, .inl (.retire curr))
  | .retire curr => some ({ m with retired := curr :: m.retired }, .inr (.success true))

/-- The calls of the list set between acquire and release of its lock. -/
def body (c : Config Node Key) : Body (Mem Node) (Call Node Key) (Result Node) (Loc Node) Unit where
  reads := fun _ => false
  again := fun _ => none
  enter := fun _ => .first
  step := bodyStep c

/-- `vlistset_init`, with whatever the memory holds. -/
structure Initial (c : Config Node Key) (m : Mem Node) : Prop where
  next : m.next c.head = some c.tail
  retired : m.retired = []

def machine (Tid : Type) [DecidableEq Tid] (c : Config Node Key) :=
  Locked.machine (Spinlock.ttaslock Tid) (body c) (Initial c)

/-- The loop of `_vlistset_visit`, from `curr` on, with the nodes visited so
far, newest first. The visitor may free the node that it is given. -/
def visitLoop (c : Config Node Key) (visitor : Node → Mem Node → Mem Node) :
    Nat → Mem Node → Node → List Node → Option (Mem Node × List Node)
  | 0, _, _, _ => none
  | rounds + 1, m, curr, visited =>
    if curr = c.tail then
      some (m, visited)
    else
      match m.next curr with
      | none => none
      | some next => visitLoop c visitor rounds (visitor curr m) next (curr :: visited)

/-- `_vlistset_visit` -/
def visit (c : Config Node Key) (visitor : Node → Mem Node → Mem Node) (rounds : Nat)
    (m : Mem Node) : Option (Mem Node × List Node) :=
  (m.next c.head).bind fun curr => visitLoop c visitor rounds m curr []

/-- The list from one sentinel to the other, in order. -/
structure Holds (c : Config Node Key) (next : Node → Option Node) (nodes : List Node) : Prop where
  chain : Chain next c.head c.tail nodes
  sorted : nodes.Pairwise (fun a b => c.rank a < c.rank b)

def Sound (c : Config Node Key) (m : Mem Node) : Prop := ∃ nodes, Holds c m.next nodes

/-- The nodes of the set. -/
def members (c : Config Node Key) (m : Mem Node) : Set Node :=
  { n | ∃ nodes, Holds c m.next nodes ∧ n ∈ nodes ∧ n ≠ c.head ∧ n ≠ c.tail }

/-- The set, and the retired nodes. -/
def abs (c : Config Node Key) (m : Mem Node) : Set Node × List Node := (members c m, m.retired)

/-- The operations of the set. The nodes that they take out are retired, and no other ones. -/
def spec (key : Node → Key) (before : Set Node × List Node) (call : Call Node Key)
    (r : Result Node) (after : Set Node × List Node) : Prop :=
  setSpec key before.1 call r after.1 ∧
    ∃ gone : List Node, after.2 = gone ++ before.2 ∧ gone.Nodup ∧
      ∀ n, n ∈ gone ↔ n ∈ before.1 ∧ n ∉ after.1

/-- The node of an add carries the key and is not in the set. -/
def pre (c : Config Node Key) : Call Node Key → Mem Node → Prop
  | .add key node, m =>
    c.key node = key ∧ node ≠ c.head ∧ node ≠ c.tail ∧ node ∉ members c m
  | .remove _, _ | .get _, _ => True

/-- Two adds under way have nodes of their own. -/
def apart : Call Node Key → Call Node Key → Prop
  | .add _ node, .add _ node' => node ≠ node'
  | _, _ => True

variable {c : Config Node Key} {m m₀ : Mem Node} {nodes : List Node} {pred curr node : Node}

theorem Holds.members_iff (h : Holds c m.next nodes) {n : Node} :
    n ∈ members c m ↔ n ∈ nodes ∧ n ≠ c.head ∧ n ≠ c.tail := by
  constructor
  · rintro ⟨nodes', h', hn⟩
    rw [h.chain.unique h'.chain]
    exact hn
  · intro hn
    exact ⟨nodes, h, hn⟩

/-- The place where a call with rank `r` has come to. -/
structure At (c : Config Node Key) (r : WithBot (WithTop Key)) (next : Node → Option Node)
    (before : List Node) (pred curr : Node) (after : List Node) : Prop where
  holds : Holds c next (before ++ pred :: curr :: after)
  below : c.rank pred < r

/-- `pred` and `curr` are in order, and nothing is between them. -/
theorem At.order {r : WithBot (WithTop Key)} {next : Node → Option Node} {before after : List Node}
    (h : At c r next before pred curr after) :
    (∀ n ∈ before, c.rank n < c.rank pred) ∧ c.rank pred < c.rank curr ∧
      ∀ n ∈ after, c.rank curr < c.rank n := by
  obtain ⟨-, hbehind, hacross⟩ := List.pairwise_append.mp h.holds.sorted
  obtain ⟨hpred, hbehind⟩ := List.pairwise_cons.mp hbehind
  obtain ⟨hcurr, -⟩ := List.pairwise_cons.mp hbehind
  refine ⟨?_, hpred curr List.mem_cons_self, hcurr⟩
  intro n hn
  exact hacross n hn pred List.mem_cons_self

section Place

variable {r : WithBot (WithTop Key)} {next : Node → Option Node} {before after : List Node}
  {key : Key}

theorem At.ne_head (h : At c r next before pred curr after) : curr ≠ c.head :=
  Config.ne_head_of_lt h.order.2.1

theorem At.loop_iff (h : At c r next before pred curr after) :
    curr ≠ c.tail ∧ c.cmpFun curr key < 0 ↔ c.rank curr < rankOf key := by
  rcases eq_or_ne curr c.tail with rfl | htail
  · exact iff_of_false (fun hand => hand.1 rfl) (not_lt_of_gt (c.rank_tail key))
  · rw [Config.rank_lt_iff h.ne_head htail]
    exact and_iff_right htail

theorem At.found_iff (h : At c r next before pred curr after) :
    curr ≠ c.tail ∧ c.cmpFun curr key = 0 ↔ c.rank curr = rankOf key := by
  rcases eq_or_ne curr c.tail with rfl | htail
  · exact iff_of_false (fun hand => hand.1 rfl) (c.rank_tail key).ne'
  · rw [Config.rank_eq_iff h.ne_head htail]
    exact and_iff_right htail

/-- There is something behind a node that is not the last one. -/
theorem At.behind (h : At c r next before pred curr after) (htail : curr ≠ c.tail) :
    ∃ succ rest, after = succ :: rest ∧ next curr = some succ := by
  cases after with
  | nil =>
    have hlast := h.holds.chain.last
    rw [List.getLast?_append_cons] at hlast
    exact absurd (Option.some.inj hlast) htail
  | cons succ rest =>
    obtain ⟨-, -, hlinks⟩ := List.isChain_append_cons_cons.mp h.holds.chain.links
    exact ⟨succ, rest, rfl, (List.isChain_cons_cons.mp hlinks).1⟩

theorem At.walk (h : At c r next before pred curr after) (hbelow : c.rank curr < r)
    {succ : Node} {rest : List Node} (hafter : after = succ :: rest) :
    At c r next (before ++ [pred]) curr succ rest := by
  refine ⟨?_, hbelow⟩
  rw [List.append_assoc, List.singleton_append, ← hafter]
  exact h.holds

theorem Holds.first (h : Holds c next nodes) :
    ∃ curr rest, next c.head = some curr ∧ nodes = c.head :: curr :: rest := by
  obtain ⟨rest, rfl⟩ := h.chain.eq_cons
  cases rest with
  | nil => exact absurd (Option.some.inj h.chain.last) c.distinct
  | cons curr rest => exact ⟨curr, rest, (List.isChain_cons_cons.mp h.chain.links).1, rfl⟩

/-- What is in the list has a rank other than one that lies between `pred` and `curr`. -/
theorem At.absent (h : At c r next before pred curr after) (habove : r < c.rank curr) {n : Node}
    (hn : n ∈ before ++ pred :: curr :: after) : c.rank n ≠ r := by
  obtain ⟨hbefore, -, hafter⟩ := h.order
  rcases List.mem_append.mp hn with hn | hn
  · exact ((hbefore n hn).trans h.below).ne
  · rcases List.mem_cons.mp hn with rfl | hn
    · exact h.below.ne
    · rcases List.mem_cons.mp hn with rfl | hn
      · exact habove.ne'
      · exact (habove.trans (hafter n hn)).ne'

end Place

/-- What a call has found out and written, since it took the lock in memory `m₀`. -/
inductive LocOk (c : Config Node Key) (call : Call Node Key) (m₀ : Mem Node) :
    Mem Node → Loc Node → Prop
  | first : LocOk c call m₀ m₀ .first
  | loop {before after : List Node} {pred curr : Node}
      (h : At c (rankOf (callKey call)) m₀.next before pred curr after) :
      LocOk c call m₀ m₀ (.loop pred curr)
  | linkNode {before after : List Node} {pred curr node : Node} {key : Key}
      (hcall : call = .add key node) (h : At c (rankOf key) m₀.next before pred curr after)
      (habove : rankOf key < c.rank curr) : LocOk c call m₀ m₀ (.linkNode node pred curr)
  | linkPred {before after : List Node} {pred curr node : Node} {key : Key}
      (hcall : call = .add key node) (h : At c (rankOf key) m₀.next before pred curr after)
      (habove : rankOf key < c.rank curr) :
      LocOk c call m₀ (m₀.setNext node (some curr)) (.linkPred node pred)
  | readSucc {before after : List Node} {pred curr : Node} {key : Key}
      (hcall : call = .remove key) (h : At c (rankOf key) m₀.next before pred curr after)
      (heq : c.rank curr = rankOf key) : LocOk c call m₀ m₀ (.readSucc pred curr)
  | unlink {before after : List Node} {pred curr : Node} {key : Key}
      (hcall : call = .remove key) (h : At c (rankOf key) m₀.next before pred curr after)
      (heq : c.rank curr = rankOf key) :
      LocOk c call m₀ m₀ (.unlink pred curr (m₀.next curr))
  | retire {before after : List Node} {pred curr : Node} {key : Key}
      (hcall : call = .remove key) (h : At c (rankOf key) m₀.next before pred curr after)
      (heq : c.rank curr = rankOf key) :
      LocOk c call m₀ (m₀.setNext pred (m₀.next curr)) (.retire curr)

variable {call : Call Node Key} {loc loc' : Loc Node} {m' : Mem Node} {r : Result Node}

/-- The test behind the loop leads to a link, to an unlink or to a result. -/
theorem decide_ok {before after : List Node}
    (h : At c (rankOf (callKey call)) m₀.next before pred curr after)
    (habove : rankOf (callKey call) ≤ c.rank curr)
    (hdecide : decideStep c call pred curr = .inl loc') : LocOk c call m₀ m₀ loc' := by
  dsimp only [decideStep] at hdecide
  split at hdecide
  next hfound =>
    have heq := h.found_iff.mp hfound
    cases call with
    | add => cases hdecide
    | get => cases hdecide
    | remove key =>
      cases hdecide
      exact .readSucc rfl h heq
  next hother =>
    have hne : rankOf (callKey call) ≠ c.rank curr := fun heq => hother (h.found_iff.mpr heq.symm)
    cases call with
    | remove => cases hdecide
    | get => cases hdecide
    | add key node =>
      cases hdecide
      exact .linkNode rfl h (lt_of_le_of_ne habove hne)

theorem LocOk.step (h : LocOk c call m₀ m loc) (hsound : Sound c m₀)
    (hstep : bodyStep c call loc m () = some (m', .inl loc')) : LocOk c call m₀ m' loc' := by
  cases h with
  | first =>
    obtain ⟨nodes, hnodes⟩ := hsound
    obtain ⟨curr, rest, hcurr, rfl⟩ := hnodes.first
    simp only [bodyStep, Mem.walk, hcurr] at hstep
    cases hstep
    have hat : At c (rankOf (callKey call)) m.next [] c.head curr rest :=
      ⟨hnodes, c.rank_head _⟩
    exact .loop hat
  | @loop before after pred curr hat =>
    simp only [bodyStep] at hstep
    split at hstep
    next hloop =>
      obtain ⟨succ, rest, hafter, hsucc⟩ := hat.behind hloop.1
      simp only [Mem.walk, hsucc] at hstep
      cases hstep
      exact .loop (hat.walk (hat.loop_iff.mp hloop) hafter)
    next hstop =>
      have hdecide := Prod.ext_iff.mp (Option.some.inj hstep)
      obtain rfl : m = m' := hdecide.1
      exact decide_ok hat (not_lt.mp fun hlt => hstop (hat.loop_iff.mpr hlt)) hdecide.2
  | linkNode hcall hat habove =>
    cases hstep
    exact .linkPred hcall hat habove
  | linkPred => cases hstep
  | readSucc hcall hat heq =>
    cases hstep
    exact .unlink hcall hat heq
  | unlink hcall hat heq =>
    cases hstep
    exact .retire hcall hat heq
  | retire => cases hstep

theorem body_reaches (hsound : Sound c m₀) (h : (body c).Reaches call m₀ m loc) :
    LocOk c call m₀ m loc := by
  induction h with
  | enter => exact .first
  | @step m' m₁ k k' b prior hstep ih => exact ih.step hsound hstep

theorem LocOk.goesOn (h : LocOk c call m₀ m loc) (hsound : Sound c m₀) :
    (bodyStep c call loc m ()).isSome := by
  cases h with
  | first =>
    obtain ⟨nodes, hnodes⟩ := hsound
    obtain ⟨curr, rest, hcurr, -⟩ := hnodes.first
    simp [bodyStep, Mem.walk, hcurr]
  | loop hat =>
    simp only [bodyStep]
    split
    next hloop =>
      obtain ⟨succ, rest, -, hsucc⟩ := hat.behind hloop.1
      simp [Mem.walk, hsucc]
    next => rfl
  | linkNode => rfl
  | linkPred => rfl
  | readSucc => rfl
  | unlink => rfl
  | retire => rfl

theorem members_rank {n : Node} (hhead : n ≠ c.head) (htail : n ≠ c.tail) {key : Key} :
    c.key n = key ↔ c.rank n = rankOf key := by
  rw [Config.rank_of_ne hhead htail]
  simp [rankOf]

/-- No member has the key of a call that has come past it. -/
theorem At.no_member {before after : List Node} {key : Key}
    (h : At c (rankOf key) m.next before pred curr after) (habove : rankOf key < c.rank curr) :
    ∀ n ∈ members c m, c.key n ≠ key := by
  intro n hn heq
  obtain ⟨hmem, hhead, htail⟩ := h.holds.members_iff.mp hn
  exact h.absent habove hmem ((members_rank hhead htail).mp heq)

theorem At.member {before after : List Node} {key : Key}
    (h : At c (rankOf key) m.next before pred curr after) (heq : c.rank curr = rankOf key) :
    curr ∈ members c m ∧ c.key curr = key ∧ curr ≠ c.tail := by
  have htail : curr ≠ c.tail := (h.found_iff.mpr heq).1
  refine ⟨h.holds.members_iff.mpr ⟨?_, h.ne_head, htail⟩, ?_, htail⟩
  · simp
  · exact (members_rank h.ne_head htail).mpr heq

theorem At.link {before after : List Node} {key : Key}
    (h : At c (rankOf key) m.next before pred curr after) (habove : rankOf key < c.rank curr)
    (hpre : pre c (.add key node) m) :
    Holds c ((m.setNext node (some curr)).setNext pred (some node)).next
      (before ++ pred :: node :: curr :: after) := by
  obtain ⟨hkey, hhead, htail, hout⟩ := hpre
  have hrank : c.rank node = rankOf key := (members_rank hhead htail).mp hkey
  have hnew : node ∉ before ++ pred :: curr :: after := fun hmem =>
    hout (h.holds.members_iff.mpr ⟨hmem, hhead, htail⟩)
  have hpred : pred ≠ node := by
    rintro rfl
    simp at hnew
  constructor
  · apply h.holds.chain.insert hnew
    · exact update_self ..
    · exact (update_of_ne hpred.symm ..).trans (update_self ..)
    · intro n hnpred hnnode
      exact (update_of_ne hnpred ..).trans (update_of_ne hnnode ..)
  · obtain ⟨hbefore, -, hafter⟩ := h.order
    obtain ⟨hfront, hbehind, hacross⟩ := List.pairwise_append.mp h.holds.sorted
    obtain ⟨hpredlt, hbehind⟩ := List.pairwise_cons.mp hbehind
    apply List.pairwise_append.mpr ⟨hfront, List.pairwise_cons.mpr ⟨?_, ?_⟩, ?_⟩
    · intro n hn
      rcases List.mem_cons.mp hn with rfl | hn
      · exact h.below.trans_eq hrank.symm
      · exact hpredlt n hn
    · refine List.pairwise_cons.mpr ⟨?_, hbehind⟩
      intro n hn
      rw [hrank]
      rcases List.mem_cons.mp hn with rfl | hn
      · exact habove
      · exact habove.trans (hafter n hn)
    · intro a ha b hb
      rcases List.mem_cons.mp hb with rfl | hb
      · exact hbefore a ha
      · rcases List.mem_cons.mp hb with rfl | hb
        · exact ((hbefore a ha).trans h.below).trans_eq hrank.symm
        · exact hacross a ha b (List.mem_cons_of_mem _ hb)

theorem At.snip {before after : List Node} {key : Key}
    (h : At c (rankOf key) m.next before pred curr after) (htail : curr ≠ c.tail) :
    Holds c (m.setNext pred (m.next curr)).next (before ++ pred :: after) := by
  obtain ⟨succ, rest, rfl, hsucc⟩ := h.behind htail
  constructor
  · apply h.holds.chain.snip
    · exact (update_self ..).trans hsucc
    · intro n hn
      exact update_of_ne hn ..
  · have hsub : (before ++ pred :: succ :: rest).Sublist
        (before ++ pred :: curr :: succ :: rest) := by
      simp
    exact h.holds.sorted.sublist hsub

theorem At.snip_mem {r : WithBot (WithTop Key)} {next : Node → Option Node}
    {before after : List Node} (h : At c r next before pred curr after) (n : Node) :
    n ∈ before ++ pred :: after ↔ n ∈ before ++ pred :: curr :: after ∧ n ≠ curr := by
  obtain ⟨-, hbehind, hdisjoint⟩ := List.nodup_append'.mp h.holds.chain.nodup
  obtain ⟨hpred, hcurr⟩ := List.nodup_cons.mp hbehind
  have hafter := (List.nodup_cons.mp hcurr).1
  have hbefore : curr ∉ before := fun hmem => hdisjoint hmem (by simp)
  simp only [List.mem_append, List.mem_cons] at *
  constructor
  · rintro (hn | rfl | hn)
    · exact ⟨.inl hn, fun heq => hbefore (heq ▸ hn)⟩
    · exact ⟨.inr (.inl rfl), fun heq => hpred (.inl heq)⟩
    · exact ⟨.inr (.inr (.inr hn)), fun heq => hafter (heq ▸ hn)⟩
  · rintro ⟨hn | hn | hn | hn, hne⟩
    · exact .inl hn
    · exact .inr (.inl hn)
    · exact absurd hn hne
    · exact .inr (.inr hn)

theorem LocOk.returns (h : LocOk c call m₀ m loc) (hsound : Sound c m₀) (hpre : pre c call m₀)
    (hstep : bodyStep c call loc m () = some (m', .inr r)) :
    Sound c m' ∧ spec c.key (abs c m₀) call r (abs c m') := by
  have hsame {r : Result Node} (h : setSpec c.key (members c m₀) call r (members c m₀)) :
      Sound c m₀ ∧ spec c.key (abs c m₀) call r (abs c m₀) := by
    refine ⟨hsound, h, [], rfl, .nil, fun n => ?_⟩
    exact iff_of_false List.not_mem_nil fun hand => hand.2 hand.1
  cases h with
  | first =>
    obtain ⟨nodes, hnodes⟩ := hsound
    obtain ⟨curr, rest, hcurr, -⟩ := hnodes.first
    simp only [bodyStep, Mem.walk, hcurr] at hstep
    cases hstep
  | @loop before after pred curr hat =>
    simp only [bodyStep] at hstep
    split at hstep
    next hloop =>
      obtain ⟨succ, rest, -, hsucc⟩ := hat.behind hloop.1
      simp only [Mem.walk, hsucc] at hstep
      cases hstep
    next hstop =>
      obtain ⟨hm, hdecide⟩ := Prod.ext_iff.mp (Option.some.inj hstep)
      obtain rfl : m = m' := hm
      dsimp only [decideStep] at hdecide
      split at hdecide
      next hfound =>
        obtain ⟨hmem, hkey, -⟩ := hat.member (hat.found_iff.mp hfound)
        cases call with
        | remove => cases hdecide
        | add key node =>
          cases hdecide
          exact hsame ⟨⟨curr, hmem, hkey⟩, rfl⟩
        | get key =>
          cases hdecide
          exact hsame ⟨hmem, hkey, rfl⟩
      next hother =>
        have habove : rankOf (callKey call) < c.rank curr := by
          apply lt_of_le_of_ne
          · exact not_lt.mp fun hlt => hstop (hat.loop_iff.mpr hlt)
          · exact fun heq => hother (hat.found_iff.mpr heq.symm)
        cases call with
        | add => cases hdecide
        | remove key | get key =>
          cases hdecide
          exact hsame ⟨hat.no_member habove, rfl⟩
  | linkNode => cases hstep
  | @linkPred before after pred curr node key hcall hat habove =>
    subst hcall
    cases hstep
    have hholds := hat.link habove hpre
    refine ⟨⟨_, hholds⟩, ⟨hat.no_member habove, hpre.1, ?_⟩, [], rfl, .nil, ?_⟩
    · apply Set.ext
      intro n
      simp only [abs]
      rw [hholds.members_iff, Set.mem_insert_iff, hat.holds.members_iff]
      have hnode : node ≠ c.head ∧ node ≠ c.tail := ⟨hpre.2.1, hpre.2.2.1⟩
      grind
    · intro n
      refine iff_of_false List.not_mem_nil fun hand => hand.2 ?_
      simp only [abs]
      obtain ⟨hmem, hends⟩ := hat.holds.members_iff.mp hand.1
      refine hholds.members_iff.mpr ⟨?_, hends⟩
      grind
  | readSucc => cases hstep
  | unlink => cases hstep
  | @retire before after pred curr key hcall hat heq =>
    subst hcall
    cases hstep
    obtain ⟨hmem, hkey, htail⟩ := hat.member heq
    have hholds := hat.snip htail
    have hdiff : members c { m₀.setNext pred (m₀.next curr) with
        retired := curr :: (m₀.setNext pred (m₀.next curr)).retired } =
          members c m₀ \ {curr} := by
      apply Set.ext
      intro n
      rw [Set.mem_sdiff, Set.mem_singleton_iff, hat.holds.members_iff]
      refine hholds.members_iff.trans ?_
      rw [hat.snip_mem]
      tauto
    refine ⟨⟨_, hholds⟩, ⟨curr, hmem, hkey, hdiff⟩, [curr], rfl, List.nodup_singleton _, ?_⟩
    intro n
    dsimp only [abs]
    rw [hdiff, List.mem_singleton, Set.mem_sdiff, Set.mem_singleton_iff]
    constructor
    · rintro rfl
      exact ⟨hmem, fun hand => hand.2 rfl⟩
    · rintro ⟨hin, hnot⟩
      exact Classical.byContradiction fun hne => hnot ⟨hin, hne⟩

omit [DecidableEq Node] [LinearOrder Key] in
theorem spec_members {key : Node → Key} {before after : Set Node × List Node}
    (h : spec key before call r after) {n : Node} (hn : n ∈ after.1) :
    n ∈ before.1 ∨ ∃ k, call = .add k n := by
  obtain ⟨hset, -⟩ := h
  cases call with
  | add k node =>
    rcases r with ok | found
    · cases ok with
      | true =>
        rw [hset.2.2] at hn
        rcases Set.mem_insert_iff.mp hn with rfl | hn
        · exact .inr ⟨k, rfl⟩
        · exact .inl hn
      | false =>
        rw [hset.2] at hn
        exact .inl hn
    · exact hset.elim
  | remove k =>
    rcases r with ok | found
    · cases ok with
      | true =>
        obtain ⟨m, -, -, hdiff⟩ := hset
        rw [hdiff] at hn
        exact .inl hn.1
      | false =>
        rw [hset.2] at hn
        exact .inl hn
    · exact hset.elim
  | get k =>
    rcases r with ok | found
    · exact hset.elim
    · cases found with
      | some m =>
        rw [hset.2.2] at hn
        exact .inl hn
      | none =>
        rw [hset.2] at hn
        exact .inl hn

theorem body_meets (c : Config Node Key) :
    (body c).Meets (Sound c) (pre c) apart (abs c) (spec c.key) := by
  have hreturns {i : Call Node Key} {m m' : Mem Node} {r : Result Node} (hsound : Sound c m)
      (hpre : pre c i m) (h : (body c).Returns i m m' r) :
      Sound c m' ∧ spec c.key (abs c m) i r (abs c m') := by
    obtain ⟨m₁, k, b, hreach, hstep⟩ := h
    exact (body_reaches hsound hreach).returns hsound hpre hstep
  constructor
  · intro i m m₁ k b m' x _ _ hreads
    cases hreads
  · intro i m m' r
    exact hreturns
  · intro i j m m' r hsound hi hj hapart h
    cases j with
    | remove => trivial
    | get => trivial
    | add k node =>
      refine ⟨hj.1, hj.2.1, hj.2.2.1, fun hmem => ?_⟩
      rcases spec_members (hreturns hsound hi h).2 hmem with hin | ⟨k', rfl⟩
      · exact hj.2.2.2 hin
      · exact hapart rfl
  · intro i m r _ hagain
    cases hagain

theorem body_goesOn (c : Config Node Key) :
    (body c).GoesOn (Sound c) (fun _ => True) (pre c) := by
  intro i m m₁ k hsound _ _ hreach
  exact ⟨(), (body_reaches hsound hreach).goesOn hsound⟩

/-- The visitor may write to the node that it is given. -/
def Frames (visitor : Node → Mem Node → Mem Node) : Prop :=
  ∀ n m k, k ≠ n → (visitor n m).next k = m.next k

/-- The loop of a visit goes along the list that is left. -/
theorem visitLoop_spec {visitor : Node → Mem Node → Mem Node} (hframes : Frames visitor)
    {rest : List Node} (hchain : Chain m.next curr c.tail (rest ++ [c.tail]))
    {rounds : Nat} (hrounds : rest.length < rounds) (visited : List Node) :
    visitLoop c visitor rounds m curr visited =
      some (rest.foldl (fun m n => visitor n m) m, rest.reverse ++ visited) := by
  induction rest generalizing m curr rounds visited with
  | nil =>
    obtain ⟨rounds, rfl⟩ := Nat.exists_eq_succ_of_ne_zero (Nat.ne_zero_of_lt hrounds)
    obtain rfl : c.tail = curr := Option.some.inj hchain.head
    rw [visitLoop, if_pos rfl]
    rfl
  | cons n rest ih =>
    obtain ⟨rounds, rfl⟩ := Nat.exists_eq_succ_of_ne_zero (Nat.ne_zero_of_lt hrounds)
    obtain rfl : n = curr := Option.some.inj hchain.head
    have hnodup : n ∉ rest ++ [c.tail] := (List.nodup_cons.mp hchain.nodup).1
    have htail : n ≠ c.tail := by
      rintro rfl
      simp at hnodup
    obtain ⟨next, rest', hrest⟩ := List.exists_cons_of_ne_nil
      (List.append_ne_nil_of_right_ne_nil rest (List.cons_ne_nil c.tail []))
    rw [List.cons_append, hrest] at hchain
    rw [hrest] at hnodup
    have hnext : m.next n = some next := (List.isChain_cons_cons.mp hchain.links).1
    have hbehind : Chain (visitor n m).next next c.tail (rest ++ [c.tail]) := by
      rw [hrest]
      apply hchain.tail.congr
      intro k hk _
      exact hframes n m k fun heq => hnodup (heq ▸ hk)
    rw [visitLoop, if_neg htail, hnext]
    simp only
    rw [ih hbehind (Nat.lt_of_succ_lt_succ hrounds) (n :: visited)]
    simp

/-- A visit of a list comes to every member once, in the order of the keys, also
when the visitor frees the nodes. -/
theorem visit_spec {visitor : Node → Mem Node → Mem Node} (hframes : Frames visitor)
    (hsound : Sound c m) : ∃ visited : List Node,
      (∃ bound, ∀ rounds, bound < rounds →
        visit c visitor rounds m = some (visited.foldl (fun m n => visitor n m) m,
          visited.reverse)) ∧
      visited.Pairwise (fun a b => c.key a < c.key b) ∧ ∀ n, n ∈ visited ↔ n ∈ members c m := by
  obtain ⟨nodes, hnodes⟩ := hsound
  obtain ⟨curr, rest, hcurr, rfl⟩ := hnodes.first
  have hchain := hnodes.chain.tail
  obtain ⟨visited, hvisited⟩ := List.getLast?_eq_some_iff.mp hchain.last
  rw [hvisited] at hchain hnodes
  obtain ⟨hhead, hnodup⟩ := List.nodup_cons.mp hnodes.chain.nodup
  obtain ⟨-, -, hdisjoint⟩ := List.nodup_append'.mp hnodup
  have hends (n : Node) (hn : n ∈ visited) : n ≠ c.head ∧ n ≠ c.tail := by
    constructor
    · rintro rfl
      exact hhead (List.mem_append_left _ hn)
    · rintro rfl
      exact hdisjoint hn List.mem_cons_self
  refine ⟨visited, ⟨visited.length, fun rounds hrounds => ?_⟩, ?_, fun n => ?_⟩
  · rw [visit, hcurr, Option.bind_some, visitLoop_spec hframes hchain hrounds, List.append_nil]
  · have hsorted := (List.pairwise_append.mp (List.pairwise_cons.mp hnodes.sorted).2).1
    apply hsorted.imp_of_mem
    intro a b ha hb hlt
    rw [Config.rank_of_ne (hends a ha).1 (hends a ha).2,
      Config.rank_of_ne (hends b hb).1 (hends b hb).2] at hlt
    exact WithTop.coe_lt_coe.mp (WithBot.coe_lt_coe.mp hlt)
  · rw [hnodes.members_iff]
    constructor
    · intro hn
      exact ⟨List.mem_cons_of_mem _ (List.mem_append_left _ hn), hends n hn⟩
    · rintro ⟨hn, hne, htail⟩
      rcases List.mem_cons.mp hn with heq | hn
      · exact absurd heq hne
      · rcases List.mem_append.mp hn with hn | hn
        · exact hn
        · exact absurd (List.mem_singleton.mp hn) htail

variable {Tid : Type} [DecidableEq Tid]

abbrev State (Tid Node Key : Type) [DecidableEq Tid] :=
  Locked.State (Spinlock.ttaslock Tid) (Mem Node) (Call Node Key) (Result Node) (Loc Node)

abbrev Act (Tid Node Key : Type) := Locked.Act Tid (Call Node Key) Unit

structure Safe (c : Config Node Key) (past : List (State Tid Node Key × Act Tid Node Key))
    (s : State Tid Node Key) : Prop where
  /-- The calls are atomic operations of a set, and each removal retires what it takes out. -/
  atomic : Linear (machine Tid c) Locked.Act.thread (Locked.view _ (abs c)) (spec c.key) past s
  alone : ∀ t u i j k k', s.pc t = .inside i k → s.pc u = .inside j k' → u = t
  inside : ∀ t i k, s.pc t = .inside i k →
    ∃ s', (machine Tid c).step s (.body t ()) = some s'
  goesOn : ∀ t, s.pc t ≠ .idle →
    ∃ a s', s.pc (Locked.Act.thread a) ≠ .idle ∧ (machine Tid c).step s a = some s'
  /-- When no call is under way, a visit comes to each node of the set once. -/
  visits : (∀ t, s.pc t = .idle) → ∀ visitor, Frames visitor → ∃ visited : List Node,
    (∃ bound, ∀ rounds, bound < rounds → visit c visitor rounds s.mem =
      some (visited.foldl (fun m n => visitor n m) s.mem, visited.reverse)) ∧
    visited.Pairwise (fun a b => c.key a < c.key b) ∧ ∀ n, n ∈ visited ↔ n ∈ members c s.base

theorem listset_coarse_safe {past : List (State Tid Node Key × Act Tid Node Key)}
    {s : State Tid Node Key} (run : (machine Tid c).Run past s)
    (hcalls : AllSteps (Locked.Allowed (pre c) apart) past) : Safe c past s := by
  have hinit : ∀ m, Initial c m → Sound c m := by
    intro m h
    refine ⟨[c.head, c.tail], ⟨?_, rfl, rfl, ?_⟩, ?_⟩
    · exact List.isChain_cons_cons.mpr ⟨h.next, .singleton _⟩
    · simp [c.distinct]
    · simp [Config.rank, c.distinct.symm]
  have h := Locked.run_inv (body_meets c) hinit run hcalls
  constructor
  · exact Locked.linear (body_meets c) hinit run hcalls
  · intro t u i j k k' ht hu
    exact h.alone (h.exclusive ht rfl) hu
  · intro t i k ht
    obtain ⟨_, hs⟩ := h.bodyGoesOn (body_goesOn c) trivial ht
    exact hs
  · intro t ht
    exact h.goesOn (body_goesOn c) trivial ht
  · intro hidle visitor hframes
    rw [h.idle hidle]
    exact visit_spec hframes h.sound

/-- A lookup waits for the lock while a node is being linked in. -/
def addGet : List (Act Bool (Fin 4) Nat) :=
  List.flatten [
    [.call false (.get 2), .lock true, .lock true],
    List.replicate 4 (.body true ()), [.lock true, .lock false, .lock false],
    List.replicate 2 (.body false ())]

open ListsetLf (numbered nodeTwo)

/-- A list without nodes. -/
def emptyList : Mem (Fin 4) where
  next n := if n = numbered.head then some numbered.tail else none
  retired := []

def empty : State Bool (Fin 4) Nat where
  lock := Spinlock.Caslock.init
  mem := emptyList
  base := emptyList
  pc := fun _ => .idle

theorem listset_coarse_safe_add :
    ∃ past s, (machine Bool numbered).Run past s ∧ Safe numbered past s ∧
      s.pc true = .leaves (.add 2 nodeTwo) (.success true) ∧
      s.pc false = .leaves (.get 2) (.found (some nodeTwo)) := by
  have hexec : ((machine Bool numbered).exec empty (.call true (.add 2 nodeTwo) :: addGet)).map
      (fun s => (s.pc true, s.pc false)) =
        some (.leaves (.add 2 nodeTwo) (.success true), .leaves (.get 2)
        (.found (some nodeTwo))) := by
    rfl
  obtain ⟨s, hs, hpcs⟩ := Option.map_eq_some_iff.mp hexec
  obtain ⟨hadd, hget⟩ := Prod.mk.inj hpcs
  have hstart : (machine Bool numbered).start empty := ⟨rfl, ⟨rfl, rfl⟩, rfl, rfl⟩
  obtain ⟨s₁, hcall, hrest⟩ := Option.bind_eq_some_iff.mp hs
  have run := ((Machine.Run.start hstart).step hcall).exec hrest
  refine ⟨_, s, run, listset_coarse_safe run (Locked.allowed_exec ?_ ?_ s₁), hadd, hget⟩
  · refine AllSteps.cons ?_ (fun _ hp => absurd hp List.not_mem_nil)
    have hempty : Holds numbered empty.base.next [0, 1] := by
      refine ⟨⟨List.isChain_cons_cons.mpr ⟨rfl, .singleton _⟩, rfl, rfl, by decide⟩, ?_⟩
      simp [Config.rank, numbered]
    refine ⟨⟨rfl, by decide, by decide, fun hmem => ?_⟩, fun u j hu => by cases hu⟩
    exact absurd (hempty.members_iff.mp hmem).1 (by decide)
  · intro a ha s
    have hget : Locked.Allowed (pre numbered) apart s (.call false (.get 2) : Act Bool _ _) := by
      refine ⟨trivial, fun v j _ => ⟨trivial, ?_⟩⟩
      cases j <;> trivial
    simp only [addGet, List.flatten_cons, List.flatten_nil, List.mem_append, List.mem_cons,
      List.mem_replicate, List.not_mem_nil, or_false] at ha
    rcases ha with (rfl | rfl | rfl) | ⟨-, rfl⟩ | (rfl | rfl | rfl) | ⟨-, rfl⟩
    · exact hget
    all_goals trivial

end Libvsync.Map.ListsetCoarse
