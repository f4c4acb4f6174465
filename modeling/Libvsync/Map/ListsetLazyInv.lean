import Libvsync.Map.ListsetLazy

/-!
The shared state of the lazy list set. The nodes that are linked and not
detached are the sorted list; a detached node is marked. The mark and the
pointer of a node change only in the hands of the thread that has locked it, and
those of a node that is not linked in the hands of its adder. Every step has one
of a few effects, each of which keeps the list and what the other threads rely on.
-/

namespace Libvsync.Map.ListsetLazy

open Libvsync.Core Function
open Libvsync.Map.ListsetLf (Config rankOf)

variable {Tid Node Key : Type} [DecidableEq Node] [LinearOrder Key]

structure Shared (c : Config Node Key) (s : State Tid Node Key) : Prop where
  list : SortedList c.rank c.head c.tail s.next s.linked s.detached
  frozen : ∀ n, s.detached n = true → s.linked n = true ∧ s.marked n = true
  sentinels : s.marked c.head = false ∧ s.marked c.tail = false
  known : ∀ n, s.linked n = true → s.inUse n = true ∨ n = c.head ∨ n = c.tail
  retired : ∀ n ∈ s.retired, s.detached n = true
  once : s.retired.Nodup

/-- What a search for `k` has found. -/
structure Place (c : Config Node Key) (s : State Tid Node Key) (k : Key) (pred curr : Node) :
    Prop where
  predLinked : s.linked pred = true
  currLinked : s.linked curr = true
  below : c.rank pred < rankOf k
  above : rankOf k ≤ c.rank curr

/-- Both nodes are locked. -/
structure Locked (s : State Tid Node Key) (t : Tid) (pred curr : Node) : Prop where
  predHeld : s.owner pred = some t
  currHeld : s.owner curr = some t

/-- What `_vlistset_validate` has found: the nodes are in the list, and
neighbours. -/
structure Valid (c : Config Node Key) (s : State Tid Node Key) (t : Tid) (k : Key)
    (pred curr : Node) : Prop extends Place c s k pred curr, Locked s t pred curr where
  predIn : s.marked pred = false
  currIn : s.marked curr = false
  link : s.next pred = some curr

/-- The removal of `curr` is under way: it is marked and not detached. -/
structure Removing (c : Config Node Key) (s : State Tid Node Key) (t : Tid) (k : Key)
    (pred curr : Node) : Prop extends Place c s k pred curr, Locked s t pred curr where
  predIn : s.marked pred = false
  marked : s.marked curr = true
  attached : s.detached curr = false
  link : s.next pred = some curr
  notTail : curr ≠ c.tail

def OpOk (c : Config Node Key) (k : Key) : Op Node → Prop
  | .add node => c.key node = k
  | .remove => True

def FateOk (c : Config Node Key) (k : Key) : Fate Node → Prop
  | .again op => OpOk c k op
  | .stop _ => True

/-- The node that a thread is adding: not linked, and no other thread knows it. -/
def Op.owned : Op Node → List Node
  | .add node => [node]
  | .remove => []

def Fate.owned : Fate Node → List Node
  | .again op => op.owned
  | .stop (.added node false) => [node]
  | .stop _ => []

def Pc.owned : Pc Node Key → List Node
  | .findRead _ op _ | .lockPred _ op _ _ | .lockCurr _ op _ _ | .checkPred _ op _ _
  | .checkCurr _ op _ _ | .checkNext _ op _ _ => op.owned
  | .addInit _ node _ _ | .addUnmark _ node _ _ | .addNext _ node _ _ | .addLink _ node _ _ =>
    [node]
  | .unlockPred _ fate _ _ | .unlockCurr _ fate _ => fate.owned
  | .ret _ (.added node false) => [node]
  | _ => []

def PcOk (c : Config Node Key) (s : State Tid Node Key) (t : Tid) : Pc Node Key → Prop
  | .idle | .ret _ _ => True
  | .findRead k op pred => OpOk c k op ∧ s.linked pred = true ∧ c.rank pred < rankOf k
  | .lockPred k op pred curr => OpOk c k op ∧ Place c s k pred curr
  | .lockCurr k op pred curr => OpOk c k op ∧ Place c s k pred curr ∧ s.owner pred = some t
  | .checkPred k op pred curr => OpOk c k op ∧ Place c s k pred curr ∧ Locked s t pred curr
  | .checkCurr k op pred curr => OpOk c k op ∧ Place c s k pred curr ∧ Locked s t pred curr ∧
      s.marked pred = false
  | .checkNext k op pred curr => OpOk c k op ∧ Place c s k pred curr ∧ Locked s t pred curr ∧
      s.marked pred = false ∧ s.marked curr = false
  | .addInit k node pred curr | .addUnmark k node pred curr =>
    c.key node = k ∧ Valid c s t k pred curr ∧ rankOf k < c.rank curr
  | .addNext k node pred curr =>
    c.key node = k ∧ Valid c s t k pred curr ∧ rankOf k < c.rank curr ∧ s.marked node = false
  | .addLink k node pred curr =>
    c.key node = k ∧ Valid c s t k pred curr ∧ rankOf k < c.rank curr ∧
      s.marked node = false ∧ s.next node = some curr
  | .removeMark k pred curr =>
    Valid c s t k pred curr ∧ c.rank curr = rankOf k ∧ curr ≠ c.tail
  | .removeNext k pred curr => Removing c s t k pred curr
  | .removeDetach k pred curr succ => Removing c s t k pred curr ∧ s.next curr = succ
  | .removeRetire k pred curr => Place c s k pred curr ∧ Locked s t pred curr ∧
      s.detached curr = true ∧ curr ∉ s.retired
  | .unlockPred k fate pred curr => FateOk c k fate ∧ Place c s k pred curr ∧
      Locked s t pred curr
  | .unlockCurr k fate curr => FateOk c k fate ∧ s.linked curr = true ∧ s.owner curr = some t
  | .getRead k pred => s.linked pred = true ∧ c.rank pred < rankOf k
  | .getMark k curr => s.linked curr = true ∧ c.rank curr = rankOf k ∧ curr ≠ c.tail
  | .crashed => False

structure Inv (c : Config Node Key) (s : State Tid Node Key) : Prop where
  shared : Shared c s
  pc : ∀ t, PcOk c s t (s.pc t)
  owned : ∀ t, ∀ n ∈ (s.pc t).owned, s.inUse n = true ∧ s.linked n = false
  apart : ∀ t u n, n ∈ (s.pc t).owned → n ∈ (s.pc u).owned → t = u

/-- The effects of a step of thread `t` on the shared state; the nodes `mine`
belong to the thread. -/
inductive Effect (c : Config Node Key) (s : State Tid Node Key) (t : Tid) (mine : List Node) :
    State Tid Node Key → Prop
  | none : Effect c s t mine s
  | take (node : Node) (fresh : s.inUse node = false) :
      Effect c s t mine { s with inUse := update s.inUse node true }
  | give (node : Node) (own : node ∈ mine) :
      Effect c s t mine { s with inUse := update s.inUse node false }
  | acquire (n : Node) (free : s.owner n = none) :
      Effect c s t mine { s with owner := update s.owner n (some t) }
  | release (n : Node) (held : s.owner n = some t ∨ n ∈ mine) : Effect c s t mine (s.release n)
  | unmark (node : Node) (own : node ∈ mine) :
      Effect c s t mine { s with marked := update s.marked node false }
  | point (node : Node) (own : node ∈ mine) (link : Option Node) :
      Effect c s t mine { s with next := update s.next node link }
  | link (k : Key) (pred node curr : Node) (own : node ∈ mine) (valid : Valid c s t k pred curr)
      (key : c.key node = k) (above : rankOf k < c.rank curr) (unmarked : s.marked node = false)
      (point : s.next node = some curr) :
      Effect c s t mine { s with
        next := update s.next pred (some node)
        linked := update s.linked node true }
  | mark (k : Key) (pred curr : Node) (valid : Valid c s t k pred curr) (notTail : curr ≠ c.tail) :
      Effect c s t mine { s with marked := update s.marked curr true }
  | detach (k : Key) (pred curr succ : Node) (removing : Removing c s t k pred curr)
      (succ_eq : s.next curr = some succ) :
      Effect c s t mine { s with
        next := update s.next pred (some succ)
        detached := update s.detached curr true }
  | retire (n : Node) (held : s.owner n = some t) (gone : s.detached n = true)
      (first : n ∉ s.retired) :
      Effect c s t mine { s with retired := n :: s.retired }

variable {c : Config Node Key} {s s' : State Tid Node Key} {t u : Tid} {mine : List Node}

theorem Place.ne {k : Key} {pred curr : Node} (h : Place c s k pred curr) : pred ≠ curr := by
  rintro rfl
  exact absurd h.below (not_lt_of_ge h.above)

theorem Place.currNotHead {k : Key} {pred curr : Node} (h : Place c s k pred curr) :
    curr ≠ c.head :=
  Config.ne_head_of_lt (h.below.trans_le h.above)

theorem Shared.inList (h : Shared c s) {n : Node} (hlinked : s.linked n = true)
    (hmarked : s.marked n = false) : InList s.linked s.detached n := by
  refine ⟨hlinked, ?_⟩
  by_contra hdetached
  rw [(h.frozen n (by simpa using hdetached)).2] at hmarked
  cases hmarked

theorem Shared.members_iff (h : Shared c s) {n : Node} :
    n ∈ members c s ↔
      s.linked n = true ∧ s.marked n = false ∧ n ≠ c.head ∧ n ≠ c.tail := by
  constructor
  · rintro ⟨hreach, hrest⟩
    exact ⟨(h.list.reaches_iff.mp hreach).1, hrest⟩
  · rintro ⟨hlinked, hmarked, hne⟩
    exact ⟨h.list.reaches_iff.mpr (h.inList hlinked hmarked), hmarked, hne⟩

theorem Shared.members_eq (h : Shared c s) (h' : Shared c s') (hlinked : s'.linked = s.linked)
    (hmarked : ∀ n, s.linked n = true → s'.marked n = s.marked n) :
    members c s' = members c s := by
  ext n
  rw [h.members_iff, h'.members_iff, hlinked]
  constructor
  · rintro ⟨hn, hm, hne⟩
    exact ⟨hn, (hmarked n hn).symm.trans hm, hne⟩
  · rintro ⟨hn, hm, hne⟩
    exact ⟨hn, (hmarked n hn).trans hm, hne⟩

/-- No member has the key when nothing of the list lies in its place. -/
theorem Shared.absent (h : Shared c s) {k : Key} {pred curr : Node}
    (hpred : InList s.linked s.detached pred) (hlink : s.next pred = some curr)
    (hbelow : c.rank pred < rankOf k) (habove : rankOf k < c.rank curr) :
    ∀ m ∈ members c s, c.key m ≠ k := by
  intro m hm hkey
  obtain ⟨hlinked, hmarked, hhead, htail⟩ := h.members_iff.mp hm
  have hrank : c.rank m = rankOf k := by
    rw [Config.rank_of_ne hhead htail, hkey]
  rcases h.list.gap hpred hlink (h.inList hlinked hmarked) with hle | hle
  · rw [hrank] at hle
    exact absurd hbelow (not_lt_of_ge hle)
  · rw [hrank] at hle
    exact absurd habove (not_lt_of_ge hle)

theorem Shared.absent_marked (h : Shared c s) {k : Key} {n : Node}
    (hn : InList s.linked s.detached n) (hrank : c.rank n = rankOf k) (hmark : s.marked n = true) :
    ∀ m ∈ members c s, c.key m ≠ k := by
  intro m hm hkey
  obtain ⟨hlinked, hmarked, hhead, htail⟩ := h.members_iff.mp hm
  have hmn : m = n := by
    apply h.list.rank_inj (h.inList hlinked hmarked) hn
    rw [hrank, Config.rank_of_ne hhead htail, hkey]
  rw [hmn, hmark] at hmarked
  cases hmarked

theorem Valid.predInList {k : Key} {pred curr : Node} (h : Shared c s)
    (hv : Valid c s t k pred curr) : InList s.linked s.detached pred :=
  h.inList hv.predLinked hv.predIn

theorem Removing.predInList {k : Key} {pred curr : Node} (h : Shared c s)
    (hv : Removing c s t k pred curr) : InList s.linked s.detached pred :=
  h.inList hv.predLinked hv.predIn

theorem Effect.pc_eq (e : Effect c s t mine s') : s'.pc = s.pc := by
  cases e <;> rfl

theorem Effect.linked_mono (e : Effect c s t mine s') {n : Node} (hn : s.linked n = true) :
    s'.linked n = true := by
  cases e with
  | link k pred node curr =>
    by_cases hne : n = node
    · exact hne ▸ update_self ..
    · exact (update_of_ne hne _ _).trans hn
  | _ => exact hn

theorem Effect.shared (e : Effect c s t mine s') (h : Shared c s)
    (hmine : ∀ n ∈ mine, s.inUse n = true ∧ s.linked n = false) : Shared c s' := by
  have hother {n m : Node} (hn : s.linked n = true) (hm : m ∈ mine) : n ≠ m := by
    rintro rfl
    rw [(hmine n hm).2] at hn
    cases hn
  have hhead : s.linked c.head = true := h.list.first_in.1
  have htail : s.linked c.tail = true := h.list.last_in.1
  cases e with
  | none => exact h
  | acquire | release => exact { h with }
  | take node fresh =>
    refine { h with known := ?_ }
    intro n hn
    by_cases hne : n = node
    · exact .inl (hne ▸ update_self ..)
    · rcases h.known n hn with hin | hsentinel
      · exact .inl ((update_of_ne hne _ _).trans hin)
      · exact .inr hsentinel
  | give node own =>
    refine { h with known := ?_ }
    intro n hn
    rcases h.known n hn with hin | hsentinel
    · exact .inl ((update_of_ne (hother hn own) _ _).trans hin)
    · exact .inr hsentinel
  | unmark node own =>
    refine { h with frozen := ?_, sentinels := ?_ }
    · intro n hn
      obtain ⟨hlinked, hmarked⟩ := h.frozen n hn
      exact ⟨hlinked, (update_of_ne (hother hlinked own) _ _).trans hmarked⟩
    · exact ⟨(update_of_ne (hother hhead own) _ _).trans h.sentinels.1,
        (update_of_ne (hother htail own) _ _).trans h.sentinels.2⟩
  | point node own link => exact { h with list := h.list.prepare (hmine node own).2 link }
  | link k pred node curr own valid key above unmarked point =>
    obtain ⟨hinUse, hunlinked⟩ := hmine node own
    have hnodeHead : node ≠ c.head := (hother hhead own).symm
    have hnodeTail : node ≠ c.tail := (hother htail own).symm
    have hrank : c.rank node = rankOf k := by
      rw [Config.rank_of_ne hnodeHead hnodeTail, key]
    have hattached : s.detached node = false := by
      by_contra hd
      rw [(h.frozen node (by simpa using hd)).1] at hunlinked
      cases hunlinked
    refine { h with list := ?_, frozen := ?_, known := ?_ }
    · apply h.list.link (valid.predInList h) valid.link hunlinked hattached point
      · rw [hrank]
        exact valid.below
      · rw [hrank]
        exact above
    · intro n hn
      obtain ⟨hlinked, hmarked⟩ := h.frozen n hn
      exact ⟨(update_of_ne (hother hlinked own) _ _).trans hlinked, hmarked⟩
    · intro n hn
      by_cases hne : n = node
      · exact .inl (hne ▸ hinUse)
      · exact h.known n ((update_of_ne hne _ _).symm.trans hn)
  | mark k pred curr valid notTail =>
    refine { h with frozen := ?_, sentinels := ?_ }
    · intro n hn
      obtain ⟨hlinked, hmarked⟩ := h.frozen n hn
      refine ⟨hlinked, ?_⟩
      by_cases hne : n = curr
      · exact hne ▸ update_self ..
      · exact (update_of_ne hne _ _).trans hmarked
    · exact ⟨(update_of_ne valid.currNotHead.symm _ _).trans h.sentinels.1,
        (update_of_ne notTail.symm _ _).trans h.sentinels.2⟩
  | detach k pred curr succ removing succ_eq =>
    have hgone {n : Node} (hn : s.detached n = true) :
        update s.detached curr true n = true := by
      by_cases hne : n = curr
      · exact hne ▸ update_self ..
      · exact (update_of_ne hne _ _).trans hn
    refine { h with list := ?_, frozen := ?_, retired := ?_ }
    · exact h.list.detach (removing.predInList h) removing.link succ_eq
    · intro n hn
      by_cases hne : n = curr
      · subst hne
        exact ⟨removing.currLinked, removing.marked⟩
      · exact h.frozen n ((update_of_ne hne _ _).symm.trans hn)
    · exact fun n hn => hgone (h.retired n hn)
  | retire n held gone first =>
    refine { h with retired := ?_, once := List.nodup_cons.mpr ⟨first, h.once⟩ }
    intro m hm
    rcases List.mem_cons.mp hm with rfl | hm
    · exact gone
    · exact h.retired m hm

/-- What a step of another thread leaves of the nodes of thread `u`: those it has
locked, and those that belong to it. -/
structure Keeps (s s' : State Tid Node Key) (u : Tid) (mine : List Node) : Prop where
  linked : ∀ n, s.linked n = true → s'.linked n = true
  held : ∀ n, s.linked n = true → s.owner n = some u → s'.owner n = some u ∧
    s'.next n = s.next n ∧ s'.marked n = s.marked n ∧ s'.detached n = s.detached n ∧
    (n ∈ s'.retired → n ∈ s.retired)
  own : ∀ n ∈ mine, (s.inUse n = true → s'.inUse n = true) ∧
    (s.linked n = false → s'.linked n = false) ∧ s'.next n = s.next n ∧ s'.marked n = s.marked n

theorem Effect.keeps (e : Effect c s t (s.pc t).owned s') (h : Inv c s) (hu : u ≠ t) :
    Keeps s s' u (s.pc u).owned := by
  have hmine {n m : Node} (hn : s.linked n = true) (hm : m ∈ (s.pc t).owned) : n ≠ m := by
    rintro rfl
    rw [(h.owned t n hm).2] at hn
    cases hn
  have htheirs {n m : Node} (hn : n ∈ (s.pc u).owned) (hm : m ∈ (s.pc t).owned) : n ≠ m := by
    rintro rfl
    exact hu (h.apart u t n hn hm)
  have hlocked {n m : Node} (hn : s.owner n = some u) (hm : s.owner m = some t) : n ≠ m := by
    rintro rfl
    rw [hn] at hm
    exact hu (Option.some.inj hm)
  have hlinkedNe {n m : Node} (hn : n ∈ (s.pc u).owned) (hm : s.linked m = true) : n ≠ m := by
    rintro rfl
    rw [(h.owned u n hn).2] at hm
    cases hm
  refine ⟨fun n hn => e.linked_mono hn, ?_, ?_⟩
  · intro n hn hheld
    cases e with
    | none | take | give => exact ⟨hheld, rfl, rfl, rfl, id⟩
    | acquire m free =>
      have hne : n ≠ m := by
        rintro rfl
        rw [free] at hheld
        cases hheld
      exact ⟨(update_of_ne hne _ _).trans hheld, rfl, rfl, rfl, id⟩
    | release m held =>
      have hne : n ≠ m := held.elim (hlocked hheld) (hmine hn)
      exact ⟨(update_of_ne hne _ _).trans hheld, rfl, rfl, rfl, id⟩
    | unmark node own =>
      exact ⟨hheld, rfl, update_of_ne (hmine hn own) _ _, rfl, id⟩
    | point node own link =>
      exact ⟨hheld, update_of_ne (hmine hn own) _ _, rfl, rfl, id⟩
    | link k pred node curr own valid =>
      exact ⟨hheld, update_of_ne (hlocked hheld valid.predHeld) _ _, rfl, rfl, id⟩
    | mark k pred curr valid =>
      exact ⟨hheld, rfl, update_of_ne (hlocked hheld valid.currHeld) _ _, rfl, id⟩
    | detach k pred curr succ removing =>
      exact ⟨hheld, update_of_ne (hlocked hheld removing.predHeld) _ _, rfl,
        update_of_ne (hlocked hheld removing.currHeld) _ _, id⟩
    | retire m held =>
      refine ⟨hheld, rfl, rfl, rfl, fun hmem => ?_⟩
      exact (List.mem_cons.mp hmem).resolve_left (hlocked hheld held)
  · intro n hn
    have hinUse := (h.owned u n hn).1
    cases e with
    | none | acquire | release | retire => exact ⟨id, id, rfl, rfl⟩
    | take node fresh =>
      have hne : n ≠ node := by
        rintro rfl
        rw [fresh] at hinUse
        cases hinUse
      exact ⟨fun _ => (update_of_ne hne _ _).trans hinUse, id, rfl, rfl⟩
    | give node own =>
      exact ⟨(update_of_ne (htheirs hn own) _ _).trans, id, rfl, rfl⟩
    | unmark node own =>
      exact ⟨id, id, rfl, update_of_ne (htheirs hn own) _ _⟩
    | point node own link =>
      exact ⟨id, id, update_of_ne (htheirs hn own) _ _, rfl⟩
    | link k pred node curr own valid =>
      exact ⟨id, (update_of_ne (htheirs hn own) _ _).trans,
        update_of_ne (hlinkedNe hn valid.predLinked) _ _, rfl⟩
    | mark k pred curr valid =>
      exact ⟨id, id, rfl,
        update_of_ne (hlinkedNe hn valid.currLinked) _ _⟩
    | detach k pred curr succ removing =>
      exact ⟨id, id,
        update_of_ne (hlinkedNe hn removing.predLinked) _ _, rfl⟩

/-- A node in the list stays in it, or leaves it with its pointer and its mark. -/
theorem Effect.leaves (e : Effect c s t mine s') {n : Node} (hn : InList s.linked s.detached n) :
    InList s'.linked s'.detached n ∨
      (s'.linked n = true ∧ s'.detached n = true) ∧ s'.next n = s.next n ∧
        s'.marked n = s.marked n := by
  have hlinked := e.linked_mono hn.1
  cases e with
  | detach k pred curr succ removing =>
    by_cases hne : n = curr
    · subst hne
      exact .inr ⟨⟨hlinked, update_self ..⟩,
        update_of_ne removing.ne.symm _ _, rfl⟩
    · exact .inl ⟨hlinked, (update_of_ne hne _ _).trans hn.2⟩
  | _ => exact .inl ⟨hlinked, hn.2⟩

/-- A detached node keeps its pointer and its mark. -/
theorem Effect.gone (e : Effect c s t mine s') (h : Shared c s)
    (hmine : ∀ n ∈ mine, s.linked n = false) {n : Node}
    (hn : s.linked n = true ∧ s.detached n = true) :
    (s'.linked n = true ∧ s'.detached n = true) ∧ s'.next n = s.next n ∧
      s'.marked n = s.marked n := by
  have hlinked := e.linked_mono hn.1
  have hmarked := (h.frozen n hn.2).2
  have hunmarked {m : Node} (hm : s.marked m = false) : n ≠ m := by
    rintro rfl
    rw [hmarked] at hm
    cases hm
  have hother {m : Node} (hm : m ∈ mine) : n ≠ m := by
    rintro rfl
    rw [hmine n hm] at hn
    cases hn.1
  cases e with
  | unmark node own =>
    exact ⟨⟨hlinked, hn.2⟩, rfl, update_of_ne (hother own) _ _⟩
  | point node own link =>
    exact ⟨⟨hlinked, hn.2⟩, update_of_ne (hother own) _ _, rfl⟩
  | link k pred node curr own valid =>
    exact ⟨⟨hlinked, hn.2⟩, update_of_ne (hunmarked valid.predIn) _ _, rfl⟩
  | mark k pred curr valid =>
    exact ⟨⟨hlinked, hn.2⟩, rfl, update_of_ne (hunmarked valid.currIn) _ _⟩
  | detach k pred curr succ removing =>
    have hne : n ≠ curr := by
      rintro rfl
      rw [removing.attached] at hn
      cases hn.2
    exact ⟨⟨hlinked, (update_of_ne hne _ _).trans hn.2⟩,
      update_of_ne (hunmarked removing.predIn) _ _, rfl⟩
  | _ => exact ⟨⟨hlinked, hn.2⟩, rfl, rfl⟩

theorem Place.frame {k : Key} {pred curr : Node} (h : Place c s k pred curr)
    (keeps : Keeps s s' u mine) : Place c s' k pred curr :=
  ⟨keeps.linked pred h.predLinked, keeps.linked curr h.currLinked, h.below, h.above⟩

theorem Locked.frame {k : Key} {pred curr : Node} (h : Locked s u pred curr)
    (hplace : Place c s k pred curr) (keeps : Keeps s s' u mine) : Locked s' u pred curr :=
  ⟨(keeps.held pred hplace.predLinked h.predHeld).1, (keeps.held curr hplace.currLinked
  h.currHeld).1⟩

theorem Valid.frame {k : Key} {pred curr : Node} (h : Valid c s u k pred curr)
    (keeps : Keeps s s' u mine) : Valid c s' u k pred curr := by
  obtain ⟨-, hnext, hpred, -⟩ := keeps.held pred h.predLinked h.predHeld
  obtain ⟨-, -, hcurr, -⟩ := keeps.held curr h.currLinked h.currHeld
  exact { h.toPlace.frame keeps, h.toLocked.frame h.toPlace keeps with
    predIn := hpred.trans h.predIn
    currIn := hcurr.trans h.currIn
    link := hnext.trans h.link }

theorem Removing.frame {k : Key} {pred curr : Node} (h : Removing c s u k pred curr)
    (keeps : Keeps s s' u mine) : Removing c s' u k pred curr := by
  obtain ⟨-, hnext, hpred, -⟩ := keeps.held pred h.predLinked h.predHeld
  obtain ⟨-, -, hcurr, hdetached, -⟩ := keeps.held curr h.currLinked h.currHeld
  exact { h.toPlace.frame keeps, h.toLocked.frame h.toPlace keeps with
    predIn := hpred.trans h.predIn
    marked := hcurr.trans h.marked
    attached := hdetached.trans h.attached
    link := hnext.trans h.link
    notTail := h.notTail }

theorem PcOk.frame {pc : Pc Node Key} (hok : PcOk c s u pc) (keeps : Keeps s s' u pc.owned) :
    PcOk c s' u pc := by
  have hown := keeps.own
  cases pc with
  | idle | ret => trivial
  | findRead k op pred =>
    exact ⟨hok.1, keeps.linked pred hok.2.1, hok.2.2⟩
  | lockPred k op pred curr =>
    exact ⟨hok.1, hok.2.frame keeps⟩
  | lockCurr k op pred curr =>
    exact ⟨hok.1, hok.2.1.frame keeps, (keeps.held pred hok.2.1.predLinked hok.2.2).1⟩
  | checkPred k op pred curr | unlockPred k fate pred curr =>
    exact ⟨hok.1, hok.2.1.frame keeps, hok.2.2.frame hok.2.1 keeps⟩
  | checkCurr k op pred curr =>
    obtain ⟨hop, hplace, hlocked, hpred⟩ := hok
    exact ⟨hop, hplace.frame keeps, hlocked.frame hplace keeps,
      ((keeps.held pred hplace.predLinked hlocked.predHeld).2.2.1).trans hpred⟩
  | checkNext k op pred curr =>
    obtain ⟨hop, hplace, hlocked, hpred, hcurr⟩ := hok
    exact ⟨hop, hplace.frame keeps, hlocked.frame hplace keeps,
      ((keeps.held pred hplace.predLinked hlocked.predHeld).2.2.1).trans hpred,
      ((keeps.held curr hplace.currLinked hlocked.currHeld).2.2.1).trans hcurr⟩
  | addInit k node pred curr | addUnmark k node pred curr =>
    exact ⟨hok.1, hok.2.1.frame keeps, hok.2.2⟩
  | addNext k node pred curr =>
    obtain ⟨hkey, hvalid, habove, hmarked⟩ := hok
    obtain ⟨-, -, -, hsame⟩ := hown node (List.mem_singleton_self node)
    exact ⟨hkey, hvalid.frame keeps, habove, hsame.trans hmarked⟩
  | addLink k node pred curr =>
    obtain ⟨hkey, hvalid, habove, hmarked, hnext⟩ := hok
    obtain ⟨-, -, hsameNext, hsame⟩ := hown node (List.mem_singleton_self node)
    exact ⟨hkey, hvalid.frame keeps, habove, hsame.trans hmarked, hsameNext.trans hnext⟩
  | removeMark k pred curr =>
    exact ⟨hok.1.frame keeps, hok.2⟩
  | removeNext k pred curr =>
    exact Removing.frame hok keeps
  | removeDetach k pred curr succ =>
    obtain ⟨hremoving, hsucc⟩ := hok
    obtain ⟨-, hnext, -⟩ := keeps.held curr hremoving.currLinked hremoving.currHeld
    exact ⟨hremoving.frame keeps, hnext.trans hsucc⟩
  | removeRetire k pred curr =>
    obtain ⟨hplace, hlocked, hgone, hfirst⟩ := hok
    obtain ⟨-, -, -, hdetached, hretired⟩ :=
      keeps.held curr hplace.currLinked hlocked.currHeld
    exact ⟨hplace.frame keeps, hlocked.frame hplace keeps, hdetached.trans hgone,
      fun hmem => hfirst (hretired hmem)⟩
  | unlockCurr k fate curr =>
    exact ⟨hok.1, keeps.linked curr hok.2.1, (keeps.held curr hok.2.1 hok.2.2).1⟩
  | getRead k pred =>
    exact ⟨keeps.linked pred hok.1, hok.2⟩
  | getMark k curr =>
    exact ⟨keeps.linked curr hok.1, hok.2⟩
  | crashed =>
    exact hok

variable [DecidableEq Tid]

theorem PcOk.goto {pc : Pc Node Key} (h : PcOk c s t pc) (v : Tid) (pc' : Pc Node Key) :
    PcOk c (s.goto v pc') t pc :=
  h.frame ⟨fun _ => id, fun _ _ hn => ⟨hn, rfl, rfl, rfl, id⟩, fun _ _ => ⟨id, id, rfl, rfl⟩⟩

theorem Shared.goto (h : Shared c s) (v : Tid) (pc' : Pc Node Key) : Shared c (s.goto v pc') :=
  { h with }

/-- What a step of thread `t` does: its effect, its next place, which is right,
and the nodes that belong to it from then on. -/
structure Acts (c : Config Node Key) (s : State Tid Node Key) (t : Tid)
    (s' : State Tid Node Key) (pc' : Pc Node Key) : Prop where
  effect : Effect c s t (s.pc t).owned s'
  ok : PcOk c s' t pc'
  owned : ∀ n ∈ pc'.owned, s'.inUse n = true ∧ s'.linked n = false ∧
    (n ∈ (s.pc t).owned ∨ s.inUse n = false)

theorem Acts.inv {pc' : Pc Node Key} (a : Acts c s t s' pc') (h : Inv c s) :
    Inv c (s'.goto t pc') := by
  have hself : (s'.goto t pc').pc t = pc' := update_self ..
  have hothers (u : Tid) (hu : u ≠ t) : (s'.goto t pc').pc u = s.pc u := by
    simp only [State.goto, update_of_ne hu, a.effect.pc_eq]
  have halone {u : Tid} (hu : u ≠ t) {n : Node} (hn : n ∈ pc'.owned) : n ∉ (s.pc u).owned := by
    intro hmem
    rcases (a.owned n hn).2.2 with hold | hfresh
    · exact hu (h.apart u t n hmem hold)
    · rw [(h.owned u n hmem).1] at hfresh
      cases hfresh
  refine ⟨(a.effect.shared h.shared (h.owned t)).goto t pc', ?_, ?_, ?_⟩
  · intro u
    by_cases hu : u = t
    · subst hu
      rw [hself]
      exact a.ok.goto u pc'
    · rw [hothers u hu]
      exact ((h.pc u).frame (a.effect.keeps h hu)).goto t pc'
  · intro u n hn
    by_cases hu : u = t
    · subst hu
      rw [hself] at hn
      exact ⟨(a.owned n hn).1, (a.owned n hn).2.1⟩
    · rw [hothers u hu] at hn
      obtain ⟨hinUse, hunlinked, -⟩ := (a.effect.keeps h hu).own n hn
      exact ⟨hinUse (h.owned u n hn).1, hunlinked (h.owned u n hn).2⟩
  · intro u v n hu hv
    by_cases hut : u = t
    · by_cases hvt : v = t
      · rw [hut, hvt]
      · rw [hothers v hvt] at hv
        rw [hut, hself] at hu
        exact absurd hv (halone hvt hu)
    · rw [hothers u hut] at hu
      by_cases hvt : v = t
      · rw [hvt, hself] at hv
        exact absurd hu (halone hut hv)
      · rw [hothers v hvt] at hv
        exact h.apart u v n hu hv

end Libvsync.Map.ListsetLazy
