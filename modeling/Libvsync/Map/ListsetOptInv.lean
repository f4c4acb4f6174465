import Libvsync.Map.ListsetOpt

/-!
The shared state of the optimistic list set. The pointer of a linked node
changes only in the hands of the thread that has locked it and has found it in
the list, so that a detached node keeps its pointer, and every pointer that is
written leads to a node of the list. A node that was in the list when a
validation began therefore never leads to one that was detached then: this is
what makes the second walk conclusive.
-/

namespace Libvsync.Map.ListsetOpt

open Libvsync.Core Function
open Libvsync.Map.ListsetLf (Config rankOf)

variable {Tid Node Key : Type} [DecidableEq Node] [LinearOrder Key]

structure Shared (c : Config Node Key) (s : State Tid Node Key) : Prop where
  list : SortedList c.rank c.head c.tail s.next s.linked s.detached
  was : ∀ n, s.detached n = true → s.linked n = true
  known : ∀ n, s.linked n = true → s.inUse n = true ∨ n = c.head ∨ n = c.tail
  retired : ∀ n ∈ s.retired, s.detached n = true
  once : s.retired.Nodup

/-- What a search for `k` has found. -/
structure Place (c : Config Node Key) (s : State Tid Node Key) (k : Key) (pred curr : Node) :
    Prop where
  predLinked : s.linked pred = true
  currLinked : s.linked curr = true
  below : c.rank pred < rankOf k
  above : rankOf k ≤ c.rank curr

/-- Both nodes are locked. -/
structure Locked (s : State Tid Node Key) (t : Tid) (pred curr : Node) : Prop where
  predHeld : s.owner pred = some t
  currHeld : s.owner curr = some t

/-- What `_vlistset_validate` has found: the nodes are in the list, and
neighbours. -/
structure Valid (c : Config Node Key) (s : State Tid Node Key) (t : Tid) (k : Key)
    (pred curr : Node) : Prop extends Place c s k pred curr, Locked s t pred curr where
  predIn : s.detached pred = false
  link : s.next pred = some curr

/-- A validation under way: no node that was in the list when it began leads to
one that was detached then, and `pred` was detached then if it is now. -/
structure Walking (s : State Tid Node Key) (stale : Node → Bool) (pred node : Node) : Prop where
  gone : ∀ n, stale n = true → s.detached n = true
  closed : ∀ n m, s.linked n = true → stale n = false → s.next n = some m → stale m = false
  kept : s.detached pred = stale pred
  linked : s.linked node = true
  fresh : stale node = false

def OpOk (c : Config Node Key) (k : Key) : Op Node → Prop
  | .add node => c.key node = k
  | _ => True

def FateOk (c : Config Node Key) (k : Key) : Fate Node → Prop
  | .again op => OpOk c k op
  | .stop _ => True

/-- The node that a thread is adding: not linked, and no other thread knows it. -/
def Op.owned : Op Node → List Node
  | .add node => [node]
  | _ => []

def Fate.owned : Fate Node → List Node
  | .again op => op.owned
  | .stop (.added node false) => [node]
  | .stop _ => []

def Pc.owned : Pc Node Key → List Node
  | .findRead _ op _ | .lockPred _ op _ _ | .lockCurr _ op _ _ | .valWalk _ op _ _ _
  | .valNext _ op _ _ => op.owned
  | .addInit _ node _ _ | .addNext _ node _ _ | .addLink _ node _ _ => [node]
  | .unlockPred _ fate _ _ | .unlockCurr _ fate _ => fate.owned
  | .ret _ (.added node false) => [node]
  | _ => []

/-- The node that a thread has detached and not retired yet. -/
def Pc.victims : Pc Node Key → List Node
  | .unlockPred _ (.stop (.removed (some n))) _ _ | .unlockCurr _ (.stop (.removed (some n))) _
  | .retire _ n => [n]
  | _ => []

def PcOk (c : Config Node Key) (s : State Tid Node Key) (t : Tid) : Pc Node Key → Prop
  | .idle | .retire _ _ => True
  | .findRead k op pred => OpOk c k op ∧ s.linked pred = true ∧ c.rank pred < rankOf k
  | .lockPred k op pred curr => OpOk c k op ∧ Place c s k pred curr
  | .lockCurr k op pred curr => OpOk c k op ∧ Place c s k pred curr ∧ s.owner pred = some t
  | .valWalk k op pred curr node => OpOk c k op ∧ Place c s k pred curr ∧ Locked s t pred curr ∧
      Walking s (s.stale t) pred node ∧ c.rank node < rankOf k
  | .valNext k op pred curr => OpOk c k op ∧ Place c s k pred curr ∧ Locked s t pred curr ∧
      s.detached pred = false
  | .addInit k node pred curr | .addNext k node pred curr =>
    c.key node = k ∧ Valid c s t k pred curr ∧ rankOf k < c.rank curr
  | .addLink k node pred curr =>
    c.key node = k ∧ Valid c s t k pred curr ∧ rankOf k < c.rank curr ∧ s.next node = some curr
  | .removeNext k pred curr =>
    Valid c s t k pred curr ∧ c.rank curr = rankOf k ∧ curr ≠ c.tail
  | .removeDetach k pred curr succ =>
    Valid c s t k pred curr ∧ c.rank curr = rankOf k ∧ curr ≠ c.tail ∧ s.next curr = succ
  | .unlockPred k fate pred curr => FateOk c k fate ∧ Place c s k pred curr ∧
      Locked s t pred curr
  | .unlockCurr k fate curr => FateOk c k fate ∧ s.linked curr = true ∧ s.owner curr = some t
  | .ret _ outcome => ∀ n, outcome = .removed (some n) → n ∈ s.retired
  | .crashed => False

structure Inv (c : Config Node Key) (s : State Tid Node Key) : Prop where
  shared : Shared c s
  pc : ∀ t, PcOk c s t (s.pc t)
  owned : ∀ t, ∀ n ∈ (s.pc t).owned, s.inUse n = true ∧ s.linked n = false
  apart : ∀ t u n, n ∈ (s.pc t).owned → n ∈ (s.pc u).owned → t = u
  victims : ∀ t, ∀ n ∈ (s.pc t).victims, s.detached n = true ∧ n ∉ s.retired
  one : ∀ t u n, n ∈ (s.pc t).victims → n ∈ (s.pc u).victims → t = u
  accounted : ∀ n, s.detached n = true → n ∈ s.retired ∨ ∃ t, n ∈ (s.pc t).victims

/-- The effects of a step of thread `t` on the shared state; the nodes `mine`
belong to the thread, and it is to retire the nodes `victims`. -/
inductive Effect (c : Config Node Key) (s : State Tid Node Key) (t : Tid)
    (mine victims : List Node) : State Tid Node Key → Prop
  | none : Effect c s t mine victims s
  | take (node : Node) (fresh : s.inUse node = false) :
      Effect c s t mine victims { s with inUse := update s.inUse node true }
  | give (node : Node) (own : node ∈ mine) :
      Effect c s t mine victims { s with inUse := update s.inUse node false }
  | acquire (n : Node) (free : s.owner n = none) (stale : Tid → Node → Bool)
      (others : ∀ u, u ≠ t → stale u = s.stale u) :
      Effect c s t mine victims
        { s with owner := update s.owner n (some t), stale := stale }
  | release (n : Node) (held : s.owner n = some t ∨ n ∈ mine) :
      Effect c s t mine victims (s.release n)
  | point (node : Node) (own : node ∈ mine) (link : Option Node) :
      Effect c s t mine victims { s with next := update s.next node link }
  | link (k : Key) (pred node curr : Node) (own : node ∈ mine) (valid : Valid c s t k pred curr)
      (key : c.key node = k) (above : rankOf k < c.rank curr) (point : s.next node = some curr) :
      Effect c s t mine victims { s with
        next := update s.next pred (some node)
        linked := update s.linked node true }
  | detach (k : Key) (pred curr succ : Node) (valid : Valid c s t k pred curr)
      (succ_eq : s.next curr = some succ) :
      Effect c s t mine victims { s with
        next := update s.next pred (some succ)
        detached := update s.detached curr true }
  | retire (n : Node) (victim : n ∈ victims) :
      Effect c s t mine victims { s with retired := n :: s.retired }

variable {c : Config Node Key} {s s' : State Tid Node Key} {t u : Tid} {mine victims : List Node}

theorem Place.ne {k : Key} {pred curr : Node} (h : Place c s k pred curr) : pred ≠ curr := by
  rintro rfl
  exact absurd h.below (not_lt_of_ge h.above)

theorem Place.currNotHead {k : Key} {pred curr : Node} (h : Place c s k pred curr) :
    curr ≠ c.head :=
  Config.ne_head_of_lt (h.below.trans_le h.above)

theorem Valid.predInList {k : Key} {pred curr : Node} (h : Valid c s t k pred curr) :
    InList s.linked s.detached pred :=
  ⟨h.predLinked, h.predIn⟩

theorem Valid.currInList {k : Key} {pred curr : Node} (hv : Valid c s t k pred curr)
    (h : Shared c s) : InList s.linked s.detached curr :=
  h.list.next_in hv.predInList hv.link

theorem Shared.members_iff (h : Shared c s) {n : Node} :
    n ∈ members c s ↔ InList s.linked s.detached n ∧ n ≠ c.head ∧ n ≠ c.tail := by
  rw [← h.list.reaches_iff]
  rfl

theorem Shared.members_eq (h : Shared c s) (h' : Shared c s') (hlinked : s'.linked = s.linked)
    (hdetached : s'.detached = s.detached) : members c s' = members c s := by
  ext n
  rw [h.members_iff, h'.members_iff, hlinked, hdetached]

/-- No member has the key when nothing of the list lies in its place. -/
theorem Shared.absent (h : Shared c s) {k : Key} {pred curr : Node}
    (hv : Valid c s t k pred curr) (habove : rankOf k < c.rank curr) :
    ∀ m ∈ members c s, c.key m ≠ k := by
  intro m hm hkey
  obtain ⟨hin, hhead, htail⟩ := h.members_iff.mp hm
  have hrank : c.rank m = rankOf k := by
    rw [Config.rank_of_ne hhead htail, hkey]
  rcases h.list.gap hv.predInList hv.link hin with hle | hle
  · rw [hrank] at hle
    exact absurd hv.below (not_lt_of_ge hle)
  · rw [hrank] at hle
    exact absurd habove (not_lt_of_ge hle)

theorem Effect.pc_eq (e : Effect c s t mine victims s') : s'.pc = s.pc := by
  cases e <;> rfl

theorem Effect.linked_mono (e : Effect c s t mine victims s') {n : Node}
    (hn : s.linked n = true) : s'.linked n = true := by
  cases e with
  | link k pred node curr =>
    by_cases hne : n = node
    · exact hne ▸ update_self ..
    · exact (update_of_ne hne _ _).trans hn
  | _ => exact hn

theorem Effect.detached_mono (e : Effect c s t mine victims s') {n : Node}
    (hn : s.detached n = true) : s'.detached n = true := by
  cases e with
  | detach k pred curr succ =>
    by_cases hne : n = curr
    · exact hne ▸ update_self ..
    · exact (update_of_ne hne _ _).trans hn
  | _ => exact hn

theorem Effect.shared (e : Effect c s t mine victims s') (h : Shared c s)
    (hmine : ∀ n ∈ mine, s.inUse n = true ∧ s.linked n = false)
    (hvictims : ∀ n ∈ victims, s.detached n = true ∧ n ∉ s.retired) : Shared c s' := by
  have hother {n m : Node} (hn : s.linked n = true) (hm : m ∈ mine) : n ≠ m := by
    rintro rfl
    rw [(hmine n hm).2] at hn
    cases hn
  cases e with
  | none => exact h
  | acquire | release => exact { h with }
  | take node fresh =>
    refine { h with known := ?_ }
    intro n hn
    by_cases hne : n = node
    · exact .inl (hne ▸ update_self ..)
    · rcases h.known n hn with hin | hsentinel
      · exact .inl ((update_of_ne hne _ _).trans hin)
      · exact .inr hsentinel
  | give node own =>
    refine { h with known := ?_ }
    intro n hn
    rcases h.known n hn with hin | hsentinel
    · exact .inl ((update_of_ne (hother hn own) _ _).trans hin)
    · exact .inr hsentinel
  | point node own link => exact { h with list := h.list.prepare (hmine node own).2 link }
  | link k pred node curr own valid key above point =>
    obtain ⟨hinUse, hunlinked⟩ := hmine node own
    have hnodeHead : node ≠ c.head := (hother h.list.first_in.1 own).symm
    have hnodeTail : node ≠ c.tail := (hother h.list.last_in.1 own).symm
    have hrank : c.rank node = rankOf k := by
      rw [Config.rank_of_ne hnodeHead hnodeTail, key]
    have hattached : s.detached node = false := by
      by_contra hd
      rw [h.was node (by simpa using hd)] at hunlinked
      cases hunlinked
    refine { h with list := ?_, was := ?_, known := ?_ }
    · apply h.list.link valid.predInList valid.link hunlinked hattached point
      · rw [hrank]
        exact valid.below
      · rw [hrank]
        exact above
    · intro n hn
      have hlinked := h.was n hn
      exact (update_of_ne (hother hlinked own) _ _).trans hlinked
    · intro n hn
      by_cases hne : n = node
      · exact .inl (hne ▸ hinUse)
      · exact h.known n ((update_of_ne hne _ _).symm.trans hn)
  | detach k pred curr succ valid succ_eq =>
    refine { h with list := ?_, was := ?_, retired := ?_ }
    · exact h.list.detach valid.predInList valid.link succ_eq
    · intro n hn
      by_cases hne : n = curr
      · exact hne ▸ valid.currLinked
      · exact h.was n ((update_of_ne hne _ _).symm.trans hn)
    · intro n hn
      by_cases hne : n = curr
      · exact hne ▸ update_self ..
      · exact (update_of_ne hne _ _).trans (h.retired n hn)
  | retire n victim =>
    refine { h with
      retired := ?_
      once := List.nodup_cons.mpr ⟨(hvictims n victim).2, h.once⟩ }
    intro m hm
    rcases List.mem_cons.mp hm with rfl | hm
    · exact (hvictims m victim).1
    · exact h.retired m hm

/-- A pointer of a linked node was there before, or it leads to a node of the
list. -/
theorem Effect.points (e : Effect c s t mine victims s') (h : Shared c s)
    (hmine : ∀ n ∈ mine, s.linked n = false) {n m : Node} (hn : s'.linked n = true)
    (hm : s'.next n = some m) :
    (s.linked n = true ∧ s.next n = some m) ∨ s'.detached m = false := by
  cases e with
  | point node own link =>
    have hne : n ≠ node := by
      rintro rfl
      rw [hmine n own] at hn
      cases hn
    exact .inl ⟨hn, (update_of_ne hne _ _).symm.trans hm⟩
  | link k pred node curr own valid key above point =>
    have hfresh : s.detached node = false := by
      by_contra hd
      have hlinked := h.was node (by simpa using hd)
      rw [hmine node own] at hlinked
      cases hlinked
    by_cases hpred : n = pred
    · subst hpred
      dsimp only at hm
      rw [update_self] at hm
      cases hm
      exact .inr hfresh
    · dsimp only at hm
      rw [update_of_ne hpred] at hm
      by_cases hne : n = node
      · subst hne
        rw [point] at hm
        cases hm
        exact .inr (valid.currInList h).2
      · exact .inl ⟨(update_of_ne hne _ _).symm.trans hn, hm⟩
  | detach k pred curr succ valid succ_eq =>
    by_cases hpred : n = pred
    · subst hpred
      dsimp only at hm
      rw [update_self] at hm
      cases hm
      have hcurr := valid.currInList h
      have hsucc := h.list.next_in hcurr succ_eq
      have hne : m ≠ curr := by
        rintro rfl
        exact lt_irrefl _ (h.list.linked_next hcurr.1 succ_eq).2
      exact .inr ((update_of_ne hne _ _).trans hsucc.2)
    · exact .inl ⟨hn, (update_of_ne hpred _ _).symm.trans hm⟩
  | _ => exact .inl ⟨hn, hm⟩

/-- What a step of another thread leaves of the nodes of thread `u`. -/
structure Keeps (s s' : State Tid Node Key) (u : Tid) (mine : List Node) : Prop where
  linked : ∀ n, s.linked n = true → s'.linked n = true
  detached : ∀ n, s.detached n = true → s'.detached n = true
  points : ∀ n m, s'.linked n = true → s'.next n = some m →
    (s.linked n = true ∧ s.next n = some m) ∨ s'.detached m = false
  retired : ∀ n, n ∈ s.retired → n ∈ s'.retired
  stale : s'.stale u = s.stale u
  held : ∀ n, s.linked n = true → s.owner n = some u → s'.owner n = some u ∧
    s'.next n = s.next n ∧ s'.detached n = s.detached n
  own : ∀ n ∈ mine, (s.inUse n = true → s'.inUse n = true) ∧
    (s.linked n = false → s'.linked n = false) ∧ s'.next n = s.next n

theorem Effect.keeps (e : Effect c s t (s.pc t).owned (s.pc t).victims s') (h : Inv c s)
    (hu : u ≠ t) : Keeps s s' u (s.pc u).owned := by
  have hmine {n m : Node} (hn : s.linked n = true) (hm : m ∈ (s.pc t).owned) : n ≠ m := by
    rintro rfl
    rw [(h.owned t n hm).2] at hn
    cases hn
  have htheirs {n m : Node} (hn : n ∈ (s.pc u).owned) (hm : m ∈ (s.pc t).owned) : n ≠ m := by
    rintro rfl
    exact hu (h.apart u t n hn hm)
  have hlocked {n m : Node} (hn : s.owner n = some u) (hm : s.owner m = some t) : n ≠ m := by
    rintro rfl
    rw [hn] at hm
    exact hu (Option.some.inj hm)
  have hlinkedNe {n m : Node} (hn : n ∈ (s.pc u).owned) (hm : s.linked m = true) : n ≠ m := by
    rintro rfl
    rw [(h.owned u n hn).2] at hm
    cases hm
  refine ⟨fun n hn => e.linked_mono hn, fun n hn => e.detached_mono hn,
    fun n m hn hm => e.points h.shared (fun n hn => (h.owned t n hn).2) hn hm, ?_, ?_, ?_, ?_⟩
  · intro n hn
    cases e with
    | retire m victim => exact List.mem_cons_of_mem m hn
    | _ => exact hn
  · cases e with
    | acquire n free stale others => exact others u hu
    | _ => rfl
  · intro n hn hheld
    cases e with
    | none | take | give | retire => exact ⟨hheld, rfl, rfl⟩
    | acquire m free =>
      have hne : n ≠ m := by
        rintro rfl
        rw [free] at hheld
        cases hheld
      exact ⟨(update_of_ne hne _ _).trans hheld, rfl, rfl⟩
    | release m held =>
      have hne : n ≠ m := held.elim (hlocked hheld) (hmine hn)
      exact ⟨(update_of_ne hne _ _).trans hheld, rfl, rfl⟩
    | point node own link =>
      exact ⟨hheld, update_of_ne (hmine hn own) _ _, rfl⟩
    | link k pred node curr own valid =>
      exact ⟨hheld, update_of_ne (hlocked hheld valid.predHeld) _ _, rfl⟩
    | detach k pred curr succ valid =>
      exact ⟨hheld, update_of_ne (hlocked hheld valid.predHeld) _ _,
        update_of_ne (hlocked hheld valid.currHeld) _ _⟩
  · intro n hn
    have hinUse := (h.owned u n hn).1
    cases e with
    | none | acquire | release | retire => exact ⟨id, id, rfl⟩
    | take node fresh =>
      have hne : n ≠ node := by
        rintro rfl
        rw [fresh] at hinUse
        cases hinUse
      exact ⟨fun _ => (update_of_ne hne _ _).trans hinUse, id, rfl⟩
    | give node own => exact ⟨(update_of_ne (htheirs hn own) _ _).trans, id, rfl⟩
    | point node own link => exact ⟨id, id, update_of_ne (htheirs hn own) _ _⟩
    | link k pred node curr own valid =>
      exact ⟨id, (update_of_ne (htheirs hn own) _ _).trans,
        update_of_ne (hlinkedNe hn valid.predLinked) _ _⟩
    | detach k pred curr succ valid =>
      exact ⟨id, id, update_of_ne (hlinkedNe hn valid.predLinked) _ _⟩

theorem Place.frame {k : Key} {pred curr : Node} (h : Place c s k pred curr)
    (keeps : Keeps s s' u mine) : Place c s' k pred curr :=
  ⟨keeps.linked pred h.predLinked, keeps.linked curr h.currLinked, h.below, h.above⟩

theorem Locked.frame {k : Key} {pred curr : Node} (h : Locked s u pred curr)
    (hplace : Place c s k pred curr) (keeps : Keeps s s' u mine) : Locked s' u pred curr :=
  ⟨(keeps.held pred hplace.predLinked h.predHeld).1, (keeps.held curr hplace.currLinked
  h.currHeld).1⟩

theorem Valid.frame {k : Key} {pred curr : Node} (h : Valid c s u k pred curr)
    (keeps : Keeps s s' u mine) : Valid c s' u k pred curr := by
  obtain ⟨-, hnext, hpred⟩ := keeps.held pred h.predLinked h.predHeld
  exact { h.toPlace.frame keeps, h.toLocked.frame h.toPlace keeps with
    predIn := hpred.trans h.predIn
    link := hnext.trans h.link }

omit [DecidableEq Node] [LinearOrder Key] in
theorem Walking.frame {stale : Node → Bool} {pred node : Node} (h : Walking s stale pred node)
    (hlinked : s.linked pred = true) (hheld : s.owner pred = some u)
    (keeps : Keeps s s' u mine) : Walking s' stale pred node where
  gone n hn := keeps.detached n (h.gone n hn)
  closed n m hn hfresh hm := by
    rcases keeps.points n m hn hm with ⟨hold, hnext⟩ | hattached
    · exact h.closed n m hold hfresh hnext
    · by_contra hstale
      rw [keeps.detached m (h.gone m (by simpa using hstale))] at hattached
      cases hattached
  kept := (keeps.held pred hlinked hheld).2.2.trans h.kept
  linked := keeps.linked node h.linked
  fresh := h.fresh

theorem PcOk.frame {pc : Pc Node Key} (hok : PcOk c s u pc) (keeps : Keeps s s' u pc.owned) :
    PcOk c s' u pc := by
  have hown := keeps.own
  cases pc with
  | idle | retire => trivial
  | findRead k op pred => exact ⟨hok.1, keeps.linked pred hok.2.1, hok.2.2⟩
  | lockPred k op pred curr => exact ⟨hok.1, hok.2.frame keeps⟩
  | lockCurr k op pred curr =>
    exact ⟨hok.1, hok.2.1.frame keeps, (keeps.held pred hok.2.1.predLinked hok.2.2).1⟩
  | valWalk k op pred curr node =>
    obtain ⟨hop, hplace, hlocked, hwalking, hbelow⟩ := hok
    refine ⟨hop, hplace.frame keeps, hlocked.frame hplace keeps, ?_, hbelow⟩
    rw [keeps.stale]
    exact hwalking.frame hplace.predLinked hlocked.predHeld keeps
  | valNext k op pred curr =>
    obtain ⟨hop, hplace, hlocked, hpred⟩ := hok
    exact ⟨hop, hplace.frame keeps, hlocked.frame hplace keeps,
      ((keeps.held pred hplace.predLinked hlocked.predHeld).2.2).trans hpred⟩
  | addInit k node pred curr | addNext k node pred curr =>
    exact ⟨hok.1, hok.2.1.frame keeps, hok.2.2⟩
  | addLink k node pred curr =>
    obtain ⟨hkey, hvalid, habove, hnext⟩ := hok
    obtain ⟨-, -, hsame⟩ := hown node (List.mem_singleton_self node)
    exact ⟨hkey, hvalid.frame keeps, habove, hsame.trans hnext⟩
  | removeNext k pred curr => exact ⟨hok.1.frame keeps, hok.2⟩
  | removeDetach k pred curr succ =>
    obtain ⟨hvalid, hrank, htail, hsucc⟩ := hok
    obtain ⟨-, hnext, -⟩ := keeps.held curr hvalid.currLinked hvalid.currHeld
    exact ⟨hvalid.frame keeps, hrank, htail, hnext.trans hsucc⟩
  | unlockPred k fate pred curr =>
    exact ⟨hok.1, hok.2.1.frame keeps, hok.2.2.frame hok.2.1 keeps⟩
  | unlockCurr k fate curr =>
    exact ⟨hok.1, keeps.linked curr hok.2.1, (keeps.held curr hok.2.1 hok.2.2).1⟩
  | ret k outcome => exact fun n hn => keeps.retired n (hok n hn)
  | crashed => exact hok

variable [DecidableEq Tid]

/-- Only the shared state counts. -/
theorem PcOk.goto {pc : Pc Node Key} (h : PcOk c s t pc) (v : Tid) (pc' : Pc Node Key) :
    PcOk c (s.goto v pc') t pc :=
  h.frame ⟨fun _ => id, fun _ => id, fun _ _ hn hm => .inl ⟨hn, hm⟩, fun _ => id, rfl,
    fun _ _ hn => ⟨hn, rfl, rfl⟩, fun _ _ => ⟨id, id, rfl⟩⟩

theorem Shared.goto (h : Shared c s) (v : Tid) (pc' : Pc Node Key) : Shared c (s.goto v pc') :=
  { h with }

/-- What becomes of the nodes to be retired in a step. -/
inductive Retires (s s' : State Tid Node Key) (before after : List Node) : Prop
  | keep (same : after = before) (detached : s'.detached = s.detached)
      (retired : s'.retired = s.retired)
  | gain (n : Node) (none : before = []) (one : after = [n]) (attached : s.detached n = false)
      (detached : s'.detached = update s.detached n true) (retired : s'.retired = s.retired)
  | pay (n : Node) (one : before = [n]) (none : after = []) (detached : s'.detached = s.detached)
      (retired : s'.retired = n :: s.retired)

/-- What a step of thread `t` does: its effect, its next place, which is right,
and the nodes that belong to it from then on. -/
structure Acts (c : Config Node Key) (s : State Tid Node Key) (t : Tid)
    (s' : State Tid Node Key) (pc' : Pc Node Key) : Prop where
  effect : Effect c s t (s.pc t).owned (s.pc t).victims s'
  ok : PcOk c s' t pc'
  owned : ∀ n ∈ pc'.owned, s'.inUse n = true ∧ s'.linked n = false ∧
    (n ∈ (s.pc t).owned ∨ s.inUse n = false)
  retires : Retires s s' (s.pc t).victims pc'.victims

/-- The nodes to be retired, over a step. -/
theorem Acts.victims_inv {pc' : Pc Node Key} (a : Acts c s t s' pc') (h : Inv c s) :
    (∀ n ∈ pc'.victims, s'.detached n = true ∧ n ∉ s'.retired) ∧
    (∀ u, u ≠ t → ∀ n ∈ (s.pc u).victims, s'.detached n = true ∧ n ∉ s'.retired ∧
      n ∉ pc'.victims) ∧
    ∀ n, s'.detached n = true → n ∈ s'.retired ∨ n ∈ pc'.victims ∨
      ∃ u, u ≠ t ∧ n ∈ (s.pc u).victims := by
  have hsplit {n : Node} (hn : ∃ u, n ∈ (s.pc u).victims) :
      n ∈ (s.pc t).victims ∨ ∃ u, u ≠ t ∧ n ∈ (s.pc u).victims := by
    obtain ⟨u, hu⟩ := hn
    by_cases hut : u = t
    · exact .inl (hut ▸ hu)
    · exact .inr ⟨u, hut, hu⟩
  have hapart {u : Tid} (hu : u ≠ t) {n : Node} (hn : n ∈ (s.pc u).victims) :
      n ∉ (s.pc t).victims := fun hmine => hu (h.one u t n hn hmine)
  cases a.retires with
  | keep same detached retired =>
    rw [same, detached, retired]
    refine ⟨h.victims t, ?_, ?_⟩
    · exact fun u hu n hn => ⟨(h.victims u n hn).1, (h.victims u n hn).2, hapart hu hn⟩
    · intro n hn
      rcases h.accounted n hn with hretired | hvictim
      · exact .inl hretired
      · exact .inr (hsplit hvictim)
  | gain m none one attached detached retired =>
    rw [one, detached, retired]
    have hattached : m ∉ s.retired := by
      intro hm
      rw [h.shared.retired m hm] at attached
      cases attached
    refine ⟨?_, ?_, ?_⟩
    · intro n hn
      rw [List.mem_singleton.mp hn]
      exact ⟨update_self .., hattached⟩
    · intro u hu n hn
      obtain ⟨hgone, hnot⟩ := h.victims u n hn
      have hne : n ≠ m := by
        rintro rfl
        rw [hgone] at attached
        cases attached
      exact ⟨(update_of_ne hne _ _).trans hgone, hnot,
        fun hmem => hne (List.mem_singleton.mp hmem)⟩
    · intro n hn
      by_cases hne : n = m
      · exact .inr (.inl (hne ▸ List.mem_singleton_self m))
      · rw [update_of_ne hne] at hn
        rcases h.accounted n hn with hretired | hvictim
        · exact .inl hretired
        · rcases hsplit hvictim with hmine | hother
          · rw [none] at hmine
            cases hmine
          · exact .inr (.inr hother)
  | pay m one none detached retired =>
    rw [none, detached, retired]
    refine ⟨nofun, ?_, ?_⟩
    · intro u hu n hn
      obtain ⟨hgone, hnot⟩ := h.victims u n hn
      refine ⟨hgone, ?_, nofun⟩
      intro hmem
      rcases List.mem_cons.mp hmem with rfl | hmem
      · exact hapart hu hn (one ▸ List.mem_singleton_self n)
      · exact hnot hmem
    · intro n hn
      rcases h.accounted n hn with hretired | hvictim
      · exact .inl (List.mem_cons_of_mem m hretired)
      · rcases hsplit hvictim with hmine | hother
        · rw [one] at hmine
          rw [List.mem_singleton.mp hmine]
          exact .inl List.mem_cons_self
        · exact .inr (.inr hother)

theorem Acts.inv {pc' : Pc Node Key} (a : Acts c s t s' pc') (h : Inv c s) :
    Inv c (s'.goto t pc') := by
  have hself : (s'.goto t pc').pc t = pc' := update_self ..
  have hothers (u : Tid) (hu : u ≠ t) : (s'.goto t pc').pc u = s.pc u := by
    simp only [State.goto, update_of_ne hu, a.effect.pc_eq]
  have halone {u : Tid} (hu : u ≠ t) {n : Node} (hn : n ∈ pc'.owned) : n ∉ (s.pc u).owned := by
    intro hmem
    rcases (a.owned n hn).2.2 with hold | hfresh
    · exact hu (h.apart u t n hmem hold)
    · rw [(h.owned u n hmem).1] at hfresh
      cases hfresh
  obtain ⟨hvictims, hvictimsOther, haccounted⟩ := a.victims_inv h
  refine ⟨(a.effect.shared h.shared (h.owned t) (h.victims t)).goto t pc', ?_, ?_, ?_, ?_, ?_, ?_⟩
  · intro u
    by_cases hu : u = t
    · subst hu
      rw [hself]
      exact a.ok.goto u pc'
    · rw [hothers u hu]
      exact ((h.pc u).frame (a.effect.keeps h hu)).goto t pc'
  · intro u n hn
    by_cases hu : u = t
    · subst hu
      rw [hself] at hn
      exact ⟨(a.owned n hn).1, (a.owned n hn).2.1⟩
    · rw [hothers u hu] at hn
      obtain ⟨hinUse, hunlinked, -⟩ := (a.effect.keeps h hu).own n hn
      exact ⟨hinUse (h.owned u n hn).1, hunlinked (h.owned u n hn).2⟩
  · intro u v n hu hv
    by_cases hut : u = t
    · by_cases hvt : v = t
      · rw [hut, hvt]
      · rw [hothers v hvt] at hv
        rw [hut, hself] at hu
        exact absurd hv (halone hvt hu)
    · rw [hothers u hut] at hu
      by_cases hvt : v = t
      · rw [hvt, hself] at hv
        exact absurd hu (halone hut hv)
      · rw [hothers v hvt] at hv
        exact h.apart u v n hu hv
  · intro u n hn
    by_cases hu : u = t
    · subst hu
      rw [hself] at hn
      exact hvictims n hn
    · rw [hothers u hu] at hn
      obtain ⟨hgone, hnot, -⟩ := hvictimsOther u hu n hn
      exact ⟨hgone, hnot⟩
  · intro u v n hu hv
    by_cases hut : u = t
    · by_cases hvt : v = t
      · rw [hut, hvt]
      · rw [hothers v hvt] at hv
        rw [hut, hself] at hu
        exact absurd hu (hvictimsOther v hvt n hv).2.2
    · rw [hothers u hut] at hu
      by_cases hvt : v = t
      · rw [hvt, hself] at hv
        exact absurd hv (hvictimsOther u hut n hu).2.2
      · rw [hothers v hvt] at hv
        exact h.one u v n hu hv
  · intro n hn
    rcases haccounted n hn with hretired | hmine | ⟨u, hu, hvictim⟩
    · exact .inl hretired
    · exact .inr ⟨t, by rw [hself]; exact hmine⟩
    · exact .inr ⟨u, by rw [hothers u hu]; exact hvictim⟩

end Libvsync.Map.ListsetOpt
