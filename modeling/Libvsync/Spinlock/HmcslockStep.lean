import Libvsync.Spinlock.HmcslockInv

/-!
The steps of the HMCS lock that write. A step of a thread changes its own nodes and the nodes
in front of and behind them; the other threads know nothing about these but what their own
queue tells them.
-/

namespace Libvsync.Spinlock.Hmcslock

open Libvsync.Core Function

variable {Tid Lock : Type} {T : Tree Lock} {top : Nat} {s s' : State Tid Lock} {t u : Tid}
  {i j k : Nat} {l : Lock} {n m : Node Tid Lock} {pc : Pc Tid Lock}

/-- A step keeps what thread `u` relies on. -/
structure Keeps (T : Tree Lock) (top : Nat) (s s' : State Tid Lock) (u : Tid) : Prop where
  pc : s'.pc u = s.pc u
  leaf : s'.leaf u = s.leaf u
  status : ∀ k, Drives T top s u k → s'.status (s.qnodeOf T u k) = s.status (s.qnodeOf T u k)
  prepared : ∀ k, s.pc u = .acqXchg k → s'.next (s.qnodeOf T u k) = s.next (s.qnodeOf T u k)
  succ : ∀ k m, k < s.owned T top u → s.next (s.qnodeOf T u k) = some m →
    s'.next (s.qnodeOf T u k) = some m
  front : ∀ k pred, (s.pc u).queued = some k →
    Follows (s.line (s.lockOf T u k)) pred (s.qnodeOf T u k) →
    Follows (s'.line (s.lockOf T u k)) pred (s.qnodeOf T u k) ∧ s'.next pred = s.next pred

theorem lockOf_eq (hleaf : s'.leaf u = s.leaf u) (k : Nat) : s'.lockOf T u k = s.lockOf T u k := by
  rw [State.lockOf, hleaf, State.lockOf]

theorem qnodeOf_eq (hleaf : s'.leaf u = s.leaf u) (k : Nat) :
    s'.qnodeOf T u k = s.qnodeOf T u k := by
  rw [State.qnodeOf, hleaf, State.qnodeOf]

theorem Keeps.lockOf (keeps : Keeps T top s s' u) (k : Nat) :
    s'.lockOf T u k = s.lockOf T u k := lockOf_eq keeps.leaf k

theorem Keeps.qnodeOf (keeps : Keeps T top s s' u) (k : Nat) :
    s'.qnodeOf T u k = s.qnodeOf T u k := qnodeOf_eq keeps.leaf k

/-- Only a waiting thread learns from its status what it owns. -/
theorem Pc.owned_congr {status status' : Nat} (h : ∀ k, pc = .acqAwait k → status' = status) :
    pc.owned top status' = pc.owned top status ∧
      pc.counted top status' = pc.counted top status := by
  cases pc with
  | acqAwait k =>
    rw [h k rfl]
    exact ⟨rfl, rfl⟩
  | _ => exact ⟨rfl, rfl⟩

theorem Keeps.await_status (keeps : Keeps T top s s' u) (k : Nat) (hat : s.pc u = .acqAwait k) :
    s'.status (s'.qnodeOf T u (s.pc u).call) = s.status (s.qnodeOf T u (s.pc u).call) := by
  rw [keeps.qnodeOf, hat]
  refine keeps.status k (.inr ?_)
  rw [hat]
  rfl

theorem Keeps.owned (keeps : Keeps T top s s' u) : s'.owned T top u = s.owned T top u := by
  rw [State.owned, keeps.pc, State.owned]
  exact (Pc.owned_congr keeps.await_status).1

theorem Keeps.counted (keeps : Keeps T top s s' u) : s'.counted T top u = s.counted T top u := by
  rw [State.counted, keeps.pc, State.counted]
  exact (Pc.owned_congr keeps.await_status).2

theorem Keeps.inLine (keeps : Keeps T top s s' u) (h : InLine T top s u k) :
    InLine T top s' u k := by
  rw [InLine, keeps.owned, keeps.pc]
  exact h

theorem Pc.counted_le {status : Nat} (h : ∀ k, pc = .acqAwait k → k ≤ top) :
    pc.counted top status ≤ pc.owned top status := by
  cases pc with
  | acqAwait k =>
    have hle := h k rfl
    dsimp only [Pc.counted, Pc.owned]
    by_cases hwait : status = waitStatus top k
    · rw [if_pos (.inl hwait), if_pos hwait]
    · by_cases hparent : status = acquireParent
      · rw [if_pos (.inr hparent), if_neg hwait, if_pos hparent]
        omega
      · rw [if_neg (not_or.mpr ⟨hwait, hparent⟩), if_neg hwait, if_neg hparent]
        omega
  | _ =>
    dsimp only [Pc.counted, Pc.owned]
    omega

theorem Inv.counted_le (h : Inv T top s) (t : Tid) : s.counted T top t ≤ s.owned T top t := by
  refine Pc.counted_le fun k hat => ?_
  have hok := h.pcs t
  rw [hat] at hok
  exact hok.1

theorem Keeps.counts (h : Inv T top s) (keeps : Keeps T top s s' u) (hk : k < s'.counted T top u) :
    s'.status (s'.qnodeOf T u k) ≤ T.threshold (s'.lockOf T u k) := by
  rw [keeps.counted] at hk
  rw [keeps.qnodeOf, keeps.lockOf, keeps.status k (.inl (hk.trans_le (h.counted_le u)))]
  exact h.counts u k hk

theorem Keeps.first (h : Inv T top s) (keeps : Keeps T top s s' u) (hk : k < s'.owned T top u)
    (hline : (s'.line (s.lockOf T u k)).head? = (s.line (s.lockOf T u k)).head?) :
    (s'.line (s'.lockOf T u k)).head? = some (s'.qnodeOf T u k) := by
  rw [keeps.owned] at hk
  rw [keeps.qnodeOf, keeps.lockOf, hline]
  exact h.first u k hk

theorem PcOk.keep (h : Inv T top s) (keeps : Keeps T top s s' u) : PcOk T top s' u (s'.pc u) := by
  have hok := h.pcs u
  have hown := owned_eq T top (s := s) (t := u) rfl
  rw [keeps.pc]
  cases hat : s.pc u <;> rw [hat] at hok hown <;>
    dsimp only [PcOk, Pc.owned] at hok hown <;> simp only [PcOk, keeps.qnodeOf, keeps.lockOf]
  case acqStatus | helpNext | helpCas | helpAwait | acqStart | relStatus => exact hok
  case acqNext k =>
    rw [keeps.status k (.inr (by rw [hat]; rfl))]
    exact hok
  case acqXchg k =>
    rw [keeps.status k (.inr (by rw [hat]; rfl)), keeps.prepared k hat]
    exact hok
  case acqLink k pred =>
    obtain ⟨hfollows, hnext⟩ := keeps.front k pred (by rw [hat]; rfl) hok.2.2.1
    rw [keeps.status k (.inr (by rw [hat]; rfl)), hnext]
    exact ⟨hok.1, hok.2.1, hfollows, hok.2.2.2⟩
  case acqAwait k =>
    rw [keeps.status k (.inr (by rw [hat]; rfl))]
    refine ⟨hok.1, fun hwait => ?_⟩
    obtain ⟨pred, hpred, hsome⟩ := hok.2 hwait
    obtain ⟨hfollows, hnext⟩ := keeps.front k pred (by rw [hat]; rfl) hpred
    exact ⟨pred, hfollows, hnext.trans hsome⟩
  case relNext k count =>
    rw [keeps.status k (.inl (by omega))]
    exact hok
  case relPass k succ count =>
    rw [keeps.status k (.inl (by omega))]
    exact ⟨hok.1, hok.2.1, hok.2.2.1, keeps.succ k succ (by omega) hok.2.2.2⟩
  case helpPass k succ => exact ⟨hok.1, keeps.succ k succ (by omega) hok.2⟩

/-- The step changes the status of nodes of `t` only, and `next` only of a node of `t` that
is in no queue. -/
theorem Inv.local (hT : T.Uniform top) (h : Inv T top s) (hline : s'.line = s.line)
    (hlock : s'.lock = s.lock) (hpc : ∀ u, u ≠ t → s'.pc u = s.pc u)
    (hleaf : ∀ u, u ≠ t → s'.leaf u = s.leaf u)
    (hmine : s.pc t ≠ .idle → s'.leaf t = s.leaf t)
    (hstatus : ∀ m, (∀ k, Drives T top s t k → m ≠ s.qnodeOf T t k) → s'.status m = s.status m)
    (hnext : ∀ m, ((∀ k, Drives T top s t k → m ≠ s.qnodeOf T t k) ∨ ∃ l, m ∈ s.line l) →
      s'.next m = s.next m)
    (howned : s'.owned T top t = s.owned T top t)
    (hqueued : ∀ k, (s.pc t).queued = some k → InLine T top s' t k)
    (hisLeaf : s'.pc t ≠ .idle → T.isLeaf (s'.leaf t) = true)
    (hcounts : ∀ k, k < s'.counted T top t →
      s'.status (s'.qnodeOf T t k) ≤ T.threshold (s'.lockOf T t k))
    (hok : PcOk T top s' t (s'.pc t)) : Inv T top s' := by
  have hother (u : Tid) (hu : u ≠ t) (k : Nat) (hk : Drives T top s u k) (j : Nat)
      (hj : Drives T top s t j) : s.qnodeOf T u k ≠ s.qnodeOf T t j :=
    fun heq => hu (h.drives_unique hT hk hj heq).1
  have hkeeps (u : Tid) (hu : u ≠ t) : Keeps T top s s' u := by
    refine ⟨hpc u hu, hleaf u hu, fun k hk => hstatus _ (hother u hu k hk), fun k hk => ?_,
      fun k m hk hm => ?_, fun k pred hk hpred => ⟨?_, hnext pred (.inr ⟨_, hpred.left_mem⟩)⟩⟩
    · exact hnext _ (.inl (hother u hu k (.inr (by rw [hk]; rfl))))
    · rw [hnext _ (.inl (hother u hu k (.inl hk)))]
      exact hm
    · rw [hline]
      exact hpred
  have hnode (k : Nat) (hk : k < s.owned T top t ∨ (s.pc t).queued = some k) :
      s'.leaf t = s.leaf t := by
    refine hmine fun hidle => ?_
    rcases hk with hk | hk
    · rw [owned_eq T top hidle] at hk
      cases hk
    · rw [hidle] at hk
      cases hk
  refine ⟨fun u => ?_, fun l => ?_, fun l => ?_, fun u k hk => ?_, fun l m hm => ?_,
    fun l m hm => ?_, fun u k hk => ?_, fun u => ?_⟩
  · by_cases hu : u = t
    · rw [hu]
      exact hisLeaf
    · rw [hpc u hu, hleaf u hu]
      exact h.leaf u
  · rw [hline]
    exact h.nodup l
  · rw [hline, hlock]
    exact h.lock l
  · by_cases hu : u = t
    · subst hu
      rw [howned] at hk
      rw [hline, lockOf_eq (hnode k (.inl hk)), qnodeOf_eq (hnode k (.inl hk))]
      exact h.first u k hk
    · exact (hkeeps u hu).first h hk (by rw [hline])
  · rw [hline] at hm
    obtain ⟨u, k, hk, hl, hn⟩ := h.cover l m hm
    by_cases hu : u = t
    · subst hu
      refine ⟨u, k, ?_, (lockOf_eq (hnode k hk) k).trans hl, (qnodeOf_eq (hnode k hk) k).trans hn⟩
      rcases hk with hk | hk
      · exact .inl (hk.trans_eq howned.symm)
      · exact hqueued k hk
    · have keeps := hkeeps u hu
      exact ⟨u, k, keeps.inLine hk, (keeps.lockOf k).trans hl, (keeps.qnodeOf k).trans hn⟩
  · rw [hline] at hm
    rw [hnext m (.inr ⟨l, List.mem_of_getLast? hm⟩)]
    exact h.last l m hm
  · by_cases hu : u = t
    · rw [hu] at hk ⊢
      exact hcounts k hk
    · exact (hkeeps u hu).counts h hk
  · by_cases hu : u = t
    · rw [hu]
      exact hok
    · exact PcOk.keep h (hkeeps u hu)

variable [DecidableEq Tid]

theorem goto_self (s : State Tid Lock) (t : Tid) (pc : Pc Tid Lock) : (s.goto t pc).pc t = pc :=
  update_self ..

theorem goto_other (s : State Tid Lock) (pc : Pc Tid Lock) (hu : u ≠ t) :
    (s.goto t pc).pc u = s.pc u := update_of_ne hu ..

/-- A thread moves on without changing anything else. -/
theorem Inv.goto (hT : T.Uniform top) (h : Inv T top s) (hidle : s.pc t ≠ .idle)
    (howned : (s.goto t pc).owned T top t = s.owned T top t)
    (hqueued : ∀ k, (s.pc t).queued = some k → k < s.owned T top t)
    (hcounted : (s.goto t pc).counted T top t ≤ s.counted T top t)
    (hok : PcOk T top (s.goto t pc) t pc) : Inv T top (s.goto t pc) := by
  refine h.local (t := t) hT rfl rfl (fun u hu => goto_other _ _ hu) (fun _ _ => rfl)
    (fun _ => rfl) (fun _ _ => rfl) (fun _ _ => rfl) howned (fun k hk => .inl ?_)
    (fun _ => h.leaf t hidle) (fun k hk => h.counts t k (hk.trans_le hcounted)) ?_
  · rw [howned]
    exact hqueued k hk
  · rw [goto_self]
    exact hok

theorem Inv.acquire (hT : T.Uniform top) (h : Inv T top s) (hat : s.pc t = .idle) {leaf : Lock}
    (hleaf : T.isLeaf leaf = true) :
    Inv T top ({ s with leaf := update s.leaf t leaf }.goto t (.acqStatus 0)) := by
  set s' := ({ s with leaf := update s.leaf t leaf } : State Tid Lock).goto t
    (.acqStatus 0) with hs'
  have hself : s'.pc t = .acqStatus 0 := goto_self ..
  refine h.local (t := t) hT rfl rfl (fun u hu => goto_other _ _ hu)
    (fun u hu => update_of_ne hu ..) (fun hidle => absurd hat hidle) (fun _ _ => rfl)
    (fun _ _ => rfl) ?_ (fun k hk => ?_) (fun _ => ?_) (fun k hk => ?_) ?_
  · rw [owned_eq T top hself, owned_eq T top hat]
    rfl
  · rw [hat] at hk
    cases hk
  · rw [show s'.leaf t = leaf from update_self ..]
    exact hleaf
  · rw [counted_eq T top hself] at hk
    cases hk
  · rw [hself]
    exact Nat.zero_le top

variable [DecidableEq Lock]

theorem Inv.setStatus (hT : T.Uniform top) (h : Inv T top s) (hk : Drives T top s t k)
    {status : Nat} (howned : ((s.setStatus (s.qnodeOf T t k) status).goto t pc).owned T top t =
      s.owned T top t) (hqueued : (s.pc t).queued = none)
    (hcounts : ∀ i, i < ((s.setStatus (s.qnodeOf T t k) status).goto t pc).counted T top t →
      (i ≠ k ∧ i < s.counted T top t) ∨ (i = k ∧ status ≤ T.threshold (s.lockOf T t k)))
    (hok : PcOk T top ((s.setStatus (s.qnodeOf T t k) status).goto t pc) t pc) :
    Inv T top ((s.setStatus (s.qnodeOf T t k) status).goto t pc) := by
  refine h.local (t := t) hT rfl rfl (fun u hu => goto_other _ _ hu) (fun _ _ => rfl)
    (fun _ => rfl) (fun m hm => update_of_ne (hm k hk) ..) (fun _ _ => rfl) howned
    (fun i hi => ?_) (fun _ => (hk.leaf h : T.isLeaf (s.leaf t) = true)) (fun i hi => ?_) ?_
  · rw [hqueued] at hi
    cases hi
  · change update s.status (s.qnodeOf T t k) status (s.qnodeOf T t i) ≤
      T.threshold (s.lockOf T t i)
    rcases hcounts i hi with ⟨hne, hi⟩ | ⟨rfl, hle⟩
    · have hnode : s.qnodeOf T t i ≠ s.qnodeOf T t k := fun heq =>
        hne (h.drives_unique hT (.inl (hi.trans_le (h.counted_le t))) hk heq).2
      rw [update_of_ne hnode]
      exact h.counts t i hi
    · rw [update_self]
      exact hle
  · rw [goto_self]
    exact hok

theorem Inv.acqStatus (hT : T.Uniform top) (h : Inv T top s) (hat : s.pc t = .acqStatus k) :
    Inv T top ((s.setStatus (s.qnodeOf T t k) (waitStatus top k)).goto t (.acqNext k)) := by
  have hok := h.pcs t
  rw [hat] at hok
  refine h.setStatus hT (.inr (by rw [hat]; rfl)) ?_ (by rw [hat]; rfl) (fun i hi => .inl ?_)
    ⟨hok, update_self ..⟩
  · rw [owned_eq T top (goto_self ..), owned_eq T top hat]
    rfl
  · rw [counted_eq T top (goto_self ..)] at hi
    rw [counted_eq T top hat]
    exact ⟨ne_of_lt hi, hi⟩

/-- The first thread of a cohort goes on to the parent. -/
theorem Inv.acqStart (hT : T.Uniform top) (h : Inv T top s) (hat : s.pc t = .acqStart k) :
    Inv T top ((s.setStatus (s.qnodeOf T t k) cohortStart).goto t (.acqStatus (k + 1))) := by
  have hok := h.pcs t
  rw [hat] at hok
  have hlt : k < top := hok
  have howned := owned_eq T top hat
  have hdrives : Drives T top s t k := .inl (by rw [howned]; exact Nat.lt_succ_self k)
  refine h.setStatus hT hdrives ?_ (by rw [hat]; rfl) (fun i hi => ?_) hlt
  · rw [owned_eq T top (goto_self ..), howned]
    rfl
  · rw [counted_eq T top (goto_self ..)] at hi
    have hi : i < k + 1 := hi
    by_cases hik : i = k
    · exact .inr ⟨hik, (hT.threshold _ k (hdrives.leaf h) hlt.le).1⟩
    · rw [counted_eq T top hat]
      exact .inl ⟨hik, by change i < k; omega⟩

theorem Inv.acqUnlocked (hT : T.Uniform top) (h : Inv T top s) (hat : s.pc t = .acqUnlocked) :
    Inv T top ((s.setStatus (s.qnodeOf T t top) unlocked).goto t .critical) := by
  have howned := owned_eq T top hat
  refine h.setStatus hT (.inl (by rw [howned]; exact Nat.lt_succ_self top)) ?_ (by rw [hat]; rfl)
    (fun i hi => .inl ?_) trivial
  · rw [owned_eq T top (goto_self ..), howned]
    rfl
  · rw [counted_eq T top (goto_self ..)] at hi
    rw [counted_eq T top hat]
    exact ⟨ne_of_lt hi, hi⟩

/-- A thread clears `next` of the node that it prepares. -/
theorem Inv.acqNext (hT : T.Uniform top) (h : Inv T top s) (hat : s.pc t = .acqNext k) :
    Inv T top ((s.setNext (s.qnodeOf T t k) none).goto t (.acqXchg k)) := by
  have hok := h.pcs t
  rw [hat] at hok
  have howned := owned_eq T top hat
  have hout := h.not_in_line hT (t := t) (k := k) (by rw [hat]; rfl) (by rw [hat]; rfl) howned
  refine h.local (t := t) hT rfl rfl (fun u hu => goto_other _ _ hu) (fun _ _ => rfl)
    (fun _ => rfl) (fun _ _ => rfl) (fun m hm => update_of_ne ?_ ..) ?_ (fun i hi => ?_)
    (fun _ => h.leaf t fun hidle => by rw [hat] at hidle; cases hidle)
    (fun i hi => h.counts t i ?_) ?_
  · rcases hm with hm | ⟨l, hm⟩
    · exact hm k (.inr (by rw [hat]; rfl))
    · rintro rfl
      exact hout l hm
  · rw [owned_eq T top (goto_self ..), howned]
    rfl
  · rw [hat] at hi
    cases hi
  · rw [counted_eq T top (goto_self ..)] at hi
    rw [counted_eq T top hat]
    exact hi
  · rw [goto_self]
    exact ⟨hok.1, hok.2, update_self ..⟩

/-- What the other threads rely on when a node is put at the end of a queue. -/
theorem keeps_join (hu : u ≠ t) : Keeps T top s ((s.join l n).goto t pc) u := by
  refine ⟨goto_other _ _ hu, rfl, fun _ _ => rfl, fun _ _ => rfl, fun _ _ _ => id,
    fun k pred _ hpred => ⟨?_, rfl⟩⟩
  change Follows (update s.line l (s.line l ++ [n]) (s.lockOf T u k)) _ _
  by_cases hl : s.lockOf T u k = l
  · rw [hl, update_self, Follows.concat_iff]
    rw [hl] at hpred
    exact .inl hpred
  · rw [update_of_ne hl]
    exact hpred

theorem Inv.join (hT : T.Uniform top) (h : Inv T top s) (hat : s.pc t = .acqXchg k)
    (hfirst : k < ((s.join (s.lockOf T t k) (s.qnodeOf T t k)).goto t pc).owned T top t →
      s.line (s.lockOf T t k) = [])
    (howned : ∀ i, i < ((s.join (s.lockOf T t k) (s.qnodeOf T t k)).goto t pc).owned T top t →
      i ≤ k)
    (hinLine : ∀ i, i ≤ k →
      InLine T top ((s.join (s.lockOf T t k) (s.qnodeOf T t k)).goto t pc) t i)
    (hcounted : ((s.join (s.lockOf T t k) (s.qnodeOf T t k)).goto t pc).counted T top t ≤ k)
    (hok : PcOk T top ((s.join (s.lockOf T t k) (s.qnodeOf T t k)).goto t pc) t pc) :
    Inv T top ((s.join (s.lockOf T t k) (s.qnodeOf T t k)).goto t pc) := by
  have hpc := h.pcs t
  rw [hat] at hpc
  obtain ⟨hle, -, hnext⟩ := hpc
  have hold := owned_eq T top hat
  have hdrives : Drives T top s t k := .inr (by rw [hat]; rfl)
  have hout := h.not_in_line hT (t := t) (k := k) (by rw [hat]; rfl) (by rw [hat]; rfl) hold
  have hkeeps (u : Tid) (hu : u ≠ t) : Keeps T top s
      ((s.join (s.lockOf T t k) (s.qnodeOf T t k)).goto t pc) u := keeps_join hu
  set s' := (s.join (s.lockOf T t k) (s.qnodeOf T t k)).goto t pc with hs'
  have hself : s'.line (s.lockOf T t k) = s.line (s.lockOf T t k) ++ [s.qnodeOf T t k] :=
    update_self ..
  have hother (l : Lock) (hl : l ≠ s.lockOf T t k) : s'.line l = s.line l :=
    update_of_ne hl ..
  have hhead (l : Lock) (m : Node Tid Lock) (hm : (s.line l).head? = some m) :
      (s'.line l).head? = some m := by
    by_cases hl : l = s.lockOf T t k
    · rw [hl] at hm ⊢
      obtain ⟨rest, hrest⟩ := List.head?_eq_some_iff.mp hm
      rw [hself, hrest]
      rfl
    · rw [hother l hl]
      exact hm
  refine ⟨fun u => ?_, fun l => ?_, fun l => ?_, fun u i hi => ?_, fun l m hm => ?_,
    fun l m hm => ?_, fun u i hi => ?_, fun u => ?_⟩
  · by_cases hu : u = t
    · rw [hu]
      exact fun _ => (hdrives.leaf h : T.isLeaf (s.leaf t) = true)
    · rw [(hkeeps u hu).pc]
      exact h.leaf u
  · by_cases hl : l = s.lockOf T t k
    · rw [hl, hself]
      exact List.nodup_append.mpr ⟨h.nodup _, List.nodup_singleton _, fun a ha b hb heq =>
        hout _ (List.mem_singleton.mp hb ▸ heq ▸ ha)⟩
    · rw [hother l hl]
      exact h.nodup l
  · by_cases hl : l = s.lockOf T t k
    · rw [hl, hself, List.getLast?_concat]
      exact update_self ..
    · rw [hother l hl, ← h.lock l]
      exact update_of_ne hl ..
  · by_cases hu : u = t
    · subst hu
      change (s'.line (s.lockOf T u i)).head? = some (s.qnodeOf T u i)
      rcases (howned i hi).lt_or_eq with hlt | rfl
      · exact hhead _ _ (h.first u i (hlt.trans_eq hold.symm))
      · rw [hself, hfirst hi]
        rfl
    · have keeps := hkeeps u hu
      rw [keeps.owned] at hi
      exact hhead _ _ (h.first u i hi)
  · have hcase : m ∈ s.line l ∨ (l = s.lockOf T t k ∧ m = s.qnodeOf T t k) := by
      by_cases hl : l = s.lockOf T t k
      · rw [hl, hself, List.mem_append, List.mem_singleton] at hm
        rw [hl]
        exact hm.imp_right fun heq => ⟨rfl, heq⟩
      · rw [hother l hl] at hm
        exact .inl hm
    rcases hcase with hm | ⟨rfl, rfl⟩
    · obtain ⟨u, i, hi, hl, hn⟩ := h.cover l m hm
      by_cases hu : u = t
      · subst hu
        refine ⟨u, i, hinLine i ?_, hl, hn⟩
        rcases hi with hi | hi
        · exact (hi.trans_eq hold).le
        · rw [hat] at hi
          cases hi
      · exact ⟨u, i, (hkeeps u hu).inLine hi, hl, hn⟩
    · exact ⟨t, k, hinLine k le_rfl, rfl, rfl⟩
  · by_cases hl : l = s.lockOf T t k
    · rw [hl, hself, List.getLast?_concat] at hm
      rw [← Option.some.inj hm]
      exact hnext
    · rw [hother l hl] at hm
      exact h.last l m hm
  · by_cases hu : u = t
    · subst hu
      refine h.counts u i ?_
      rw [counted_eq T top hat]
      exact hi.trans_le hcounted
    · exact (hkeeps u hu).counts h hi
  · by_cases hu : u = t
    · rw [hu, goto_self]
      exact hok
    · exact PcOk.keep h (hkeeps u hu)

theorem Inv.join_first (hT : T.Uniform top) (h : Inv T top s) (hat : s.pc t = .acqXchg k)
    (hnone : s.lock (s.lockOf T t k) = none) :
    Inv T top ((s.join (s.lockOf T t k) (s.qnodeOf T t k)).goto t
      (if k = top then .acqUnlocked else .acqStart k)) := by
  have hpc := h.pcs t
  rw [hat] at hpc
  have hle : k ≤ top := hpc.1
  have hempty : s.line (s.lockOf T t k) = [] := by
    rw [h.lock] at hnone
    exact List.getLast?_eq_none_iff.mp hnone
  by_cases htop : k = top
  · rw [if_pos htop]
    have hnew := owned_eq T top (goto_self
      (s.join (s.lockOf T t k) (s.qnodeOf T t k)) t .acqUnlocked)
    refine h.join hT hat (fun _ => hempty) (fun i hi => ?_) (fun i hi => .inl ?_) ?_ trivial
    · rw [hnew] at hi
      have hi : i < top + 1 := hi
      omega
    · rw [hnew]
      change i < top + 1
      omega
    · rw [counted_eq T top (goto_self ..)]
      exact htop.ge
  · rw [if_neg htop]
    have hnew := owned_eq T top (goto_self
      (s.join (s.lockOf T t k) (s.qnodeOf T t k)) t (.acqStart k))
    refine h.join hT hat (fun _ => hempty) (fun i hi => ?_) (fun i hi => .inl ?_) ?_
      (lt_of_le_of_ne hle htop)
    · rw [hnew] at hi
      exact Nat.lt_succ_iff.mp hi
    · rw [hnew]
      exact Nat.lt_succ_iff.mpr hi
    · rw [counted_eq T top (goto_self ..)]
      exact le_rfl

theorem Inv.join_behind (hT : T.Uniform top) (h : Inv T top s) (hat : s.pc t = .acqXchg k)
    {pred : Node Tid Lock} (hsome : s.lock (s.lockOf T t k) = some pred) :
    Inv T top ((s.join (s.lockOf T t k) (s.qnodeOf T t k)).goto t (.acqLink k pred)) := by
  have hpc := h.pcs t
  rw [hat] at hpc
  obtain ⟨hle, hstatus, -⟩ := hpc
  rw [h.lock] at hsome
  have hnew := owned_eq T top (goto_self
    (s.join (s.lockOf T t k) (s.qnodeOf T t k)) t (.acqLink k pred))
  refine h.join hT hat (fun hlt => ?_) (fun i hi => ?_) (fun i hi => ?_) ?_
    ⟨hle, hstatus, ?_, h.last _ _ hsome⟩
  · rw [hnew] at hlt
    exact absurd hlt (lt_irrefl k)
  · rw [hnew] at hi
    exact le_of_lt hi
  · rcases hi.lt_or_eq with hi | rfl
    · rw [InLine, hnew]
      exact .inl hi
    · rw [InLine, goto_self]
      exact .inr rfl
  · rw [counted_eq T top (goto_self ..)]
    exact le_rfl
  · change Follows (update s.line (s.lockOf T t k) (s.line (s.lockOf T t k) ++
      [s.qnodeOf T t k]) (s.lockOf T t k)) pred (s.qnodeOf T t k)
    rw [update_self, Follows.concat_iff]
    exact .inr ⟨hsome, rfl⟩

/-- A thread links its node to the one in front of it. -/
theorem Inv.acqLink (hT : T.Uniform top) (h : Inv T top s) {pred : Node Tid Lock}
    (hat : s.pc t = .acqLink k pred) :
    Inv T top ((s.setNext pred (some (s.qnodeOf T t k))).goto t (.acqAwait k)) := by
  have hpc := h.pcs t
  rw [hat] at hpc
  obtain ⟨hle, hstatus, hfollows, hnone⟩ := hpc
  have hdrives : Drives T top s t k := .inr (by rw [hat]; rfl)
  have hold := owned_eq T top hat
  set s' := (s.setNext pred (some (s.qnodeOf T t k))).goto t (.acqAwait k) with hs'
  have hself : s'.pc t = .acqAwait k := goto_self ..
  have hsame (m : Node Tid Lock) (hm : m ≠ pred) : s'.next m = s.next m :=
    update_of_ne hm ..
  have hkeeps (u : Tid) (hu : u ≠ t) : Keeps T top s s' u := by
    refine ⟨goto_other _ _ hu, rfl, fun _ _ => rfl, fun i hi => hsame _ ?_, fun i m hi hm => ?_,
      fun i p hi hp => ⟨hp, hsame _ ?_⟩⟩
    · have hout := h.not_in_line hT (t := u) (k := i) (by rw [hi]; rfl) (by rw [hi]; rfl)
        (owned_eq T top hi) (s.lockOf T t k)
      exact fun heq => hout (heq ▸ hfollows.left_mem)
    · rw [hsame _ fun heq => ?_]
      · exact hm
      · rw [heq, hnone] at hm
        cases hm
    · -- behind `pred` there is one node only
      rintro rfl
      have hl := h.one_line hT hp.left_mem hfollows.left_mem
      rw [hl] at hp
      have heq := hp.behind_unique (h.nodup _) hfollows
      exact hu (h.drives_unique hT (.inr (Pc.acquires_of_queued hi)) hdrives heq).1
  have howned : s'.owned T top t = s.owned T top t := by
    rw [owned_eq T top hself, hold]
    exact if_pos hstatus
  refine ⟨fun u => ?_, h.nodup, h.lock, fun u i hi => ?_, fun l m hm => ?_, fun l m hm => ?_,
    fun u i hi => ?_, fun u => ?_⟩
  · by_cases hu : u = t
    · rw [hu]
      exact fun _ => (hdrives.leaf h : T.isLeaf (s.leaf t) = true)
    · rw [(hkeeps u hu).pc]
      exact h.leaf u
  · by_cases hu : u = t
    · rw [hu, howned] at hi
      rw [hu]
      exact h.first t i hi
    · exact (hkeeps u hu).first h hi rfl
  · obtain ⟨u, i, hi, hl, hn⟩ := h.cover l m hm
    by_cases hu : u = t
    · subst hu
      refine ⟨u, i, ?_, hl, hn⟩
      rw [InLine, howned, hself]
      rw [InLine, hat] at hi
      exact hi
    · exact ⟨u, i, (hkeeps u hu).inLine hi, hl, hn⟩
  · have hm : (s.line l).getLast? = some m := hm
    rw [hsame m fun heq => ?_]
    · exact h.last l m hm
    · subst heq
      have hl := h.one_line hT (List.mem_of_getLast? hm) hfollows.left_mem
      rw [hl] at hm
      exact hfollows.not_last (h.nodup _) hm
  · by_cases hu : u = t
    · subst hu
      rw [counted_eq T top hself] at hi
      refine h.counts u i ?_
      rw [counted_eq T top hat]
      exact hi.trans_eq (if_pos (.inl hstatus))
    · exact (hkeeps u hu).counts h hi
  · by_cases hu : u = t
    · rw [hu, hself]
      exact ⟨hle, fun _ => ⟨pred, hfollows, update_self ..⟩⟩
    · exact PcOk.keep h (hkeeps u hu)

/-- The first node of a queue leaves it. If the thread owned locks above this one, then the
thread `v` that gets the queue owns them now. -/
theorem Inv.pop (hT : T.Uniform top) (h : Inv T top s) (hk : k < s.owned T top t)
    (hquiet : (s.pc t).queued = none) {rest : List (Node Tid Lock)}
    (hrest : s.line (s.lockOf T t k) = s.qnodeOf T t k :: rest)
    (hline : s'.line = update s.line (s.lockOf T t k) rest)
    (hlock : ∀ l, s'.lock l = (s'.line l).getLast?) (hleaf : s'.leaf = s.leaf)
    (hnext : s'.next = s.next) (hpc : s'.pc t = returned k) (gets : Tid → Prop)
    (hkeeps : ∀ v, v ≠ t → ¬ gets v → Keeps T top s s' v) (hother : ∀ v, gets v → v ≠ t)
    (hpcs : ∀ v, gets v → s'.pc v = s.pc v)
    (hmore : ∀ v, gets v → s.owned T top v ≤ s'.owned T top v)
    (hfirst : ∀ v i, gets v → i < s'.owned T top v →
      (s'.line (s.lockOf T v i)).head? = some (s.qnodeOf T v i))
    (hcover : ∀ i, k < i → i < s.owned T top t → ∃ v, gets v ∧ i < s'.owned T top v ∧
      s.lockOf T v i = s.lockOf T t i ∧ s.qnodeOf T v i = s.qnodeOf T t i)
    (hcounts : ∀ v i, gets v → i < s'.counted T top v →
      s'.status (s.qnodeOf T v i) ≤ T.threshold (s.lockOf T v i))
    (hok : ∀ v, gets v → PcOk T top s' v (s'.pc v)) : Inv T top s' := by
  have hsame (l : Lock) (hl : l ≠ s.lockOf T t k) : s'.line l = s.line l := by
    rw [hline]
    exact update_of_ne hl ..
  have hself : s'.line (s.lockOf T t k) = rest := by
    rw [hline]
    exact update_self ..
  have hlockOf (v : Tid) (i : Nat) : s'.lockOf T v i = s.lockOf T v i := lockOf_eq (by rw [hleaf]) i
  have hqnodeOf (v : Tid) (i : Nat) : s'.qnodeOf T v i = s.qnodeOf T v i :=
    qnodeOf_eq (by rw [hleaf]) i
  have howned : s'.owned T top t = k := by rw [owned_eq T top hpc, returned_owned]
  have hnodup := h.nodup (s.lockOf T t k)
  rw [hrest, List.nodup_cons] at hnodup
  have hinLine (v : Tid) (i : Nat) (hv : v ≠ t) (hi : InLine T top s v i) :
      InLine T top s' v i := by
    by_cases hgets : gets v
    · rw [InLine, hpcs v hgets]
      exact hi.imp_left fun hi => hi.trans_le (hmore v hgets)
    · exact (hkeeps v hv hgets).inLine hi
  refine ⟨fun v => ?_, fun l => ?_, hlock, fun v i hi => ?_, fun l m hm => ?_, fun l m hm => ?_,
    fun v i hi => ?_, fun v => ?_⟩
  · rw [hleaf]
    by_cases hv : v = t
    · rw [hv]
      exact fun _ => Drives.leaf h (.inl hk)
    · by_cases hgets : gets v
      · rw [hpcs v hgets]
        exact h.leaf v
      · rw [(hkeeps v hv hgets).pc]
        exact h.leaf v
  · by_cases hl : l = s.lockOf T t k
    · rw [hl, hself]
      exact hnodup.2
    · rw [hsame l hl]
      exact h.nodup l
  · rw [hlockOf, hqnodeOf]
    by_cases hv : v = t
    · subst hv
      rw [howned] at hi
      rw [hsame _ fun heq => ?_]
      · exact h.first v i (hi.trans hk)
      · exact hi.ne (h.owner_unique hT (hi.trans hk) hk heq).2
    · by_cases hgets : gets v
      · exact hfirst v i hgets hi
      · rw [(hkeeps v hv hgets).owned] at hi
        rw [hsame _ fun heq => hv (h.owner_unique hT hi hk heq).1]
        exact h.first v i hi
  · have hold : m ∈ s.line l ∧ (l = s.lockOf T t k → m ≠ s.qnodeOf T t k) := by
      by_cases hl : l = s.lockOf T t k
      · rw [hl, hself] at hm
        rw [hl, hrest]
        exact ⟨List.mem_cons_of_mem _ hm, fun _ heq => hnodup.1 (heq ▸ hm)⟩
      · rw [hsame l hl] at hm
        exact ⟨hm, fun heq => absurd heq hl⟩
    obtain ⟨v, i, hi, rfl, rfl⟩ := h.cover l m hold.1
    by_cases hv : v = t
    · subst hv
      have hi : i < s.owned T top v := by
        refine hi.resolve_right fun hqueued => ?_
        rw [hquiet] at hqueued
        cases hqueued
      have hne : i ≠ k := by
        rintro rfl
        exact hold.2 rfl rfl
      rcases hne.lt_or_gt with hlt | hgt
      · refine ⟨v, i, .inl ?_, hlockOf v i, hqnodeOf v i⟩
        rw [howned]
        exact hlt
      · obtain ⟨w, -, hw, hwl, hwq⟩ := hcover i hgt hi
        exact ⟨w, i, .inl hw, (hlockOf w i).trans hwl, (hqnodeOf w i).trans hwq⟩
    · exact ⟨v, i, hinLine v i hv hi, hlockOf v i, hqnodeOf v i⟩
  · rw [hnext]
    by_cases hl : l = s.lockOf T t k
    · rw [hl, hself] at hm
      refine h.last (s.lockOf T t k) m ?_
      rw [hrest, List.getLast?_cons, hm]
      rfl
    · rw [hsame l hl] at hm
      exact h.last l m hm
  · by_cases hv : v = t
    · rw [hv, counted_eq T top hpc, returned_counted] at hi
      cases hi
    · by_cases hgets : gets v
      · rw [hlockOf, hqnodeOf]
        exact hcounts v i hgets hi
      · exact (hkeeps v hv hgets).counts h hi
  · by_cases hv : v = t
    · rw [hv, hpc]
      cases k with
      | zero => trivial
      | succ k =>
        have hle := h.owned_le t
        change k ≤ top
        omega
    · by_cases hgets : gets v
      · exact hok v hgets
      · exact PcOk.keep h (hkeeps v hv hgets)

/-- A thread passes the lock of its call `k`, with the locks above it that it owns, to the
thread that waits with the next node. -/
theorem Inv.pass (hT : T.Uniform top) (h : Inv T top s) (hk : k < s.owned T top t)
    (hquiet : (s.pc t).queued = none) {succ : Node Tid Lock}
    (hnext : s.next (s.qnodeOf T t k) = some succ) {status : Nat}
    (hwait : status ≠ waitStatus top k)
    (howned : (Pc.acqAwait k : Pc Tid Lock).owned top status = s.owned T top t)
    (hcounts : ∀ i, i < (Pc.acqAwait k : Pc Tid Lock).counted top status → i < k ∨
      (i = k ∧ status ≤ T.threshold (s.lockOf T t k)) ∨ (k < i ∧ i < s.counted T top t)) :
    Inv T top (((s.setStatus succ status).leave (s.lockOf T t k)).goto t (returned k)) := by
  obtain ⟨u, rest, hrest, hat, hl, rfl, hold, hstatus⟩ := h.second hT hk hnext
  have hut : u ≠ t := by
    rintro rfl
    omega
  have hdrives : Drives T top s u k := .inr (by rw [hat]; rfl)
  set s' := ((s.setStatus (s.qnodeOf T u k) status).leave (s.lockOf T t k)).goto t (returned k)
    with hs'
  have hline : s'.line = update s.line (s.lockOf T t k) (s.qnodeOf T u k :: rest) := by
    change update s.line (s.lockOf T t k) (s.line (s.lockOf T t k)).tail = _
    rw [hrest]
    rfl
  have hself : s'.line (s.lockOf T t k) = s.qnodeOf T u k :: rest := by
    rw [hline]
    exact update_self ..
  have hsame (l : Lock) (hne : l ≠ s.lockOf T t k) : s'.line l = s.line l := by
    rw [hline]
    exact update_of_ne hne ..
  have hpcu : s'.pc u = .acqAwait k := (goto_other _ _ hut).trans hat
  have hnew : s'.status (s.qnodeOf T u k) = status := update_self ..
  have hkept (m : Node Tid Lock) (hm : m ≠ s.qnodeOf T u k) : s'.status m = s.status m :=
    update_of_ne hm ..
  have howned' : s'.owned T top u = s.owned T top t := by
    rw [owned_eq T top hpcu, ← howned]
    exact congrArg (fun status => (Pc.acqAwait k : Pc Tid Lock).owned top status) hnew
  refine h.pop hT hk hquiet hrest hline (fun l => ?_) rfl rfl (goto_self ..) (· = u)
    (fun v hv hgets => ?_) ?_ ?_ ?_ ?_ (fun i hi hio => ⟨u, rfl, ?_⟩) ?_ ?_
  · by_cases hne : l = s.lockOf T t k
    · rw [hne, hself]
      refine (h.lock _).trans ?_
      rw [hrest, List.getLast?_cons_cons]
    · rw [hsame l hne]
      exact h.lock l
  · refine ⟨goto_other _ _ hv, rfl, fun i hi => hkept _ fun heq => ?_, fun _ _ => rfl,
      fun _ _ _ => id, fun i pred hi hpred => ⟨?_, rfl⟩⟩
    · exact hgets (h.drives_unique hT hi hdrives heq).1
    · by_cases hne : s.lockOf T v i = s.lockOf T t k
      · rw [hne] at hpred ⊢
        rw [hself]
        rw [hrest] at hpred
        rcases Follows.cons_iff.mp hpred with ⟨-, hhead⟩ | hpred
        · have heq := (Option.some.inj hhead).symm
          have hvi : Drives T top s v i := .inr (Pc.acquires_of_queued hi)
          exact absurd (h.drives_unique hT hvi hdrives heq).1 hgets
        · exact hpred
      · rw [hsame _ hne]
        exact hpred
  · rintro v rfl
    exact hut
  · rintro v rfl
    exact goto_other _ _ hut
  · rintro v rfl
    rw [howned', hold]
    exact hk.le
  · rintro v i rfl hi
    rw [howned'] at hi
    rcases lt_trichotomy i k with hlt | rfl | hgt
    · rw [hsame _ fun heq => hlt.ne ?_]
      · exact h.first v i (hlt.trans_eq hold.symm)
      · exact Drives.level hT h (.inl (hlt.trans_eq hold.symm)) (.inl hk) heq
    · rw [hl, hself]
      rfl
    · rw [show s.lockOf T v i = s.lockOf T t i from lockAt_above hl hgt.le,
        show s.qnodeOf T v i = s.qnodeOf T t i from qnodeAt_above hl hgt v t,
        hsame _ fun heq => hgt.ne' (h.owner_unique hT hi hk heq).2]
      exact h.first t i hi
  · rw [howned']
    exact ⟨hio, lockAt_above hl hi.le, qnodeAt_above hl hi u t⟩
  · rintro v i rfl hi
    rw [counted_eq T top hpcu] at hi
    have hi : i < (Pc.acqAwait k : Pc Tid Lock).counted top (s'.status (s.qnodeOf T v k)) := hi
    rw [hnew] at hi
    rcases hcounts i hi with hlt | ⟨rfl, hle⟩ | ⟨hgt, hi⟩
    · have hcounted : i < s.counted T top v := by
        rw [counted_eq T top hat]
        exact hlt.trans_eq (if_pos (.inl hstatus)).symm
      have hdi : Drives T top s v i := .inl (hlt.trans_eq hold.symm)
      rw [hkept _ fun heq => hlt.ne (h.drives_unique hT hdi hdrives heq).2]
      exact h.counts v i hcounted
    · rw [hnew, hl]
      exact hle
    · have hdi : Drives T top s t i := .inl (hi.trans_le (h.counted_le t))
      rw [show s.lockOf T v i = s.lockOf T t i from lockAt_above hl hgt.le,
        show s.qnodeOf T v i = s.qnodeOf T t i from qnodeAt_above hl hgt v t,
        hkept _ fun heq => hut (h.drives_unique hT hdi hdrives heq).1.symm]
      exact h.counts t i hi
  · rintro v rfl
    rw [hpcu]
    exact ⟨hdrives.le h, fun heq => absurd (hnew.symm.trans heq) hwait⟩

theorem Inv.helpCas (hT : T.Uniform top) (h : Inv T top s) (hat : s.pc t = .helpCas k)
    (hlock : s.lock (s.lockOf T t k) = some (s.qnodeOf T t k)) :
    Inv T top (({ s with lock := update s.lock (s.lockOf T t k) none }.leave
      (s.lockOf T t k)).goto t (returned k)) := by
  have howned := owned_eq T top hat
  have hk : k < s.owned T top t := by
    rw [howned]
    exact Nat.lt_succ_self k
  have hrest : s.line (s.lockOf T t k) = [s.qnodeOf T t k] := by
    obtain ⟨rest, hrest⟩ := List.head?_eq_some_iff.mp (h.first t k hk)
    have hnodup := h.nodup (s.lockOf T t k)
    rw [h.lock, hrest] at hlock
    rw [hrest] at hnodup ⊢
    cases rest with
    | nil => rfl
    | cons m rest =>
      rw [List.getLast?_cons_cons] at hlock
      exact absurd (List.mem_of_getLast? hlock) (List.nodup_cons.mp hnodup).1
  set s' := ({ s with lock := update s.lock (s.lockOf T t k) none }.leave
    (s.lockOf T t k)).goto t (returned k) with hs'
  have hline : s'.line = update s.line (s.lockOf T t k) [] := by
    change update s.line (s.lockOf T t k) (s.line (s.lockOf T t k)).tail = _
    rw [hrest]
    rfl
  refine h.pop hT hk (by rw [hat]; rfl) hrest hline (fun l => ?_) rfl rfl (goto_self ..)
    (fun _ => False) (fun v hv _ => ?_) ?_ ?_ ?_ ?_ (fun i hi hio => ?_) ?_ ?_
  · rw [hline]
    by_cases hne : l = s.lockOf T t k
    · rw [hne, update_self]
      exact update_self ..
    · rw [update_of_ne hne, ← h.lock l]
      exact update_of_ne hne ..
  · refine ⟨goto_other _ _ hv, rfl, fun _ _ => rfl, fun _ _ => rfl, fun _ _ _ => id,
      fun i pred hi hpred => ⟨?_, rfl⟩⟩
    rw [hline]
    by_cases hne : s.lockOf T v i = s.lockOf T t k
    · rw [hne, hrest] at hpred
      exact absurd hpred.right_mem_tail List.not_mem_nil
    · rw [update_of_ne hne]
      exact hpred
  · exact fun _ hgets => hgets.elim
  · exact fun _ hgets => hgets.elim
  · exact fun _ hgets => hgets.elim
  · exact fun _ _ hgets => hgets.elim
  · rw [howned] at hio
    have hio : i < k + 1 := hio
    omega
  · exact fun _ _ hgets => hgets.elim
  · exact fun _ hgets => hgets.elim

end Libvsync.Spinlock.Hmcslock
