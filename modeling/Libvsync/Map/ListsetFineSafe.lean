import Libvsync.Map.ListsetFine

/-!
Hand-over-hand locking keeps the list set sorted and atomic, and lets nobody
near a node that has been taken out. The nodes from head to tail form a chain;
the position of every thread is a link of it, whose first node the thread has
locked. A node that is being added, or was taken out, belongs to one thread.
-/

namespace Libvsync.Map.ListsetFine

open Libvsync.Core Function
open Libvsync.Map.ListsetLf (Config rankOf numbered nodeTwo nodeThree)

variable {Tid Node Key : Type} [DecidableEq Node] [LinearOrder Key]

/-- The shape of the list. -/
structure Shape (c : Config Node Key) (s : State Tid Node Key) (nodes : List Node) : Prop where
  chain : Chain s.next c.head c.tail nodes
  last : s.next c.tail = none
  grows : ∀ a ∈ nodes, ∀ b, s.next a = some b → c.rank a < c.rank b
  inUse : ∀ n ∈ nodes, n ≠ c.head → n ≠ c.tail → s.inUse n = true

/-- The place of a search for `k`: `pred` is locked, and `curr` follows it. -/
structure At (c : Config Node Key) (s : State Tid Node Key) (nodes : List Node) (t : Tid)
    (k : Key) (pred curr : Node) : Prop where
  predIn : pred ∈ nodes
  held : s.owner pred = some t
  link : s.next pred = some curr
  below : c.rank pred < rankOf k

def OpOk (c : Config Node Key) (k : Key) : Op Node → Prop
  | .add node => c.key node = k
  | _ => True

/-- The nodes that belong to a thread alone. -/
def Op.owned : Op Node → List Node
  | .add node => [node]
  | _ => []

def Outcome.owned : Outcome Node → List Node
  | .added node false => [node]
  | .removed (some node) => [node]
  | _ => []

def Pc.owned : Pc Node Key → List Node
  | .lockHead _ op | .lockCurr _ op _ _ | .unlockPred _ op _ _ | .decide _ op _ _ => op.owned
  | .addLink _ node _ _ => [node]
  | .unlockCurr _ outcome _ _ | .unlockLast _ outcome _ => outcome.owned
  | .retire _ curr => [curr]
  | .ret _ (.added node false) => [node]
  | _ => []

def PcOk (c : Config Node Key) (s : State Tid Node Key) (nodes : List Node) (t : Tid) :
    Pc Node Key → Prop
  | .idle | .ret _ _ => True
  | .lockHead k op => OpOk c k op
  | .lockCurr k op pred curr => OpOk c k op ∧ At c s nodes t k pred curr
  | .unlockPred k op pred curr => OpOk c k op ∧ At c s nodes t k pred curr ∧
      s.owner curr = some t ∧ c.rank curr < rankOf k
  | .decide k op pred curr => OpOk c k op ∧ At c s nodes t k pred curr ∧
      s.owner curr = some t ∧ rankOf k ≤ c.rank curr
  | .addLink k node pred curr => c.key node = k ∧ At c s nodes t k pred curr ∧
      s.owner curr = some t ∧ rankOf k < c.rank curr ∧ s.next node = some curr
  | .removeLink k pred curr => At c s nodes t k pred curr ∧
      s.owner curr = some t ∧ curr ≠ c.tail ∧ c.rank curr = rankOf k
  | .unlockCurr _ outcome pred curr => pred ∈ nodes ∧ s.owner pred = some t ∧
      s.owner curr = some t ∧ pred ≠ curr ∧
      (outcome = .removed (some curr) ∨ curr ∈ nodes ∧ ∀ n, outcome ≠ .removed (some n))
  | .unlockLast _ outcome pred => pred ∈ nodes ∧ s.owner pred = some t ∧
      ∀ n, outcome = .removed (some n) → s.owner n = none
  | .retire _ curr => s.owner curr = none
  | .crashed => False

structure Inv (c : Config Node Key) (s : State Tid Node Key) (nodes : List Node) : Prop where
  shape : Shape c s nodes
  pc : ∀ t, PcOk c s nodes t (s.pc t)
  owned : ∀ t, ∀ n ∈ (s.pc t).owned, s.inUse n = true ∧ n ∉ nodes
  apart : ∀ t u n, n ∈ (s.pc t).owned → n ∈ (s.pc u).owned → t = u

/-- What a step of another thread leaves of the nodes of thread `u`. -/
structure Keeps (s s' : State Tid Node Key) (nodes nodes' : List Node) (u : Tid) : Prop where
  held : ∀ n, n ∈ nodes ∨ n ∈ (s.pc u).owned → s.owner n = some u → s'.owner n = some u
  stays : ∀ n ∈ nodes, s.owner n = some u → n ∈ nodes' ∧ s'.next n = s.next n
  own : ∀ n ∈ (s.pc u).owned, s'.next n = s.next n ∧ s'.inUse n = true ∧ n ∉ nodes' ∧
    (s.owner n = none → s'.owner n = none)

variable {c : Config Node Key} {s s' : State Tid Node Key} {nodes nodes' : List Node} {t u : Tid}

theorem At.notTail {k : Key} {pred curr : Node} (h : At c s nodes t k pred curr) :
    pred ≠ c.tail := by
  rintro rfl
  exact lt_asymm h.below (c.rank_tail k)

theorem At.currIn (h : Shape c s nodes) {k : Key} {pred curr : Node}
    (hat : At c s nodes t k pred curr) : curr ∈ nodes :=
  h.chain.next_mem hat.predIn hat.notTail hat.link

theorem At.ne (h : Shape c s nodes) {k : Key} {pred curr : Node}
    (hat : At c s nodes t k pred curr) : pred ≠ curr := by
  rintro rfl
  exact lt_irrefl _ (h.grows pred hat.predIn pred hat.link)

theorem At.currNotHead (h : Shape c s nodes) {k : Key} {pred curr : Node}
    (hat : At c s nodes t k pred curr) : curr ≠ c.head :=
  Config.ne_head_of_lt (h.grows pred hat.predIn curr hat.link)

theorem At.frame {k : Key} {pred curr : Node} (hat : At c s nodes u k pred curr)
    (keeps : Keeps s s' nodes nodes' u) : At c s' nodes' u k pred curr where
  predIn := (keeps.stays pred hat.predIn hat.held).1
  held := keeps.held pred (.inl hat.predIn) hat.held
  link := ((keeps.stays pred hat.predIn hat.held).2).trans hat.link
  below := hat.below

theorem PcOk.frame (h : Inv c s nodes) (keeps : Keeps s s' nodes nodes' u) :
    PcOk c s' nodes' u (s.pc u) := by
  have hok := h.pc u
  have hown := keeps.own
  have hheld := keeps.held
  cases hpc : s.pc u with
  | idle | ret => trivial
  | lockHead k op => rw [hpc] at hok; exact hok
  | lockCurr k op pred curr =>
    rw [hpc] at hok
    exact ⟨hok.1, hok.2.frame keeps⟩
  | unlockPred k op pred curr | decide k op pred curr =>
    rw [hpc] at hok
    obtain ⟨hop, hat, hcurr, hrank⟩ := hok
    exact ⟨hop, hat.frame keeps, hheld curr (.inl (hat.currIn h.shape)) hcurr, hrank⟩
  | addLink k node pred curr =>
    rw [hpc] at hok hown
    obtain ⟨hkey, hat, hcurr, hrank, hnext⟩ := hok
    exact ⟨hkey, hat.frame keeps, hheld curr (.inl (hat.currIn h.shape)) hcurr, hrank,
      ((hown node (by simp [Pc.owned])).1).trans hnext⟩
  | removeLink k pred curr =>
    rw [hpc] at hok
    obtain ⟨hat, hcurr, htail, hrank⟩ := hok
    exact ⟨hat.frame keeps, hheld curr (.inl (hat.currIn h.shape)) hcurr, htail, hrank⟩
  | unlockCurr k outcome pred curr =>
    rw [hpc] at hok hheld
    obtain ⟨hin, hpred, hcurr, hne, hout⟩ := hok
    refine ⟨(keeps.stays pred hin hpred).1, hheld pred (.inl hin) hpred, ?_, hne, ?_⟩
    · rcases hout with rfl | ⟨hcurrIn, -⟩
      · exact hheld curr (.inr (by simp [Pc.owned, Outcome.owned])) hcurr
      · exact hheld curr (.inl hcurrIn) hcurr
    · rcases hout with hout | ⟨hcurrIn, hout⟩
      · exact .inl hout
      · exact .inr ⟨(keeps.stays curr hcurrIn hcurr).1, hout⟩
  | unlockLast k outcome pred =>
    rw [hpc] at hok hown
    obtain ⟨hin, hpred, hout⟩ := hok
    refine ⟨(keeps.stays pred hin hpred).1, hheld pred (.inl hin) hpred, ?_⟩
    rintro n rfl
    exact (hown n (by simp [Pc.owned, Outcome.owned])).2.2.2 (hout n rfl)
  | retire k curr =>
    rw [hpc] at hok hown
    exact (hown curr (by simp [Pc.owned])).2.2.2 hok
  | crashed =>
    rw [hpc] at hok
    exact hok

theorem Shape.members_iff (h : Shape c s nodes) {n : Node} :
    n ∈ members c s ↔ n ∈ nodes ∧ n ≠ c.head ∧ n ≠ c.tail := by
  constructor
  · rintro ⟨hreach, hne⟩
    exact ⟨h.chain.reaches_mem h.last hreach, hne⟩
  · rintro ⟨hmem, hne⟩
    exact ⟨h.chain.mem_reaches hmem, hne⟩

theorem Shape.members_eq (h : Shape c s nodes) (h' : Shape c s' nodes) :
    members c s' = members c s := by
  ext n
  rw [h.members_iff, h'.members_iff]

/-- No member has the key when the place of the search is between keys. -/
theorem Shape.absent (h : Shape c s nodes) {k : Key} {pred curr : Node}
    (hat : At c s nodes t k pred curr) (habove : rankOf k < c.rank curr) :
    ∀ m ∈ members c s, c.key m ≠ k := by
  intro m hm hkey
  obtain ⟨hmem, hhead, htail⟩ := h.members_iff.mp hm
  have hrank : c.rank m = rankOf k := by
    rw [Config.rank_of_ne hhead htail, hkey]
  rcases h.chain.gap h.grows hat.predIn hat.notTail hat.link hmem with hle | hle
  · rw [hrank] at hle
    exact absurd hat.below (not_lt_of_ge hle)
  · rw [hrank] at hle
    exact absurd habove (not_lt_of_ge hle)

variable [DecidableEq Tid]

omit [DecidableEq Tid] in
theorem PcOk.congr {pc : Pc Node Key} (h : PcOk c s nodes t pc) (hnext : s'.next = s.next)
    (howner : s'.owner = s.owner) : PcOk c s' nodes t pc := by
  have hat {k : Key} {pred curr : Node} (hat : At c s nodes t k pred curr) :
      At c s' nodes t k pred curr :=
    ⟨hat.predIn, howner ▸ hat.held, hnext ▸ hat.link, hat.below⟩
  cases pc with
  | idle | ret | lockHead => exact h
  | lockCurr k op pred curr => exact ⟨h.1, hat h.2⟩
  | unlockPred k op pred curr | decide k op pred curr => exact ⟨h.1, hat h.2.1, howner ▸ h.2.2⟩
  | addLink k node pred curr => exact ⟨h.1, hat h.2.1, howner ▸ hnext ▸ h.2.2⟩
  | removeLink k pred curr => exact ⟨hat h.1, howner ▸ h.2⟩
  | unlockCurr k outcome pred curr | unlockLast k outcome pred | retire k curr =>
    simp only [PcOk, howner] at h ⊢
    exact h
  | crashed => exact h

/-- One thread moves; the nodes of the others stay. -/
theorem Inv.moved (h : Inv c s nodes) {pc' : Pc Node Key} (hpcs : s'.pc = s.pc)
    (shape : Shape c s' nodes') (ok : PcOk c s' nodes' t pc')
    (keeps : ∀ u, u ≠ t → Keeps s s' nodes nodes' u)
    (owned : ∀ n ∈ pc'.owned, s'.inUse n = true ∧ n ∉ nodes' ∧ ∀ u, u ≠ t → n ∉ (s.pc u).owned) :
    Inv c (s'.goto t pc') nodes' := by
  have hself : (s'.goto t pc').pc t = pc' := update_self ..
  have hothers (u : Tid) (hu : u ≠ t) : (s'.goto t pc').pc u = s.pc u := by
    simp only [State.goto, update_of_ne hu, hpcs]
  refine ⟨⟨shape.chain, shape.last, shape.grows, shape.inUse⟩, ?_, ?_, ?_⟩
  · intro u
    by_cases hu : u = t
    · subst hu
      rw [hself]
      exact ok.congr rfl rfl
    · rw [hothers u hu]
      exact (PcOk.frame h (keeps u hu)).congr rfl rfl
  · intro u n hn
    by_cases hu : u = t
    · subst hu
      rw [hself] at hn
      exact ⟨(owned n hn).1, (owned n hn).2.1⟩
    · rw [hothers u hu] at hn
      obtain ⟨-, hinUse, hout, -⟩ := (keeps u hu).own n hn
      exact ⟨hinUse, hout⟩
  · intro u v n hu hv
    by_cases hut : u = t
    · by_cases hvt : v = t
      · rw [hut, hvt]
      · rw [hothers v hvt] at hv
        rw [hut, hself] at hu
        exact absurd hv ((owned n hu).2.2 v hvt)
    · rw [hothers u hut] at hu
      by_cases hvt : v = t
      · rw [hvt, hself] at hv
        exact absurd hu ((owned n hv).2.2 u hut)
      · rw [hothers v hvt] at hv
        exact h.apart u v n hu hv

section

omit [DecidableEq Tid]

theorem Inv.still_owned (h : Inv c s nodes) {n : Node} (hn : n ∈ (s.pc t).owned) :
    s.inUse n = true ∧ n ∉ nodes ∧ ∀ u, u ≠ t → n ∉ (s.pc u).owned := by
  obtain ⟨hinUse, hout⟩ := h.owned t n hn
  exact ⟨hinUse, hout, fun u hu hmem => hu (h.apart u t n hmem hn)⟩

theorem Keeps.refl (h : Inv c s nodes) (u : Tid) : Keeps s s nodes nodes u where
  held _ _ hn := hn
  stays _ hn _ := ⟨hn, rfl⟩
  own n hn := ⟨rfl, (h.owned u n hn).1, (h.owned u n hn).2, id⟩

theorem Keeps.acquire (h : Inv c s nodes) {n : Node} (hn : n ∈ nodes) (hfree : s.owner n = none)
    (t u : Tid) :
    Keeps s { s with owner := update s.owner n (some t) } nodes nodes u where
  held m _ hm := by
    have hne : m ≠ n := by
      rintro rfl
      rw [hfree] at hm
      cases hm
    exact (update_of_ne hne _ _).trans hm
  stays _ hm _ := ⟨hm, rfl⟩
  own m hm := by
    obtain ⟨hinUse, hout⟩ := h.owned u m hm
    have hne : m ≠ n := by
      rintro rfl
      exact hout hn
    exact ⟨rfl, hinUse, hout, fun hnone => (update_of_ne hne _ _).trans hnone⟩

theorem Keeps.release (h : Inv c s nodes) {n : Node} (hheld : s.owner n = some t) {u : Tid}
    (hu : u ≠ t) : Keeps s (s.release n) nodes nodes u where
  held m _ hm := by
    have hne : m ≠ n := by
      rintro rfl
      rw [hheld] at hm
      exact hu (Option.some.inj hm).symm
    exact (update_of_ne hne _ _).trans hm
  stays _ hm _ := ⟨hm, rfl⟩
  own m hm := by
    obtain ⟨hinUse, hout⟩ := h.owned u m hm
    refine ⟨rfl, hinUse, hout, ?_⟩
    intro hnone
    by_cases hne : m = n
    · exact hne ▸ update_self ..
    · exact (update_of_ne hne _ _).trans hnone

end

/-- A step keeps the invariant and moves the call of its thread. -/
def Stepped (c : Config Node Key) (past : List (State Tid Node Key × Act Tid Node Key))
    (s s' : State Tid Node Key) (t : Tid) : Prop :=
  (∃ nodes', Inv c s' nodes') ∧ Move (view c) (setSpec c.key) t past s s'

variable {past : List (State Tid Node Key × Act Tid Node Key)}

/-- A step that leaves the list and the outcome as they are. -/
theorem Inv.walk (h : Inv c s nodes) {pc' : Pc Node Key} (h' : Inv c (s'.goto t pc') nodes)
    (hsettled : pc'.settled = (s.pc t).settled) : Stepped c past s (s'.goto t pc') t := by
  refine ⟨⟨nodes, h'⟩, .walk (h.shape.members_eq h'.shape) ?_⟩
  show ((s'.goto t pc').pc t).settled = (s.pc t).settled
  rw [show (s'.goto t pc').pc t = pc' from update_self .., hsettled]

/-- A step that settles the outcome by what the list is. -/
theorem Inv.settle {pc' : Pc Node Key} (h' : Inv c (s'.goto t pc') nodes')
    (hbefore : (s.pc t).settled = none) {i : SetCall Node Key} {r : SetResult Node}
    (hafter : pc'.settled = some (i, r))
    (hspec : setSpec c.key (members c s) i r (members c (s'.goto t pc'))) :
    Stepped c past s (s'.goto t pc') t := by
  refine ⟨⟨nodes', h'⟩, .settle i r hbefore ?_ hspec⟩
  show ((s'.goto t pc').pc t).settled = _
  rw [show (s'.goto t pc').pc t = pc' from update_self .., hafter]

theorem Inv.begin_call (h : Inv c s nodes) (hidle : s.pc t = .idle) {k : Key} {op : Op Node}
    (hstep : beginCall c s t k op = some s') : Stepped c past s s' t := by
  have hplain (hop : op.owned = []) (hok : OpOk c k op) :
      Stepped c past s (s.goto t (.lockHead k op)) t := by
    refine h.walk (h.moved rfl h.shape hok (fun u _ => Keeps.refl h u) ?_) (by rw [hidle]; rfl)
    intro n hn
    simp only [Pc.owned, hop, List.not_mem_nil] at hn
  cases op with
  | add node =>
    simp only [beginCall] at hstep
    split at hstep
    · rename_i hnew
      obtain ⟨hfresh, hhead, htail, hkey⟩ := hnew
      cases hstep
      have hout : node ∉ nodes := by
        intro hin
        rw [h.shape.inUse node hin hhead htail] at hfresh
        cases hfresh
      refine h.walk (h.moved rfl ⟨h.shape.chain, h.shape.last, h.shape.grows, ?_⟩ hkey ?_ ?_)
        (by rw [hidle]; rfl)
      · intro n hn hne hne'
        by_cases hnode : n = node
        · exact absurd (hnode ▸ hn) hout
        · exact (update_of_ne hnode _ _).trans (h.shape.inUse n hn hne hne')
      · intro u _
        refine ⟨fun _ _ hn => hn, fun _ hn _ => ⟨hn, rfl⟩, ?_⟩
        intro n hn
        obtain ⟨hinUse, hout'⟩ := h.owned u n hn
        have hne : n ≠ node := by
          rintro rfl
          rw [hinUse] at hfresh
          cases hfresh
        exact ⟨rfl, (update_of_ne hne _ _).trans hinUse, hout', id⟩
      · intro n hn
        rw [List.mem_singleton.mp hn]
        refine ⟨update_self .., hout, ?_⟩
        intro u _ hu
        rw [(h.owned u node hu).1] at hfresh
        cases hfresh
    · cases hstep
  | remove =>
    cases hstep
    exact hplain rfl trivial
  | get =>
    cases hstep
    exact hplain rfl trivial

theorem Inv.lock_head (h : Inv c s nodes) {k : Key} {op : Op Node} (hpc : s.pc t = .lockHead k op)
    (hstep : (s.acquire t c.head).map
      (fun s => s.goto t (toCurr k op c.head (s.next c.head))) = some s') :
    Stepped c past s s' t := by
  have hok := h.pc t
  rw [hpc] at hok
  obtain ⟨s₁, hacquire, rfl⟩ := Option.map_eq_some_iff.mp hstep
  simp only [State.acquire] at hacquire
  split at hacquire
  · rename_i hfree
    cases hacquire
    have hin := h.shape.chain.first_mem
    obtain ⟨curr, -, -, -, hcurr⟩ := h.shape.chain.split hin c.distinct
    dsimp only
    rw [hcurr]
    refine h.walk (h.moved rfl ⟨h.shape.chain, h.shape.last, h.shape.grows, h.shape.inUse⟩
      ⟨hok, hin, update_self .., hcurr, c.rank_head k⟩
      (fun u _ => Keeps.acquire h hin hfree t u) ?_) (by rw [hpc]; rfl)
    intro n hn
    exact h.still_owned (by rw [hpc]; exact hn)
  · cases hacquire

theorem Inv.lock_curr (h : Inv c s nodes) {k : Key} {op : Op Node} {pred curr : Node}
    (hpc : s.pc t = .lockCurr k op pred curr)
    (hstep : (s.acquire t curr).map (fun s => s.goto t (loopTest c k op pred curr)) = some s') :
    Stepped c past s s' t := by
  have hok := h.pc t
  rw [hpc] at hok
  obtain ⟨hop, hat⟩ := hok
  obtain ⟨s₁, hacquire, rfl⟩ := Option.map_eq_some_iff.mp hstep
  simp only [State.acquire] at hacquire
  split at hacquire
  · rename_i hfree
    cases hacquire
    have hin := hat.currIn h.shape
    have hhead := hat.currNotHead h.shape
    have hat' : At c { s with owner := update s.owner curr (some t) } nodes t k pred curr :=
      ⟨hat.predIn, (update_of_ne (hat.ne h.shape) _ _).trans hat.held, hat.link, hat.below⟩
    have hshape : Shape c { s with owner := update s.owner curr (some t) } nodes :=
      ⟨h.shape.chain, h.shape.last, h.shape.grows, h.shape.inUse⟩
    rw [loopTest]
    split
    · rename_i hloop
      refine h.walk (h.moved rfl hshape
        ⟨hop, hat', update_self .., (Config.rank_lt_iff hhead hloop.1).mpr hloop.2⟩
        (fun u _ => Keeps.acquire h hin hfree t u) ?_) (by rw [hpc]; rfl)
      intro n hn
      exact h.still_owned (by rw [hpc]; exact hn)
    · rename_i hloop
      have habove : rankOf k ≤ c.rank curr := by
        by_cases htail : curr = c.tail
        · rw [htail]
          exact (c.rank_tail k).le
        · rw [← not_lt, Config.rank_lt_iff hhead htail]
          exact fun hlt => hloop ⟨htail, hlt⟩
      refine h.walk (h.moved rfl hshape ⟨hop, hat', update_self .., habove⟩
        (fun u _ => Keeps.acquire h hin hfree t u) ?_) (by rw [hpc]; rfl)
      intro n hn
      exact h.still_owned (by rw [hpc]; exact hn)
  · cases hacquire

theorem Inv.unlock_pred (h : Inv c s nodes) {k : Key} {op : Op Node} {pred curr : Node}
    (hpc : s.pc t = .unlockPred k op pred curr) :
    Stepped c past s ((s.release pred).goto t (toCurr k op curr (s.next curr))) t := by
  have hok := h.pc t
  rw [hpc] at hok
  obtain ⟨hop, hat, hheld, hbelow⟩ := hok
  have htail : curr ≠ c.tail := by
    rintro rfl
    exact lt_asymm hbelow (c.rank_tail k)
  obtain ⟨succ, -, -, -, hsucc⟩ := h.shape.chain.split (hat.currIn h.shape) htail
  rw [hsucc]
  refine h.walk (h.moved rfl ⟨h.shape.chain, h.shape.last, h.shape.grows, h.shape.inUse⟩
    ⟨hop, hat.currIn h.shape, ?_, hsucc, hbelow⟩ (fun u hu => Keeps.release h hat.held hu) ?_)
    (by rw [hpc]; rfl)
  · exact (update_of_ne (hat.ne h.shape).symm _ _).trans hheld
  · intro n hn
    exact h.still_owned (by rw [hpc]; exact hn)

theorem Inv.unlock_curr (h : Inv c s nodes) {k : Key} {outcome : Outcome Node} {pred curr : Node}
    (hpc : s.pc t = .unlockCurr k outcome pred curr) :
    Stepped c past s ((s.release curr).goto t (.unlockLast k outcome pred)) t := by
  have hok := h.pc t
  rw [hpc] at hok
  obtain ⟨hin, hpred, hcurr, hne, hout⟩ := hok
  refine h.walk (h.moved rfl ⟨h.shape.chain, h.shape.last, h.shape.grows, h.shape.inUse⟩
    ⟨hin, (update_of_ne hne _ _).trans hpred, ?_⟩
    (fun u hu => Keeps.release h hcurr hu) ?_) (by rw [hpc]; rfl)
  · rintro n rfl
    rcases hout with hsame | ⟨-, hno⟩
    · cases hsame
      exact update_self ..
    · exact absurd rfl (hno n)
  · intro n hn
    exact h.still_owned (by rw [hpc]; exact hn)

theorem Inv.unlock_last (h : Inv c s nodes) {k : Key} {outcome : Outcome Node} {pred : Node}
    (hpc : s.pc t = .unlockLast k outcome pred) :
    Stepped c past s ((s.release pred).goto t (afterUnlock k outcome)) t := by
  have hok := h.pc t
  rw [hpc] at hok
  obtain ⟨hin, hpred, hout⟩ := hok
  have hmove {pc' : Pc Node Key} (hpc' : PcOk c (s.release pred) nodes t pc')
      (howned : ∀ n ∈ pc'.owned, n ∈ outcome.owned)
      (hsettled : pc'.settled = some (outcome.settled k)) :
      Stepped c past s ((s.release pred).goto t pc') t := by
    refine h.walk (h.moved rfl ⟨h.shape.chain, h.shape.last, h.shape.grows, h.shape.inUse⟩
      hpc' (fun u hu => Keeps.release h hpred hu) ?_) (by rw [hpc, hsettled]; rfl)
    intro n hn
    exact h.still_owned (by rw [hpc]; exact howned n hn)
  cases outcome with
  | added node ok =>
    refine hmove trivial ?_ rfl
    intro n hn
    cases ok <;> exact hn
  | got node => exact hmove trivial (fun n hn => hn) rfl
  | removed node =>
    cases node with
    | none => exact hmove trivial (fun n hn => hn) rfl
    | some curr =>
      have hmine : curr ∈ (s.pc t).owned := by
        rw [hpc]
        exact List.mem_singleton_self curr
      have hne : curr ≠ pred := by
        rintro rfl
        exact (h.owned t curr hmine).2 hin
      exact hmove ((update_of_ne hne _ _).trans (hout curr rfl)) (fun n hn => hn) rfl

/-- The memory of a node that belongs to the thread alone is given back. -/
theorem Inv.give_back (h : Inv c s nodes) {n : Node} (hmine : n ∈ (s.pc t).owned)
    {pc' : Pc Node Key} (hok : PcOk c s nodes t pc') (howned : pc'.owned = []) :
    Inv c ({ s with inUse := update s.inUse n false }.goto t pc') nodes := by
  obtain ⟨-, hout, halone⟩ := h.still_owned hmine
  refine h.moved rfl ⟨h.shape.chain, h.shape.last, h.shape.grows, ?_⟩ ?_ ?_ ?_
  · intro m hm hhead htail
    have hne : m ≠ n := by
      rintro rfl
      exact hout hm
    exact (update_of_ne hne _ _).trans (h.shape.inUse m hm hhead htail)
  · exact hok.congr rfl rfl
  · intro u hu
    refine ⟨fun _ _ hm => hm, fun _ hm _ => ⟨hm, rfl⟩, ?_⟩
    intro m hm
    obtain ⟨hinUse, hout⟩ := h.owned u m hm
    have hne : m ≠ n := by
      rintro rfl
      exact halone u hu hm
    exact ⟨rfl, (update_of_ne hne _ _).trans hinUse, hout, id⟩
  · intro m hm
    rw [howned] at hm
    cases hm

theorem Inv.retire (h : Inv c s nodes) {k : Key} {curr : Node} (hpc : s.pc t = .retire k curr) :
    Stepped c past s ({ s with inUse := update s.inUse curr false }.goto t
      (.ret k (.removed (some curr)))) t := by
  have hmine : curr ∈ (s.pc t).owned := by
    rw [hpc]
    exact List.mem_singleton_self curr
  exact h.walk (h.give_back hmine trivial rfl) (by rw [hpc]; rfl)

theorem Inv.ret (h : Inv c s nodes) {k : Key} {outcome : Outcome Node}
    (hpc : s.pc t = .ret k outcome) (hstep : nextStep c s t = some s') :
    Stepped c past s s' t := by
  have hleave {s₁ : State Tid Node Key} (h' : Inv c (s₁.goto t .idle) nodes) :
      Stepped c past s (s₁.goto t .idle) t := by
    refine ⟨⟨nodes, h'⟩, .leave (h.shape.members_eq h'.shape) ?_⟩
    exact fun hbusy => hbusy (update_self ..)
  have hplain : Inv c (s.goto t .idle) nodes :=
    h.moved rfl h.shape trivial (fun u _ => Keeps.refl h u) (by simp [Pc.owned])
  simp only [nextStep, hpc] at hstep
  cases outcome with
  | added node ok =>
    cases ok with
    | true =>
      cases hstep
      exact hleave hplain
    | false =>
      cases hstep
      exact hleave (h.give_back (by rw [hpc]; exact List.mem_singleton_self node) trivial rfl)
  | removed node =>
    cases hstep
    exact hleave hplain
  | got node =>
    cases hstep
    exact hleave hplain

/-- The outcome is settled by the place of the search, and the list stays. -/
theorem Inv.decided (h : Inv c s nodes) {k : Key} {op : Op Node} {outcome : Outcome Node}
    {pred curr : Node} (hpc : s.pc t = .decide k op pred curr)
    (hout : ∀ n, outcome ≠ .removed (some n)) (howned : ∀ n ∈ outcome.owned, n ∈ op.owned)
    (hspec : setSpec c.key (members c s) (outcome.settled k).1 (outcome.settled k).2
      (members c s)) :
    Stepped c past s (s.goto t (.unlockCurr k outcome pred curr)) t := by
  have hok := h.pc t
  rw [hpc] at hok
  obtain ⟨hop, hat, hheld, -⟩ := hok
  refine Inv.settle (h.moved rfl h.shape
    ⟨hat.predIn, hat.held, hheld, hat.ne h.shape, .inr ⟨hat.currIn h.shape, hout⟩⟩
    (fun u _ => Keeps.refl h u) ?_) (by rw [hpc]; rfl) rfl hspec
  intro n hn
  exact h.still_owned (by rw [hpc]; exact howned n hn)

/-- A node that belongs to the thread alone is prepared. -/
theorem Inv.prepare (h : Inv c s nodes) {k : Key} {node pred curr : Node}
    (hpc : s.pc t = .decide k (.add node) pred curr) (habove : rankOf k < c.rank curr) :
    Stepped c past s ({ s with
      owner := update s.owner node none
      next := update s.next node (some curr) }.goto t (.addLink k node pred curr)) t := by
  have hok := h.pc t
  rw [hpc] at hok
  obtain ⟨hop, hat, hheld, -⟩ := hok
  have hmine : node ∈ (s.pc t).owned := by
    rw [hpc]
    exact List.mem_singleton_self node
  obtain ⟨hinUse, hout, halone⟩ := h.still_owned hmine
  have hne (n : Node) (hn : n ∈ nodes) : n ≠ node := by
    rintro rfl
    exact hout hn
  have howner (n : Node) (hn : n ∈ nodes) : update s.owner node none n = s.owner n :=
    update_of_ne (hne n hn) _ _
  have hnext (n : Node) (hn : n ∈ nodes) :
      update s.next node (some curr) n = s.next n :=
    update_of_ne (hne n hn) _ _
  refine h.walk (h.moved rfl ⟨?_, ?_, ?_, h.shape.inUse⟩ ⟨hop, ⟨hat.predIn, ?_, ?_, hat.below⟩, ?_,
    habove, update_self ..⟩ ?_ ?_) (by rw [hpc]; rfl)
  · exact h.shape.chain.congr fun n hn _ => hnext n hn
  · exact (hnext c.tail h.shape.chain.last_mem).trans h.shape.last
  · intro a ha b hb
    exact h.shape.grows a ha b ((hnext a ha).symm.trans hb)
  · exact (howner pred hat.predIn).trans hat.held
  · exact (hnext pred hat.predIn).trans hat.link
  · exact (howner curr (hat.currIn h.shape)).trans hheld
  · intro u hu
    have hother (n : Node) (hn : n ∈ (s.pc u).owned) : n ≠ node := by
      rintro rfl
      exact halone u hu hn
    refine ⟨?_, fun n hn _ => ⟨hn, hnext n hn⟩, ?_⟩
    · rintro n (hn | hn) hm
      · exact (howner n hn).trans hm
      · exact (update_of_ne (hother n hn) _ _).trans hm
    · intro n hn
      obtain ⟨hinUse, hout⟩ := h.owned u n hn
      exact ⟨update_of_ne (hother n hn) _ _, hinUse, hout,
        fun hnone => (update_of_ne (hother n hn) _ _).trans hnone⟩
  · intro n hn
    exact h.still_owned (by rw [hpc]; exact hn)

theorem Inv.decide_step (h : Inv c s nodes) {k : Key} {op : Op Node} {pred curr : Node}
    (hpc : s.pc t = .decide k op pred curr) :
    Stepped c past s (decideStep c s t k op pred curr) t := by
  have hok := h.pc t
  rw [hpc] at hok
  obtain ⟨hop, hat, hheld, habove⟩ := hok
  have hhead := hat.currNotHead h.shape
  have hmember (hne : curr ≠ c.tail) : curr ∈ members c s :=
    h.shape.members_iff.mpr ⟨hat.currIn h.shape, hhead, hne⟩
  have hgap (hno : ¬ (curr ≠ c.tail ∧ c.cmpFun curr k = 0)) : rankOf k < c.rank curr := by
    by_cases htail : curr = c.tail
    · rw [htail]
      exact c.rank_tail k
    · refine lt_of_le_of_ne habove fun heq => hno ⟨htail, ?_⟩
      exact (Config.rank_eq_iff hhead htail).mp heq.symm
  cases op with
  | add node =>
    simp only [decideStep]
    split
    · rename_i hfound
      refine h.decided hpc nofun (fun n hn => hn) ⟨⟨curr, hmember hfound.1, ?_⟩, rfl⟩
      exact (c.cmp_zero curr k).mp hfound.2
    · rename_i hno
      exact h.prepare hpc (hgap hno)
  | remove =>
    simp only [decideStep]
    split
    · rename_i hfound
      refine h.walk (h.moved rfl h.shape
        ⟨hat, hheld, hfound.1.symm, (Config.rank_eq_iff hhead hfound.1.symm).mpr hfound.2⟩
        (fun u _ => Keeps.refl h u) (by simp [Pc.owned])) (by rw [hpc]; rfl)
    · rename_i hno
      have hno' : ¬ (curr ≠ c.tail ∧ c.cmpFun curr k = 0) :=
        fun hfound => hno ⟨hfound.1.symm, hfound.2⟩
      exact h.decided hpc nofun nofun ⟨h.shape.absent hat (hgap hno'), rfl⟩
  | get =>
    simp only [decideStep]
    split
    · rename_i hfound
      exact h.decided hpc nofun nofun
        ⟨hmember hfound.1, (c.cmp_zero curr k).mp hfound.2, rfl⟩
    · rename_i hno
      exact h.decided hpc nofun nofun ⟨h.shape.absent hat (hgap hno), rfl⟩

theorem Inv.add_link (h : Inv c s nodes) {k : Key} {node pred curr : Node}
    (hpc : s.pc t = .addLink k node pred curr) :
    Stepped c past s ({ s with next := update s.next pred (some node) }.goto t
      (.unlockCurr k (.added node true) pred curr)) t := by
  have hok := h.pc t
  rw [hpc] at hok
  obtain ⟨hkey, hat, hheld, habove, hnode⟩ := hok
  have hmine : node ∈ (s.pc t).owned := by
    rw [hpc]
    exact List.mem_singleton_self node
  obtain ⟨hinUse, hout, halone⟩ := h.still_owned hmine
  have hpredNe : node ≠ pred := by
    rintro rfl
    exact hout hat.predIn
  have hnodeHead : node ≠ c.head := by
    rintro rfl
    exact hout h.shape.chain.first_mem
  have hnodeTail : node ≠ c.tail := by
    rintro rfl
    exact hout h.shape.chain.last_mem
  have hrank : c.rank node = rankOf k := by
    rw [Config.rank_of_ne hnodeHead hnodeTail, hkey]
  have hnext (n : Node) (hn : n ≠ pred) :
      update s.next pred (some node) n = s.next n := update_of_ne hn _ _
  obtain ⟨nodes', hchain, hmem⟩ := h.shape.chain.link (update s.next pred (some node))
    hat.predIn hat.notTail hat.link hout (update_self ..) ((hnext node hpredNe).trans hnode)
    (fun m hm _ => hnext m hm)
  have hshape : Shape c { s with next := update s.next pred (some node) } nodes' := by
    refine ⟨hchain, (hnext c.tail hat.notTail.symm).trans h.shape.last, ?_, ?_⟩
    · intro a ha b hb
      dsimp only at hb
      by_cases hapred : a = pred
      · subst hapred
        rw [update_self] at hb
        cases hb
        rw [hrank]
        exact hat.below
      · rw [hnext a hapred] at hb
        rcases (hmem a).mp ha with rfl | ha
        · rw [hnode] at hb
          cases hb
          rw [hrank]
          exact habove
        · exact h.shape.grows a ha b hb
    · intro n hn hhead htail
      rcases (hmem n).mp hn with rfl | hn
      · exact hinUse
      · exact h.shape.inUse n hn hhead htail
  have hinv : Inv c ({ s with next := update s.next pred (some node) }.goto t
      (.unlockCurr k (.added node true) pred curr)) nodes' := by
    refine h.moved rfl hshape ⟨(hmem pred).mpr (.inr hat.predIn), hat.held, hheld,
      hat.ne h.shape, .inr ⟨(hmem curr).mpr (.inr (hat.currIn h.shape)), nofun⟩⟩ ?_ nofun
    intro u hu
    refine ⟨fun _ _ hm => hm, ?_, ?_⟩
    · intro n hn hm
      refine ⟨(hmem n).mpr (.inr hn), hnext n ?_⟩
      rintro rfl
      rw [hat.held] at hm
      exact hu (Option.some.inj hm).symm
    · intro n hn
      obtain ⟨hinUse, hout'⟩ := h.owned u n hn
      refine ⟨hnext n ?_, hinUse, ?_, id⟩
      · rintro rfl
        exact hout' hat.predIn
      · rw [hmem]
        rintro (rfl | hin)
        · exact halone u hu hn
        · exact hout' hin
  refine Inv.settle hinv (by rw [hpc]; rfl) rfl ⟨h.shape.absent hat habove, hkey, ?_⟩
  ext n
  rw [hinv.shape.members_iff, Set.mem_insert_iff, h.shape.members_iff, hmem]
  constructor
  · rintro ⟨rfl | hn, hne⟩
    · exact .inl rfl
    · exact .inr ⟨hn, hne⟩
  · rintro (rfl | ⟨hn, hne⟩)
    · exact ⟨.inl rfl, hnodeHead, hnodeTail⟩
    · exact ⟨.inr hn, hne⟩

theorem Inv.remove_link (h : Inv c s nodes) {k : Key} {pred curr : Node}
    (hpc : s.pc t = .removeLink k pred curr) :
    Stepped c past s ({ s with next := update s.next pred (s.next curr) }.goto t
      (.unlockCurr k (.removed (some curr)) pred curr)) t := by
  have hok := h.pc t
  rw [hpc] at hok
  obtain ⟨hat, hheld, htail, hrank⟩ := hok
  have hhead := hat.currNotHead h.shape
  have hin := hat.currIn h.shape
  obtain ⟨succ, -, -, -, hsucc⟩ := h.shape.chain.split hin htail
  rw [hsucc]
  have hnext (n : Node) (hn : n ≠ pred) :
      update s.next pred (some succ) n = s.next n := update_of_ne hn _ _
  obtain ⟨nodes', hchain, hmem⟩ := h.shape.chain.unlink (update s.next pred (some succ))
    hat.predIn hat.notTail hat.link htail hsucc (update_self ..) hnext
  have hshape : Shape c { s with next := update s.next pred (some succ) } nodes' := by
    refine ⟨hchain, (hnext c.tail hat.notTail.symm).trans h.shape.last, ?_, ?_⟩
    · intro a ha b hb
      dsimp only at hb
      by_cases hapred : a = pred
      · subst hapred
        rw [update_self] at hb
        cases hb
        exact (h.shape.grows a hat.predIn curr hat.link).trans (h.shape.grows curr hin succ hsucc)
      · rw [hnext a hapred] at hb
        exact h.shape.grows a ((hmem a).mp ha).2 b hb
    · intro n hn hhead htail
      exact h.shape.inUse n ((hmem n).mp hn).2 hhead htail
  have hinv : Inv c ({ s with next := update s.next pred (some succ) }.goto t
      (.unlockCurr k (.removed (some curr)) pred curr)) nodes' := by
    refine h.moved rfl hshape ⟨(hmem pred).mpr ⟨hat.ne h.shape, hat.predIn⟩, hat.held, hheld,
      hat.ne h.shape, .inl rfl⟩ ?_ ?_
    · intro u hu
      have hnotOurs (n : Node) (hm : s.owner n = some u) : n ≠ pred ∧ n ≠ curr := by
        constructor
        · rintro rfl
          rw [hat.held] at hm
          exact hu (Option.some.inj hm).symm
        · rintro rfl
          rw [hheld] at hm
          exact hu (Option.some.inj hm).symm
      refine ⟨fun _ _ hm => hm, ?_, ?_⟩
      · intro n hn hm
        exact ⟨(hmem n).mpr ⟨(hnotOurs n hm).2, hn⟩, hnext n (hnotOurs n hm).1⟩
      · intro n hn
        obtain ⟨hinUse, hout⟩ := h.owned u n hn
        refine ⟨hnext n ?_, hinUse, ?_, id⟩
        · rintro rfl
          exact hout hat.predIn
        · exact fun hn => hout ((hmem n).mp hn).2
    · intro n hn
      rw [List.mem_singleton.mp hn]
      refine ⟨h.shape.inUse curr hin hhead htail, fun hn => ((hmem curr).mp hn).1 rfl, ?_⟩
      intro u _ hmem
      exact (h.owned u curr hmem).2 hin
  have hkey : c.key curr = k := (c.cmp_zero curr k).mp ((Config.rank_eq_iff hhead htail).mp hrank)
  refine Inv.settle hinv (by rw [hpc]; rfl) rfl
    ⟨curr, h.shape.members_iff.mpr ⟨hin, hhead, htail⟩, hkey, ?_⟩
  ext n
  rw [hinv.shape.members_iff, Set.mem_sdiff, h.shape.members_iff, hmem, Set.mem_singleton_iff]
  tauto

theorem Inv.step (h : Inv c s nodes) {a : Act Tid Node Key} (hstep : step c s a = some s') :
    Stepped c past s s' a.thread := by
  cases a with
  | call t k op =>
    simp only [ListsetFine.step] at hstep
    split at hstep
    · rename_i hidle
      exact h.begin_call hidle hstep
    · cases hstep
  | step t =>
    simp only [ListsetFine.step] at hstep
    show Stepped c past s s' t
    cases hpc : s.pc t with
    | ret k outcome => exact h.ret hpc hstep
    | idle | crashed =>
      simp only [nextStep, hpc] at hstep
      cases hstep
    | lockHead k op =>
      simp only [nextStep, hpc] at hstep
      exact h.lock_head hpc hstep
    | lockCurr k op pred curr =>
      simp only [nextStep, hpc] at hstep
      exact h.lock_curr hpc hstep
    | unlockPred k op pred curr =>
      simp only [nextStep, hpc] at hstep
      cases hstep
      exact h.unlock_pred hpc
    | decide k op pred curr =>
      simp only [nextStep, hpc] at hstep
      cases hstep
      exact h.decide_step hpc
    | addLink k node pred curr =>
      simp only [nextStep, hpc] at hstep
      cases hstep
      exact h.add_link hpc
    | removeLink k pred curr =>
      simp only [nextStep, hpc] at hstep
      cases hstep
      exact h.remove_link hpc
    | unlockCurr k outcome pred curr =>
      simp only [nextStep, hpc] at hstep
      cases hstep
      exact h.unlock_curr hpc
    | unlockLast k outcome pred =>
      simp only [nextStep, hpc] at hstep
      cases hstep
      exact h.unlock_last hpc
    | retire k curr =>
      simp only [nextStep, hpc] at hstep
      cases hstep
      exact h.retire hpc

omit [DecidableEq Tid] in
theorem vlistsetInit_inv (c : Config Node Key) :
    Inv c (vlistsetInit c : State Tid Node Key) [c.head, c.tail] where
  shape := {
    chain := by
      constructor
      · simp [vlistsetInit]
      · rfl
      · rfl
      · simp [c.distinct]
    last := by simp [vlistsetInit, c.distinct.symm]
    grows := by
      intro a ha b hb
      simp only [vlistsetInit] at hb
      split at hb
      · rename_i hhead
        cases hb
        subst hhead
        simp [Config.rank, c.distinct.symm]
      · cases hb
    inUse := by
      intro n hn hhead htail
      simp only [List.mem_cons, List.not_mem_nil, or_false] at hn
      rcases hn with rfl | rfl
      · exact absurd rfl hhead
      · exact absurd rfl htail }
  pc := fun _ => trivial
  owned := by
    intro t n hn
    cases hn
  apart := by
    intro t u n hn
    cases hn

theorem run_inv (run : (machine Tid c).Run past s) : ∃ nodes, Inv c s nodes := by
  apply run.invariant (I := fun s => ∃ nodes, Inv c s nodes)
  · rintro s rfl
    exact ⟨_, vlistsetInit_inv c⟩
  · rintro s a s' ⟨nodes, h⟩ hstep
    have hstepped : Stepped c [] s s' a.thread := h.step hstep
    exact hstepped.1

/-- What a step does to the places of the threads and to the memory in use. -/
def Local (s : State Tid Node Key) (a : Act Tid Node Key) (t : Tid) (s' : State Tid Node Key) :
    Prop :=
  ∃ (s₁ : State Tid Node Key) (pc' : Pc Node Key), s' = s₁.goto t pc' ∧ s₁.pc = s.pc ∧
    ∀ n, s.inUse n = false → (∀ t k, a ≠ .call t k (.add n)) → s₁.inUse n = false

omit [DecidableEq Node] [LinearOrder Key] in
theorem Local.same {s₁ : State Tid Node Key} {a : Act Tid Node Key} (hpc : s₁.pc = s.pc)
    (hinUse : s₁.inUse = s.inUse) (pc' : Pc Node Key) : Local s a t (s₁.goto t pc') :=
  ⟨s₁, pc', rfl, hpc, fun n hn _ => (congrFun hinUse n).trans hn⟩

omit [LinearOrder Key] in
theorem Local.freed {a : Act Tid Node Key} (m : Node) (pc' : Pc Node Key) :
    Local s a t ({ s with inUse := update s.inUse m false }.goto t pc') := by
  refine ⟨_, pc', rfl, rfl, ?_⟩
  intro n hn _
  by_cases hne : n = m
  · exact hne ▸ update_self ..
  · exact (update_of_ne hne _ _).trans hn

theorem nextStep_local (hstep : nextStep c s t = some s') : Local s (.step t) t s' := by
  have hacquire {n : Node} {s₁ : State Tid Node Key} (h : s.acquire t n = some s₁) :
      s₁.pc = s.pc ∧ s₁.inUse = s.inUse := by
    simp only [State.acquire] at h
    split at h
    · cases h
      exact ⟨rfl, rfl⟩
    · cases h
  cases hpc : s.pc t with
  | idle | crashed =>
    simp only [nextStep, hpc] at hstep
    cases hstep
  | lockHead k op | lockCurr k op pred curr =>
    simp only [nextStep, hpc] at hstep
    obtain ⟨s₁, hs₁, rfl⟩ := Option.map_eq_some_iff.mp hstep
    exact Local.same (hacquire hs₁).1 (hacquire hs₁).2 _
  | decide k op pred curr =>
    simp only [nextStep, hpc] at hstep
    cases hstep
    cases op with
    | add node | remove | get =>
      simp only [decideStep]
      split
      · exact Local.same rfl rfl _
      · exact Local.same rfl rfl _
  | unlockPred | addLink | removeLink | unlockCurr | unlockLast =>
    simp only [nextStep, hpc] at hstep
    cases hstep
    exact Local.same rfl rfl _
  | retire k curr =>
    simp only [nextStep, hpc] at hstep
    cases hstep
    exact Local.freed curr _
  | ret k outcome =>
    simp only [nextStep, hpc] at hstep
    cases outcome with
    | added node ok =>
      cases ok with
      | true =>
        cases hstep
        exact Local.same rfl rfl _
      | false =>
        cases hstep
        exact Local.freed node _
    | removed node | got node =>
      cases hstep
      exact Local.same rfl rfl _

theorem step_local {a : Act Tid Node Key} (hstep : step c s a = some s') :
    Local s a a.thread s' := by
  cases a with
  | step t => exact nextStep_local hstep
  | call t k op =>
    simp only [step] at hstep
    split at hstep
    · cases op with
      | add node =>
        simp only [beginCall] at hstep
        split at hstep
        · cases hstep
          refine ⟨_, _, rfl, rfl, ?_⟩
          intro n hn hcall
          have hne : n ≠ node := by
            rintro rfl
            exact hcall t k rfl
          exact (update_of_ne hne _ _).trans hn
        · cases hstep
      | remove | get =>
        cases hstep
        exact Local.same rfl rfl _
    · cases hstep

/-- Memory that was given back stays so until a call brings it in again. -/
theorem exec_freed {n : Node} (hfreed : s.inUse n = false) {as : List (Act Tid Node Key)}
    (hexec : (machine Tid c).exec s as = some s') (hcalls : ∀ t k, .call t k (.add n) ∉ as) :
    s'.inUse n = false := by
  induction as generalizing s with
  | nil =>
    cases hexec
    exact hfreed
  | cons a as ih =>
    simp only [Machine.exec, Option.bind_eq_some_iff] at hexec
    obtain ⟨mid, hmid, hrest⟩ := hexec
    obtain ⟨s₁, pc', rfl, -, hinUse⟩ := step_local hmid
    have hmidFreed : (s₁.goto a.thread pc').inUse n = false := by
      apply hinUse n hfreed
      rintro t k rfl
      exact hcalls t k List.mem_cons_self
    exact ih hmidFreed hrest fun t k hmem => hcalls t k (List.mem_cons_of_mem _ hmem)

omit [DecidableEq Tid] in
/-- The nodes a thread works on are in the list or its own. -/
theorem Inv.nodes_mem (h : Inv c s nodes) {n : Node} (hn : n ∈ (s.pc t).nodes) :
    n ∈ nodes ∨ n ∈ (s.pc t).owned := by
  have hok := h.pc t
  have htwo {k : Key} {pred curr : Node} (hat : At c s nodes t k pred curr)
      (hmem : n ∈ [pred, curr]) : n ∈ nodes := by
    simp only [List.mem_cons, List.not_mem_nil, or_false] at hmem
    rcases hmem with rfl | rfl
    · exact hat.predIn
    · exact hat.currIn h.shape
  cases hpc : s.pc t with
  | idle | ret | lockHead | crashed =>
    rw [hpc] at hn
    cases hn
  | lockCurr k op pred curr =>
    rw [hpc] at hn hok
    exact .inl (htwo hok.2 hn)
  | unlockPred k op pred curr | decide k op pred curr =>
    rw [hpc] at hn hok
    exact .inl (htwo hok.2.1 hn)
  | addLink k node pred curr =>
    rw [hpc] at hn hok
    exact .inl (htwo hok.2.1 hn)
  | removeLink k pred curr =>
    rw [hpc] at hn hok
    exact .inl (htwo hok.1 hn)
  | unlockCurr k outcome pred curr =>
    rw [hpc] at hn hok
    obtain ⟨hin, -, -, -, hout⟩ := hok
    simp only [Pc.nodes, List.mem_cons, List.not_mem_nil, or_false] at hn
    rcases hn with rfl | rfl
    · exact .inl hin
    · rcases hout with rfl | ⟨hcurr, -⟩
      · exact .inr (List.mem_singleton_self n)
      · exact .inl hcurr
  | unlockLast k outcome pred =>
    rw [hpc] at hn hok
    have hin := hok.1
    cases outcome with
    | removed node =>
      cases node with
      | none =>
        rw [List.mem_singleton.mp hn]
        exact .inl hin
      | some curr =>
        simp only [Pc.nodes, List.mem_cons, List.not_mem_nil, or_false] at hn
        rcases hn with rfl | rfl
        · exact .inl hin
        · exact .inr (List.mem_singleton_self n)
    | added node ok | got node =>
      rw [List.mem_singleton.mp hn]
      exact .inl hin
  | retire k curr =>
    rw [hpc] at hn
    exact .inr hn

/-- The list is sorted, its operations are atomic, and a node that is passed to
the retire callback is left alone by all other threads: nobody holds its lock
or waits for it, and nobody will come to it, in a call in progress or in a later
one, before it is passed to `vlistset_add` again. -/
structure Safe (c : Config Node Key) (past : List (State Tid Node Key × Act Tid Node Key))
    (s : State Tid Node Key) : Prop where
  sorted : ∃ nodes, Chain s.next c.head c.tail nodes ∧
    nodes.Pairwise (fun a b => c.rank a < c.rank b)
  atomic : Linear (machine Tid c) Act.thread (view c) (setSpec c.key) past s
  alone : ∀ t k n, s.pc t = .retire k n →
    ¬ Reaches s.next c.head n ∧ s.owner n = none ∧ ∀ u, u ≠ t → n ∉ (s.pc u).nodes
  never : ∀ t k n, s.pc t = .retire k n → ∀ as s',
    (machine Tid c).exec s (.step t :: as) = some s' → (∀ u k, .call u k (.add n) ∉ as) →
    ∀ u, n ∉ (s'.pc u).nodes
  noCrash : ∀ t, s.pc t ≠ .crashed

theorem listset_fine_safe (run : (machine Tid c).Run past s) : Safe c past s := by
  obtain ⟨nodes, h⟩ := run_inv run
  have hvictim {t : Tid} {k : Key} {n : Node} (hpc : s.pc t = .retire k n) :
      n ∈ (s.pc t).owned := by
    rw [hpc]
    exact List.mem_singleton_self n
  constructor
  · exact ⟨nodes, h.shape.chain, h.shape.chain.sorted h.shape.grows⟩
  · refine run.linear_always ?_ ?_
    · rintro s rfl t
      rfl
    · intro past s a s' run hstep
      obtain ⟨nodes, h⟩ := run_inv run
      refine ⟨(h.step hstep).2, ?_⟩
      intro u hu
      obtain ⟨s₁, pc', rfl, hpcs, -⟩ := step_local hstep
      show (update s₁.pc a.thread pc' u).settled = (s.pc u).settled
      rw [update_of_ne hu, hpcs]
  · intro t k n hpc
    obtain ⟨-, hout, halone⟩ := h.still_owned (hvictim hpc)
    refine ⟨?_, ?_, ?_⟩
    · exact fun hreach => hout (h.shape.chain.reaches_mem h.shape.last hreach)
    · have hok := h.pc t
      rw [hpc] at hok
      exact hok
    · intro u hu hn
      rcases h.nodes_mem hn with hin | hown
      · exact hout hin
      · exact halone u hu hown
  · intro t k n hpc as s' hexec hcalls u hn
    obtain ⟨-, hout, -⟩ := h.still_owned (hvictim hpc)
    obtain ⟨nodes', h'⟩ := run_inv (run.exec hexec)
    have hfreed : s'.inUse n = false := by
      simp only [Machine.exec, Option.bind_eq_some_iff] at hexec
      obtain ⟨mid, hmid, hrest⟩ := hexec
      refine exec_freed ?_ hrest hcalls
      simp only [machine, step, nextStep, hpc, Option.some.injEq] at hmid
      rw [← hmid]
      exact update_self ..
    rcases h'.nodes_mem hn with hin | hown
    · have hhead : n ≠ c.head := by
        rintro rfl
        exact hout h.shape.chain.first_mem
      have htail : n ≠ c.tail := by
        rintro rfl
        exact hout h.shape.chain.last_mem
      rw [h'.shape.inUse n hin hhead htail] at hfreed
      cases hfreed
    · rw [(h'.owned u n hown).1] at hfreed
      cases hfreed
  · intro t hpc
    have hok := h.pc t
    rw [hpc] at hok
    exact hok

/-- Node 2 is added, then taken out and about to be retired, while another
thread is waiting for the lock of head. -/
def addRemove : List (Act Bool (Fin 4) Nat) :=
  List.flatten [
    .call true 2 (.add nodeTwo) :: List.replicate 7 (.step true),
    .call false 3 (.add nodeThree) :: .call true 2 .remove :: List.replicate 6 (.step true)]

theorem listset_fine_safe_retire :
    ∃ past s, (machine Bool numbered).Run past s ∧ s.pc true = .retire 2 2 ∧
      s.pc false = .lockHead 3 (.add 3) ∧ Safe numbered past s := by
  have hexec : ((machine Bool numbered).exec (vlistsetInit numbered) addRemove).map
      (fun s => (s.pc true, s.pc false)) = some (.retire 2 2, .lockHead 3 (.add 3)) := by
    decide +kernel
  obtain ⟨s, hs, hpcs⟩ := Option.map_eq_some_iff.mp hexec
  obtain ⟨hretire, hother⟩ := Prod.mk.inj hpcs
  have run := (Machine.Run.start (M := machine Bool numbered) rfl).exec hs
  exact ⟨_, s, run, hretire, hother, listset_fine_safe run⟩

end Libvsync.Map.ListsetFine
