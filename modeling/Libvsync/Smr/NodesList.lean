import Libvsync.Core.Linked
import Libvsync.Core.Places
import Libvsync.Core.Tally
import Libvsync.Smr.Ebr

/-!
The retired nodes of EBR at the level of `smr_nodes_list`: `vebr_retire` pushes a
node on a chain of `next` pointers by compare-and-swap, `vebr_recycle` detaches a
chain by an exchange and later runs the destructors along it, and `vebr_destroy`
does the same for all three lists at the end. What `_vebr_sync_epochs` returns and
when is left open: the account of the nodes does not depend on it.

`retired`, `retirements`, `destroyed` and `recycled` are not read by the code:
whether a node was retired and its destructor not run yet, the calls of
`vebr_retire`, the runs of destructors, and the sum of the returned counts. A
`Dest` is a destructor with its argument. A node is retired again only after its
destructor has run.
-/

namespace Libvsync.Smr.NodesList

open Libvsync.Core Function
open Libvsync.Smr.Ebr (epochIdx prevEpochIdx)

/-- Where a call stands. A failed `ASSERT` leaves the chain that the call has in
hand. -/
inductive Pc (Node Dest : Type) where
  | idle
  | retireRead (node : Node) (dest : Dest)
  | retireDest (node : Node) (dest : Dest) (idx : Nat)
  | retireNull (node : Node) (idx : Nat)
  | retireList (node : Node) (idx : Nat)
  | retireNext (node : Node) (idx : Nat) (cmp : Option Node)
  | retireCas (node : Node) (idx : Nat) (cmp : Option Node)
  | retireCount (idx : Nat)
  | recycleRead
  | recycleDetach (glbEpoch : Nat)
  | recycleCount (glbEpoch idx : Nat) (head : Option Node)
  | recycleSync (glbEpoch : Nat) (head : Option Node)
  | recycleAdvance (glbEpoch : Nat) (head : Option Node)
  | recycleCurr (curr : Option Node) (count : Nat)
  | recycleFree (freed : Node) (curr : Option Node) (count : Nat)
  | recycleRet (count : Nat)
  | failed (message : String) (head : Option Node)
  deriving DecidableEq

structure State (Tid Node Dest : Type) where
  epochGlobal : Nat
  list : Nat → Option Node
  count : Nat → Nat
  next : Node → Option Node
  dest : Node → Option Dest
  pc : Tid → Pc Node Dest
  retired : Node → Bool
  retirements : List (Node × Dest)
  destroyed : List (Node × Dest)
  recycled : Nat

inductive Act (Tid Node Dest : Type) where
  | retire (t : Tid) (node : Node) (dest : Dest)
  | recycle (t : Tid)
  | synced (t : Tid) (lclEpoch : Nat)
  | step (t : Tid)

variable {Tid Node Dest : Type} [DecidableEq Tid] [DecidableEq Node]

def State.goto (s : State Tid Node Dest) (t : Tid) (pc : Pc Node Dest) : State Tid Node Dest :=
  { s with pc := update s.pc t pc }

/-- The end of `vebr_recycle`, given the value of the global epoch that the
compare-and-swap returned. -/
def advanced (s : State Tid Node Dest) (t : Tid) (glbEpoch retEpoch : Nat) (head : Option Node) :
    State Tid Node Dest :=
  if glbEpoch ≤ retEpoch then
    match head with
    | some node => s.goto t (.recycleCurr (some node) 0)
    | none => s.goto t (.recycleRet 0)
  else s.goto t (.failed "ret_epoch >= glb_epoch" head)

/-- The next atomic operation of thread `t`. -/
def nextStep (s : State Tid Node Dest) (t : Tid) : Option (State Tid Node Dest) :=
  match s.pc t with
  | .idle | .recycleSync _ _ | .failed _ _ => none
  | .retireRead node dest =>
    if epochIdx s.epochGlobal ≤ 3 then
      some (s.goto t (.retireDest node dest (epochIdx s.epochGlobal)))
    else some (s.goto t (.failed "idx <= V_EBR_EPOCH_COUNT" none))
  | .retireDest node dest idx =>
    some ({ s with dest := update s.dest node (some dest) }.goto t (.retireNull node idx))
  | .retireNull node idx =>
    some ({ s with next := update s.next node none }.goto t (.retireList node idx))
  | .retireList node idx => some (s.goto t (.retireNext node idx (s.list idx)))
  | .retireNext node idx cmp =>
    some ({ s with next := update s.next node cmp }.goto t (.retireCas node idx cmp))
  | .retireCas node idx cmp =>
    if s.list idx = cmp then
      some ({ s with list := update s.list idx (some node) }.goto t (.retireCount idx))
    else some (s.goto t (.retireNext node idx (s.list idx)))
  | .retireCount idx =>
    some ({ s with
      count := update s.count idx (wadd 64 (s.count idx) 1) }.goto t .idle)
  | .recycleRead => some (s.goto t (.recycleDetach s.epochGlobal))
  | .recycleDetach glbEpoch =>
    some ({ s with list := update s.list (prevEpochIdx glbEpoch) none }.goto t
      (.recycleCount glbEpoch (prevEpochIdx glbEpoch) (s.list (prevEpochIdx glbEpoch))))
  | .recycleCount glbEpoch idx head =>
    some ({ s with count := update s.count idx 0 }.goto t (.recycleSync glbEpoch head))
  | .recycleAdvance glbEpoch head =>
    if s.epochGlobal = glbEpoch then
      some (advanced { s with epochGlobal := wadd 64 glbEpoch 1 } t glbEpoch glbEpoch head)
    else some (advanced s t glbEpoch s.epochGlobal head)
  | .recycleCurr none count => some (s.goto t (.recycleRet count))
  | .recycleCurr (some freed) count => some (s.goto t (.recycleFree freed (s.next freed) count))
  | .recycleFree freed curr count =>
    match s.dest freed with
    | some dest =>
      some ({ s with
        retired := update s.retired freed false
        destroyed := s.destroyed ++ [(freed, dest)] }.goto t (.recycleCurr curr (count + 1)))
    | none => some (s.goto t (.failed "freed_node->destroy_fun" curr))
  | .recycleRet count => some ({ s with recycled := s.recycled + count }.goto t .idle)

def step (s : State Tid Node Dest) : Act Tid Node Dest → Option (State Tid Node Dest)
  | .retire t node dest =>
    match s.pc t with
    | .idle =>
      if s.retired node then none
      else some ({ s with
        retired := update s.retired node true
        retirements := s.retirements ++ [(node, dest)] }.goto t (.retireRead node dest))
    | _ => none
  | .recycle t =>
    match s.pc t with
    | .idle => some (s.goto t .recycleRead)
    | _ => none
  | .synced t lclEpoch =>
    match s.pc t with
    | .recycleSync glbEpoch head =>
      if lclEpoch = 0 ∨ glbEpoch ≤ lclEpoch then some (s.goto t (.recycleAdvance glbEpoch head))
      else some (s.goto t (.failed "lcl_epoch == 0 || lcl_epoch >= glb_epoch" head))
    | _ => none
  | .step t => nextStep s t

/-- `vebr_init`, with whatever the nodes hold. -/
def vebrInit (next : Node → Option Node) (dest : Node → Option Dest) : State Tid Node Dest where
  epochGlobal := 1
  list := fun _ => none
  count := fun _ => 0
  next := next
  dest := dest
  pc := fun _ => .idle
  retired := fun _ => false
  retirements := []
  destroyed := []
  recycled := 0

def machine (Tid Node Dest : Type) [DecidableEq Tid] [DecidableEq Node]
    (next : Node → Option Node) (dest : Node → Option Dest) :
    Machine (State Tid Node Dest) (Act Tid Node Dest) where
  start s := s = vebrInit next dest
  step := step

/-- The loop of `smr_nodes_list_destroy`: the destructors that are run, in order.
`none` is a failed `ASSERT`, or that the fuel does not reach the end. -/
def smrNodesListDestroy (next : Node → Option Node) (dest : Node → Option Dest) :
    Nat → Option Node → Option (List (Node × Dest))
  | _, none => some []
  | 0, some _ => none
  | fuel + 1, some curr =>
    match dest curr, smrNodesListDestroy next dest fuel (next curr) with
    | some dest, some rest => some ((curr, dest) :: rest)
    | _, _ => none

/-- One round of the loop of `vebr_destroy`. -/
def destroyList (fuel : Nat) (s : State Tid Node Dest) (i : Nat) : Option (State Tid Node Dest) :=
  match smrNodesListDestroy s.next s.dest fuel (s.list i) with
  | some log =>
    some { s with
      list := update s.list i none
      count := update s.count i 0
      destroyed := s.destroyed ++ log }
  | none => none

/-- `vebr_destroy`. -/
def vebrDestroy (fuel : Nat) (s : State Tid Node Dest) : Option (State Tid Node Dest) :=
  [0, 1, 2].foldlM (destroyList fuel) s

/-- The entries of a log that are about node `n`. -/
def entriesOf (log : List (Node × Dest)) (n : Node) : List Dest :=
  (log.filter (·.1 = n)).map Prod.snd

/-- The nodes in the hand of a call. -/
def Holds (next : Node → Option Node) : Pc Node Dest → List Node → Prop
  | .retireRead node _, nodes | .retireDest node _ _, nodes | .retireNull node _, nodes
  | .retireList node _, nodes | .retireNext node _ _, nodes | .retireCas node _ _, nodes =>
    nodes = [node]
  | .recycleCount _ _ head, nodes | .recycleSync _ head, nodes | .recycleAdvance _ head, nodes
  | .recycleCurr head _, nodes | .failed _ head, nodes => Linked next head nodes
  | .recycleFree freed curr _, nodes => ∃ rest, nodes = freed :: rest ∧ Linked next curr rest
  | .idle, nodes | .retireCount _, nodes | .recycleRead, nodes | .recycleDetach _, nodes
  | .recycleRet _, nodes => nodes = []

/-- What a call relies on. -/
def PcOk (s : State Tid Node Dest) : Pc Node Dest → Prop
  | .retireDest _ _ idx | .retireNull _ idx | .retireList _ idx | .retireNext _ idx _ => idx < 3
  | .retireCas node idx cmp => idx < 3 ∧ s.next node = cmp
  | _ => True

/-- The destructor that a call has still to store in its node. -/
def Pc.giving : Pc Node Dest → Option (Node × Dest)
  | .retireRead node dest | .retireDest node dest _ => some (node, dest)
  | _ => none

/-- The destructors that a call of `vebr_recycle` has run. -/
def Pc.done : Pc Node Dest → Nat
  | .recycleCurr _ count | .recycleFree _ _ count | .recycleRet count => count
  | _ => 0

/-- The destructors run for `n` are those given for it, up to the one of a node
that is still retired; that one is in the node, or in the hand of the call. -/
def LogOk (s : State Tid Node Dest) (n : Node) : Prop :=
  if s.retired n then
    ∃ d, entriesOf s.retirements n = entriesOf s.destroyed n ++ [d] ∧
      (∀ t d', (s.pc t).giving = some (n, d') → d' = d) ∧
      ((∀ t d', (s.pc t).giving ≠ some (n, d')) → s.dest n = some d)
  else entriesOf s.retirements n = entriesOf s.destroyed n

structure Inv (s : State Tid Node Dest) (c : Nat ⊕ Tid → List Node) : Prop where
  lists : ∀ i, Linked s.next (s.list i) (c (.inl i))
  hands : ∀ t, Holds s.next (s.pc t) (c (.inr t))
  apart : Apart c
  retired : ∀ n, s.retired n = true ↔ ∃ p, n ∈ c p
  range : ∀ i, 3 ≤ i → s.list i = none
  pc : ∀ t, PcOk s (s.pc t)
  log : ∀ n, LogOk s n
  count : ∃ busy : Finset Tid, (∀ t, t ∉ busy → (s.pc t).done = 0) ∧
    s.destroyed.length = s.recycled + ∑ t ∈ busy, (s.pc t).done

variable {s s' : State Tid Node Dest} {c c' : Nat ⊕ Tid → List Node} {t : Tid}
  {pc' : Pc Node Dest}

section

omit [DecidableEq Node]

theorem Holds.congr {next next' : Node → Option Node} {pc : Pc Node Dest} {nodes : List Node}
    (h : Holds next pc nodes) (hsame : ∀ n ∈ nodes, next' n = next n) : Holds next' pc nodes := by
  cases pc with
  | retireRead _ _ | retireDest _ _ _ | retireNull _ _ | retireList _ _ | retireNext _ _ _
  | retireCas _ _ _ | idle | retireCount _ | recycleRead | recycleDetach _ | recycleRet _ =>
    exact h
  | recycleCount _ _ head | recycleSync _ head | recycleAdvance _ head | recycleCurr head _
  | failed _ head =>
    have hlinked : Linked next head nodes := h
    exact hlinked.congr hsame
  | recycleFree freed curr count =>
    obtain ⟨rest, rfl, hrest⟩ := h
    exact ⟨rest, rfl, hrest.congr fun n hn => hsame n (List.mem_cons_of_mem _ hn)⟩

/-- A step of thread `t`: the nodes elsewhere keep their pointers. -/
theorem Inv.move [DecidableEq Node] (h : Inv s c) (hpc : s'.pc = update s.pc t pc')
    (hnext : ∀ p n, p ≠ .inr t → n ∈ c p → s'.next n = s.next n)
    (hlists : ∀ i, Linked s'.next (s'.list i) (c' (.inl i)))
    (hothers : ∀ u, u ≠ t → c' (.inr u) = c (.inr u))
    (hself : Holds s'.next pc' (c' (.inr t))) (hapart : Apart c')
    (hretired : ∀ n, s'.retired n = true ↔ ∃ p, n ∈ c' p)
    (hrange : ∀ i, 3 ≤ i → s'.list i = none) (hok : PcOk s' pc') (hlog : ∀ n, LogOk s' n)
    (hcount : s'.destroyed.length + s.recycled + (s.pc t).done =
      s.destroyed.length + s'.recycled + pc'.done) : Inv s' c' := by
  have hmine : s'.pc t = pc' := by rw [hpc, update_self]
  have hother (u : Tid) (hu : u ≠ t) : s'.pc u = s.pc u := by
    rw [hpc, update_of_ne hu]
  have haway {u : Tid} (hu : u ≠ t) : (.inr u : Nat ⊕ Tid) ≠ .inr t := fun heq => hu
    (Sum.inr.inj heq)
  refine ⟨hlists, ?_, hapart, hretired, hrange, ?_, hlog, ?_⟩
  · intro u
    by_cases hu : u = t
    · rw [hu, hmine]
      exact hself
    · rw [hother u hu, hothers u hu]
      exact (h.hands u).congr fun n hn => hnext _ n (haway hu) hn
  · intro u
    by_cases hu : u = t
    · rw [hu, hmine]
      exact hok
    · have hold := h.pc u
      rw [hother u hu]
      cases hat : s.pc u with
      | retireCas node idx cmp =>
        rw [hat] at hold
        refine ⟨hold.1, (hnext (.inr u) node (haway hu) ?_).trans hold.2⟩
        have hhand := h.hands u
        rw [hat] at hhand
        rw [show c (.inr u) = [node] from hhand]
        exact List.mem_singleton_self node
      | _ =>
        rw [hat] at hold
        exact hold
  · obtain ⟨busy, hidle, hsum⟩ := h.count
    have hupdate := sum_update_busy hidle t pc'
    refine ⟨insert t busy, ?_, ?_⟩
    · intro u hu
      have hut : u ≠ t := fun heq => hu (heq ▸ Finset.mem_insert_self t busy)
      rw [hother u hut]
      exact hidle u fun hin => hu (Finset.mem_insert_of_mem hin)
    · rw [hpc]
      omega

end

omit [DecidableEq Tid] in
/-- The logs of `n` do not change, and its destructor stays where it is or is stored. -/
theorem LogOk.congr {n : Node} (h : LogOk s n) (hretired : s'.retired n = s.retired n)
    (hretirements : entriesOf s'.retirements n = entriesOf s.retirements n)
    (hdestroyed : entriesOf s'.destroyed n = entriesOf s.destroyed n)
    (hgiving : ∀ u d, (s'.pc u).giving = some (n, d) → (s.pc u).giving = some (n, d))
    (hdest : (∀ u d, (s'.pc u).giving ≠ some (n, d)) →
      (∃ u d, (s.pc u).giving = some (n, d) ∧ s'.dest n = some d) ∨
        s'.dest n = s.dest n ∧ ∀ u d, (s.pc u).giving ≠ some (n, d)) : LogOk s' n := by
  rw [LogOk] at h ⊢
  rw [hretired, hretirements, hdestroyed]
  split at h
  · rename_i hin
    rw [if_pos hin]
    obtain ⟨d, hlog, hsame, hstored⟩ := h
    refine ⟨d, hlog, fun u d' hu => hsame u d' (hgiving u d' hu), fun hnone => ?_⟩
    rcases hdest hnone with ⟨u, d', hu, hd'⟩ | ⟨hold, hquiet⟩
    · rw [hd', hsame u d' hu]
    · rw [hold]
      exact hstored hquiet
  · rename_i hout
    rw [if_neg hout]
    exact h

/-- What a step does to the destructors: nothing, or the one in hand is stored. -/
def DestStep (s s' : State Tid Node Dest) (t : Tid) (pc' : Pc Node Dest) : Prop :=
  s'.dest = s.dest ∧ pc'.giving = (s.pc t).giving ∨
    ∃ n d, (s.pc t).giving = some (n, d) ∧ pc'.giving = none ∧
      s'.dest = update s.dest n (some d)

theorem LogOk.step {n : Node} (h : LogOk s n) (hpc : s'.pc = update s.pc t pc')
    (hretired : s'.retired n = s.retired n)
    (hretirements : entriesOf s'.retirements n = entriesOf s.retirements n)
    (hdestroyed : entriesOf s'.destroyed n = entriesOf s.destroyed n)
    (hdest : DestStep s s' t pc') : LogOk s' n := by
  have hmine : s'.pc t = pc' := by rw [hpc, update_self]
  have hother (u : Tid) (hu : u ≠ t) : s'.pc u = s.pc u := by
    rw [hpc, update_of_ne hu]
  refine h.congr hretired hretirements hdestroyed ?_ ?_
  · intro u d hu
    by_cases hut : u = t
    · rw [hut, hmine] at hu
      rcases hdest with ⟨-, hsame⟩ | ⟨m, d', -, hnone, -⟩
      · rw [hut, ← hsame]
        exact hu
      · rw [hnone] at hu
        cases hu
    · rw [hother u hut] at hu
      exact hu
  · intro hnone
    rcases hdest with ⟨hsame, hgiving⟩ | ⟨m, d, hgiving, -, hstored⟩
    · refine .inr ⟨by rw [hsame], fun u d hu => ?_⟩
      by_cases hut : u = t
      · refine hnone t d ?_
        rw [hmine, hgiving, ← hut]
        exact hu
      · exact hnone u d ((congrArg Pc.giving (hother u hut)).trans hu)
    · by_cases hm : n = m
      · subst hm
        exact .inl ⟨t, d, hgiving, by rw [hstored, update_self]⟩
      · refine .inr ⟨by rw [hstored, update_of_ne hm], fun u d' hu => ?_⟩
        by_cases hut : u = t
        · rw [hut, hgiving] at hu
          cases hu
          exact hm rfl
        · exact hnone u d' ((congrArg Pc.giving (hother u hut)).trans hu)

/-- Nothing changes hands and no destructor runs. -/
theorem Inv.still (h : Inv s c) (hpc : s'.pc = update s.pc t pc')
    (hlist : s'.list = s.list) (hretired : s'.retired = s.retired)
    (hretirements : s'.retirements = s.retirements) (hdestroyed : s'.destroyed = s.destroyed)
    (hnext : ∀ n, n ∉ c (.inr t) → s'.next n = s.next n) (hdest : DestStep s s' t pc')
    (hself : Holds s'.next pc' (c (.inr t))) (hok : PcOk s' pc')
    (hcount : s.recycled + (s.pc t).done = s'.recycled + pc'.done) : Inv s' c := by
  have hfar (p : Nat ⊕ Tid) (n : Node) (hp : p ≠ .inr t) (hn : n ∈ c p) : s'.next n = s.next n :=
    hnext n fun hmine => hp (h.apart.unique p (.inr t) n hn hmine)
  refine h.move hpc hfar ?_ (fun _ _ => rfl) hself h.apart ?_ ?_ hok ?_ ?_
  · intro i
    rw [hlist]
    exact (h.lists i).congr fun n hn => hfar (.inl i) n nofun hn
  · rw [hretired]
    exact h.retired
  · rw [hlist]
    exact h.range
  · intro n
    exact (h.log n).step hpc (by rw [hretired]) (by rw [hretirements]) (by rw [hdestroyed]) hdest
  · rw [hdestroyed]
    omega

section

omit [DecidableEq Tid]

theorem Inv.giving_mem (h : Inv s c) {u : Tid} {n : Node} {d : Dest}
    (hu : (s.pc u).giving = some (n, d)) : n ∈ c (.inr u) := by
  have hhand := h.hands u
  cases hat : s.pc u with
  | retireRead node dest | retireDest node dest idx =>
    rw [hat] at hu hhand
    cases hu
    rw [show c (.inr u) = [n] from hhand]
    exact List.mem_singleton_self n
  | _ =>
    rw [hat] at hu
    cases hu

theorem entriesOf_append_self (log : List (Node × Dest)) (n : Node) (d : Dest) :
    entriesOf (log ++ [(n, d)]) n = entriesOf log n ++ [d] := by
  simp [entriesOf]

theorem entriesOf_append_other (log : List (Node × Dest)) {n m : Node} (d : Dest) (hn : n ≠ m) :
    entriesOf (log ++ [(m, d)]) n = entriesOf log n := by
  simp [entriesOf, Ne.symm hn]

end

theorem Inv.retire (h : Inv s c) {node : Node} {dest : Dest} (hidle : s.pc t = .idle)
    (hnew : s.retired node = false) :
    Inv ({ s with
      retired := update s.retired node true
      retirements := s.retirements ++ [(node, dest)] }.goto t (.retireRead node dest))
      (update c (.inr t) [node]) := by
  have hempty : c (.inr t) = [] := by
    have hhand := h.hands t
    rw [hidle] at hhand
    exact hhand
  have hfresh (p : Nat ⊕ Tid) : node ∉ c p := by
    intro hin
    rw [(h.retired node).mpr ⟨p, hin⟩] at hnew
    cases hnew
  have hmine : update c (.inr t) [node] (.inr t) = node :: c (.inr t) := by
    rw [update_self, hempty]
  have hothers (p : Nat ⊕ Tid) (hp : p ≠ .inr t) :
      update c (.inr t) [node] p = c p := update_of_ne hp ..
  refine h.move rfl (fun _ _ _ _ => rfl) ?_ ?_ ?_ (h.apart.take hothers hmine hfresh) ?_ h.range
    trivial ?_ ?_
  · intro i
    rw [hothers (.inl i) nofun]
    exact h.lists i
  · intro u hu
    exact hothers _ fun heq => hu (Sum.inr.inj heq)
  · rw [update_self]
    rfl
  · intro n
    change update s.retired node true n = true ↔ _
    by_cases hn : n = node
    · subst hn
      simp only [update_self, true_iff]
      exact ⟨.inr t, by rw [hmine]; exact List.mem_cons_self ..⟩
    · rw [update_of_ne hn, h.retired]
      refine exists_congr fun p => ?_
      by_cases hp : p = .inr t
      · rw [hp, hmine, List.mem_cons]
        exact (or_iff_right hn).symm
      · rw [hothers p hp]
  · intro n
    by_cases hn : n = node
    · subst hn
      have hlog := h.log n
      rw [LogOk, if_neg (by rw [hnew]; decide)] at hlog
      rw [LogOk, if_pos (by change update s.retired n true n = true; simp)]
      refine ⟨dest, ?_, ?_, ?_⟩
      · change entriesOf (s.retirements ++ [(n, dest)]) n = entriesOf s.destroyed n ++ [dest]
        rw [entriesOf_append_self, hlog]
      · intro u d hu
        by_cases hut : u = t
        · subst hut
          simp only [State.goto, update_self] at hu
          cases hu
          rfl
        · simp only [State.goto, update_of_ne hut] at hu
          exact absurd (h.giving_mem hu) (hfresh _)
      · intro hnone
        exact absurd (by simp only [State.goto, update_self]; rfl) (hnone t dest)
    · have hgiving (u : Tid) (d : Dest) : (({ s with
          retired := update s.retired node true
          retirements := s.retirements ++ [(node, dest)] }.goto t
            (.retireRead node dest)).pc u).giving = some (n, d) ↔
          (s.pc u).giving = some (n, d) := by
        by_cases hut : u = t
        · subst hut
          simp only [State.goto, update_self, hidle, Pc.giving]
          constructor
          · intro heq
            cases heq
            exact absurd rfl hn
          · exact nofun
        · simp only [State.goto, update_of_ne hut]
      refine (h.log n).congr ?_ ?_ rfl (fun u d => (hgiving u d).mp) fun hnone => ?_
      · exact update_of_ne hn ..
      · exact entriesOf_append_other _ _ hn
      · exact .inr ⟨rfl, fun u d hu => hnone u d ((hgiving u d).mpr hu)⟩
  · rw [hidle]
    rfl

/-- The compare-and-swap of `vebr_retire` succeeds. The head may have gone and come
back since it was read: the node points to the chain that is there now. -/
theorem Inv.retireCas (h : Inv s c) {node : Node} {idx : Nat}
    (hat : s.pc t = .retireCas node idx (s.list idx)) :
    Inv ({ s with list := update s.list idx (some node) }.goto t (.retireCount idx))
      (update (update c (.inr t) []) (.inl idx) (node :: c (.inl idx))) := by
  have hhand := h.hands t
  have hpc := h.pc t
  rw [hat] at hhand hpc
  have hmine : c (.inr t) = [node] := hhand
  have hothers (p : Nat ⊕ Tid) (hl : p ≠ .inl idx) (hr : p ≠ .inr t) :
      update (update c (.inr t) []) (.inl idx) (node :: c (.inl idx)) p = c p := by
    rw [update_of_ne hl, update_of_ne hr]
  have hempty : update (update c (.inr t) []) (.inl idx)
      (node :: c (.inl idx)) (.inr t) = [] := by
    rw [update_of_ne Sum.inr_ne_inl, update_self]
  have hperm : (update (update c (.inr t) []) (.inl idx)
      (node :: c (.inl idx)) (.inl idx) ++ update (update c (.inr t) [])
      (.inl idx) (node :: c (.inl idx)) (.inr t)).Perm (c (.inl idx) ++ c (.inr t)) := by
    rw [update_self, hempty, hmine, List.append_nil]
    exact (List.perm_append_singleton node _).symm
  refine h.move rfl (fun _ _ _ _ => rfl) ?_ ?_ ?_
    (h.apart.transfer (p := .inl idx) (q := .inr t) nofun hothers hperm) ?_ ?_ trivial ?_ ?_
  · intro i
    change Linked s.next (update s.list idx (some node) i) _
    by_cases hi : i = idx
    · subst hi
      rw [update_self, update_self]
      exact (h.lists i).push hpc.2
    · rw [update_of_ne hi, hothers (.inl i) (fun heq => hi (Sum.inl.inj heq)) nofun]
      exact h.lists i
  · intro u hu
    exact hothers (.inr u) nofun fun heq => hu (Sum.inr.inj heq)
  · rw [hempty]
    rfl
  · intro n
    change s.retired n = true ↔ _
    rw [h.retired]
    constructor
    · rintro ⟨p, hp⟩
      exact mem_of_transfer (fun r hl hr => (hothers r hl hr).symm) hperm.symm hp
    · rintro ⟨p, hp⟩
      exact mem_of_transfer hothers hperm hp
  · intro i hi
    change update s.list idx (some node) i = none
    rw [update_of_ne (by have := hpc.1; omega)]
    exact h.range i hi
  · intro n
    exact (h.log n).step rfl rfl rfl rfl (.inl ⟨rfl, by rw [hat]; rfl⟩)
  · rw [hat]
    rfl

theorem Inv.recycleDetach (h : Inv s c) {glbEpoch : Nat} (hat : s.pc t = .recycleDetach glbEpoch) :
    Inv ({ s with list := update s.list (prevEpochIdx glbEpoch) none }.goto t
      (.recycleCount glbEpoch (prevEpochIdx glbEpoch) (s.list (prevEpochIdx glbEpoch))))
      (update (update c (.inr t) (c (.inl (prevEpochIdx glbEpoch))))
        (.inl (prevEpochIdx glbEpoch)) []) := by
  generalize prevEpochIdx glbEpoch = idx
  have hhand := h.hands t
  rw [hat] at hhand
  have hmine : c (.inr t) = [] := hhand
  have hothers (p : Nat ⊕ Tid) (hl : p ≠ .inl idx) (hr : p ≠ .inr t) :
      update (update c (.inr t) (c (.inl idx))) (.inl idx) [] p = c p := by
    rw [update_of_ne hl, update_of_ne hr]
  have htaken : update (update c (.inr t) (c (.inl idx))) (.inl idx) []
      (.inr t) = c (.inl idx) := by
    rw [update_of_ne Sum.inr_ne_inl, update_self]
  have hperm : (update (update c (.inr t) (c (.inl idx))) (.inl idx) []
      (.inl idx) ++ update (update c (.inr t) (c (.inl idx))) (.inl idx) []
      (.inr t)).Perm (c (.inl idx) ++ c (.inr t)) := by
    rw [update_self, htaken, hmine, List.append_nil, List.nil_append]
  refine h.move rfl (fun _ _ _ _ => rfl) ?_ ?_ ?_
    (h.apart.transfer (p := .inl idx) (q := .inr t) nofun hothers hperm) ?_ ?_ trivial ?_ ?_
  · intro i
    change Linked s.next (update s.list idx none i) _
    by_cases hi : i = idx
    · subst hi
      rw [update_self, update_self]
      rfl
    · rw [update_of_ne hi, hothers (.inl i) (fun heq => hi (Sum.inl.inj heq)) nofun]
      exact h.lists i
  · intro u hu
    exact hothers (.inr u) nofun fun heq => hu (Sum.inr.inj heq)
  · rw [htaken]
    exact h.lists idx
  · intro n
    change s.retired n = true ↔ _
    rw [h.retired]
    constructor
    · rintro ⟨p, hp⟩
      exact mem_of_transfer (fun r hl hr => (hothers r hl hr).symm) hperm.symm hp
    · rintro ⟨p, hp⟩
      exact mem_of_transfer hothers hperm hp
  · intro i hi
    change update s.list idx none i = none
    by_cases heq : i = idx
    · rw [heq, update_self]
    · rw [update_of_ne heq]
      exact h.range i hi
  · intro n
    exact (h.log n).step rfl rfl rfl rfl (.inl ⟨rfl, by rw [hat]; rfl⟩)
  · rw [hat]
    rfl

omit [DecidableEq Tid] in
/-- The node at hand in the destroy loop holds the destructor given for it. -/
theorem Inv.freed_dest (h : Inv s c) {freed : Node} {curr : Option Node} {count : Nat}
    (hat : s.pc t = .recycleFree freed curr count) :
    ∃ d, s.dest freed = some d ∧
      entriesOf s.retirements freed = entriesOf s.destroyed freed ++ [d] := by
  have hhand := h.hands t
  rw [hat] at hhand
  obtain ⟨rest, hmine, -⟩ := hhand
  have hin : freed ∈ c (.inr t) := by
    rw [hmine]
    exact List.mem_cons_self ..
  have hlog := h.log freed
  rw [LogOk, if_pos ((h.retired freed).mpr ⟨_, hin⟩)] at hlog
  obtain ⟨d, hentries, -, hstored⟩ := hlog
  refine ⟨d, hstored fun u d' hu => ?_, hentries⟩
  have hu' := h.apart.unique _ _ freed (h.giving_mem hu) hin
  rw [Sum.inr.inj hu', hat] at hu
  cases hu

theorem Inv.recycleFree (h : Inv s c) {freed : Node} {curr : Option Node} {count : Nat} {d : Dest}
    (hat : s.pc t = .recycleFree freed curr count)
    (hentries : entriesOf s.retirements freed = entriesOf s.destroyed freed ++ [d]) :
    ∃ c', Inv ({ s with
      retired := update s.retired freed false
      destroyed := s.destroyed ++ [(freed, d)] }.goto t (.recycleCurr curr (count + 1))) c' := by
  have hhand := h.hands t
  rw [hat] at hhand
  obtain ⟨rest, hmine, hrest⟩ := hhand
  have hin : freed ∈ c (.inr t) := by
    rw [hmine]
    exact List.mem_cons_self ..
  have hnot : freed ∉ rest := by
    have hnodup := h.apart.nodup (.inr t)
    rw [hmine] at hnodup
    exact (List.nodup_cons.mp hnodup).1
  have hothers (p : Nat ⊕ Tid) (hp : p ≠ .inr t) : update c (.inr t) rest p = c p :=
    update_of_ne hp ..
  refine ⟨update c (.inr t) rest, h.move rfl (fun _ _ _ _ => rfl) ?_ ?_ ?_
    (h.apart.drop (p := .inr t) hothers ?_) ?_ h.range trivial ?_ ?_⟩
  · intro i
    rw [hothers (.inl i) Sum.inl_ne_inr]
    exact h.lists i
  · intro u hu
    exact hothers _ fun heq => hu (Sum.inr.inj heq)
  · rw [update_self]
    exact hrest
  · rw [update_self, hmine]
    exact List.sublist_cons_self _ _
  · intro n
    change update s.retired freed false n = true ↔ _
    by_cases hn : n = freed
    · subst hn
      rw [update_self]
      constructor
      · exact nofun
      · rintro ⟨p, hp⟩
        by_cases hpt : p = .inr t
        · rw [hpt, update_self] at hp
          exact absurd hp hnot
        · rw [hothers p hpt] at hp
          exact absurd (h.apart.unique p _ n hp hin) hpt
    · rw [update_of_ne hn, h.retired]
      refine exists_congr fun p => ?_
      by_cases hpt : p = .inr t
      · rw [hpt, update_self, hmine, List.mem_cons]
        exact or_iff_right hn
      · rw [hothers p hpt]
  · intro n
    by_cases hn : n = freed
    · subst hn
      rw [LogOk, if_neg (by change ¬ update s.retired n false n = true; simp)]
      change entriesOf s.retirements n = entriesOf (s.destroyed ++ [(n, d)]) n
      rw [entriesOf_append_self, hentries]
    · have hpc : (update s.pc t (.recycleCurr curr (count + 1)) : Tid → Pc Node Dest) =
          update s.pc t (.recycleCurr curr (count + 1)) := rfl
      refine (h.log n).step hpc ?_ rfl ?_ (.inl ⟨rfl, by rw [hat]; rfl⟩)
      · exact update_of_ne hn ..
      · exact entriesOf_append_other _ _ hn
  · rw [hat]
    change (s.destroyed ++ [(freed, d)]).length + s.recycled + count =
      s.destroyed.length + s.recycled + (count + 1)
    rw [List.length_append, List.length_singleton]
    omega

theorem Inv.goto (h : Inv s c) {pc : Pc Node Dest} (hgiving : pc.giving = (s.pc t).giving)
    (hself : Holds s.next pc (c (.inr t))) (hok : PcOk (s.goto t pc) pc)
    (hdone : (s.pc t).done = pc.done) : Inv (s.goto t pc) c :=
  h.still rfl rfl rfl rfl rfl (fun _ _ => rfl) (.inl ⟨rfl, hgiving⟩) hself hok
    (congrArg (s.recycled + ·) hdone)

theorem Inv.advanced (h : Inv s c) {glbEpoch epoch retEpoch : Nat} {head : Option Node}
    (hat : s.pc t = .recycleAdvance glbEpoch head) :
    Inv (advanced { s with epochGlobal := epoch } t glbEpoch retEpoch head) c := by
  have hhand := h.hands t
  rw [hat] at hhand
  have hmove {pc : Pc Node Dest} (hgiving : pc.giving = none) (hdone : pc.done = 0)
      (hself : Holds s.next pc (c (.inr t)))
      (hok : PcOk ({ s with epochGlobal := epoch }.goto t pc) pc) :
      Inv ({ s with epochGlobal := epoch }.goto t pc) c := by
    refine h.still rfl rfl rfl rfl rfl (fun _ _ => rfl) (.inl ⟨rfl, ?_⟩) hself hok ?_
    · rw [hgiving, hat]
      rfl
    · rw [hdone, hat]
      rfl
  simp only [NodesList.advanced]
  split
  · cases head with
    | some node => exact hmove rfl rfl hhand trivial
    | none =>
      have hlinked : Linked s.next none (c (.inr t)) := hhand
      exact hmove rfl rfl hlinked.of_none trivial
  · exact hmove rfl rfl hhand trivial

theorem Inv.nextStep (h : Inv s c) (hstep : nextStep s t = some s') : ∃ c', Inv s' c' := by
  have hhand := h.hands t
  have hpc := h.pc t
  rw [NodesList.nextStep] at hstep
  cases hat : s.pc t with
  | idle | recycleSync _ _ | failed _ _ =>
    rw [hat] at hstep
    cases hstep
  | retireRead node dest =>
    have hidx : epochIdx s.epochGlobal < 3 := Nat.mod_lt _ (by decide)
    simp only [hat, if_pos hidx.le] at hstep
    rw [hat] at hhand
    cases hstep
    exact ⟨c, h.goto (by rw [hat]; rfl) hhand hidx (by rw [hat]; rfl)⟩
  | retireDest node dest idx =>
    rw [hat] at hstep hhand hpc
    cases hstep
    exact ⟨c, h.still rfl rfl rfl rfl rfl (fun _ _ => rfl)
      (.inr ⟨node, dest, by rw [hat]; rfl, rfl, rfl⟩) hhand hpc (by rw [hat]; rfl)⟩
  | retireNull node idx =>
    rw [hat] at hstep hhand hpc
    cases hstep
    refine ⟨c, h.still rfl rfl rfl rfl rfl ?_ (.inl ⟨rfl, by rw [hat]; rfl⟩) hhand hpc
      (by rw [hat]; rfl)⟩
    intro n hn
    rw [show c (.inr t) = [node] from hhand] at hn
    exact update_of_ne (fun heq => hn (List.mem_singleton.mpr heq)) ..
  | retireList node idx =>
    rw [hat] at hstep hhand hpc
    cases hstep
    exact ⟨c, h.goto (by rw [hat]; rfl) hhand hpc (by rw [hat]; rfl)⟩
  | retireNext node idx cmp =>
    rw [hat] at hstep hhand hpc
    cases hstep
    refine ⟨c, h.still rfl rfl rfl rfl rfl ?_ (.inl ⟨rfl, by rw [hat]; rfl⟩) hhand
      ⟨hpc, update_self ..⟩ (by rw [hat]; rfl)⟩
    intro n hn
    rw [show c (.inr t) = [node] from hhand] at hn
    exact update_of_ne (fun heq => hn (List.mem_singleton.mpr heq)) ..
  | retireCas node idx cmp =>
    simp only [hat] at hstep
    rw [hat] at hhand hpc
    split at hstep
    · rename_i hsame
      cases hstep
      exact ⟨_, h.retireCas (hsame ▸ hat)⟩
    · cases hstep
      exact ⟨c, h.goto (by rw [hat]; rfl) hhand hpc.1 (by rw [hat]; rfl)⟩
  | retireCount idx | recycleCount glbEpoch idx head | recycleRet count =>
    rw [hat] at hstep hhand
    cases hstep
    exact ⟨c, h.still rfl rfl rfl rfl rfl (fun _ _ => rfl) (.inl ⟨rfl, by rw [hat]; rfl⟩) hhand
      trivial (by rw [hat]; rfl)⟩
  | recycleRead =>
    rw [hat] at hstep hhand
    cases hstep
    exact ⟨c, h.goto (by rw [hat]; rfl) hhand trivial (by rw [hat]; rfl)⟩
  | recycleDetach glbEpoch =>
    rw [hat] at hstep
    cases hstep
    exact ⟨_, h.recycleDetach hat⟩
  | recycleAdvance glbEpoch head =>
    simp only [hat] at hstep
    split at hstep
    · cases hstep
      exact ⟨c, h.advanced hat⟩
    · cases hstep
      exact ⟨c, h.advanced hat⟩
  | recycleCurr curr count =>
    cases curr with
    | none =>
      rw [hat] at hstep hhand
      cases hstep
      have hlinked : Linked s.next none (c (.inr t)) := hhand
      exact ⟨c, h.goto (by rw [hat]; rfl) hlinked.of_none trivial (by rw [hat]; rfl)⟩
    | some freed =>
      rw [hat] at hstep hhand
      cases hstep
      have hlinked : Linked s.next (some freed) (c (.inr t)) := hhand
      exact ⟨c, h.goto (by rw [hat]; rfl) hlinked.of_some trivial (by rw [hat]; rfl)⟩
  | recycleFree freed curr count =>
    obtain ⟨d, hd, hentries⟩ := h.freed_dest hat
    simp only [hat, hd] at hstep
    cases hstep
    exact h.recycleFree hat hentries

theorem Inv.step (h : Inv s c) {a : Act Tid Node Dest} (hstep : step s a = some s') :
    ∃ c', Inv s' c' := by
  cases a with
  | retire t node dest =>
    simp only [NodesList.step] at hstep
    split at hstep
    · rename_i hidle
      split at hstep
      · cases hstep
      · rename_i hnew
        cases hstep
        exact ⟨_, h.retire hidle (Bool.eq_false_iff.mpr hnew)⟩
    · cases hstep
  | recycle t =>
    have hhand := h.hands t
    simp only [NodesList.step] at hstep
    split at hstep
    · rename_i hidle
      rw [hidle] at hhand
      cases hstep
      exact ⟨c, h.goto (by rw [hidle]; rfl) hhand trivial (by rw [hidle]; rfl)⟩
    · cases hstep
  | synced t lclEpoch =>
    have hhand := h.hands t
    simp only [NodesList.step] at hstep
    split at hstep
    · rename_i glbEpoch head hat
      rw [hat] at hhand
      split at hstep
      · cases hstep
        exact ⟨c, h.goto (by rw [hat]; rfl) hhand trivial (by rw [hat]; rfl)⟩
      · cases hstep
        exact ⟨c, h.goto (by rw [hat]; rfl) hhand trivial (by rw [hat]; rfl)⟩
    · cases hstep
  | step t => exact h.nextStep hstep

omit [DecidableEq Tid] in
theorem vebrInit_inv (next : Node → Option Node) (dest : Node → Option Dest) :
    Inv (vebrInit next dest : State Tid Node Dest) (fun _ => []) where
  lists _ := rfl
  hands _ := rfl
  apart := Apart.empty fun _ => rfl
  retired n := by
    constructor
    · exact nofun
    · rintro ⟨p, hp⟩
      cases hp
  range _ _ := rfl
  pc _ := trivial
  log _ := rfl
  count := ⟨∅, fun _ _ => rfl, rfl⟩

variable {next : Node → Option Node} {dest : Node → Option Dest}
  {past : List (State Tid Node Dest × Act Tid Node Dest)}

theorem run_inv (run : (machine Tid Node Dest next dest).Run past s) : ∃ c, Inv s c := by
  apply run.invariant (I := fun s => ∃ c, Inv s c)
  · rintro s rfl
    exact ⟨_, vebrInit_inv next dest⟩
  · rintro s a s' ⟨c, h⟩ hstep
    exact h.step hstep

omit [DecidableEq Node] in
/-- The destructors that `smr_nodes_list_destroy` runs along a chain. -/
theorem smrNodesListDestroy_linked {p : Option Node} {nodes : List Node}
    (h : Linked next p nodes) (hdest : ∀ n ∈ nodes, ∃ d, dest n = some d) :
    ∃ log, log.map Prod.fst = nodes ∧ (∀ x ∈ log, dest x.1 = some x.2) ∧
      ∀ fuel, nodes.length ≤ fuel → smrNodesListDestroy next dest fuel p = some log := by
  induction nodes generalizing p with
  | nil =>
    refine ⟨[], rfl, nofun, fun fuel _ => ?_⟩
    rw [show p = none from h]
    cases fuel <;> rfl
  | cons n nodes ih =>
    obtain ⟨rfl, hrest⟩ := h
    obtain ⟨d, hd⟩ := hdest n (List.mem_cons_self ..)
    obtain ⟨log, hmap, hlog, hrun⟩ := ih hrest fun m hm => hdest m (List.mem_cons_of_mem _ hm)
    refine ⟨(n, d) :: log, by rw [List.map_cons, hmap], ?_, ?_⟩
    · intro x hx
      rcases List.mem_cons.mp hx with rfl | hx
      · exact hd
      · exact hlog x hx
    · intro fuel hfuel
      cases fuel with
      | zero => cases hfuel
      | succ fuel =>
        simp only [smrNodesListDestroy, hd, hrun fuel (Nat.le_of_succ_le_succ hfuel)]

theorem entriesOf_once {log : List (Node × Dest)} (hnodup : (log.map Prod.fst).Nodup)
    (hlog : ∀ x ∈ log, dest x.1 = some x.2) (n : Node) :
    entriesOf log n = if n ∈ log.map Prod.fst then (dest n).toList else [] := by
  induction log with
  | nil => rfl
  | cons x log ih =>
    obtain ⟨hx, hnodup⟩ := List.nodup_cons.mp hnodup
    have hrest := ih hnodup fun y hy => hlog y (List.mem_cons_of_mem _ hy)
    have hd := hlog x (List.mem_cons_self ..)
    by_cases hn : n = x.1
    · have hcons : entriesOf (x :: log) n = x.2 :: entriesOf log n := by
        simp [entriesOf, hn]
      rw [hcons, hrest, hn, if_neg hx, List.map_cons, if_pos (List.mem_cons_self ..), hd]
      rfl
    · have hcons : entriesOf (x :: log) n = entriesOf log n := by
        simp [entriesOf, Ne.symm hn]
      rw [hcons, hrest, List.map_cons]
      simp only [List.mem_cons, hn, false_or]

theorem entriesOf_append (log log' : List (Node × Dest)) (n : Node) :
    entriesOf (log ++ log') n = entriesOf log n ++ entriesOf log' n := by
  simp [entriesOf]

/-- What `vebr_destroy` leaves, given the destructors of the three chains. -/
def emptied (s : State Tid Node Dest) (log : Nat → List (Node × Dest)) : State Tid Node Dest :=
  { s with
    list := update (update (update s.list 0 none) 1 none) 2 none
    count := update (update (update s.count 0 0) 1 0) 2 0
    destroyed := s.destroyed ++ log 0 ++ log 1 ++ log 2 }

omit [DecidableEq Tid] [DecidableEq Node] in
theorem vebrDestroy_eq {log : Nat → List (Node × Dest)} {fuel : Nat}
    (h : ∀ i, smrNodesListDestroy s.next s.dest fuel (s.list i) = some (log i)) :
    vebrDestroy fuel s = some (emptied s log) := by
  have hone : update s.list 0 none 1 = s.list 1 := update_of_ne (by decide) ..
  have htwo : update (update s.list 0 none) 1 none 2 = s.list 2 := by
    rw [update_of_ne (by decide), update_of_ne (by decide)]
  simp only [vebrDestroy, List.foldlM_cons, List.foldlM_nil, destroyList, h, hone, htwo,
    Option.bind_eq_bind, Option.bind_some, Option.pure_def, emptied]

section

omit [DecidableEq Tid]

/-- With no call in progress every retired node is on one of the three lists. -/
theorem Inv.listed (h : Inv s c) (hidle : ∀ t, s.pc t = .idle) {p : Nat ⊕ Tid} {n : Node}
    (hn : n ∈ c p) : p = .inl 0 ∨ p = .inl 1 ∨ p = .inl 2 := by
  cases p with
  | inr t =>
    have hhand := h.hands t
    rw [hidle] at hhand
    rw [show c (.inr t) = [] from hhand] at hn
    cases hn
  | inl i =>
    by_cases hi : 3 ≤ i
    · have hlinked := h.lists i
      rw [h.range i hi] at hlinked
      rw [hlinked.of_none] at hn
      cases hn
    · have hcases : i = 0 ∨ i = 1 ∨ i = 2 := by omega
      rcases hcases with rfl | rfl | rfl
      · exact .inl rfl
      · exact .inr (.inl rfl)
      · exact .inr (.inr rfl)

theorem Inv.stored (h : Inv s c) (hidle : ∀ t, s.pc t = .idle) {n : Node}
    (hn : s.retired n = true) : ∃ d, s.dest n = some d ∧
      entriesOf s.retirements n = entriesOf s.destroyed n ++ [d] := by
  have hlog := h.log n
  rw [LogOk, if_pos hn] at hlog
  obtain ⟨d, hentries, -, hstored⟩ := hlog
  refine ⟨d, hstored fun t d' => ?_, hentries⟩
  rw [hidle]
  exact nofun

theorem Inv.destroy (h : Inv s c) (hidle : ∀ t, s.pc t = .idle) :
    ∃ bound s', (∀ fuel, bound ≤ fuel → vebrDestroy fuel s = some s') ∧
      ∀ n, entriesOf s'.destroyed n = entriesOf s.retirements n := by
  have hdest (i : Nat) (n : Node) (hn : n ∈ c (.inl i)) : ∃ d, s.dest n = some d := by
    obtain ⟨d, hd, -⟩ := h.stored hidle ((h.retired n).mpr ⟨_, hn⟩)
    exact ⟨d, hd⟩
  choose log hmap hlog hrun using fun i => smrNodesListDestroy_linked (h.lists i) (hdest i)
  have hentries (i : Nat) (n : Node) :
      entriesOf (log i) n = if n ∈ c (.inl i) then (s.dest n).toList else [] := by
    have honce := entriesOf_once (by rw [hmap]; exact h.apart.nodup _) (hlog i) n
    rw [hmap] at honce
    exact honce
  refine ⟨(c (.inl 0)).length + (c (.inl 1)).length + (c (.inl 2)).length, emptied s log, ?_, ?_⟩
  · intro fuel hfuel
    refine vebrDestroy_eq fun i => hrun i fuel ?_
    cases hnodes : c (.inl i) with
    | nil => exact Nat.zero_le _
    | cons n rest =>
      have hplace := h.listed hidle (p := .inl i) (n := n) (by rw [hnodes]; simp)
      rw [← hnodes]
      rcases hplace with heq | heq | heq <;> rw [heq] <;> omega
  · intro n
    change entriesOf (s.destroyed ++ log 0 ++ log 1 ++ log 2) n = _
    rw [entriesOf_append, entriesOf_append, entriesOf_append, hentries, hentries, hentries]
    cases hn : s.retired n with
    | false =>
      have hout (i : Nat) : n ∉ c (.inl i) := by
        intro hin
        rw [(h.retired n).mpr ⟨_, hin⟩] at hn
        cases hn
      have hdone := h.log n
      rw [LogOk, if_neg (by rw [hn]; decide)] at hdone
      rw [if_neg (hout 0), if_neg (hout 1), if_neg (hout 2), hdone]
      simp
    | true =>
      obtain ⟨d, hd, hgiven⟩ := h.stored hidle hn
      obtain ⟨p, hp⟩ := (h.retired n).mp hn
      have helse {i : Nat} (hi : p ≠ .inl i) : n ∉ c (.inl i) :=
        fun hin => hi (h.apart.unique p _ n hp hin)
      rw [hgiven, hd]
      rcases h.listed hidle hp with rfl | rfl | rfl
      · rw [if_pos hp, if_neg (helse (by simp)), if_neg (helse (by simp))]
        simp
      · rw [if_neg (helse (by simp)), if_pos hp, if_neg (helse (by simp))]
        simp
      · rw [if_neg (helse (by simp)), if_neg (helse (by simp)), if_pos hp]
        simp

end

/-- The destructors run for a node are those given when it was retired, in order
and each at most once. With no call in progress the returned counts add up to the
destructors run, and `vebr_destroy` runs the rest. -/
structure Conserved (s : State Tid Node Dest) : Prop where
  once : ∀ n, entriesOf s.destroyed n <+: entriesOf s.retirements n
  counts : (∀ t, s.pc t = .idle) → s.recycled = s.destroyed.length
  final : (∀ t, s.pc t = .idle) →
    ∃ bound s', (∀ fuel, bound ≤ fuel → vebrDestroy fuel s = some s') ∧
      ∀ n, entriesOf s'.destroyed n = entriesOf s.retirements n

theorem ebr_conserved (run : (machine Tid Node Dest next dest).Run past s) : Conserved s := by
  obtain ⟨c, h⟩ := run_inv run
  refine ⟨?_, ?_, h.destroy⟩
  · intro n
    have hlog := h.log n
    rw [LogOk] at hlog
    split at hlog
    · obtain ⟨d, hentries, -, -⟩ := hlog
      rw [hentries]
      exact List.prefix_append _ _
    · rw [hlog]
  · intro hidle
    obtain ⟨busy, -, hsum⟩ := h.count
    have hzero : ∑ t ∈ busy, (s.pc t).done = 0 := by
      refine Finset.sum_eq_zero fun t _ => ?_
      rw [hidle]
      rfl
    omega

/-- Thread 1 pushes node 5 while thread 0 has read an empty list; after the epoch
has moved once a recycler takes both nodes and runs their destructors. -/
def twoRetires : List (Act Bool Nat Nat) :=
  [.retire false 4 40, .step false, .step false, .step false, .step false, .retire true 5 50,
    .step true, .step true, .step true, .step true, .step true, .step true, .step true,
    .step false, .step false, .step false, .step false, .step false,
    .recycle true, .step true, .step true, .step true, .synced true 0, .step true, .step true,
    .recycle true, .step true, .step true, .step true, .synced true 0, .step true, .step true,
    .step true, .step true, .step true, .step true, .step true]

theorem ebr_conserved_twoRetires :
    ∃ past s, (machine Bool Nat Nat (fun _ => none) fun _ => none).Run past s ∧ Conserved s ∧
      s.destroyed = [(4, 40), (5, 50)] ∧ s.recycled = 2 := by
  have hexec : ((machine Bool Nat Nat (fun _ => none) fun _ => none).exec
      (vebrInit (fun _ => none) fun _ => none) twoRetires).map
      (fun s => (s.destroyed, s.recycled)) = some ([(4, 40), (5, 50)], 2) := by
    decide +kernel
  obtain ⟨s, hs, hview⟩ := Option.map_eq_some_iff.mp hexec
  obtain ⟨hdestroyed, hrecycled⟩ := Prod.mk.inj hview
  have run := (Machine.Run.start
    (M := machine Bool Nat Nat (fun _ => none) fun _ => none) rfl).exec hs
  exact ⟨_, s, run, ebr_conserved run, hdestroyed, hrecycled⟩

end Libvsync.Smr.NodesList
