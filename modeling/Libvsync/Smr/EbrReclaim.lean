import Libvsync.Core.Places
import Libvsync.Smr.EbrGrace

/-!
Reclamation. A retired node moves from the hand of the retiring thread to one
of the three lists, from there into the hand of the recycler that detaches the
list, and then to its destructor; it is never in two places. A reader that was
inside when the node was retired keeps the recycler waiting, provided the
recycler detached the node in time: the epoch it read must be above the
epoch of the node, or the node so old that no such reader is left.
-/

namespace Libvsync.Smr.Ebr

open Libvsync.Core Function

variable {Tid Node Dest : Type}

/-- The nodes in the hand of a thread. -/
def Pc.held : Pc Tid Node Dest → List Node
  | .retireRead node _ | .retireListRead node _ _ | .retireCas node _ _ => [node]
  | .epochsLock _ (.recycle head) | .epochsRead _ _ _ (.recycle head)
  | .epochsUnlock _ _ (.recycle head) | .advance _ (.recycle head) => head
  | .recycleDestroy rest _ => rest
  | _ => []

/-- Where nodes can be: in the hand of a thread, or in a retired list. -/
def content (s : State Tid Node Dest) : Tid ⊕ Nat → List Node
  | .inl t => (s.pc t).held
  | .inr i => s.retiredLst i

structure PlacesInv (s : State Tid Node Dest) : Prop where
  apart : Apart (content s)
  retired : ∀ place n, n ∈ content s place → s.retired n = true

theorem vebrInit_placesInv : PlacesInv (vebrInit : State Tid Node Dest) where
  apart := Apart.empty (by rintro (t | i) <;> rfl)
  retired := by
    rintro (t | i) n hn <;> simp [content, vebrInit, Pc.held] at hn

/-- What a recycler with a node in hand must wait for while thread `t` stays
inside: it has not passed `t` yet, and will not before `t` leaves. -/
def BatchGuard (s : State Tid Node Dest) (t : Tid) : Pc Tid Node Dest → Prop
  | .retireRead _ _ | .retireListRead _ _ _ | .retireCas _ _ _ => True
  | .epochsLock epoch (.recycle _) => s.epochLocal t < epoch
  | .epochsRead epoch rest _ (.recycle _) => t ∈ rest ∧ s.epochLocal t < epoch
  | _ => False

variable {s s' : State Tid Node Dest}

theorem BatchGuard.frame {t : Tid} {pc : Pc Tid Node Dest} (h : BatchGuard s t pc)
    (hlocal : s'.epochLocal t = s.epochLocal t) : BatchGuard s' t pc := by
  unfold BatchGuard at h ⊢
  rw [hlocal]
  exact h

/-- A thread about to link a node has chosen the list of the node's epoch. -/
def IdxOk (s : State Tid Node Dest) : Pc Tid Node Dest → Prop
  | .retireListRead node _ idx | .retireCas node idx _ =>
    idx = epochIdx (s.epochOf node) ∧ s.epochOf node ≤ s.epochGlobal
  | _ => True

/-- A node is listed under its epoch modulo 3. -/
structure ListedInv (s : State Tid Node Dest) : Prop where
  listed : ∀ i, ∀ n ∈ s.retiredLst i,
    i = epochIdx (s.epochOf n) ∧ s.epochOf n ≤ s.epochGlobal
  hand : ∀ t, IdxOk s (s.pc t)

theorem IdxOk.frame {pc : Pc Tid Node Dest} (h : IdxOk s pc)
    (hepoch : ∀ n ∈ pc.held, s'.epochOf n = s.epochOf n)
    (hglobal : s.epochGlobal ≤ s'.epochGlobal) : IdxOk s' pc := by
  cases pc with
  | retireListRead node dest idx | retireCas node idx cmp =>
    obtain ⟨hidx, hle⟩ := h
    have hsame := hepoch node (by simp [Pc.held])
    exact ⟨by rw [hsame]; exact hidx, by rw [hsame]; exact hle.trans hglobal⟩
  | _ => trivial

/-- The epoch that a recycler about to detach a list has read. -/
def Pc.detaching : Pc Tid Node Dest → Option Nat
  | .recycleDetach epoch => some epoch
  | _ => none

/-- A recycler takes a list in time: every node on it was retired below the
epoch that the recycler read, or at least two epochs ago. -/
def DetachOk (s : State Tid Node Dest) (a : Act Tid Node Dest) : Prop :=
  ∀ epoch ∈ (s.pc a.thread).detaching, ∀ n ∈ s.retiredLst (prevEpochIdx epoch),
    s.epochOf n < epoch ∨ s.epochOf n + 2 ≤ s.epochGlobal

instance (s : State Tid Node Dest) (a : Act Tid Node Dest) : Decidable (DetachOk s a) :=
  inferInstanceAs (Decidable (∀ epoch ∈ (s.pc a.thread).detaching,
    ∀ n ∈ s.retiredLst (prevEpochIdx epoch),
      s.epochOf n < epoch ∨ s.epochOf n + 2 ≤ s.epochGlobal))

/-- The epoch a recycler read is still current when it takes the list, or the
current one is ahead of it by one, modulo 3. -/
def UpToDate (s : State Tid Node Dest) (a : Act Tid Node Dest) : Prop :=
  ∀ epoch ∈ (s.pc a.thread).detaching,
    s.epochGlobal = epoch ∨ s.epochGlobal % 3 = (epoch + 1) % 3

variable {a : Act Tid Node Dest}

/-- A recycler that is up to date takes its list in time. -/
theorem UpToDate.detachOk (h : UpToDate s a) (he : EpochInv s) (hl : ListedInv s)
    (hfit : NoWrap s a) : DetachOk s a := by
  intro epoch hread n hn
  obtain ⟨hidx, hle⟩ := hl.listed _ n hn
  have hdate := h epoch hread
  have hwalk : epoch ≤ s.epochGlobal := by
    have hwalk := he.walk a.thread
    cases hpc : s.pc a.thread <;> simp only [hpc, Pc.detaching, WalkOk] at hread hwalk <;>
      cases hread
    exact hwalk
  have hwrap : wadd 64 epoch 2 = epoch + 2 :=
    Nat.mod_eq_of_lt (by have := hfit.1; omega)
  simp only [prevEpochIdx, epochIdx, hwrap] at hidx
  omega

variable [DecidableEq Tid]

theorem State.syncLoop_idxOk (s₁ s : State Tid Node Dest) (t : Tid) (cur target i : Nat) :
    IdxOk s₁ ((s.syncLoop t cur target i).pc t) := by
  unfold State.syncLoop State.goIf
  split
  · simp [State.goto, IdxOk]
  · split <;> simp [State.goto, IdxOk]

theorem State.syncLoop_held (s : State Tid Node Dest) (t : Tid)
    (curEpoch targetEpoch i : Nat) :
    ((s.syncLoop t curEpoch targetEpoch i).pc t).held = [] := by
  unfold State.syncLoop State.goIf
  split
  · simp [State.goto, Pc.held]
  · split <;> simp [State.goto, Pc.held]

theorem State.epochsReturn_held (s : State Tid Node Dest) (t : Tid) (epoch lclEpoch : Nat)
    (caller : Caller Node)
    (hcheck : ∀ head, caller = .recycle head → lclEpoch = 0 ∨ epoch ≤ lclEpoch) :
    ((s.epochsReturn t epoch lclEpoch caller).pc t).held =
      (Pc.epochsLock epoch caller : Pc Tid Node Dest).held := by
  cases caller with
  | recycle head =>
    simp only [State.epochsReturn, State.goIf, if_pos (hcheck head rfl)]
    simp [State.goto, Pc.held]
  | sync targetEpoch i =>
    simp only [State.epochsReturn]
    split <;> simp [State.goto, Pc.held]

theorem State.advanced_held (s : State Tid Node Dest) (t : Tid) (epoch retEpoch : Nat)
    (caller : Caller Node) (hret : epoch ≤ retEpoch) :
    ((s.advanced t epoch retEpoch caller).pc t).held =
      (Pc.epochsLock epoch caller : Pc Tid Node Dest).held := by
  cases caller with
  | recycle head =>
    simp only [State.advanced, State.goIf, if_pos hret]
    simp [State.goto, Pc.held]
  | sync targetEpoch i =>
    simp only [State.advanced]
    rw [State.syncLoop_held]
    rfl

variable [DecidableEq Node]

/-- The moves of nodes: none; from the hand of a retiring thread to its list;
from a list to the hand of a recycler; from there to the destructor. -/
inductive Moves (s s' : State Tid Node Dest) (t : Tid) : Prop
  | none (hlist : s'.retiredLst = s.retiredLst) (hretired : s'.retired = s.retired)
      (hheld : (s'.pc t).held = (s.pc t).held)
  | link (node : Node) (idx : Nat) (cmp : Option Node) (hpc : s.pc t = .retireCas node idx cmp)
      (hpc' : s'.pc t = .idle) (hretired : s'.retired = s.retired)
      (hlist : s'.retiredLst =
        update s.retiredLst idx (node :: s.retiredLst idx))
  | detach (epoch : Nat) (hpc : s.pc t = .recycleDetach epoch)
      (hpc' : s'.pc t = .epochsLock epoch (.recycle (s.retiredLst (prevEpochIdx epoch))))
      (hretired : s'.retired = s.retired)
      (hlist : s'.retiredLst = update s.retiredLst (prevEpochIdx epoch) [])
  | destroy (node : Node) (rest : List Node) (count : Nat)
      (hpc : s.pc t = .recycleDestroy (node :: rest) count)
      (hpc' : s'.pc t = .recycleDestroy rest (count + 1))
      (hretired : s'.retired = update s.retired node false)
      (hlist : s'.retiredLst = s.retiredLst)

theorem nextStep_moves {t : Tid} (h : EpochInv s) (hstep : nextStep s t = some s') :
    Moves s s' t := by
  have hwalk := h.walk t
  unfold nextStep at hstep
  cases hpc : s.pc t with
  | idle | assertFailed message => simp [hpc] at hstep
  | registerLock | deregisterLock =>
    simp only [hpc] at hstep
    split at hstep <;> cases hstep
    exact .none rfl rfl (by simp [State.goto, hpc, Pc.held])
  | epochsLock epoch caller =>
    simp only [hpc] at hstep
    split at hstep <;> cases hstep
    exact .none rfl rfl (by cases caller <;> simp [State.goto, hpc, Pc.held])
  | registerAdd | registerUnlock | deregisterRem | deregisterUnlock | enterRead | enterWrite e
  | exitWrite | retireRead node dest | retireListRead node dest idx | recycleRead
  | recycleRet count | syncRet =>
    simp only [hpc, Option.some.injEq] at hstep
    subst hstep
    exact .none rfl rfl (by simp [State.goto, hpc, Pc.held])
  | retireCas node idx cmp =>
    simp only [hpc] at hstep
    split at hstep <;> cases hstep
    · exact .link node idx cmp hpc (by simp [State.goto]) rfl rfl
    · exact .none rfl rfl (by simp [State.goto, hpc, Pc.held])
  | recycleDetach epoch =>
    simp only [hpc, Option.some.injEq] at hstep
    subst hstep
    exact .detach epoch hpc (by simp [State.goto]) rfl rfl
  | syncRead =>
    simp only [hpc, Option.some.injEq] at hstep
    have hheld := s.syncLoop_held t s.epochGlobal (wadd 64 s.epochGlobal 2) 0
    obtain ⟨pc, heq⟩ := s.syncLoop_eq_goto t s.epochGlobal (wadd 64 s.epochGlobal 2) 0
    rw [heq] at hheld hstep
    subst hstep
    exact .none rfl rfl (by rw [hheld, hpc]; rfl)
  | epochsRead epoch rest minEpoch caller =>
    have hsame (rest' : List Tid) (minEpoch' : Nat) :
        (Pc.epochsRead epoch rest' minEpoch' caller : Pc Tid Node Dest).held =
          (Pc.epochsRead epoch rest minEpoch caller : Pc Tid Node Dest).held := by
      cases caller <;> rfl
    cases rest with
    | nil =>
      simp only [hpc, Option.some.injEq] at hstep
      subst hstep
      exact .none rfl rfl (by cases caller <;> simp [State.goto, hpc, Pc.held])
    | cons thrd rest =>
      simp only [hpc] at hstep
      split at hstep
      · cases hstep
        exact .none rfl rfl (by simp only [State.goto, update_self, hpc, hsame])
      · split at hstep <;> cases hstep
        · exact .none rfl rfl (by simp only [State.goto, update_self, hpc, hsame])
        · exact .none rfl rfl rfl
  | epochsUnlock epoch minEpoch caller =>
    simp only [hpc, Option.some.injEq] at hstep hwalk
    have hcheck (head : List Node) (_ : caller = .recycle head) :
        (if minEpoch = uint64Max then 0 else minEpoch) = 0 ∨
          epoch ≤ (if minEpoch = uint64Max then 0 else minEpoch) := by
      split
      · exact Or.inl rfl
      · exact Or.inr hwalk.2.2.1
    have hheld := State.epochsReturn_held { s with lock := none } t epoch
      (if minEpoch = uint64Max then 0 else minEpoch) caller hcheck
    obtain ⟨pc, heq⟩ := State.epochsReturn_eq_goto { s with lock := none } t epoch
      (if minEpoch = uint64Max then 0 else minEpoch) caller
    rw [heq] at hheld hstep
    subst hstep
    exact .none rfl rfl (by rw [hheld, hpc]; cases caller <;> rfl)
  | advance epoch caller =>
    simp only [hpc] at hstep hwalk
    split at hstep <;> cases hstep
    · have hheld := State.advanced_held { s with epochGlobal := wadd 64 epoch 1 } t epoch
        epoch caller (Nat.le_refl _)
      obtain ⟨pc, heq⟩ := State.advanced_eq_goto
        { s with epochGlobal := wadd 64 epoch 1 } t epoch epoch caller
      rw [heq] at hheld ⊢
      exact .none rfl rfl (by rw [hheld, hpc]; cases caller <;> rfl)
    · have hheld := s.advanced_held t epoch s.epochGlobal caller hwalk.1
      obtain ⟨pc, heq⟩ := s.advanced_eq_goto t epoch s.epochGlobal caller
      rw [heq] at hheld ⊢
      exact .none rfl rfl (by rw [hheld, hpc]; cases caller <;> rfl)
  | recycleDestroy rest count =>
    cases rest with
    | nil =>
      simp only [hpc, Option.some.injEq] at hstep
      subst hstep
      exact .none rfl rfl (by simp [State.goto, hpc, Pc.held])
    | cons node rest =>
      simp only [hpc, Option.some.injEq] at hstep
      subst hstep
      exact .destroy node rest count hpc (by simp [State.goto]) rfl rfl

/-- A call that begins takes a node in hand only when it retires one that is
not retired yet. -/
theorem beginCall_moves {t : Tid} (hidle : s.pc t = .idle) (hstep : beginCall s t a = some s') :
    (s'.retiredLst = s.retiredLst ∧ s'.retired = s.retired ∧ (s'.pc t).held = []) ∨
      ∃ node dest, s.retired node = false ∧
      s'.pc t = .retireRead node dest ∧ s'.retiredLst = s.retiredLst ∧
      s'.retired = update s.retired node true := by
  cases a with
  | register v =>
    simp only [beginCall] at hstep
    split at hstep <;> cases hstep
    exact Or.inl ⟨rfl, rfl, by simp [State.goto, Pc.held]⟩
  | deregister v =>
    simp only [beginCall] at hstep
    split at hstep <;> cases hstep
    refine Or.inl ⟨rfl, rfl, ?_⟩
    simp only [State.goIf, State.goto, update_self]
    split <;> rfl
  | enter v =>
    simp only [beginCall] at hstep
    split at hstep
    · split at hstep <;> cases hstep
      · exact Or.inl ⟨rfl, rfl, by simp [State.goto, Pc.held]⟩
      · exact Or.inl ⟨rfl, rfl, by simp [hidle, Pc.held]⟩
    · cases hstep
  | exit v =>
    simp only [beginCall] at hstep
    split at hstep
    · cases hstep
    · split at hstep
      · cases hstep
        exact Or.inl ⟨rfl, rfl, by simp [State.goto, Pc.held]⟩
      · split at hstep <;> cases hstep
        · exact Or.inl ⟨rfl, rfl, by simp [State.goto, Pc.held]⟩
        · exact Or.inl ⟨rfl, rfl, by simp [hidle, Pc.held]⟩
  | retire v node dest =>
    simp only [beginCall] at hstep
    split at hstep <;> cases hstep
    rename_i hfree
    push Not at hfree
    right
    refine ⟨node, dest, ?_, ?_, rfl, rfl⟩
    · simpa using hfree.2
    · simp [State.goto]
  | recycle v | sync v =>
    simp only [beginCall, Option.some.injEq] at hstep
    subst hstep
    exact Or.inl ⟨rfl, rfl, by simp [State.goto, Pc.held]⟩
  | next v => simp [beginCall] at hstep

theorem step_held_others (hstep : step s a = some s') (place : Tid ⊕ Nat)
    (hplace : place ≠ .inl a.thread)
    (hlist : ∀ i, place = .inr i → s'.retiredLst i = s.retiredLst i) :
    content s' place = content s place := by
  cases place with
  | inl u =>
    have hu : u ≠ a.thread := by
      intro hu
      exact hplace (by rw [hu])
    simp only [content, (step_sameThread hu hstep).pc]
  | inr i => exact hlist i rfl

theorem Moves.placesInv (moves : Moves s s' a.thread) (h : PlacesInv s)
    (hstep : step s a = some s') : PlacesInv s' := by
  have htransfer (idx : Nat) (hretired : s'.retired = s.retired)
      (hlist : ∀ i, i ≠ idx → s'.retiredLst i = s.retiredLst i)
      (hperm : (content s' (.inl a.thread) ++ content s' (.inr idx)).Perm
        (content s (.inl a.thread) ++ content s (.inr idx))) : PlacesInv s' := by
    have hothers (place : Tid ⊕ Nat) (h1 : place ≠ .inl a.thread) (h2 : place ≠ .inr idx) :
        content s' place = content s place := by
      apply step_held_others hstep place h1
      rintro i rfl
      exact hlist i (by simpa using h2)
    constructor
    · exact h.apart.transfer (by simp) hothers hperm
    · intro place n hn
      obtain ⟨place', hn'⟩ := mem_of_transfer hothers hperm hn
      rw [hretired]
      exact h.retired place' n hn'
  cases moves with
  | none hlist hretired hheld =>
    apply htransfer 0 hretired
    · intro i _
      rw [hlist]
    · simp only [content, hheld, hlist]
      exact List.Perm.refl _
  | link node idx cmp hpc hpc' hretired hlist =>
    apply htransfer idx hretired
    · intro i hi
      rw [hlist, update_of_ne hi]
    · simp [content, hpc, hpc', hlist, Pc.held]
  | detach epoch hpc hpc' hretired hlist =>
    apply htransfer (prevEpochIdx epoch) hretired
    · intro i hi
      rw [hlist, update_of_ne hi]
    · simp [content, hpc, hpc', hlist, Pc.held]
  | destroy node rest count hpc hpc' hretired hlist =>
    have hold : content s (.inl a.thread) = node :: rest := by simp [content, hpc, Pc.held]
    have hnew : content s' (.inl a.thread) = rest := by simp [content, hpc', Pc.held]
    have hothers (place : Tid ⊕ Nat) (hplace : place ≠ .inl a.thread) :
        content s' place = content s place := by
      apply step_held_others hstep place hplace
      intro i _
      rw [hlist]
    have hapart : Apart (content s') := by
      apply h.apart.drop hothers
      rw [hold, hnew]
      exact List.sublist_cons_self node rest
    have hmem (place : Tid ⊕ Nat) (n : Node) (hn : n ∈ content s' place) :
        n ∈ content s place ∧ n ≠ node := by
      by_cases hplace : place = .inl a.thread
      · subst hplace
        have hnodup := h.apart.nodup (.inl a.thread)
        rw [hold] at hnodup ⊢
        rw [hnew] at hn
        refine ⟨List.mem_cons_of_mem _ hn, ?_⟩
        rintro rfl
        exact (List.nodup_cons.mp hnodup).1 hn
      · rw [hothers place hplace] at hn
        refine ⟨hn, ?_⟩
        rintro rfl
        have hhand : n ∈ content s (.inl a.thread) := by simp [hold]
        exact hplace (h.apart.unique _ _ n hn hhand)
    constructor
    · exact hapart
    · intro place n hn
      obtain ⟨hn, hne⟩ := hmem place n hn
      rw [hretired, update_of_ne hne]
      exact h.retired place n hn

/-- Every step keeps the nodes in at most one place. -/
theorem step_placesInv (he : EpochInv s) (h : PlacesInv s) (hstep : step s a = some s') :
    PlacesInv s' := by
  rcases step_cases hstep with ⟨t, rfl, hnext⟩ | ⟨hidle, hbegin⟩
  · exact (nextStep_moves he hnext).placesInv h hstep
  · rcases beginCall_moves hidle hbegin with
      ⟨hlist, hretired, hheld⟩ | ⟨node, dest, hfree, hpc', hlist, hretired⟩
    · have hmoves : Moves s s' a.thread := .none hlist hretired (by rw [hheld, hidle]; rfl)
      exact hmoves.placesInv h hstep
    · have hfresh (place : Tid ⊕ Nat) : node ∉ content s place := by
        intro hn
        rw [h.retired place node hn] at hfree
        cases hfree
      have hold : content s (.inl a.thread) = [] := by simp [content, hidle, Pc.held]
      have hnew : content s' (.inl a.thread) = [node] := by simp [content, hpc', Pc.held]
      have hothers (place : Tid ⊕ Nat) (hplace : place ≠ .inl a.thread) :
          content s' place = content s place := by
        apply step_held_others hstep place hplace
        intro i _
        rw [hlist]
      constructor
      · apply h.apart.take hothers _ hfresh
        rw [hold, hnew]
      · intro place n hn
        rw [hretired]
        by_cases hne : n = node
        · rw [hne, update_self]
        · rw [update_of_ne hne]
          by_cases hplace : place = .inl a.thread
          · subst hplace
            simp [hnew, hne] at hn
          · rw [hothers place hplace] at hn
            exact h.retired place n hn

theorem nextStep_batchGuard {r t : Tid} {n : Node} (h : EpochInv s) (hin : Inside t s)
    (hstep : nextStep s r = some s') (hguard : n ∈ (s.pc r).held → BatchGuard s t (s.pc r))
    (hdetach : ∀ epoch, s.pc r = .recycleDetach epoch →
      n ∈ s.retiredLst (prevEpochIdx epoch) → s.epochLocal t < epoch) (hn : n ∈ (s'.pc r).held) :
    BatchGuard s t (s'.pc r) := by
  have hzero : s.epochLocal t ≠ 0 := by
    intro hz
    have := (h.thread t).zero.mp hz
    unfold Inside at hin
    omega
  -- the node was in hand before, unless this step detached it
  have hbefore (hno : ∀ epoch, s.pc r ≠ .recycleDetach epoch) : n ∈ (s.pc r).held := by
    cases nextStep_moves h hstep with
    | none hlist hretired hheld => rwa [hheld] at hn
    | link node idx cmp hpc hpc' => simp [hpc', Pc.held] at hn
    | detach epoch hpc => exact absurd hpc (hno epoch)
    | destroy node rest count hpc hpc' =>
      rw [hpc'] at hn
      rw [hpc]
      exact List.mem_cons_of_mem _ hn
  by_cases hdet : ∃ epoch, s.pc r = .recycleDetach epoch
  · obtain ⟨epoch, hpc⟩ := hdet
    simp only [nextStep, hpc, Option.some.injEq] at hstep
    subst hstep
    simp only [State.goto, update_self] at hn ⊢
    exact hdetach epoch hpc hn
  · push Not at hdet
    have hheld := hbefore hdet
    have hguard := hguard hheld
    unfold nextStep at hstep
    cases hpc : s.pc r with
    | retireRead node dest | retireListRead node dest idx =>
      simp only [hpc, Option.some.injEq] at hstep
      subst hstep
      simp [State.goto, BatchGuard]
    | retireCas node idx cmp =>
      simp only [hpc] at hstep
      split at hstep <;> cases hstep
      · simp [State.goto, Pc.held] at hn
      · simp [State.goto, BatchGuard]
    | epochsLock epoch caller =>
      cases caller with
      | recycle head =>
        simp only [hpc] at hguard hstep
        split at hstep <;> cases hstep
        simp only [State.goto, update_self, BatchGuard]
        exact ⟨(h.thread t).member (Or.inl hin), hguard⟩
      | sync targetEpoch i => simp [hpc, Pc.held] at hheld
    | epochsRead epoch rest minEpoch caller =>
      cases caller with
      | recycle head =>
        simp only [hpc] at hguard
        obtain ⟨hmem, hbehind⟩ := hguard
        cases rest with
        | nil => simp at hmem
        | cons thrd rest =>
          -- the walk cannot pass `t` itself
          have hnext (hthrd : t ≠ thrd) : t ∈ rest := by
            simpa [hthrd] using hmem
          simp only [hpc] at hstep
          split at hstep
          · rename_i hleft
            cases hstep
            simp only [State.goto, update_self, BatchGuard]
            refine ⟨hnext ?_, hbehind⟩
            rintro rfl
            exact hzero hleft
          · split at hstep <;> cases hstep
            · rename_i hseen
              simp only [State.goto, update_self, BatchGuard]
              refine ⟨hnext ?_, hbehind⟩
              rintro rfl
              omega
            · rw [hpc]
              exact ⟨hmem, hbehind⟩
      | sync targetEpoch i => simp [hpc, Pc.held] at hheld
    | epochsUnlock epoch minEpoch caller | advance epoch caller =>
      cases caller with
      | recycle head => simp [hpc, BatchGuard] at hguard
      | sync targetEpoch i => simp [hpc, Pc.held] at hheld
    | recycleDestroy rest count => simp [hpc, BatchGuard] at hguard
    | _ => simp [hpc, Pc.held] at hheld

/-- The epoch of a node is written by the first step of its retirement only,
and the global epoch is only ever counted up. -/
theorem nextStep_epochOf {t : Tid} (hstep : nextStep s t = some s') :
    (s'.epochOf = s.epochOf ∧
      (s'.epochGlobal = s.epochGlobal ∨ s'.epochGlobal = wadd 64 s.epochGlobal 1)) ∨
    ∃ node dest, s.pc t = .retireRead node dest ∧
      s'.pc t = .retireListRead node dest (epochIdx s.epochGlobal) ∧
      s'.epochOf = update s.epochOf node s.epochGlobal ∧
      s'.epochGlobal = s.epochGlobal := by
  cases nextStep_writes hstep with
  | stamp node dest hpc hs =>
    subst hs
    exact Or.inr ⟨node, dest, hpc, update_self .., rfl, rfl⟩
  | advance pc hs =>
    subst hs
    exact Or.inl ⟨rfl, Or.inr rfl⟩
  | stay hs | quiet pc hs | threads hkeep pc hs | enter e hpc hs | exit hpc hs =>
    subst hs
    exact Or.inl ⟨rfl, Or.inl rfl⟩

theorem beginCall_epochOf {t : Tid} (hstep : beginCall s t a = some s') :
    s'.epochOf = s.epochOf ∧ s'.epochGlobal = s.epochGlobal := by
  cases a with
  | register v | deregister v | retire v node dest =>
    simp only [beginCall] at hstep
    split at hstep <;> cases hstep
    exact ⟨rfl, rfl⟩
  | enter v =>
    simp only [beginCall] at hstep
    split at hstep
    · split at hstep <;> cases hstep
      · exact ⟨rfl, rfl⟩
      · exact ⟨rfl, rfl⟩
    · cases hstep
  | exit v =>
    simp only [beginCall] at hstep
    split at hstep
    · cases hstep
    · split at hstep
      · cases hstep
        exact ⟨rfl, rfl⟩
      · split at hstep <;> cases hstep
        · exact ⟨rfl, rfl⟩
        · exact ⟨rfl, rfl⟩
  | recycle v | sync v =>
    simp only [beginCall, Option.some.injEq] at hstep
    subst hstep
    exact ⟨rfl, rfl⟩
  | next v => simp [beginCall] at hstep

/-- Thread `t` is inside a critical section when the node is retired, that is
when `vebr_retire` reads the epoch for it. -/
def Retires (n : Node) (t : Tid) (s : State Tid Node Dest) (a : Act Tid Node Dest)
    (_ : State Tid Node Dest) : Prop :=
  Inside t s ∧ ∃ u dest, a = .next u ∧ s.pc u = .retireRead n dest

/-- While a thread stays inside that was inside when the node was retired, the
node is still retired and nobody is about to destroy it. -/
structure NodeGuard (s : State Tid Node Dest) (n : Node) (t : Tid) : Prop where
  retired : s.retired n = true
  epoch : s.entry t ≤ s.epochOf n
  batch : ∀ r, n ∈ (s.pc r).held → BatchGuard s t (s.pc r)

/-- The step that retires the node sets the guard up. -/
theorem retires_nodeGuard {n : Node} {t : Tid} (he : EpochInv s) (h : PlacesInv s)
    (hstep : step s a = some s') (hin' : Inside t s') (hretires : Retires n t s a s') :
    NodeGuard s' n t := by
  obtain ⟨hin, u, dest, rfl, hpc⟩ := hretires
  obtain ⟨hentry, _⟩ := step_inside he hstep hin hin'
  have hhand : n ∈ content s (.inl u) := by simp [content, hpc, Pc.held]
  have hbound := (he.thread t).bound hin
  have hnext : nextStep s u = some s' := hstep
  simp only [nextStep, hpc, Option.some.injEq] at hnext
  constructor
  · rw [← hnext]
    exact h.retired _ n hhand
  · rw [hentry, ← hnext]
    simp only [State.goto, update_self]
    exact hbound.2.1
  · intro r hn
    by_cases hr : r = u
    · subst hr
      rw [← hnext]
      simp [State.goto, BatchGuard]
    · rw [(step_sameThread (a := .next u) hr hstep).pc] at hn
      have := h.apart.unique (.inl r) (.inl u) n hn hhand
      exact absurd (Sum.inl.inj this) hr

theorem step_nodeGuard {n : Node} {t : Tid} (he : EpochInv s) (hstep : step s a = some s')
    (hok : DetachOk s a) (hin : Inside t s) (hin' : Inside t s') (h : NodeGuard s n t) :
    NodeGuard s' n t := by
  obtain ⟨hentry, hlocal⟩ := step_inside he hstep hin hin'
  have hbound := (he.thread t).bound hin
  have hothers (r : Tid) (hr : r ≠ a.thread) (hn : n ∈ (s'.pc r).held) :
      BatchGuard s' t (s'.pc r) := by
    rw [(step_sameThread hr hstep).pc] at hn ⊢
    exact (h.batch r hn).frame hlocal
  rcases step_cases hstep with ⟨u, rfl, hnext⟩ | ⟨hidle, hbegin⟩
  · constructor
    · cases nextStep_moves he hnext with
      | none hlist hretired | link node idx cmp hpc hpc' hretired
      | detach epoch hpc hpc' hretired =>
        rw [hretired]
        exact h.retired
      | destroy node rest count hpc hpc' hretired =>
        rw [hretired, update_of_ne]
        · exact h.retired
        · rintro rfl
          have hguard := h.batch u (by simp [hpc, Pc.held])
          simp [hpc, BatchGuard] at hguard
    · rw [hentry]
      rcases nextStep_epochOf hnext with ⟨hsame, _⟩ | ⟨node, dest, _, _, hset, _⟩
      · rw [hsame]
        exact h.epoch
      · rw [hset]
        by_cases hn : n = node
        · rw [hn, update_self]
          exact hbound.2.1
        · rw [update_of_ne hn]
          exact h.epoch
    · intro r hn
      by_cases hr : r = u
      · subst hr
        refine BatchGuard.frame ?_ hlocal
        apply nextStep_batchGuard he hin hnext (h.batch r) _ hn
        intro epoch hpc hlisted
        have hread : epoch ∈ (s.pc (Act.next r : Act Tid Node Dest).thread).detaching := by
          simp [Act.thread, hpc, Pc.detaching]
        have := h.epoch
        rcases hok epoch hread n hlisted with hbelow | hold
        · omega
        · omega
      · exact hothers r hr hn
  · have hepoch := (beginCall_epochOf hbegin).1
    rcases beginCall_moves hidle hbegin with
      ⟨_, hretired, hheld⟩ | ⟨node, dest, hfree, hpc', _, hretired⟩
    · constructor
      · rw [hretired]
        exact h.retired
      · rw [hentry, hepoch]
        exact h.epoch
      · intro r hn
        by_cases hr : r = a.thread
        · rw [hr, hheld] at hn
          cases hn
        · exact hothers r hr hn
    · have hne : n ≠ node := by
        rintro rfl
        rw [h.retired] at hfree
        cases hfree
      constructor
      · rw [hretired, update_of_ne hne]
        exact h.retired
      · rw [hentry, hepoch]
        exact h.epoch
      · intro r hn
        by_cases hr : r = a.thread
        · rw [hr, hpc'] at hn
          simp [Pc.held, hne] at hn
        · exact hothers r hr hn

variable {past : List (State Tid Node Dest × Act Tid Node Dest)}

theorem run_placesInv (run : (machine Tid Node Dest).Run past s) (hfit : AllSteps NoWrap past) :
    PlacesInv s := by
  induction run with
  | start h =>
    rw [h]
    exact vebrInit_placesInv
  | step prior hstep ih =>
    exact step_placesInv (run_epochInv prior hfit.tail) (ih hfit.tail) hstep

/-- The guard holds as long as the reader stays inside. -/
theorem run_nodeGuard (run : (machine Tid Node Dest).Run past s) (hfit : AllSteps NoWrap past)
    (hok : AllSteps DetachOk past) (n : Node) (t : Tid)
    (took : Took (Inside t) (Retires n t) past s) : NodeGuard s n t := by
  induction run with
  | start h => cases took
  | step prior hstep ih =>
    have he := run_epochInv prior hfit.tail
    have h := run_placesInv prior hfit.tail
    cases took with
    | now hin' hretires => exact retires_nodeGuard he h hstep hin' hretires
    | before hin' took =>
      exact step_nodeGuard he hstep hok.head took.busy hin'
        (ih hfit.tail hok.tail took)

/-- Reclamation safety, for any threads and any interleaving in which no
counter wraps and every recycler takes its list in time: no thread that was
inside a critical section when a node was retired is still inside it when the
destructor of the node runs. -/
theorem recycle_safe {past : List (State Tid Node Dest × Act Tid Node Dest)}
    {s : State Tid Node Dest} (run : (machine Tid Node Dest).Run past s)
    (hfit : AllSteps NoWrap past) (hok : AllSteps DetachOk past)
    {r t : Tid} {n : Node} {rest : List Node} {count : Nat}
    (hdestroy : s.pc r = .recycleDestroy (n :: rest) count) :
    ¬ Took (Inside t) (Retires n t) past s := by
  intro took
  have h := run_nodeGuard run hfit hok n t took
  have hguard := h.batch r (by simp [hdestroy, Pc.held])
  simp [hdestroy, BatchGuard] at hguard

theorem nextStep_idxOk {t : Tid} (h : IdxOk s (s.pc t)) (hstep : nextStep s t = some s') :
    IdxOk s' (s'.pc t) := by
  unfold nextStep at hstep
  cases hpc : s.pc t with
  | idle | assertFailed message => simp [hpc] at hstep
  | retireRead node dest =>
    simp only [hpc, Option.some.injEq] at hstep
    subst hstep
    simp [State.goto, IdxOk]
  | retireListRead node dest idx =>
    simp only [hpc, Option.some.injEq] at hstep h
    subst hstep
    simp only [State.goto, update_self]
    exact h
  | retireCas node idx cmp =>
    simp only [hpc] at hstep h
    split at hstep <;> cases hstep
    · simp [State.goto, IdxOk]
    · simp only [State.goto, update_self]
      exact h
  | registerLock | deregisterLock | epochsLock epoch caller =>
    simp only [hpc] at hstep
    split at hstep <;> cases hstep
    simp [State.goto, IdxOk]
  | syncRead =>
    simp only [hpc, Option.some.injEq] at hstep
    subst hstep
    exact State.syncLoop_idxOk ..
  | epochsRead epoch rest minEpoch caller =>
    cases rest with
    | nil =>
      simp only [hpc, Option.some.injEq] at hstep
      subst hstep
      simp [State.goto, IdxOk]
    | cons thrd rest =>
      simp only [hpc] at hstep
      split at hstep
      · cases hstep
        simp [State.goto, IdxOk]
      · split at hstep <;> cases hstep
        · simp [State.goto, IdxOk]
        · rw [hpc]
          trivial
  | epochsUnlock epoch minEpoch caller =>
    simp only [hpc, Option.some.injEq] at hstep
    subst hstep
    generalize (if minEpoch = uint64Max then 0 else minEpoch) = lclEpoch
    cases caller with
    | recycle head =>
      simp only [State.epochsReturn, State.goIf, State.goto, update_self]
      split <;> trivial
    | sync targetEpoch i =>
      simp only [State.epochsReturn]
      split <;> simp [State.goto, IdxOk]
  | advance epoch caller =>
    have hgo (s₁ : State Tid Node Dest) (retEpoch : Nat) :
        IdxOk (s₁.advanced t epoch retEpoch caller)
          ((s₁.advanced t epoch retEpoch caller).pc t) := by
      cases caller with
      | recycle head =>
        simp only [State.advanced, State.goIf, State.goto, update_self]
        split <;> trivial
      | sync targetEpoch i => exact State.syncLoop_idxOk ..
    simp only [hpc] at hstep
    split at hstep <;> cases hstep
    · exact hgo _ _
    · exact hgo _ _
  | recycleDestroy rest count =>
    cases rest with
    | nil | cons node rest =>
      simp only [hpc, Option.some.injEq] at hstep
      subst hstep
      simp [State.goto, IdxOk]
  | _ =>
    simp only [hpc, Option.some.injEq] at hstep
    subst hstep
    simp [State.goto, IdxOk]

theorem step_listedInv (he : EpochInv s) (hp : PlacesInv s) (hfit : NoWrap s a) (h : ListedInv s)
    (hstep : step s a = some s') : ListedInv s' := by
  have hothers (hepoch : ∀ place, place ≠ .inl a.thread → ∀ n ∈ content s place,
        s'.epochOf n = s.epochOf n)
      (hglobal : s.epochGlobal ≤ s'.epochGlobal) (u : Tid) (hu : u ≠ a.thread) :
      IdxOk s' (s'.pc u) := by
    rw [(step_sameThread hu hstep).pc]
    apply (h.hand u).frame _ hglobal
    intro n hn
    exact hepoch (.inl u) (by simpa using hu) n hn
  rcases step_cases hstep with ⟨t, rfl, hnext⟩ | ⟨hidle, hbegin⟩
  · have hglobal : s.epochGlobal ≤ s'.epochGlobal := by
      have hwrap : wadd 64 s.epochGlobal 1 = s.epochGlobal + 1 :=
        Nat.mod_eq_of_lt (by have := hfit.1; omega)
      rcases nextStep_epochOf hnext with ⟨_, hsame | hup⟩ | ⟨_, _, _, _, _, hsame⟩
      · exact hsame.ge
      · omega
      · exact hsame.ge
    have hepoch (place : Tid ⊕ Nat) (hplace : place ≠ .inl t) (n : Node)
        (hn : n ∈ content s place) : s'.epochOf n = s.epochOf n := by
      rcases nextStep_epochOf hnext with ⟨hsame, _⟩ | ⟨node, dest, hpc, _, hset, _⟩
      · rw [hsame]
      · rw [hset, update_of_ne]
        rintro rfl
        have hhand : n ∈ content s (.inl t) := by simp [content, hpc, Pc.held]
        exact hplace (hp.apart.unique _ _ n hn hhand)
    have hold (i : Nat) (n : Node) (hn : n ∈ s.retiredLst i) :
        i = epochIdx (s'.epochOf n) ∧ s'.epochOf n ≤ s'.epochGlobal := by
      rw [hepoch (.inr i) (by simp) n hn]
      obtain ⟨hidx, hle⟩ := h.listed i n hn
      exact ⟨hidx, hle.trans hglobal⟩
    constructor
    · intro i n hn
      cases nextStep_moves he hnext with
      | none hlist | destroy node rest count hpc hpc' hretired hlist =>
        rw [hlist] at hn
        exact hold i n hn
      | link node idx cmp hpc hpc' hretired hlist =>
        have hsame : s'.epochOf = s.epochOf := by
          rcases nextStep_epochOf hnext with ⟨hsame, _⟩ | ⟨_, _, hread, _⟩
          · exact hsame
          · rw [hpc] at hread
            cases hread
        rw [hlist] at hn
        by_cases hi : i = idx
        · subst hi
          rw [update_self] at hn
          rcases List.mem_cons.mp hn with rfl | hn
          · have hidx := h.hand t
            rw [hpc] at hidx
            rw [hsame]
            exact ⟨hidx.1, hidx.2.trans hglobal⟩
          · exact hold i n hn
        · rw [update_of_ne hi] at hn
          exact hold i n hn
      | detach epoch hpc hpc' hretired hlist =>
        rw [hlist] at hn
        by_cases hi : i = prevEpochIdx epoch
        · rw [hi, update_self] at hn
          cases hn
        · rw [update_of_ne hi] at hn
          exact hold i n hn
    · intro u
      by_cases hu : u = t
      · subst hu
        exact nextStep_idxOk (h.hand u) hnext
      · exact hothers hepoch hglobal u hu
  · obtain ⟨hepoch, hglobal⟩ := beginCall_epochOf hbegin
    have hlist : s'.retiredLst = s.retiredLst ∧ IdxOk s' (s'.pc a.thread) := by
      rcases beginCall_moves hidle hbegin with ⟨hlist, _, hheld⟩ | ⟨_, _, _, hpc', hlist, _⟩
      · refine ⟨hlist, ?_⟩
        cases hpc : s'.pc a.thread <;> simp [hpc, Pc.held] at hheld <;> trivial
      · rw [hpc']
        exact ⟨hlist, trivial⟩
    constructor
    · rw [hlist.1, hepoch, hglobal]
      exact h.listed
    · intro u
      by_cases hu : u = a.thread
      · rw [hu]
        exact hlist.2
      · apply hothers _ hglobal.ge u hu
        intro place _ n _
        rw [hepoch]

theorem run_listedInv (run : (machine Tid Node Dest).Run past s) (hfit : AllSteps NoWrap past) :
    ListedInv s := by
  induction run with
  | start h =>
    rw [h]
    exact ⟨by simp [vebrInit], fun _ => trivial⟩
  | step prior hstep ih =>
    exact step_listedInv (run_epochInv prior hfit.tail) (run_placesInv prior hfit.tail)
      hfit.head (ih hfit.tail) hstep

/-- The condition on the detached nodes follows from one on the epochs that the
code itself has at hand. -/
theorem allSteps_detachOk (run : (machine Tid Node Dest).Run past s) (hfit : AllSteps NoWrap past)
    (hdate : AllSteps UpToDate past) : AllSteps DetachOk past := by
  induction run with
  | start h =>
    intro p hp
    cases hp
  | step prior hstep ih =>
    intro p hp
    rcases List.mem_cons.mp hp with rfl | hp
    · exact hdate.head.detachOk (run_epochInv prior hfit.tail)
        (run_listedInv prior hfit.tail) hfit.head
    · exact ih hfit.tail hdate.tail p hp

/-- A thread enters, retires a node and leaves; the second of two recycle calls
has the node in hand for its destructor. -/
def retireThenRecycle : List (Act Bool Unit Unit) :=
  List.flatten [
    registerThenEnter,
    .retire false () () :: List.replicate 3 (.next false),
    [.exit false, .next false],
    .recycle true :: List.replicate 9 (.next true),
    .recycle true :: List.replicate 7 (.next true)]

theorem recycle_safe_after_exit :
    ∃ past s, (machine Bool Unit Unit).Run past s ∧ s.pc true = .recycleDestroy [()] 0 ∧
      ¬ Took (Inside false) (Retires () false) past s := by
  let M := machine Bool Unit Unit
  have hend : (M.exec vebrInit retireThenRecycle).map (fun s => s.pc true) =
      some (.recycleDestroy [()] 0) := by
    decide +kernel
  have hfit : ∀ p ∈ M.pastOf vebrInit [] retireThenRecycle,
      p.1.epochGlobal + 2 < 2 ^ 64 ∧ ∀ t, p.1.enterCount t + 1 < 2 ^ 32 := by
    decide +kernel
  have hok : ∀ p ∈ M.pastOf vebrInit [] retireThenRecycle, DetachOk p.1 p.2 := by
    decide +kernel
  obtain ⟨s, hexec, hdestroy⟩ := Option.map_eq_some_iff.mp hend
  have run : M.Run (M.pastOf vebrInit [] retireThenRecycle) s :=
    (Machine.Run.start rfl).exec hexec
  exact ⟨_, s, run, hdestroy, recycle_safe run hfit hok hdestroy⟩

/-- Thread 0 reads epoch 1 and is delayed; thread 1 recycles twice, up to epoch
3; thread 2 enters; thread 3 enters and retires a node into list 0. -/
def delayedRecycler : List (Act Nat Unit Unit) :=
  List.flatten [
    [.recycle 0, .next 0],
    .recycle 1 :: List.replicate 8 (.next 1),
    .recycle 1 :: List.replicate 8 (.next 1),
    [.register 2, .next 2, .next 2, .next 2, .enter 2, .next 2, .next 2],
    [.register 3, .next 3, .next 3, .next 3, .enter 3, .next 3, .next 3],
    [.retire 3 () ()]]

/-- The node is linked; thread 0 detaches list 0, passes thread 2 because 3 is
not below 1, and loses its compare-and-swap. -/
def lateDetach : List (Act Nat Unit Unit) :=
  List.flatten [List.replicate 2 (.next 3), List.replicate 7 (.next 0)]

/-- Thread 0 runs the destructor of the node while thread 2 is still inside the
critical section it entered before the node was retired. -/
theorem recycle_destroys_under_reader :
    ∃ past s, (machine Nat Unit Unit).Run past s ∧
      s.pc 0 = .recycleDestroy [()] 0 ∧ Took (Inside 2) (Retires () 2) past s := by
  let M := machine Nat Unit Unit
  have hbefore : (M.exec vebrInit delayedRecycler).map (fun s => (s.pc 3, s.depth 2)) =
      some (.retireRead () (), 1) := by
    decide +kernel
  have hafter : (M.exec vebrInit (delayedRecycler ++ .next 3 :: lateDetach)).map
      (fun s => s.pc 0) = some (.recycleDestroy [()] 0) := by
    decide +kernel
  obtain ⟨s₁, hexec₁, hs₁⟩ := Option.map_eq_some_iff.mp hbefore
  obtain ⟨s, hexec, hdestroy⟩ := Option.map_eq_some_iff.mp hafter
  obtain ⟨hpc, hdepth⟩ := Prod.mk.inj hs₁
  have hin : Inside 2 s₁ := by
    unfold Inside
    omega
  rw [Machine.exec_append, hexec₁] at hexec
  simp only [Option.bind_some, Machine.exec, Option.bind_eq_some_iff] at hexec
  obtain ⟨s₂, hstep, hrest⟩ := hexec
  -- none of the remaining steps is one of the reader
  have hkeep (a : Act Nat Unit Unit) (ha : (2 : Nat) ≠ a.thread)
      (s s' : State Nat Unit Unit) (hin : Inside 2 s) (hstep : step s a = some s') :
      Inside 2 s' := by
    unfold Inside at hin ⊢
    rw [(step_sameThread ha hstep).depth]
    exact hin
  obtain ⟨past, run₁⟩ : ∃ past, M.Run past s₁ := ⟨_, (Machine.Run.start rfl).exec hexec₁⟩
  have took : Took (Inside 2) (Retires () 2) ((s₁, .next 3) :: past) s₂ :=
    .now (hkeep (.next 3) (by decide) _ _ hin hstep) ⟨hin, 3, (), rfl, hpc⟩
  refine ⟨_, s, (run₁.step hstep).exec hrest, hdestroy, took.exec hrest ?_⟩
  intro s a s' ha hin hstep
  have hother : ∀ a ∈ lateDetach, (2 : Nat) ≠ a.thread := by decide
  exact hkeep a (hother a ha) s s' hin hstep

end Libvsync.Smr.Ebr
