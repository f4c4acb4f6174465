import Libvsync.Spinlock.Hemlock

/-!
The Hemlock over whole runs. The word of a thread holds a grant only while the thread waits
for it to be taken; then it does not wait for any lock and arrives nowhere. So among those
who wait at the word only the next waiter of the lock in it goes on, and the writes of
acquire and tryacquire find the word empty.
-/

namespace Libvsync.Spinlock.Hemlock

open Libvsync.Core Function

variable {Tid Lock : Type} [DecidableEq Tid] [DecidableEq Lock] {ctr : Bool}
  {s s' : State Tid Lock} {t u p : Tid} {l l' : Lock} {pc : Pc Tid Lock} {i : Nat}

section

omit [DecidableEq Lock]

theorem goto_self (s : State Tid Lock) (t : Tid) (pc : Pc Tid Lock) : (s.goto t pc).pc t = pc :=
  update_self ..

theorem goto_other (s : State Tid Lock) (pc : Pc Tid Lock) (hu : u ≠ t) :
    (s.goto t pc).pc u = s.pc u := update_of_ne hu ..

end

theorem setHeld_self (s : State Tid Lock) (t : Tid) (l : Lock) (b : Bool) :
    (s.setHeld t l b).held t l = b := by
  simp only [State.setHeld, update_self]

theorem setHeld_other (s : State Tid Lock) (b : Bool) (hne : ¬ (u = t ∧ l' = l)) :
    (s.setHeld t l b).held u l' = s.held u l' := by
  by_cases hut : u = t
  · subst hut
    have hl : l' ≠ l := fun heq => hne ⟨rfl, heq⟩
    simp only [State.setHeld, update_self, update_of_ne hl]
  · simp only [State.setHeld, update_of_ne hut]

section

omit [DecidableEq Tid] [DecidableEq Lock]

/-- A thread with a grant in its node is waiting for it to be taken. -/
theorem Inv.passed (h : Inv s) (hused : Used s p) (hgrant : s.grant p = some l) :
    ∃ i, s.pc p = .relAwait l i ∧ Passed s p l i := by
  have hok := h.pcs p
  cases hat : s.pc p <;> rw [hat] at hok
  case relAwait l' i =>
    obtain ⟨rfl, hpassed⟩ := hok.2 l hgrant
    exact ⟨i, rfl, hpassed⟩
  case idle | acqClear | tryClear => exact absurd (hgrant.symm.trans (hok hused)) (by simp)
  case acqXchg | tryCas => exact absurd (hgrant.symm.trans hok) (by simp)
  all_goals exact absurd (hgrant.symm.trans hok.1) (by simp)

/-- The one who finds its lock in the node in front of it is the next one. -/
theorem Inv.next (h : Inv s) (hwaits : Waits s t l p i) (hgrant : s.grant p = some l) :
    Passed s p l (i - 1) ∧ i = s.released l := by
  have hused : Used s p := ⟨l, List.mem_of_getElem? hwaits.front⟩
  obtain ⟨j, hat, hpassed⟩ := h.passed hused hgrant
  have hout := hwaits.out
  have hpos := hwaits.pos
  have hgranted := hpassed.out
  have hlast := hpassed.last
  have hi : i = s.released l := by
    by_contra hne
    obtain ⟨pred, hpred⟩ := (h.locks l).waits (i - 1) p (by omega) hwaits.front
    rw [hat] at hpred
    cases hpred
  have hj : i - 1 = j := by omega
  rw [hj]
  exact ⟨hpassed, hi⟩

theorem LockInv.congr (h : LockInv s l) (htail : s'.tail l = s.tail l)
    (harrived : s'.arrived l = s.arrived l) (hgranted : s'.granted l = s.granted l)
    (hreleased : s'.released l = s.released l) (hheld : ∀ t, s'.held t l = s.held t l)
    (hwaits : ∀ t pred i, (s.pc t).waits = some (l, pred, i) →
      (s'.pc t).waits = some (l, pred, i)) : LockInv s' l := by
  refine ⟨?_, ?_, fun i t hi ht => ?_⟩
  · rw [htail, hreleased, harrived]
    exact h.tail
  · rw [harrived, hgranted, hreleased, funext hheld]
    exact h.order
  · rw [hgranted] at hi
    rw [harrived] at ht
    obtain ⟨pred, hpred⟩ := h.waits i t hi ht
    exact ⟨pred, hwaits t pred i hpred⟩

/-- A step keeps what thread `u` relies on. -/
structure Keeps (s s' : State Tid Lock) (u : Tid) : Prop where
  used : Used s' u → Used s u
  arrived : ∀ l, s.arrived l <+: s'.arrived l
  granted : ∀ l i, (s.granted l).length ≤ i → (s.arrived l)[i]? = some u →
    (s'.granted l).length ≤ i
  held : ∀ l, s'.held u l = s.held u l
  released : ∀ l, s.held u l = true → s'.released l = s.released l
  grant : ∀ l, s'.grant u = some l → s.grant u = some l
  passed : ∀ l i, Passed s u l i → s'.grant u = some l →
    s'.released l = s.released l ∧ s'.granted l = s.granted l
  front : ∀ l pred i, Waits s u l pred i → s.grant pred = some l → s'.grant pred = some l

theorem Keeps.none (keeps : Keeps s s' u) (h : s.grant u = none) : s'.grant u = none := by
  cases hgrant : s'.grant u with
  | none => rfl
  | some l => exact absurd (h.symm.trans (keeps.grant l hgrant)) (by simp)

end

section

omit [DecidableEq Lock] [DecidableEq Tid]

theorem Waits.keep (h : Waits s u l p i) (keeps : Keeps s s' u) : Waits s' u l p i :=
  ⟨getElem?_mono (keeps.arrived l) h.mine, getElem?_mono (keeps.arrived l) h.front,
    h.pos, keeps.granted l i h.out h.mine⟩

theorem PcOk.keep (h : PcOk s u pc) (keeps : Keeps s s' u) : PcOk s' u pc := by
  cases pc with
  | idle | acqClear l | tryClear l => exact fun hused => keeps.none (h (keeps.used hused))
  | acqXchg l | tryCas l => exact keeps.none h
  | acqAwait l pred i => exact ⟨keeps.none h.1, h.2.keep keeps⟩
  | acqWrite l pred i =>
    obtain ⟨hnone, hwaits, hgrant⟩ := h
    exact ⟨keeps.none hnone, hwaits.keep keeps, keeps.front l pred i hwaits hgrant⟩
  | relRead l | relCas l => exact ⟨keeps.none h.1, (keeps.held l).trans h.2⟩
  | relGrant l =>
    obtain ⟨hnone, hheld, hlt⟩ := h
    refine ⟨keeps.none hnone, (keeps.held l).trans hheld, ?_⟩
    rw [keeps.released l hheld]
    exact hlt.trans_le (keeps.arrived l).length_le
  | relAwait l i =>
    obtain ⟨hused, hall⟩ := h
    refine ⟨hused.imp fun l hmem => (keeps.arrived l).subset hmem, fun l' hl' => ?_⟩
    obtain ⟨rfl, hpassed⟩ := hall l' (keeps.grant l' hl')
    obtain ⟨hreleased, hgranted⟩ := keeps.passed l' i hpassed hl'
    refine ⟨rfl, getElem?_mono (keeps.arrived l') hpassed.mine, ?_, ?_, ?_⟩
    · rw [hreleased]
      exact hpassed.last
    · rw [hreleased, hgranted]
      exact hpassed.out
    · rw [hreleased]
      exact hpassed.next.trans_le (keeps.arrived l').length_le

end

section

omit [DecidableEq Lock]

/-- A step of `t` after which it stands at `pc`. -/
theorem Inv.assemble (h : Inv s) (hlocks : ∀ l, LockInv s' l)
    (hpc : s'.pc = update s.pc t pc) (hok : PcOk s' t pc)
    (hkeeps : ∀ u, u ≠ t → Keeps s s' u) : Inv s' := by
  refine ⟨hlocks, fun u => ?_⟩
  rw [hpc]
  by_cases hut : u = t
  · rw [hut, update_self]
    exact hok
  · rw [update_of_ne hut]
    exact (h.pcs u).keep (hkeeps u hut)

/-- A thread moves on without changing anything else. -/
theorem Inv.goto (h : Inv s) (hwaits : pc.waits = (s.pc t).waits) (hok : PcOk (s.goto t pc) t pc) :
    Inv (s.goto t pc) := by
  refine h.assemble
    (fun l => (h.locks l).congr rfl rfl rfl rfl (fun _ => rfl) fun u pred i hu => ?_) rfl hok fun u
    _ => ⟨id, fun _ => List.prefix_rfl, fun _ _ hi _ => hi, fun _ => rfl,
      fun _ _ => rfl, fun _ => id, fun _ _ _ _ => ⟨rfl, rfl⟩, fun _ _ _ _ => id⟩
  by_cases hut : u = t
  · rw [hut, goto_self, hwaits, ← hut]
    exact hu
  · rw [goto_other _ _ hut]
    exact hu

/-- The waiters of a lock stand where they were when a thread moves that is not one of
them. -/
theorem waits_update (hpc : s'.pc = update s.pc t pc)
    (hout : ∀ pred i, (s.pc t).waits ≠ some (l, pred, i)) (u : Tid) (pred : Tid) (i : Nat)
    (hu : (s.pc u).waits = some (l, pred, i)) : (s'.pc u).waits = some (l, pred, i) := by
  have hut : u ≠ t := by
    rintro rfl
    exact hout pred i hu
  rw [hpc, update_of_ne hut]
  exact hu

theorem waits_quiet (hpc : s'.pc = update s.pc t pc) (hout : (s.pc t).waits = none)
    (u : Tid) (pred : Tid) (i : Nat) (hu : (s.pc u).waits = some (l, pred, i)) :
    (s'.pc u).waits = some (l, pred, i) := by
  refine waits_update hpc (fun _ _ => ?_) u pred i hu
  rw [hout]
  exact (Option.some_ne_none _).symm

/-- Acquire and tryacquire clear a node that has no grant. -/
theorem Inv.clear (h : Inv s) (hidle : Used s t → s.grant t = none)
    (hout : (s.pc t).waits = none) (hok : PcOk ((s.setGrant t none).goto t pc) t pc) :
    Inv ((s.setGrant t none).goto t pc) := by
  refine h.assemble (fun l => (h.locks l).congr rfl rfl rfl rfl (fun _ => rfl)
    (waits_quiet rfl hout)) rfl hok fun u hu => ?_
  have hgrant (v : Tid) (hv : v ≠ t) : ((s.setGrant t none).goto t pc).grant v = s.grant v :=
    update_of_ne hv ..
  refine ⟨id, fun _ => List.prefix_rfl, fun _ _ hi _ => hi, fun _ => rfl, fun _ _ => rfl,
    fun l hl => ?_, fun _ _ _ _ => ⟨rfl, rfl⟩, fun l pred i hwaits hpred => ?_⟩
  · rw [← hgrant u hu]
    exact hl
  · have hne : pred ≠ t := by
      rintro rfl
      rw [hidle ⟨l, List.mem_of_getElem? hwaits.front⟩] at hpred
      cases hpred
    rw [hgrant pred hne]
    exact hpred

end

section

omit [DecidableEq Tid] [DecidableEq Lock]

theorem LockInv.tail_none (h : LockInv s l) (htail : s.tail l = none) :
    s.released l = (s.arrived l).length := by
  have heq := h.tail
  rw [htail] at heq
  have hle := h.order.left_le
  by_contra hne
  rw [if_pos (by omega), eq_comm, List.getLast?_eq_none_iff] at heq
  rw [heq] at hle hne
  exact hne (Nat.le_zero.mp hle)

theorem LockInv.tail_some (h : LockInv s l) (htail : s.tail l = some p) :
    s.released l < (s.arrived l).length ∧
      (s.arrived l)[(s.arrived l).length - 1]? = some p := by
  have heq := h.tail
  rw [htail] at heq
  split at heq
  · rename_i hlt
    rw [← List.getLast?_eq_getElem?]
    exact ⟨hlt, heq.symm⟩
  · cases heq

end

section

omit [DecidableEq Tid]

theorem used_arrive (hu : u ≠ t) (hused : Used (s.arrive t l) u) : Used s u := by
  obtain ⟨l', hmem⟩ := hused
  refine ⟨l', ?_⟩
  have hmem : u ∈ update s.arrived l (s.arrived l ++ [t]) l' := hmem
  by_cases hl : l' = l
  · rw [hl, update_self, List.mem_append, List.mem_singleton] at hmem
    rw [hl]
    exact hmem.resolve_right hu
  · rwa [update_of_ne hl] at hmem

theorem arrived_grows (s : State Tid Lock) (t : Tid) (l l' : Lock) :
    s.arrived l' <+: (s.arrive t l).arrived l' := by
  change _ <+: update s.arrived l (s.arrived l ++ [t]) l'
  by_cases hl : l' = l
  · rw [hl, update_self]
    exact List.prefix_append ..
  · exact (update_of_ne hl ..).symm ▸ List.prefix_rfl

end

theorem Inv.arrive_enter (h : Inv s) (hgrant : s.grant t = none) (hout : (s.pc t).waits = none)
    (htail : s.tail l = none) : Inv ((s.arrive t l).enter t l) := by
  have hinv := h.locks l
  have hfree := hinv.tail_none htail
  have hlen : (s.granted l).length = s.released l := by
    have hlow := hinv.order.low
    have hhigh := hinv.order.fifo.length_le
    omega
  set s' := (s.arrive t l).enter t l with hs'
  have harrived : s'.arrived l = s.arrived l ++ [t] := update_self ..
  have hgranted : s'.granted l = s.granted l ++ [t] := update_self ..
  refine h.assemble (fun l' => ?_) rfl (fun _ => hgrant) fun u hu => ?_
  · by_cases hl : l' = l
    · subst hl
      refine ⟨?_, ?_, fun i u hi hu => ?_⟩
      · rw [harrived, if_pos (by rw [List.length_append, ← hfree]; exact Nat.lt_succ_self _),
          List.getLast?_concat]
        exact update_self ..
      · rw [harrived, hgranted]
        refine (hinv.order.arrive t).enter hlen ?_ (setHeld_self ..) fun u hu =>
          setHeld_other _ _ fun heq => hu heq.1
        rw [hfree, List.getElem?_concat_length]
      · rw [harrived] at hu
        rw [hgranted, List.length_append, hlen, hfree] at hi
        rw [List.getElem?_eq_none (by rw [List.length_append]; exact hi)] at hu
        cases hu
    · refine (h.locks l').congr (update_of_ne hl ..) (update_of_ne hl ..)
        (update_of_ne hl ..) rfl (fun u => setHeld_other _ _ fun heq => hl heq.2) ?_
      exact waits_quiet rfl hout
  · refine ⟨used_arrive hu, arrived_grows s t l, fun l' i hi hmine => ?_,
      fun l' => setHeld_other _ _ fun heq => hu heq.1, fun _ _ => rfl, fun _ => id,
      fun l' i hpassed _ => ⟨rfl, ?_⟩, fun _ _ _ _ => id⟩
    · by_cases hl : l' = l
      · subst hl
        have hlt := (List.getElem?_eq_some_iff.mp hmine).1
        omega
      · rw [show s'.granted l' = s.granted l' from update_of_ne hl ..]
        exact hi
    · refine update_of_ne ?_ ..
      rintro rfl
      exact absurd hpassed.next (by omega)

theorem Inv.arrive_await (h : Inv s) (hgrant : s.grant t = none) (hout : (s.pc t).waits = none)
    {pred : Tid} (htail : s.tail l = some pred) :
    Inv ((s.arrive t l).goto t (.acqAwait l pred (s.arrived l).length)) := by
  have hinv := h.locks l
  obtain ⟨hlt, hlast⟩ := hinv.tail_some htail
  set s' := (s.arrive t l).goto t (.acqAwait l pred (s.arrived l).length) with hs'
  have harrived : s'.arrived l = s.arrived l ++ [t] := update_self ..
  refine h.assemble (fun l' => ?_) rfl ⟨hgrant, ?_, ?_, Nat.zero_lt_of_lt hlt,
    hinv.order.fifo.length_le⟩ fun u hu => ?_
  · by_cases hl : l' = l
    · subst hl
      refine ⟨?_, ?_, fun i u hi hu => ?_⟩
      · have hmore : s.released l' < (s.arrived l' ++ [t]).length := by
          rw [List.length_append]
          exact hlt.trans (Nat.lt_succ_self _)
        rw [harrived, show s'.released l' = s.released l' from rfl, if_pos hmore,
          List.getLast?_concat]
        exact update_self ..
      · rw [harrived]
        exact hinv.order.arrive t
      · rw [harrived, List.getElem?_append] at hu
        split at hu
        · obtain ⟨pred, hpred⟩ := hinv.waits i u hi hu
          exact ⟨pred, waits_quiet rfl hout u pred i hpred⟩
        · rw [List.getElem?_singleton] at hu
          split at hu
          · obtain rfl := Option.some.inj hu
            have hi : i = (s.arrived l').length := by omega
            exact ⟨pred, by rw [goto_self, hi]; rfl⟩
          · cases hu
    · refine (h.locks l').congr (update_of_ne hl ..) (update_of_ne hl ..)
        rfl rfl (fun u => rfl) ?_
      exact waits_quiet rfl hout
  · rw [harrived, List.getElem?_concat_length]
  · rw [harrived]
    exact getElem?_mono (List.prefix_append ..) hlast
  · exact ⟨used_arrive hu, arrived_grows s t l, fun _ _ hi _ => hi, fun _ => rfl, fun _ _ => rfl,
      fun _ => id, fun _ _ _ _ => ⟨rfl, rfl⟩, fun _ _ _ _ => id⟩

theorem Inv.consume (h : Inv s) (hat : (s.pc t).waits = some (l, p, i)) (hmine : s.grant t = none)
    (hwaits : Waits s t l p i) (hgrant : s.grant p = some l) :
    Inv ((s.setGrant p none).enter t l) := by
  have hinv := h.locks l
  obtain ⟨hpassed, rfl⟩ := h.next hwaits hgrant
  have hne : t ≠ p := by
    rintro rfl
    rw [hmine] at hgrant
    cases hgrant
  set s' := (s.setGrant p none).enter t l with hs'
  have hgranted : s'.granted l = s.granted l ++ [t] := update_self ..
  have hsame (v : Tid) (hv : v ≠ p) : s'.grant v = s.grant v := update_of_ne hv ..
  refine h.assemble (fun l' => ?_) rfl (fun _ => (hsame t hne).trans hmine) fun u hu => ?_
  · by_cases hl : l' = l
    · subst hl
      refine ⟨hinv.tail, ?_, fun i u hi hu => ?_⟩
      · rw [hgranted]
        exact hinv.order.enter hpassed.out hwaits.mine (setHeld_self ..) fun u hu =>
          setHeld_other _ _ fun heq => hu heq.1
      · rw [hgranted, List.length_append, List.length_singleton] at hi
        obtain ⟨pred, hpred⟩ := hinv.waits i u (by omega) hu
        have hut : u ≠ t := by
          rintro rfl
          rw [hat, Option.some.injEq, Prod.mk.injEq, Prod.mk.injEq] at hpred
          have hout := hpassed.out
          omega
        exact ⟨pred, by rw [show s'.pc u = s.pc u from goto_other _ _ hut]; exact hpred⟩
    · refine (h.locks l').congr rfl rfl (update_of_ne hl ..) rfl
        (fun u => setHeld_other _ _ fun heq => hl heq.2) ?_
      refine waits_update rfl fun pred i heq => ?_
      rw [hat, Option.some.injEq, Prod.mk.injEq] at heq
      exact hl heq.1.symm
  · refine ⟨id, fun _ => List.prefix_rfl, fun l' i hi hui => ?_,
      fun l' => setHeld_other _ _ fun heq => hu heq.1, fun _ _ => rfl, fun l' hl' => ?_,
      fun l' i hother hl' => ⟨rfl, ?_⟩, fun l' pred i hother hpred => ?_⟩
    · by_cases hl : l' = l
      · subst hl
        have hne : i ≠ s.released l' := by
          rintro rfl
          rw [hwaits.mine] at hui
          exact hu (Option.some.inj hui).symm
        have hout := hpassed.out
        rw [hgranted, List.length_append, List.length_singleton]
        omega
      · rw [show s'.granted l' = s.granted l' from update_of_ne hl ..]
        exact hi
    · by_cases hup : u = p
      · rw [hup, show s'.grant p = none from update_self ..] at hl'
        cases hl'
      · rwa [hsame u hup] at hl'
    · refine update_of_ne ?_ ..
      rintro rfl
      have hup : u = p := by
        have hlast := hother.last
        have hi : i = s.released l' - 1 := by omega
        have hsecond := hother.mine
        rw [hi, hpassed.mine] at hsecond
        exact (Option.some.inj hsecond).symm
      rw [hup, show s'.grant p = none from update_self ..] at hl'
      cases hl'
    · have hpredp : pred ≠ p := by
        rintro rfl
        obtain rfl := Option.some.inj (hgrant.symm.trans hpred)
        obtain ⟨-, rfl⟩ := h.next hother hpred
        exact hu (Option.some.inj (hother.mine.symm.trans hwaits.mine))
      rw [hsame pred hpredp]
      exact hpred

section

omit [DecidableEq Tid] [DecidableEq Lock]

/-- The holder is the last one exactly when the tail is its own node. -/
theorem Inv.last_iff (h : Inv s) (hheld : s.held t l = true) (hout : (s.pc t).waits = none) :
    s.tail l = some t ↔ s.released l + 1 = (s.arrived l).length := by
  have hinv := h.locks l
  obtain ⟨hlen, hat⟩ := (hinv.order.held t).mp hheld
  have hlt := (List.getElem?_eq_some_iff.mp hat).1
  constructor
  · intro htail
    by_contra hne
    obtain ⟨-, hlast⟩ := hinv.tail_some htail
    -- otherwise the last node would be the one of a waiter
    obtain ⟨pred, hpred⟩ := hinv.waits _ t (by omega) hlast
    rw [hout] at hpred
    cases hpred
  · intro hlast
    rw [hinv.tail, if_pos hlt, List.getLast?_eq_getElem?, ← hlast]
    exact hat

/-- What another thread relies on when `t` gives up the lock `l`. -/
theorem keeps_leave (hinv : LockInv s l) (hheld : s.held t l = true) (hu : u ≠ t)
    (harrived : s'.arrived = s.arrived) (hgranted : s'.granted = s.granted)
    (hheld' : ∀ l', s'.held u l' = s.held u l')
    (hreleased : ∀ l', l' ≠ l → s'.released l' = s.released l')
    (hgrant : ∀ v l', s.grant v = some l' → s'.grant v = some l')
    (hmine : s'.grant u = s.grant u) : Keeps s s' u := by
  refine ⟨?_, fun l' => ?_, fun l' i hi _ => ?_, hheld', fun l' hl' => hreleased l' ?_,
    fun l' => ?_, fun l' i hpassed _ => ⟨hreleased l' ?_, ?_⟩,
    fun l' pred i _ hpred => hgrant pred l' hpred⟩
  · rw [Used, harrived]
    exact id
  · exact harrived.symm ▸ List.prefix_rfl
  · rw [hgranted]
    exact hi
  · rintro rfl
    exact hu (hinv.order.holder hl' hheld)
  · rw [hmine]
    exact id
  · rintro rfl
    have hone := ((hinv.order.held t).mp hheld).1
    have hout := hpassed.out
    omega
  · rw [hgranted]

end

/-- The holder finds its own node in the tail and clears the tail. -/
theorem Inv.relCas (h : Inv s) (hat : s.pc t = .relCas l) (htail : s.tail l = some t) :
    Inv (({ s with tail := update s.tail l none }.leave t l).goto t .idle) := by
  have hok := h.pcs t
  rw [hat] at hok
  obtain ⟨hgrant, hheld⟩ := hok
  have hout : (s.pc t).waits = none := by rw [hat]; rfl
  have hinv := h.locks l
  have hlast := (h.last_iff hheld hout).mp htail
  set s' := ({ s with tail := update s.tail l none }.leave t l).goto t .idle with hs'
  have hreleased : s'.released l = s.released l + 1 := update_self ..
  refine h.assemble (fun l' => ?_) rfl (fun _ => hgrant) fun u hu => ?_
  · by_cases hl : l' = l
    · subst hl
      refine ⟨?_, ?_, fun i u hi hu => ?_⟩
      · refine (update_self ..).trans (if_neg ?_).symm
        rw [hreleased, hlast]
        exact lt_irrefl _
      · rw [hreleased]
        exact hinv.order.leave hheld (setHeld_self ..) fun u hu =>
          setHeld_other _ _ fun heq => hu heq.1
      · obtain ⟨pred, hpred⟩ := hinv.waits i u hi hu
        exact ⟨pred, waits_quiet rfl hout u pred i hpred⟩
    · refine (h.locks l').congr (update_of_ne hl ..) rfl rfl
        (update_of_ne hl ..) (fun u => setHeld_other _ _ fun heq => hl heq.2) ?_
      exact waits_quiet rfl hout
  · exact keeps_leave hinv hheld hu rfl rfl (fun l' => setHeld_other _ _ fun heq => hu heq.1)
      (fun l' hl => update_of_ne hl ..) (fun _ _ => id) rfl

theorem Inv.relGrant (h : Inv s) (hat : s.pc t = .relGrant l) :
    Inv (((s.setGrant t (some l)).leave t l).goto t (.relAwait l (s.released l))) := by
  have hok := h.pcs t
  rw [hat] at hok
  obtain ⟨hgrant, hheld, hbehind⟩ := hok
  have hout : (s.pc t).waits = none := by rw [hat]; rfl
  have hinv := h.locks l
  obtain ⟨hlen, hmine⟩ := (hinv.order.held t).mp hheld
  set s' := ((s.setGrant t (some l)).leave t l).goto t (.relAwait l (s.released l)) with hs'
  have hreleased : s'.released l = s.released l + 1 := update_self ..
  have hsame (v : Tid) (hv : v ≠ t) : s'.grant v = s.grant v := update_of_ne hv ..
  refine h.assemble (fun l' => ?_) rfl ⟨⟨l, List.mem_of_getElem? hmine⟩, fun l' hl' => ?_⟩
    fun u hu => ?_
  · by_cases hl : l' = l
    · subst hl
      refine ⟨?_, ?_, fun i u hi hu => ?_⟩
      · refine hinv.tail.trans ((if_pos (by omega)).trans (if_pos ?_).symm)
        rw [hreleased]
        exact hbehind
      · rw [hreleased]
        exact hinv.order.leave hheld (setHeld_self ..) fun u hu =>
          setHeld_other _ _ fun heq => hu heq.1
      · obtain ⟨pred, hpred⟩ := hinv.waits i u hi hu
        exact ⟨pred, waits_quiet rfl hout u pred i hpred⟩
    · refine (h.locks l').congr rfl rfl rfl (update_of_ne hl ..)
        (fun u => setHeld_other _ _ fun heq => hl heq.2) ?_
      exact waits_quiet rfl hout
  · rw [show s'.grant t = some l from update_self ..] at hl'
    refine ⟨(Option.some.inj hl').symm, hmine, hreleased.symm, ?_, ?_⟩
    · rw [hreleased]
      exact hlen
    · rw [hreleased]
      exact hbehind
  · refine keeps_leave hinv hheld hu rfl rfl (fun l' => setHeld_other _ _ fun heq => hu heq.1)
      (fun l' hl => update_of_ne hl ..) (fun v l' hv => ?_) (hsame u hu)
    have hvt : v ≠ t := by
      rintro rfl
      rw [hgrant] at hv
      cases hv
    rw [hsame v hvt]
    exact hv

theorem Inv.nextStep (h : Inv s) (hstep : nextStep ctr s t = some s') : Inv s' := by
  have hok := h.pcs t
  simp only [Hemlock.nextStep] at hstep
  cases hat : s.pc t <;> rw [hat] at hstep hok <;> dsimp only at hstep
  case idle => cases hstep
  case tryClear l | acqClear l =>
    cases hstep
    exact h.clear hok (by rw [hat]; rfl) (update_self ..)
  case tryCas l =>
    split at hstep
    · rename_i htail
      cases hstep
      exact h.arrive_enter hok (by rw [hat]; rfl) htail
    · cases hstep
      exact h.goto (by rw [hat]; rfl) fun _ => hok
  case acqXchg l =>
    split at hstep
    · rename_i htail
      cases hstep
      exact h.arrive_enter hok (by rw [hat]; rfl) htail
    · rename_i pred htail
      cases hstep
      exact h.arrive_await hok (by rw [hat]; rfl) htail
  case acqAwait l pred i =>
    split at hstep
    · rename_i hgrant
      split at hstep
      · cases hstep
        exact h.consume (by rw [hat]; rfl) hok.1 hok.2 hgrant
      · cases hstep
        exact h.goto (by rw [hat]; rfl) ⟨hok.1,
          ⟨hok.2.mine, hok.2.front, hok.2.pos, hok.2.out⟩, hgrant⟩
    · cases hstep
  case acqWrite l pred i =>
    cases hstep
    exact h.consume (by rw [hat]; rfl) hok.1 hok.2.1 hok.2.2
  case relRead l =>
    have hlast := h.last_iff hok.2 (by rw [hat]; rfl)
    have hlt := (List.getElem?_eq_some_iff.mp (((h.locks l).order.held t).mp hok.2).2).1
    split at hstep
    · cases hstep
      exact h.goto (by rw [hat]; rfl) hok
    · rename_i htail
      cases hstep
      rw [hlast] at htail
      exact h.goto (by rw [hat]; rfl) ⟨hok.1, hok.2, lt_of_le_of_ne hlt htail⟩
  case relCas l =>
    have hlast := h.last_iff hok.2 (by rw [hat]; rfl)
    have hlt := (List.getElem?_eq_some_iff.mp (((h.locks l).order.held t).mp hok.2).2).1
    split at hstep
    · rename_i htail
      cases hstep
      exact h.relCas hat htail
    · rename_i htail
      cases hstep
      rw [hlast] at htail
      exact h.goto (by rw [hat]; rfl) ⟨hok.1, hok.2, lt_of_le_of_ne hlt htail⟩
  case relGrant l =>
    cases hstep
    exact h.relGrant hat
  case relAwait l i =>
    split at hstep
    · rename_i hgrant
      cases hstep
      exact h.goto (by rw [hat]; rfl) fun _ => hgrant
    · cases hstep

theorem Inv.step {a : Act Tid Lock} (h : Inv s) (hstep : step ctr s a = some s') : Inv s' := by
  cases a with
  | acquire t l | tryacquire t l =>
    simp only [Hemlock.step] at hstep
    split at hstep
    · rename_i hat
      have hok := h.pcs t
      rw [hat] at hok
      cases hstep
      exact h.goto (by rw [hat]; rfl) hok
    · cases hstep
  | release t l =>
    simp only [Hemlock.step] at hstep
    split at hstep
    · rename_i hat
      have hok := h.pcs t
      rw [hat.1] at hok
      have hused : Used s t :=
        ⟨l, List.mem_of_getElem? (((h.locks l).order.held t).mp hat.2).2⟩
      cases hstep
      exact h.goto (by rw [hat.1]; rfl) ⟨hok hused, hat.2⟩
    · cases hstep
  | step t => exact h.nextStep hstep

omit [DecidableEq Tid] [DecidableEq Lock] in
theorem Initial.inv (h : Initial s) : Inv s := by
  obtain ⟨tail, grant, pc, held, arrived, granted, released⟩ := s
  obtain ⟨rfl, rfl, rfl, rfl, rfl, rfl⟩ := h
  refine ⟨fun l => ⟨rfl, Serving.init, fun i t _ ht => ?_⟩, fun t hused => ?_⟩
  · cases ht
  · obtain ⟨l, hmem⟩ := hused
    cases hmem

variable {past : List (State Tid Lock × Act Tid Lock)}

theorem run_inv (run : (machine Tid Lock ctr).Run past s) : Inv s :=
  run.invariant (I := Inv) (fun _ h => Initial.inv h) fun _ _ _ h hstep => h.step hstep

theorem grant_step {a : Act Tid Lock} (hstep : step ctr s a = some s') :
    s'.grant p = s.grant p ∨
      (∃ l, s.pc p = .tryClear l ∨ s.pc p = .acqClear l ∨ s.pc p = .relGrant l) ∨
      ∃ t l i, a = .step t ∧ s' = (s.setGrant p none).enter t l ∧
        (s.pc t = .acqAwait l p i ∧ s.grant p = some l ∨ s.pc t = .acqWrite l p i) := by
  cases a with
  | acquire t l | tryacquire t l | release t l =>
    simp only [Hemlock.step] at hstep
    split at hstep
    · cases hstep
      exact .inl rfl
    · cases hstep
  | step t =>
    have hother (v : Tid) (g : Option Lock) (hv : ¬ p = v) :
        (s.setGrant v g).grant p = s.grant p := update_of_ne hv ..
    simp only [Hemlock.step, Hemlock.nextStep] at hstep
    cases hat : s.pc t <;> rw [hat] at hstep <;> dsimp only at hstep
    case idle => cases hstep
    case tryClear l | acqClear l | relGrant l =>
      cases hstep
      by_cases hpt : p = t
      · subst hpt
        exact .inr (.inl ⟨l, by rw [hat]; simp⟩)
      · exact .inl (hother t _ hpt)
    case acqAwait l pred i =>
      split at hstep
      · rename_i hgrant
        split at hstep <;> cases hstep
        · by_cases hp : p = pred
          · subst hp
            exact .inr (.inr ⟨t, l, i, rfl, rfl, .inl ⟨hat, hgrant⟩⟩)
          · exact .inl (hother pred _ hp)
        · exact .inl rfl
      · cases hstep
    case acqWrite l pred i =>
      cases hstep
      by_cases hp : p = pred
      · subst hp
        exact .inr (.inr ⟨t, l, i, rfl, rfl, .inr hat⟩)
      · exact .inl (hother pred _ hp)
    case acqXchg l => split at hstep <;> cases hstep <;> exact .inl rfl
    case tryCas l | relRead l | relCas l | relAwait l i =>
      split at hstep <;> cases hstep <;> exact .inl rfl

/-- A lock has at most one holder and is granted in the order of the exchanges. When a
grant disappears from the node of a thread, then the next waiter of that lock, directly
behind the thread, takes it and returns with the lock. -/
structure Safe (ctr : Bool) (s : State Tid Lock) : Prop where
  exclusive : ∀ l t u, s.held t l = true → s.held u l = true → t = u
  fifo : ∀ l, s.granted l <+: s.arrived l
  consumed : ∀ p l a s', Used s p → s.grant p = some l → step ctr s a = some s' →
    s'.grant p ≠ some l → ∃ t, a = .step t ∧ (s.granted l).getLast? = some p ∧
      (s.arrived l)[(s.granted l).length]? = some t ∧ s'.granted l = s.granted l ++ [t] ∧
      s'.held t l = true

/-- The next waiter takes the grant. -/
theorem Inv.consumed {a : Act Tid Lock} (h : Inv s) (hused : Used s p) (hgrant : s.grant p = some l)
    (hstep : Hemlock.step ctr s a = some s') (hgone : s'.grant p ≠ some l) :
    ∃ t, a = .step t ∧ (s.granted l).getLast? = some p ∧
      (s.arrived l)[(s.granted l).length]? = some t ∧ s'.granted l = s.granted l ++ [t] ∧
      s'.held t l = true := by
  obtain ⟨j, hp, hpassed⟩ := h.passed hused hgrant
  rcases grant_step (p := p) hstep with heq | ⟨l', hclear⟩ | ⟨t, l', i, rfl, rfl, htake⟩
  · rw [heq] at hgone
    exact absurd hgrant hgone
  · rw [hp] at hclear
    rcases hclear with hclear | hclear | hclear <;> cases hclear
  · have hok := h.pcs t
    have hwaits : Waits s t l' p i ∧ s.grant p = some l' := by
      rcases htake with ⟨hat, hl'⟩ | hat
      · rw [hat] at hok
        exact ⟨hok.2, hl'⟩
      · rw [hat] at hok
        exact hok.2
    obtain ⟨hwaits, hl'⟩ := hwaits
    obtain rfl := Option.some.inj (hl'.symm.trans hgrant)
    obtain ⟨-, rfl⟩ := h.next hwaits hgrant
    refine ⟨t, rfl, ?_, ?_, update_self .., setHeld_self ..⟩
    · obtain ⟨rest, hrest⟩ := (h.locks l').order.fifo
      have hlast := hpassed.last
      have hout := hpassed.out
      have hmine := hpassed.mine
      rw [← hrest, List.getElem?_append_left (by omega)] at hmine
      rw [List.getLast?_eq_getElem?, show (s.granted l').length - 1 = j by omega]
      exact hmine
    · rw [hpassed.out]
      exact hwaits.mine

theorem hemlock_safe (run : (machine Tid Lock ctr).Run past s) : Safe ctr s := by
  have h := run_inv run
  refine ⟨fun l t u ht hu => (h.locks l).order.holder ht hu, fun l => (h.locks l).order.fifo,
    fun p l a s' hused hgrant hstep hgone => ?_⟩
  exact h.consumed hused hgrant hstep hgone

/-- Thread 0 holds two locks, and the threads 1 and 2 wait at its node. It releases the lock
of thread 2 first. -/
def twoWaiters : List (Act Nat Bool) :=
  List.flatten [
    .acquire 0 false :: List.replicate 2 (.step 0),
    .acquire 0 true :: List.replicate 2 (.step 0),
    .acquire 1 false :: List.replicate 2 (.step 1),
    .acquire 2 true :: List.replicate 2 (.step 2),
    .release 0 true :: List.replicate 2 (.step 0),
    List.replicate 2 (.step 2)]

def freeLocks : State Nat Bool where
  tail _ := none
  grant _ := none
  pc _ := .idle
  held _ _ := false
  arrived _ := []
  granted _ := []
  released _ := 0

theorem hemlock_safe_twoWaiters :
    ∃ past s, (machine Nat Bool false).Run past s ∧ Safe false s ∧ s.held 0 false = true ∧
      s.held 2 true = true ∧ s.pc 1 = .acqAwait false 0 1 := by
  have hexec : ((machine Nat Bool false).exec freeLocks twoWaiters).map
      (fun s => (s.held 0 false, s.held 2 true, s.pc 1)) =
      some (true, true, .acqAwait false 0 1) := by
    decide +kernel
  obtain ⟨s, hs, hview⟩ := Option.map_eq_some_iff.mp hexec
  obtain ⟨hzero, hrest⟩ := Prod.mk.inj hview
  obtain ⟨htwo, hone⟩ := Prod.mk.inj hrest
  have run := (Machine.Run.start (M := machine Nat Bool false) (s := freeLocks)
    ⟨rfl, rfl, rfl, rfl, rfl, rfl⟩).exec hs
  exact ⟨_, s, run, hemlock_safe run, hzero, htwo, hone⟩

end Libvsync.Spinlock.Hemlock
