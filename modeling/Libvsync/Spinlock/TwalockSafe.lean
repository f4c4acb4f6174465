import Libvsync.Spinlock.Twalock

/-!
The TWA lock over whole runs: mutual exclusion, the order of the tickets, and that no
wake-up is lost. A waiter reads its slot before it reads `grant`, and a release writes
`grant` before it increments the slot; so a release that lets the ticket in front of the
waiter in, after the waiter has read `grant`, has not incremented the slot before the
waiter has read it.
-/

namespace Libvsync.Spinlock.Twalock

open Libvsync.Core Function

variable {Tid Lock : Type} [DecidableEq Tid] [DecidableEq Lock] {size : Nat}
  {s s' : State Tid Lock} {t u : Tid} {l : Lock} {pc : Pc Lock} {tx x n k : Nat}

section

omit [DecidableEq Lock]

theorem goto_self (s : State Tid Lock) (t : Tid) (pc : Pc Lock) : (s.goto t pc).pc t = pc :=
  update_self ..

theorem goto_other (s : State Tid Lock) (pc : Pc Lock) (hu : u ≠ t) :
    (s.goto t pc).pc u = s.pc u := update_of_ne hu ..

end

theorem setHeld_self (s : State Tid Lock) (t : Tid) (l : Lock) (b : Bool) :
    (s.setHeld t l b).held t l = b := by
  simp only [State.setHeld, update_self]

theorem setHeld_other {l' : Lock} (s : State Tid Lock) (b : Bool) (hne : ¬ (u = t ∧ l' = l)) :
    (s.setHeld t l b).held u l' = s.held u l' := by
  by_cases hut : u = t
  · subst hut
    have hl : l' ≠ l := fun heq => hne ⟨rfl, heq⟩
    simp only [State.setHeld, update_self, update_of_ne hl]
  · simp only [State.setHeld, update_of_ne hut]

/-- A step keeps what thread `u` relies on. -/
structure Keeps (size : Nat) (s s' : State Tid Lock) (u : Tid) : Prop where
  arrived : ∀ l, s.arrived l <+: s'.arrived l
  granted : ∀ l x, (s.granted l).length ≤ x → (s.arrived l)[x]? = some u →
    (s'.granted l).length ≤ x
  released : ∀ l, s.released l ≤ s'.released l
  bumps : ∀ i, s.bumps i ≤ s'.bumps i
  held : ∀ l, s'.held u l = s.held u l
  grant : ∀ l, s.held u l = true → s'.grant l = s.grant l
  woken : ∀ l tx x n, tx = x % 2 ^ 32 → n ≤ s.bumps (twaHash size tx) →
    Woken size s l tx x n → Woken size s' l tx x n

section

omit [DecidableEq Tid] [DecidableEq Lock]

theorem Ticket.keep (h : Ticket s u l tx x) (keeps : Keeps size s s' u) : Ticket s' u l tx x := by
  obtain ⟨hword, hlow, hat⟩ := h
  exact ⟨hword, keeps.granted l x hlow hat, getElem?_mono (keeps.arrived l) hat⟩

theorem PcOk.keep (h : PcOk size s u pc) (keeps : Keeps size s s' u) : PcOk size s' u pc := by
  cases pc with
  | idle | acqInc l | tryRead l => trivial
  | acqRead l tx x | slowArray l tx x | acqAwait l tx x => exact Ticket.keep h keeps
  | slowGrant l tx x v n =>
    obtain ⟨hticket, hv, hn⟩ := h
    exact ⟨hticket.keep keeps, hv, hn.trans (keeps.bumps _)⟩
  | slowAwait l tx x v n =>
    obtain ⟨hticket, hv, hn, hwoken⟩ := h
    exact ⟨hticket.keep keeps, hv, hn.trans (keeps.bumps _),
      keeps.woken l tx x n hticket.1 hn hwoken⟩
  | tryCas l k n => exact ⟨h.1, h.2.trans (keeps.released l)⟩
  | relRead l => exact (keeps.held l).trans h
  | relWrite l k =>
    refine ⟨(keeps.held l).trans h.1, ?_⟩
    rw [keeps.grant l h.1]
    exact h.2
  | relInc l k n => exact h

end

omit [DecidableEq Lock] [DecidableEq Tid] in
/-- A thread that moves without being a releaser on its way to the slot. -/
theorem Woken.goto (h : Woken size s l tx x n) (hpc : (s.pc t).passed = false)
    (hreleased : s'.released = s.released) (hbumps : s'.bumps = s.bumps)
    (hother : ∀ r, r ≠ t → s'.pc r = s.pc r) : Woken size s' l tx x n := by
  intro hx
  rw [hreleased] at hx
  rw [hbumps]
  refine (h hx).imp_right ?_
  rintro ⟨r, k, j, hr, hj⟩
  have hrt : r ≠ t := by
    rintro rfl
    rw [hr] at hpc
    cases hpc
  exact ⟨r, k, j, (hother r hrt).trans hr, hj⟩

omit [DecidableEq Lock] in
/-- A step of `t` that changes nothing but its position. -/
theorem keeps_goto (hpc : (s.pc t).passed = false) (pc : Pc Lock) (u : Tid) :
    Keeps size s (s.goto t pc) u :=
  ⟨fun _ => List.prefix_rfl, fun _ _ hx _ => hx, fun _ => le_rfl, fun _ => le_rfl, fun _ => rfl,
    fun _ _ => rfl, fun _ _ _ _ _ _ hwoken =>
      hwoken.goto hpc rfl rfl fun _ hr => goto_other _ _ hr⟩

omit [DecidableEq Tid] [DecidableEq Lock] in
theorem LockInv.congr (h : LockInv s l) (hticket : s'.ticket l = s.ticket l)
    (hgrant : s'.grant l = s.grant l) (harrived : s'.arrived l = s.arrived l)
    (hgranted : s'.granted l = s.granted l) (hreleased : s'.released l = s.released l)
    (hheld : ∀ t, s'.held t l = s.held t l) : LockInv s' l := by
  refine ⟨?_, ?_, ?_, ?_⟩
  · rw [hticket, harrived]
    exact h.ticket
  · rw [hgrant, hreleased]
    exact h.grant
  · rw [harrived, hreleased]
    exact h.fits
  · rw [harrived, hgranted, hreleased, funext hheld]
    exact h.order

omit [DecidableEq Lock] in
/-- A thread moves on without changing anything else. -/
theorem Inv.goto (h : Inv size s) (hpc : (s.pc t).passed = false)
    (hok : PcOk size (s.goto t pc) t pc) : Inv size (s.goto t pc) := by
  refine ⟨fun l => (h.locks l).congr rfl rfl rfl rfl rfl fun _ => rfl, h.array, fun u => ?_⟩
  by_cases hut : u = t
  · rw [hut, goto_self]
    exact hok
  · rw [goto_other _ _ hut]
    exact (h.pcs u).keep (keeps_goto hpc pc u)

omit [DecidableEq Tid] [DecidableEq Lock] in
/-- The distance that the code computes is the number of tickets in front of `x`. -/
theorem Inv.diff_eq (h : Inv size s) (hticket : Ticket s t l tx x) :
    s.released l ≤ x ∧ x < s.released l + 2 ^ 32 ∧ twaDiff tx (s.grant l) = x - s.released l := by
  obtain ⟨rfl, hlow, hat⟩ := hticket
  have hlt := (List.getElem?_eq_some_iff.mp hat).1
  have hinv := h.locks l
  have hfits := hinv.fits
  have hlower := hinv.order.low
  refine ⟨by omega, by omega, ?_⟩
  rw [twaDiff, hinv.grant]
  exact wsub_counter (by omega) (by omega)

omit [DecidableEq Lock] in
theorem Inv.assemble (h : Inv size s) (hlocks : ∀ l, LockInv s' l)
    (harray : ∀ i, s'.array i = s'.bumps i % 2 ^ 32) (hpc : s'.pc = update s.pc t pc)
    (hok : PcOk size s' t pc) (hkeeps : ∀ u, u ≠ t → Keeps size s s' u) : Inv size s' := by
  refine ⟨hlocks, harray, fun u => ?_⟩
  rw [hpc]
  by_cases hut : u = t
  · rw [hut, update_self]
    exact hok
  · rw [update_of_ne hut]
    exact (h.pcs u).keep (hkeeps u hut)

section

omit [DecidableEq Tid]

theorem LockInv.arrive (h : LockInv s l) (hfew : (s.arrived l).length + 1 < s.released l + 2 ^ 32)
    (t : Tid) : LockInv (s.arrive t l (wadd 32 (s.ticket l) 1)) l := by
  have harrived : (s.arrive t l (wadd 32 (s.ticket l) 1)).arrived l = s.arrived l ++ [t] :=
    update_self ..
  refine ⟨?_, h.grant, ?_, ?_⟩
  · rw [harrived, List.length_append, List.length_singleton]
    refine (update_self ..).trans ?_
    rw [h.ticket, wadd_mod]
  · rw [harrived, List.length_append, List.length_singleton]
    exact hfew
  · rw [harrived]
    exact h.order.arrive t

theorem LockInv.arrive_other {l' : Lock} {ticket : Nat} (h : LockInv s l') (hne : l' ≠ l)
    (t : Tid) : LockInv (s.arrive t l ticket) l' :=
  h.congr (update_of_ne hne ..) rfl (update_of_ne hne ..) rfl rfl fun _ => rfl

end

/-- The thread with the ticket that `grant` counts is let in. -/
theorem LockInv.enter (h : LockInv s l) (hfree : (s.granted l).length = s.released l)
    (hat : (s.arrived l)[s.released l]? = some t) : LockInv (s.enter t l) l := by
  refine ⟨h.ticket, h.grant, h.fits, ?_⟩
  rw [show (s.enter t l).granted l = s.granted l ++ [t] from update_self ..]
  exact h.order.enter hfree hat (setHeld_self ..) fun u hu => setHeld_other _ _ fun heq => hu heq.1

theorem LockInv.enter_other {l' : Lock} (h : LockInv s l') (hne : l' ≠ l) (t : Tid) :
    LockInv (s.enter t l) l' :=
  h.congr rfl rfl rfl (update_of_ne hne ..) rfl fun _ =>
    setHeld_other _ _ fun heq => hne heq.2

theorem LockInv.pass (h : LockInv s l) (hheld : s.held t l = true) :
    LockInv (s.pass t l (wadd 32 (s.grant l) 1)) l := by
  have hreleased : (s.pass t l (wadd 32 (s.grant l) 1)).released l = s.released l + 1 :=
    update_self ..
  refine ⟨h.ticket, ?_, ?_, ?_⟩
  · rw [hreleased, ← wadd_mod, ← h.grant]
    exact update_self ..
  · rw [hreleased]
    exact h.fits.trans (by omega)
  · rw [hreleased]
    exact h.order.leave hheld (setHeld_self ..) fun u hu => setHeld_other _ _ fun heq => hu heq.1

theorem LockInv.pass_other {l' : Lock} (h : LockInv s l') (hne : l' ≠ l) (t : Tid) :
    LockInv (s.pass t l k) l' :=
  h.congr rfl (update_of_ne hne ..) rfl rfl (update_of_ne hne ..) fun _ =>
    setHeld_other _ _ fun heq => hne heq.2

omit [DecidableEq Tid] in
theorem Inv.arrive (h : Inv size s) (hfew : (s.arrived l).length + 1 < s.released l + 2 ^ 32)
    (t : Tid) : Inv size (s.arrive t l (wadd 32 (s.ticket l) 1)) := by
  refine ⟨fun l' => ?_, h.array, fun u => (h.pcs u).keep ⟨fun l' => ?_, fun _ _ hx _ => hx,
    fun _ => le_rfl, fun _ => le_rfl, fun _ => rfl, fun _ _ => rfl,
    fun _ _ _ _ _ _ hwoken => hwoken⟩⟩
  · by_cases hl : l' = l
    · rw [hl]
      exact (h.locks l).arrive hfew t
    · exact (h.locks l').arrive_other hl t
  · change _ <+: update s.arrived l (s.arrived l ++ [t]) l'
    by_cases hl : l' = l
    · rw [hl, update_self]
      exact List.prefix_append ..
    · exact (update_of_ne hl ..).symm ▸ List.prefix_rfl

theorem Inv.acqInc (h : Inv size s) (hat : s.pc t = .acqInc l)
    (hfew : (s.arrived l).length + 1 < s.released l + 2 ^ 32) :
    Inv size ((s.arrive t l (wadd 32 (s.ticket l) 1)).goto t
      (.acqRead l (s.ticket l) (s.arrived l).length)) := by
  have hinv := h.locks l
  refine (h.arrive hfew t).goto (?_ : (s.pc t).passed = false)
    ⟨hinv.ticket, hinv.order.fifo.length_le, ?_⟩
  · rw [hat]
    rfl
  · change (update s.arrived l (s.arrived l ++ [t]) l)[_]? = _
    rw [update_self, List.getElem?_concat_length]

/-- A thread whose ticket is the one that `grant` counts returns. -/
theorem Inv.enter (h : Inv size s) (hpc : (s.pc t).passed = false)
    (hfree : (s.granted l).length = s.released l)
    (hat : (s.arrived l)[s.released l]? = some t) : Inv size (s.enter t l) := by
  refine h.assemble (fun l' => ?_) h.array rfl trivial fun u hu => ?_
  · by_cases hl : l' = l
    · rw [hl]
      exact (h.locks l).enter hfree hat
    · exact (h.locks l').enter_other hl t
  · refine ⟨fun _ => List.prefix_rfl, fun l' x hx hxu => ?_, fun _ => le_rfl, fun _ => le_rfl,
      fun l' => setHeld_other _ _ fun heq => hu heq.1, fun _ _ => rfl,
      fun _ _ _ _ _ _ hwoken => hwoken.goto hpc rfl rfl fun r hr => goto_other _ _ hr⟩
    by_cases hl : l' = l
    · subst hl
      have hxne : x ≠ s.released l' := by
        rintro rfl
        rw [hat] at hxu
        exact hu (Option.some.inj hxu).symm
      change (update s.granted l' (s.granted l' ++ [t]) l').length ≤ x
      rw [update_self, List.length_append, List.length_singleton]
      omega
    · change (update s.granted l (s.granted l ++ [t]) l').length ≤ x
      rw [update_of_ne hl]
      exact hx

/-- A thread returns when it finds its ticket in `grant`. -/
theorem Inv.enter_ticket (h : Inv size s) (hpc : (s.pc t).passed = false)
    (hticket : Ticket s t l tx x) (hgrant : x = s.released l) : Inv size (s.enter t l) := by
  subst hgrant
  exact h.enter hpc (le_antisymm hticket.2.1 (h.locks l).order.low) hticket.2.2

/-- The compare-and-swap of tryacquire succeeds, and its value of `grant` is not old. -/
theorem Inv.tryCas (h : Inv size s) (hat : s.pc t = .tryCas l k n) (heq : s.ticket l = k)
    (hfresh : (s.arrived l).length % 2 ^ 32 = n % 2 ^ 32 → (s.arrived l).length = n) :
    Inv size ((s.arrive t l (wadd 32 k 1)).enter t l) := by
  have hok := h.pcs t
  rw [hat] at hok
  obtain ⟨hword, hle⟩ := hok
  have hinv := h.locks l
  have hn : (s.arrived l).length = n := by
    refine hfresh ?_
    rw [← hinv.ticket, heq, hword]
  have hlow := hinv.order.low
  have hhigh := hinv.order.fifo.length_le
  subst heq
  refine (h.arrive (by omega) t).enter (?_ : (s.pc t).passed = false)
    (?_ : (s.granted l).length = _) ?_
  · rw [hat]
    rfl
  · change _ = s.released l
    omega
  · change (update s.arrived l (s.arrived l ++ [t]) l)[s.released l]? = _
    rw [update_self, show s.released l = (s.arrived l).length by omega,
      List.getElem?_concat_length]

/-- A release lets the next ticket in. The ticket behind it is woken by the next step of
the thread. -/
theorem Inv.relWrite (h : Inv size s) (hat : s.pc t = .relWrite l k) :
    Inv size ((s.pass t l k).goto t (.relInc l k (s.released l + 1))) := by
  have hok := h.pcs t
  rw [hat] at hok
  obtain ⟨hheld, rfl⟩ := hok
  refine h.assemble (fun l' => ?_) h.array rfl ?_ fun u hu => ?_
  · refine LockInv.congr (s := s.pass t l (wadd 32 (s.grant l) 1)) ?_ rfl rfl rfl rfl rfl
      fun _ => rfl
    by_cases hl : l' = l
    · rw [hl]
      exact (h.locks l).pass hheld
    · exact (h.locks l').pass_other hl t
  · change wadd 32 (s.grant l) 1 = _
    rw [(h.locks l).grant, wadd_mod]
  · refine ⟨fun _ => List.prefix_rfl, fun _ _ hx _ => hx, fun l' => ?_, fun _ => le_rfl,
      fun l' => setHeld_other _ _ fun heq => hu heq.1, fun l' hheld' => ?_,
      fun l' tx x n _ _ hwoken hx => ?_⟩
    · change _ ≤ update s.released l (s.released l + 1) l'
      by_cases hl : l' = l
      · rw [hl, update_self]
        exact Nat.le_succ _
      · rw [update_of_ne hl]
    · refine update_of_ne ?_ ..
      rintro rfl
      exact hu ((h.locks l').order.holder hheld' hheld)
    · have hstill (r : Tid) (l : Lock) (k j : Nat) (hr : s.pc r = .relInc l k j) : r ≠ t := by
        rintro rfl
        rw [hr] at hat
        cases hat
      by_cases hnext : l' = l ∧ x = s.released l + 2
      · obtain ⟨rfl, rfl⟩ := hnext
        exact .inr ⟨t, _, _, goto_self .., rfl⟩
      · have hold : x ≤ s.released l' + 1 := by
          by_cases hl : l' = l
          · subst hl
            have hx : x ≤ update s.released l' (s.released l' + 1) l' + 1 := hx
            rw [update_self] at hx
            have hne : x ≠ s.released l' + 2 := fun heq => hnext ⟨rfl, heq⟩
            omega
          · have hx : x ≤ update s.released l (s.released l + 1) l' + 1 := hx
            rwa [update_of_ne hl] at hx
        refine (hwoken hold).imp_right ?_
        rintro ⟨r, k, j, hr, hj⟩
        exact ⟨r, k, j, (goto_other _ _ (hstill r l' k j hr)).trans hr, hj⟩

section

omit [DecidableEq Lock]

/-- A release increments the slot of the ticket behind the next one. -/
theorem Inv.relInc {j : Nat} (h : Inv size s) (hat : s.pc t = .relInc l k j) (i : Nat)
    (hi : i = twaHash size (wadd 32 k twaL)) :
    Inv size ({ s with
      array := update s.array i (wadd 32 (s.array i) 1)
      bumps := update s.bumps i (s.bumps i + 1) }.goto t .idle) := by
  have hok := h.pcs t
  rw [hat] at hok
  have hword : k = j % 2 ^ 32 := hok
  refine h.assemble (fun l' => (h.locks l').congr rfl rfl rfl rfl rfl fun _ => rfl) (fun m => ?_)
    rfl trivial fun u hu => ?_
  · change update s.array i _ m = update s.bumps i _ m % 2 ^ 32
    by_cases hm : m = i
    · rw [hm, update_self, update_self, h.array, wadd_mod]
    · rw [update_of_ne hm, update_of_ne hm]
      exact h.array m
  · have hmono (m : Nat) : s.bumps m ≤ update s.bumps i (s.bumps i + 1) m := by
      by_cases hm : m = i
      · rw [hm, update_self]
        exact Nat.le_succ _
      · rw [update_of_ne hm]
    refine ⟨fun _ => List.prefix_rfl, fun _ _ hx _ => hx, fun _ => le_rfl, hmono, fun _ => rfl,
      fun _ _ => rfl, fun l' tx x n htx hn hwoken hx => ?_⟩
    rcases hwoken hx with hbump | ⟨r, k', j', hr, hj⟩
    · exact .inl (hbump.trans_le (hmono _))
    · by_cases hrt : r = t
      · -- the releaser that was on its way to the slot of `x` arrives there
        subst hrt
        obtain ⟨rfl, rfl, rfl⟩ := Pc.relInc.inj (hat.symm.trans hr)
        have hslot : twaHash size tx = i := by
          rw [hi, htx, hword, wadd_mod, ← hj]
          rfl
        refine .inl ?_
        change n < update s.bumps i (s.bumps i + 1) (twaHash size tx)
        rw [hslot] at hn
        rw [hslot, update_self]
        exact Nat.lt_succ_of_le hn
      · exact .inr ⟨r, k', j', (goto_other _ _ hrt).trans hr, hj⟩

theorem Inv.readSlot (h : Inv size s) (hpc : (s.pc t).passed = false)
    (hticket : Ticket s t l tx x) : Inv size (s.readSlot size t l tx x) :=
  h.goto hpc ⟨hticket, h.array _, le_rfl⟩

end

theorem Inv.nextStep (h : Inv size s) (hfew : few s (.step t) = true)
    (hfresh : fresh s (.step t) = true) (hstep : nextStep size s t = some s') : Inv size s' := by
  have hok := h.pcs t
  simp only [Twalock.nextStep] at hstep
  simp only [few, fresh] at hfew hfresh
  cases hat : s.pc t <;> rw [hat] at hstep hok hfew hfresh <;> dsimp only at hstep hfew hfresh
  case idle => cases hstep
  case acqInc l =>
    cases hstep
    exact h.acqInc hat (of_decide_eq_true hfew)
  case acqRead l tx x =>
    have hpc : (s.pc t).passed = false := by rw [hat]; rfl
    obtain ⟨hlow, -, hdiff⟩ := h.diff_eq hok
    rw [hdiff] at hstep
    split at hstep
    · cases hstep
      exact h.enter_ticket hpc hok (by omega)
    · split at hstep <;> cases hstep
      · exact h.goto hpc hok
      · exact h.goto hpc hok
  case slowArray l tx x =>
    cases hstep
    exact h.readSlot (by rw [hat]; rfl) hok
  case slowGrant l tx x v n =>
    have hpc : (s.pc t).passed = false := by rw [hat]; rfl
    obtain ⟨hticket, hv, hn⟩ := hok
    obtain ⟨hlow, -, hdiff⟩ := h.diff_eq hticket
    rw [hdiff] at hstep
    split at hstep
    · rename_i hfar
      cases hstep
      refine h.goto hpc ⟨hticket, hv, hn, fun hx => ?_⟩
      have hfar : 1 < x - s.released l := hfar
      have hx : x ≤ s.released l + 1 := hx
      omega
    · cases hstep
      exact h.goto hpc hticket
  case slowAwait l tx x v n =>
    split at hstep
    · cases hstep
    · cases hstep
      exact h.readSlot (by rw [hat]; rfl) hok.1
  case acqAwait l tx x =>
    have hticket : Ticket s t l tx x := hok
    obtain ⟨hlow, hhigh, -⟩ := h.diff_eq hticket
    split at hstep
    · rename_i hgrant
      cases hstep
      refine h.enter_ticket (by rw [hat]; rfl) hticket ?_
      refine counter_eq_of_mod_eq hlow (by omega : _ < 2 ^ 32) ?_
      rw [← hticket.1, ← hgrant, (h.locks l).grant]
    · cases hstep
  case tryRead l =>
    cases hstep
    exact h.goto (by rw [hat]; rfl) ⟨(h.locks l).grant, le_rfl⟩
  case tryCas l k n =>
    split at hstep
    · rename_i heq
      cases hstep
      exact h.tryCas hat heq (of_decide_eq_true hfresh)
    · cases hstep
      exact h.goto (by rw [hat]; rfl) trivial
  case relRead l =>
    cases hstep
    exact h.goto (by rw [hat]; rfl) ⟨hok, rfl⟩
  case relWrite l k =>
    cases hstep
    exact h.relWrite hat
  case relInc l k j =>
    cases hstep
    exact h.relInc hat _ rfl

theorem Inv.step {a : Act Tid Lock} (h : Inv size s) (hfew : few s a = true)
    (hfresh : fresh s a = true) (hstep : step size s a = some s') : Inv size s' := by
  cases a with
  | acquire t l | tryacquire t l =>
    simp only [Twalock.step] at hstep
    split at hstep
    · rename_i hat
      cases hstep
      exact h.goto (by rw [hat]; rfl) trivial
    · cases hstep
  | release t l =>
    simp only [Twalock.step] at hstep
    split at hstep
    · rename_i hat
      cases hstep
      exact h.goto (by rw [hat.1]; rfl) hat.2
    · cases hstep
  | step t => exact h.nextStep hfew hfresh hstep

omit [DecidableEq Tid] [DecidableEq Lock] in
theorem Initial.inv (h : Initial s) : Inv size s := by
  obtain ⟨ticket, grant, array, pc, held, arrived, granted, released, bumps⟩ := s
  obtain ⟨rfl, rfl, rfl, rfl, rfl, rfl, rfl, rfl, rfl⟩ := h
  refine ⟨fun l => ⟨rfl, rfl, ?_, Serving.init⟩, fun _ => rfl, fun _ => trivial⟩
  exact (Nat.two_pow_pos 32).trans_eq (Nat.zero_add _).symm

variable {past : List (State Tid Lock × Act Tid Lock)}

theorem run_inv (run : (machine Tid Lock size).Run past s)
    (hfew : AllSteps (fun s a => few s a = true) past)
    (hfresh : AllSteps (fun s a => fresh s a = true) past) : Inv size s := by
  have hboth : AllSteps (fun s a => few s a = true ∧ fresh s a = true) past :=
    fun p hp => ⟨hfew p hp, hfresh p hp⟩
  exact run.invariant_if (I := Inv size) (fun _ h => Initial.inv h)
    (fun _ _ _ h hok hstep => h.step hok.1 hok.2 hstep) hboth

/-- Each lock has at most one holder and is granted in the order of the tickets. A waiter
that finds its slot unchanged, although `grant` has reached the ticket in front of it, has a
releaser of the lock that is going to increment the slot; unless the slot was incremented a
multiple of `2 ^ 32` times since the waiter has read it. -/
structure Safe (size : Nat) (s : State Tid Lock) : Prop where
  exclusive : ∀ l t u, s.held t l = true → s.held u l = true → t = u
  fifo : ∀ l, s.granted l <+: s.arrived l
  awake : ∀ t l tx x u n, s.pc t = .slowAwait l tx x u n →
    (2 ^ 32 ∣ s.bumps (twaHash size tx) - n → s.bumps (twaHash size tx) = n) →
    s.array (twaHash size tx) = u → twaDiff tx (s.grant l) ≤ twaL →
    ∃ r k j, s.pc r = .relInc l k j ∧ twaHash size (wadd 32 k twaL) = twaHash size tx

omit [DecidableEq Tid] [DecidableEq Lock] in
theorem Inv.safe (h : Inv size s) : Safe size s := by
  refine ⟨fun l t u ht hu => (h.locks l).order.holder ht hu, fun l => (h.locks l).order.fifo,
    fun t l tx x u n hat hmult hslot hdiff => ?_⟩
  have hok := h.pcs t
  rw [hat] at hok
  obtain ⟨hticket, hu, hn, hwoken⟩ := hok
  obtain ⟨hlow, -, heq⟩ := h.diff_eq hticket
  have hreached : x - s.released l ≤ 1 := heq.symm.trans_le hdiff
  rcases hwoken (by omega) with hbump | ⟨r, k, j, hr, rfl⟩
  · rw [h.array, hu] at hslot
    have hsame := hmult ((Nat.modEq_iff_dvd' hn).mp hslot.symm)
    omega
  · refine ⟨r, k, j, hr, ?_⟩
    have hreleaser := h.pcs r
    rw [hr] at hreleaser
    have hk : k = j % 2 ^ 32 := hreleaser
    rw [hk, wadd_mod, hticket.1]
    rfl

theorem twalock_safe (run : (machine Tid Lock size).Run past s)
    (hfew : AllSteps (fun s a => few s a = true) past)
    (hfresh : AllSteps (fun s a => fresh s a = true) past) : Safe size s :=
  (run_inv run hfew hfresh).safe

def freeLock : State Bool Unit where
  ticket _ := 0
  grant _ := 0
  array _ := 0
  pc _ := .idle
  held _ _ := false
  arrived _ := []
  granted _ := []
  released _ := 0
  bumps _ := 0

/-- Two threads take the tickets 0 and 1, and the first one passes the lock on. -/
def handover : List (Act Bool Unit) :=
  [.acquire false (), .step false, .step false, .acquire true (), .step true, .step true,
    .release false (), .step false, .step false, .step true]

theorem twalock_safe_handover :
    ∃ past s, (machine Bool Unit 4).Run past s ∧ AllSteps (fun s a => few s a = true) past ∧
      AllSteps (fun s a => fresh s a = true) past ∧ Safe 4 s ∧ s.held true () = true ∧
      s.pc false = .relInc () 1 1 := by
  let M := ((machine Bool Unit 4).guarded few).guarded fresh
  have hexec : (M.exec freeLock handover).map (fun s => (s.held true (), s.pc false)) =
      some (true, .relInc () 1 1) := by
    decide +kernel
  obtain ⟨s, hs, hview⟩ := Option.map_eq_some_iff.mp hexec
  obtain ⟨hheld, hpc⟩ := Prod.mk.inj hview
  have run := (Machine.Run.start (M := M) (s := freeLock)
    ⟨rfl, rfl, rfl, rfl, rfl, rfl, rfl, rfl, rfl⟩).exec hs
  obtain ⟨run, hfresh⟩ := run.of_guarded
  obtain ⟨run, hfew⟩ := run.of_guarded
  exact ⟨_, s, run, hfew, hfresh, twalock_safe run hfew hfresh, hheld, hpc⟩

section OldGrant

/-- Thread `true` is inside tryacquire and has read `grant` before thread `false` acquired
and released the lock `k` times. -/
def overtaken (k : Nat) : State Bool Unit where
  ticket _ := k % 2 ^ 32
  grant _ := k % 2 ^ 32
  array i := if i = 0 then k % 2 ^ 32 else 0
  pc t := if t then .tryCas () 0 0 else .idle
  held _ _ := false
  arrived _ := List.replicate k false
  granted _ := List.replicate k false
  released _ := k
  bumps i := if i = 0 then k else 0

def round : List (Act Bool Unit) :=
  [.acquire false (), .step false, .step false, .release false (), .step false, .step false,
    .step false]


theorem update_false {β : Type} (a b c : β) :
    update (fun t : Bool => if t then a else b) false c = fun t => if t then a else c := by
  funext t
  cases t <;> rfl

theorem update_zero {β : Type} (a b c : β) :
    update (fun i : Nat => if i = 0 then a else b) 0 c =
      fun i => if i = 0 then c else b := by
  funext i
  cases i <;> rfl

theorem few_of_le {s : State Bool Unit} (h : (s.arrived ()).length ≤ s.released () + 1)
    (a : Act Bool Unit) : few s a = true := by
  have hroom : (s.arrived ()).length + 1 < s.released () + 2 ^ 32 := by omega
  cases a with
  | acquire t l | tryacquire t l | release t l => rfl
  | step t =>
    simp only [few]
    split
    · exact decide_eq_true hroom
    · exact decide_eq_true fun _ => hroom
    · rfl

theorem no_holder : (fun (_ : Bool) (_ : Unit) => false) =
    fun t => if t then fun _ => false else fun _ => false := by
  funext t
  cases t <;> rfl

theorem diff_self (k : Nat) : twaDiff (k % 2 ^ 32) (k % 2 ^ 32) = 0 := by
  rw [twaDiff, wsub_counter le_rfl (by simp), Nat.sub_self]

variable {past : List (State Bool Unit × Act Bool Unit)}

theorem exec_round (k : Nat) (hfew : AllSteps (fun s a => few s a = true) past) :
    (machine Bool Unit 1).exec (overtaken k) round = some (overtaken (k + 1)) ∧
      AllSteps (fun s a => few s a = true)
        ((machine Bool Unit 1).pastOf (overtaken k) past round) := by
  simp only [round, Machine.exec, Machine.pastOf, machine, step, nextStep, overtaken, State.goto,
    State.arrive, State.enter, State.setHeld, State.pass, Option.bind_some, twaHash, Nat.mod_one,
    no_holder, if_true, diff_self, List.length_replicate, wadd_mod, Bool.false_eq_true, if_false,
    update_eq_const_of_subsingleton, Function.const, update_false, update_zero, and_self,
    List.replicate_succ']
  refine ⟨rfl, ?_⟩
  repeat' apply AllSteps.cons
  all_goals first | exact hfew | exact few_of_le (by simp) _

theorem overtaken_run (k : Nat) : ∃ past, (machine Bool Unit 1).Run past (overtaken k) ∧
    AllSteps (fun s a => few s a = true) past := by
  induction k with
  | zero =>
    have hexec : (machine Bool Unit 1).exec freeLock [.tryacquire true (), .step true] =
        some (overtaken 0) := by
      refine Machine.exec_cons rfl (Machine.exec_cons rfl (congrArg some ?_))
      rw [overtaken, State.mk.injEq]
      refine ⟨rfl, rfl, ?_, ?_, rfl, rfl, rfl, rfl, ?_⟩
      · funext i
        cases i <;> rfl
      · funext t
        cases t <;> rfl
      · funext i
        cases i <;> rfl
    have run := (Machine.Run.start (M := machine Bool Unit 1) (s := freeLock)
      ⟨rfl, rfl, rfl, rfl, rfl, rfl, rfl, rfl, rfl⟩).exec hexec
    exact ⟨_, run, AllSteps.cons rfl (AllSteps.cons rfl fun _ hp => absurd hp List.not_mem_nil)⟩
  | succ k ih =>
    obtain ⟨past, run, hfew⟩ := ih
    obtain ⟨hexec, hfew⟩ := exec_round k hfew
    exact ⟨_, run.exec hexec, hfew⟩

/-- Thread `false` acquires the lock once more, and the ticket is the number that thread
`true` has read. -/
theorem exec_again {k : Nat} (hk : (k + 1) % 2 ^ 32 = 0)
    (hfew : AllSteps (fun s a => few s a = true) past) :
    ((machine Bool Unit 1).exec (overtaken k) [.acquire false (), .step false, .step false,
      .step true]).map State.held = some (fun _ _ => true) ∧
      AllSteps (fun s a => few s a = true)
        ((machine Bool Unit 1).pastOf (overtaken k) past [.acquire false (), .step false,
          .step false, .step true]) := by
  simp only [Machine.exec, Machine.pastOf, machine, step, nextStep, overtaken, State.goto,
    State.arrive, State.enter, State.setHeld, Option.bind_some, no_holder, if_true, diff_self,
    List.length_replicate, wadd_mod, Bool.false_eq_true, if_false, update_false, hk,
    update_eq_const_of_subsingleton, Function.const, Option.map_some]
  refine ⟨congrArg some ?_, ?_⟩
  · funext t
    cases t <;> rfl
  repeat' apply AllSteps.cons
  all_goals first | exact hfew | exact few_of_le (by simp) _

/-- The tryacquire of thread `true` succeeds while thread `false` has the lock. -/
theorem twalock_old_grant :
    ∃ past s, (machine Bool Unit 1).Run past s ∧ AllSteps (fun s a => few s a = true) past ∧
      s.held true () = true ∧ s.held false () = true ∧ ¬ Safe 1 s := by
  obtain ⟨past, run, hfew⟩ := overtaken_run (2 ^ 32 - 1)
  obtain ⟨hexec, hfew⟩ := exec_again (k := 2 ^ 32 - 1) (by decide) hfew
  obtain ⟨s, hs, hheld⟩ := Option.map_eq_some_iff.mp hexec
  have hboth (t : Bool) : s.held t () = true := congrFun (congrFun hheld t) ()
  refine ⟨_, s, run.exec hs, hfew, hboth true, hboth false, fun hsafe => ?_⟩
  exact Bool.noConfusion (hsafe.exclusive () true false (hboth true) (hboth false))

end OldGrant

end Libvsync.Spinlock.Twalock
