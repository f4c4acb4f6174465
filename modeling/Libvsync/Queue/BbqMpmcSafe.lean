import Libvsync.Queue.BbqMpmcDequeue

/-!
What every run of `bbq_mpmc` keeps, under any interleaving of its threads.
-/

namespace Libvsync.Queue.BbqMpmc

open Libvsync.Core
open Libvsync.Queue.Bbq
open Libvsync.Queue.BbqSpsc (Config EnqCall DeqCall place)
open Libvsync.Queue.BbqCalls (MpmcQueue mpmcInitial bbqMpmcInit bbqMpmcInit_valid)

variable {Tid α : Type} [DecidableEq Tid] {cfg : Config} {fr : Prop} {s s' : State Tid α} {g : Uses}

/-- The uses before the first one are full, and block 0 is opened. -/
theorem initial_cells (hcfg : cfg.Valid) {fill : Nat → Nat}
    (hbefore : ∀ u, u < cfg.blocks → fill u = cfg.entries) (hfirst : fill cfg.blocks = 0) :
    Cells cfg (fun i => if i ≠ 0 then cfg.blkSize else cfg.initValue) cfg.blocks fill := by
  have hsize := hcfg.size
  have hsmall := hcfg.small
  have hpos := cfg.blocks_pos
  have hcompose (l : Nat) (hl : l < 2 ^ 20) : bbqLocalCompose 0 l = l := by
    rw [bbqLocalCompose_eq _ hl]
    omega
  rw [Cells, Nat.add_sub_cancel_left]
  intro u hu hu'
  have hdiv : (u - 1) / cfg.blocks = 0 := Nat.div_eq_of_lt (by omega)
  dsimp only
  rw [word, hdiv]
  rcases Nat.lt_or_ge u cfg.blocks with hlt | hge
  · rw [hbefore u hlt, hcompose _ (by omega), Nat.mod_eq_of_lt hlt, if_pos (by omega)]
    omega
  · obtain rfl : u = cfg.blocks := by omega
    rw [hfirst, hcompose _ (by omega), Nat.mod_self]
    rfl

/-- The cursors start as if the uses before the first one were committed and consumed. -/
theorem initial_ring (hcfg : cfg.Valid) (entry : Nat → Nat → α) :
    Ring cfg (mpmcInitial cfg entry) (base cfg) (base cfg) {
      alloc := cfg.blocks
      comm := cfg.blocks
      res := cfg.blocks
      cons := cfg.blocks
      added := upTo cfg (base cfg)
      done := fun p => decide (p < base cfg)
      gone := fun p => decide (p < base cfg) } := by
  have hpos := cfg.blocks_pos
  have hentries := hcfg.entries
  have hlast : base cfg ≤ (cfg.blocks + 1) * cfg.entries := start_le cfg (Nat.le_succ _)
  have hfits (u : Nat) : cfg.initValue + 8 * upTo cfg (base cfg) u < 2 ^ 20 :=
    Ring.fits_of_le hcfg upTo_le
  have hcells : Cells cfg _ cfg.blocks (upTo cfg (base cfg)) := initial_cells hcfg
    (fun u hu => upTo_le.antisymm ((upTo_full hentries).mpr (start_le cfg hu))) (upTo_none le_rfl)
  have hversion : (cfg.blocks - 1) / cfg.blocks = 0 := Nat.div_eq_of_lt (by omega)
  have hmarked : Cells cfg _ cfg.blocks (marked cfg fun p => decide (p < base cfg)) :=
    initial_cells hcfg (fun u hu => marked_full.mpr fun j hj => decide_eq_true (by
      have hbelow := start_le cfg (Nat.succ_le_of_lt hu)
      rw [Nat.succ_mul] at hbelow
      rw [base]
      omega)) (marked_none fun k hk => of_decide_eq_true hk)
  exact {
    version := by
      rw [hversion]
      decide
    widx := (Nat.zero_add _).le
    alloc := le_rfl
    comm := (Nat.zero_add _).ge.trans (Nat.le_succ _)
    ridx := (Nat.zero_add _).le
    res := le_rfl
    cons := Nat.le_succ _
    behind := le_rfl
    full := le_rfl
    room := hlast
    taken := le_rfl
    rest := hlast
    done := fun p hp => of_decide_eq_true hp
    gone := fun p hp => of_decide_eq_true hp
    ready := fun p hp => decide_eq_true hp
    reuse := fun p hp => by
      have hle : (cfg.blocks + 1 - cfg.blocks) * cfg.entries ≤ base cfg :=
        start_le cfg (by omega)
      exact decide_eq_true (hp.trans_le hle)
    added := hfits
    overMin := fun u => Nat.min_eq_left upTo_le
    allocated := hcells
    committed := hmarked
    reserved := hcells
    consumed := hmarked }

theorem initial_inv (hcfg : cfg.Valid) (h : Initial cfg s) : ∃ g, Inv cfg fr s g := by
  obtain ⟨queue, pc, enqueued, granted, received⟩ := s
  obtain ⟨⟨entry, rfl⟩, rfl, rfl, rfl, rfl⟩ := h
  refine ⟨_, {
    ring := initial_ring hcfg entry
    kept := ?_
    pcs := fun _ => trivial
    writers := ?_
    readers := ?_
    opener := .inl (Nat.zero_add _).ge
    follower := fun _ => ⟨?_, .inl (Nat.zero_add _).ge⟩
    shares := fun _ => rfl }⟩
  · intro j v hv
    cases hv
  · intro j hj
    exact absurd hj (Nat.not_lt_zero j)
  · intro j hj
    exact absurd hj (Nat.not_lt_zero j)
  · change cfg.blocks ≤ 0 + cfg.blocks + 1
    omega

theorem Inv.step {a : Act Tid α} (h : Inv cfg fr s g) (hcfg : cfg.Valid)
    (hfits : fits cfg s a = true) (hprompt : fr → prompt cfg s a = true)
    (hstep : step cfg s a = some s') : ∃ g', Inv cfg fr s' g' := by
  cases a with
  | enqueue t buf wait =>
    cases hat : s.pc t with
    | idle n =>
      rw [BbqMpmc.step, hat] at hstep
      dsimp only at hstep
      split at hstep
      next hlength =>
        cases hstep
        exact ⟨g, h.goto (by rw [hat]; rfl) (nextEnqueue_plain ⟨_, buf, wait⟩ true)
          (enterEnqueue_ok hlength)⟩
      next => cases hstep
    | _ =>
      rw [BbqMpmc.step, hat] at hstep
      cases hstep
  | dequeue t count wait =>
    cases hat : s.pc t with
    | idle n =>
      rw [BbqMpmc.step, hat] at hstep
      dsimp only at hstep
      split at hstep
      next hcount =>
        cases hstep
        exact ⟨g, h.goto (by rw [hat]; rfl) (nextDequeue_plain ⟨_, count, wait⟩ true)
          (enterDequeue_ok hcount)⟩
      next => cases hstep
    | _ =>
      rw [BbqMpmc.step, hat] at hstep
      cases hstep
  | step t =>
    rw [BbqMpmc.step] at hstep
    split at hstep
    · exact h.enqueueStep hcfg hfits hstep
    · exact h.dequeueStep hcfg hprompt hstep

theorem run_inv {past : List (State Tid α × Act Tid α)} (hcfg : cfg.Valid)
    (run : (machine Tid α cfg).Run past s)
    (hok : AllSteps (fun s a => fits cfg s a = true ∧ (fr → prompt cfg s a = true)) past) :
    ∃ g, Inv cfg fr s g := by
  refine run.invariant_if (I := fun s => ∃ g, Inv cfg fr s g) (fun s => initial_inv hcfg) ?_ hok
  rintro s a s' ⟨g, h⟩ ⟨hfits, hprompt⟩ hstep
  exact h.step hcfg hfits hprompt hstep

/-- The consumers are granted the entries in the order in which the producers took their places,
each entry once, and a consumer has put the values that it was granted in its buffers, but for
those that it is to copy. No assertion has failed. A producer is not about to write to the place
of another entry that some consumer is to read, now or later. -/
structure Safe (cfg : Config) (s : State Tid α) : Prop where
  asserted : ∀ t, s.pc t ≠ .assertFailed
  behind : s.granted.length ≤ s.enqueued.length
  capacity : s.enqueued.length ≤ s.granted.length + cfg.blocks * cfg.entries
  fifo : ∀ t, s.share t = s.received t ++ s.coming (s.pc t)
  notOverwritten : ∀ t call widx first space offset value todo,
    s.pc t = .enqCopy call widx first space offset (value :: todo) →
      ∀ j, j < s.enqueued.length → (s.granted.length ≤ j ∨ ∃ u, (s.pc u).reads j) →
        j ≠ first + (space >>> bbqEntrySizeLog - (todo.length + 1)) →
          place cfg (base cfg + j) ≠ (blockOf cfg widx, offset)

/-- An entry that is not granted, or that is to be read, is not consumed. -/
theorem Inv.not_gone (h : Inv cfg fr s g) {j : Nat}
    (hj : s.granted.length ≤ j ∨ ∃ u, (s.pc u).reads j) : g.gone (base cfg + j) = false := by
  rcases hj with hge | ⟨u, hread⟩
  · apply Bool.eq_false_of_not_eq_true
    intro hgone
    have hlt : base cfg + j < base cfg + s.granted.length := h.ring.gone _ hgone
    omega
  · have hok := h.pcs u
    cases hat : s.pc u with
    | deqCopy call r reserved first total got =>
      rw [hat] at hok hread
      obtain ⟨-, m, hrange⟩ := hok
      obtain ⟨hfirst, hlast⟩ := hread
      rw [hrange.total, shiftRight_size] at hlast
      obtain ⟨k, rfl⟩ := Nat.exists_eq_add_of_le hfirst
      rw [← Nat.add_assoc]
      exact hrange.fresh k (by omega)
    | _ =>
      rw [hat] at hread
      exact hread.elim

theorem Inv.notOverwritten (h : Inv cfg fr s g) (hcfg : cfg.Valid) {t : Tid} {call : EnqCall α}
    {widx first space offset : Nat} {value : α} {todo : List α}
    (hat : s.pc t = .enqCopy call widx first space offset (value :: todo)) {j : Nat}
    (hj : j < s.enqueued.length) (hthere : s.granted.length ≤ j ∨ ∃ u, (s.pc u).reads j)
    (hother : j ≠ first + (space >>> bbqEntrySizeLog - (todo.length + 1))) :
    place cfg (base cfg + j) ≠ (blockOf cfg widx, offset) := by
  have hok := h.pcs t
  rw [hat] at hok
  obtain ⟨-, written, hrange⟩ := hok
  have hfits := hrange.fits
  have hfresh := hrange.fresh
  have hlength := hrange.length_le
  rw [List.length_cons] at hfits hfresh hlength
  rw [hrange.space, List.length_cons, shiftRight_size, Nat.add_sub_cancel_right] at hother
  obtain ⟨hdiv, hrem⟩ := pos_range (x := base cfg + first) (j := written.length) hcfg.entries
    (by omega)
  have htarget : place cfg (base cfg + first + written.length) = (blockOf cfg widx, offset) := by
    rw [place_eq hcfg, hdiv, hrem, hrange.block, hrange.offset, blockOf_eq]
  have hnot := h.ring.not_gone (hfresh written.length (by omega))
  rw [← htarget]
  apply h.ring.place_ne (h.not_gone hthere) (Nat.add_lt_add_left hj _) hnot
  · rw [State.taken]
    omega
  · omega

theorem Inv.consumed_le (h : Inv cfg fr s g) :
    (g.comm + 1 - cfg.blocks) * cfg.entries ≤ s.claimed cfg := by
  apply Nat.le_of_not_lt
  intro hlt
  exact absurd (h.ring.gone _ (h.ring.reuse _ hlt)) (lt_irrefl _)

theorem Inv.capacity (h : Inv cfg fr s g) :
    s.enqueued.length ≤ s.granted.length + cfg.blocks * cfg.entries := by
  have hroom : base cfg + s.enqueued.length ≤ (g.alloc + 1) * cfg.entries := h.ring.room
  have halloc := start_le cfg (Nat.succ_le_succ h.ring.alloc)
  have hconsumed : (g.comm + 1 - cfg.blocks) * cfg.entries ≤ base cfg + s.granted.length :=
    h.consumed_le
  have hspan : (g.comm + 1) * cfg.entries ≤
      (g.comm + 1 - cfg.blocks) * cfg.entries + cfg.blocks * cfg.entries := by
    rw [← Nat.add_mul]
    exact start_le cfg (by omega)
  change (g.alloc + 1) * cfg.entries ≤ (g.comm + 1) * cfg.entries at halloc
  omega

theorem Inv.safe (h : Inv cfg fr s g) (hcfg : cfg.Valid) : Safe cfg s where
  asserted t hfailed := by
    have hok := h.pcs t
    rw [hfailed] at hok
    exact hok
  behind := h.granted_le
  capacity := h.capacity
  fifo := h.shares
  notOverwritten _ _ _ _ _ _ _ _ hat _ := h.notOverwritten hcfg hat

theorem marked_upTo {p : Nat → Bool} {bound u : Nat}
    (hall : ∀ k, u * cfg.entries ≤ k → k < bound → p k = true)
    (hbelow : ∀ k, p k = true → k < bound) : marked cfg p u = upTo cfg bound u := by
  apply le_antisymm
  · apply Nat.le_of_not_lt
    intro hlt
    have hlast := hlt.trans_le marked_le
    have hmarked := marked_first (y := upTo cfg bound u + 1)
      (fun j hj hp => by
        have hk := hbelow _ hp
        rw [upTo]
        omega) hlt _ (Nat.lt_succ_self _)
    have hk := hbelow _ hmarked
    rw [upTo] at hlast hk
    omega
  · apply le_marked upTo_le
    intro j hj
    rw [upTo] at hj
    exact hall _ (Nat.le_add_right ..) (by omega)

/-- With no call running, all that was taken is committed, and all that was granted is
consumed, and no block is being opened. -/
theorem Inv.settled (h : Inv cfg True s g) (hidle : ∀ t, ∃ n, s.pc t = .idle n) :
    (∀ p, base cfg ≤ p → p < s.taken cfg → g.done p = true) ∧
      (∀ p, base cfg ≤ p → p < s.claimed cfg → g.gone p = true) ∧
        g.comm = s.queue.widx + cfg.blocks ∧ g.cons = s.queue.ridx + cfg.blocks := by
  have hwidx := h.ring.widx
  have halloc := h.ring.alloc
  have hridx := h.ring.ridx
  have hres := h.ring.res
  refine ⟨?_, ?_, ?_, ?_⟩
  · intro p hp hlt
    obtain ⟨j, rfl⟩ := Nat.exists_eq_add_of_le hp
    by_contra hdone
    obtain ⟨t, hwrites⟩ := h.writers j (Nat.lt_of_add_lt_add_left hlt)
      (Bool.eq_false_of_not_eq_true hdone)
    obtain ⟨n, hat⟩ := hidle t
    rw [hat] at hwrites
    exact hwrites
  · intro p hp hlt
    obtain ⟨j, rfl⟩ := Nat.exists_eq_add_of_le hp
    by_contra hgone
    obtain ⟨t, hreads⟩ := h.readers j (Nat.lt_of_add_lt_add_left hlt)
      (Bool.eq_false_of_not_eq_true hgone)
    obtain ⟨n, hat⟩ := hidle t
    rw [hat] at hreads
    exact hreads
  · rcases h.opener with hcomm | ⟨t, hopens⟩
    · omega
    · obtain ⟨n, hat⟩ := hidle t
      rw [hat] at hopens
      cases hopens
  · rcases (h.follower trivial).2 with hcons | ⟨t, hfollows⟩
    · omega
    · obtain ⟨n, hat⟩ := hidle t
      rw [hat] at hfollows
      cases hfollows

theorem Inv.near (h : Inv cfg fr s g) (hcfg : cfg.Valid) : g.comm ≤ g.res + cfg.blocks := by
  have hentries := hcfg.entries
  have hrest := h.consumed_le.trans h.ring.rest
  have hle := Nat.le_of_mul_le_mul_right hrest hentries
  omega

theorem Inv.count (h : Inv cfg True s g) (hcfg : cfg.Valid)
    (hidle : ∀ t, ∃ n, s.pc t = .idle n) :
    bbqMpmcCount cfg s.queue = s.enqueued.length - s.granted.length := by
  have hsize := hcfg.size
  have hsmall := hcfg.small
  have hpos := cfg.blocks_pos
  have hblocks := hcfg.blocks_le
  have hnear := h.near hcfg
  have halloc := h.ring.alloc
  have hwidx := h.ring.widx
  have hridx := h.ring.ridx
  have hres := h.ring.res
  have hbehind := h.ring.behind
  have hlength := h.granted_le
  obtain ⟨hdone, hgone, hcomm, hcons⟩ := h.settled hidle
  have hopen : g.alloc = g.comm := by omega
  have hfollow : g.res = g.cons := by omega
  have hversion : g.comm - 1 < 2 ^ 44 * cfg.blocks :=
    (Nat.div_lt_iff_lt_mul hpos).mp h.ring.version
  -- what the two cursors count
  have htaken : g.comm * cfg.entries + upTo cfg (s.taken cfg) g.comm = s.taken cfg := by
    have hroom := h.ring.room
    rw [hopen] at hroom
    exact upTo_last h.ring.full hroom
  have hclaimed : g.cons * cfg.entries + upTo cfg (s.claimed cfg) g.cons = s.claimed cfg := by
    have hrest := h.ring.rest
    rw [hfollow] at hrest
    exact upTo_last h.ring.taken hrest
  have hcommitted : bbqLocalIdx (s.queue.committed (blockOf cfg s.queue.widx)) =
      cfg.initValue + 8 * upTo cfg (s.taken cfg) g.comm := by
    have hcell := h.ring.committed.self le_rfl (by omega)
    have hblock : g.comm % cfg.blocks = s.queue.widx % cfg.blocks := by
      rw [hcomm, Nat.add_mod_right]
    rw [blockOf_eq, ← hblock, hcell, word_idx (Ring.fits_of_le hcfg marked_le),
      marked_upTo (fun p hp => hdone p ((start_le cfg (by omega)).trans hp)) h.ring.done]
  have hconsumed : bbqLocalIdx (s.queue.consumed (blockOf cfg s.queue.ridx)) =
      cfg.initValue + 8 * upTo cfg (s.claimed cfg) g.cons := by
    have hcell := h.ring.consumed.self le_rfl (by omega)
    have hblock : g.cons % cfg.blocks = s.queue.ridx % cfg.blocks := by
      rw [hcons, Nat.add_mod_right]
    rw [blockOf_eq, ← hblock, hcell, word_idx (Ring.fits_of_le hcfg marked_le),
      marked_upTo (fun p hp => hgone p ((start_le cfg (by omega)).trans hp)) h.ring.gone]
  have htop : upTo cfg (s.taken cfg) g.comm ≤ cfg.entries := upTo_le
  have hbottom : upTo cfg (s.claimed cfg) g.cons ≤ cfg.entries := upTo_le
  obtain ⟨d, hd⟩ := Nat.exists_eq_add_of_le hbehind
  have hsub : wsub 64 s.queue.widx s.queue.ridx = d := by
    rw [wsub]
    omega
  have hspan : cfg.blkSize - cfg.initValue = 8 * cfg.entries := by omega
  have hmul : g.comm * cfg.entries = g.cons * cfg.entries + d * cfg.entries := by
    rw [hd, Nat.add_mul]
  have hsmallMul : d * cfg.entries ≤ 2 ^ 16 * 2 ^ 13 := Nat.mul_le_mul (by omega) (by omega)
  have hbytes : d * (8 * cfg.entries) = 8 * (d * cfg.entries) := Nat.mul_left_comm ..
  rw [State.taken] at htaken htop hcommitted
  rw [State.claimed] at hclaimed hbottom hconsumed
  simp only [bbqMpmcCount, hcommitted, hconsumed, hsub, hspan, hbytes, bbqEntrySizeLog,
    Nat.shiftRight_eq_div_pow]
  rw [wadd, wsub]
  omega

/-- For every run of any number of threads. `BBQ_MPMC_COUNT` is right between the calls if the
consumers that opened a block were not overtaken by a round. -/
theorem bbq_mpmc_safe {cacheline blockNumLog size : Nat}
    (hinit : bbqMpmcInit cacheline blockNumLog size = some cfg)
    {past : List (State Tid α × Act Tid α)} (run : (machine Tid α cfg).Run past s)
    (hfits : AllSteps (fun s a => fits cfg s a = true) past) :
    Safe cfg s ∧ (AllSteps (fun s a => prompt cfg s a = true) past →
      (∀ t, ∃ n, s.pc t = .idle n) →
        bbqMpmcCount cfg s.queue = s.enqueued.length - s.granted.length) := by
  have hcfg := bbqMpmcInit_valid hinit
  constructor
  · obtain ⟨g, h⟩ : ∃ g, Inv cfg False s g :=
      run_inv hcfg run fun p hp => ⟨hfits p hp, False.elim⟩
    exact h.safe hcfg
  · intro hprompt hidle
    obtain ⟨g, h⟩ : ∃ g, Inv cfg True s g :=
      run_inv hcfg run fun p hp => ⟨hfits p hp, fun _ => hprompt p hp⟩
    exact h.count hcfg hidle

/-- Two producers share a block of 31 entries, and the one that took its end commits first and
opens the next block. Two consumers share the block in the same way, and one entry is left. -/
def meet : List (Act Bool Nat) :=
  List.flatten [
    [.enqueue false (List.range 20) false, .enqueue true (List.range 13) false],
    List.replicate 3 (.step false), List.replicate 27 (.step true), List.replicate 21 (.step false),
    [.dequeue false 20 false, .dequeue true 12 false],
    List.replicate 4 (.step false), List.replicate 29 (.step true),
    List.replicate 21 (.step false)]

theorem bbq_mpmc_safe_meet :
    ∃ past s, bbqMpmcInit 64 1 1216 = some ⟨1, 512, 264⟩ ∧
      (machine Bool Nat ⟨1, 512, 264⟩).Run past s ∧ Safe ⟨1, 512, 264⟩ s ∧
        s.received false = List.range 20 ∧ s.received true = List.range 12 ∧
          bbqMpmcCount ⟨1, 512, 264⟩ s.queue = s.enqueued.length - s.granted.length := by
  let M := machine Bool Nat ⟨1, 512, 264⟩
  let s₀ : State Bool Nat :=
    ⟨mpmcInitial ⟨1, 512, 264⟩ fun _ _ => 0, fun _ => .idle 0, [], [], fun _ => []⟩
  have hinit : bbqMpmcInit 64 1 1216 = some ⟨1, 512, 264⟩ := by decide +kernel
  have hexec : (M.exec s₀ meet).map
      (fun s => (s.received false, s.received true, s.pc false, s.pc true)) =
        some (List.range 20, List.range 12, .idle 20, .idle 12) := by
    decide +kernel
  obtain ⟨s, hs, hview⟩ := Option.map_eq_some_iff.mp hexec
  obtain ⟨hfalse, hrest⟩ := Prod.mk.inj hview
  obtain ⟨htrue, hpcs⟩ := Prod.mk.inj hrest
  obtain ⟨hfirst, hsecond⟩ := Prod.mk.inj hpcs
  have run := (Machine.Run.start (M := M) (s := s₀) ⟨⟨_, rfl⟩, rfl, rfl, rfl, rfl⟩).exec hs
  have hfits : ∀ p ∈ M.pastOf s₀ [] meet, fits ⟨1, 512, 264⟩ p.1 p.2 = true := by
    decide +kernel
  have hprompt : ∀ p ∈ M.pastOf s₀ [] meet, prompt ⟨1, 512, 264⟩ p.1 p.2 = true := by
    decide +kernel
  obtain ⟨hsafe, hcount⟩ := bbq_mpmc_safe hinit run hfits
  refine ⟨_, s, hinit, run, hsafe, hfalse, htrue, hcount hprompt ?_⟩
  intro t
  cases t with
  | false => exact ⟨_, hfirst⟩
  | true => exact ⟨_, hsecond⟩

end Libvsync.Queue.BbqMpmc
