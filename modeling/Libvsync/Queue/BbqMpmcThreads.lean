import Libvsync.Core.Turns
import Libvsync.Queue.BbqMpmcInv

/-!
What the threads of `bbq_mpmc` rely on. An entry that was taken belongs to one thread until it is
committed, and again from its reservation until it is consumed; what a thread has read of the
other cursors stays true, or its compare-and-swap fails.
-/

namespace Libvsync.Queue.BbqMpmc

open Libvsync.Core
open Libvsync.Queue.Bbq
open Libvsync.Queue.BbqSpsc (Config EnqCall DeqCall place)
open Libvsync.Queue.BbqCalls (MpmcQueue)

variable {Tid α : Type} {cfg : Config} {fr : Prop}

/-- The number of the entry that is enqueued first: the uses before count as used up. -/
def base (cfg : Config) : Nat := cfg.blocks * cfg.entries

def State.taken (cfg : Config) (s : State Tid α) : Nat := base cfg + s.enqueued.length

def State.claimed (cfg : Config) (s : State Tid α) : Nat := base cfg + s.granted.length

def entryAt (cfg : Config) (q : MpmcQueue α) (p : Nat) : α :=
  q.entry (place cfg p).1 (place cfg p).2

/-- The range of a producer that is copying: `written` is in the block. -/
structure Copies (cfg : Config) (s : State Tid α) (g : Uses) (t : Tid)
    (widx first space offset : Nat) (written todo : List α) : Prop where
  block : (base cfg + first) / cfg.entries % cfg.blocks = widx % cfg.blocks
  pos : 0 < written.length + todo.length
  space : space = 8 * (written.length + todo.length)
  fits : (base cfg + first) % cfg.entries + (written.length + todo.length) ≤ cfg.entries
  offset : offset = cfg.initValue + 8 * ((base cfg + first) % cfg.entries + written.length)
  values : ∀ j v, (written ++ todo)[j]? = some v → s.enqueued[first + j]? = some (t, v)
  fresh : ∀ j, j < written.length + todo.length → g.done (base cfg + first + j) = false
  stored : ∀ j v, written[j]? = some v → entryAt cfg s.queue (base cfg + first + j) = v

/-- The range of a consumer that is copying. -/
structure Reads (cfg : Config) (s : State Tid α) (g : Uses) (t : Tid)
    (ridx reserved first total m : Nat) (got : List α) : Prop where
  block : (base cfg + first) / cfg.entries % cfg.blocks = ridx % cfg.blocks
  pos : 0 < m
  total : total = 8 * m
  place : bbqLocalIdx reserved = cfg.initValue + 8 * ((base cfg + first) % cfg.entries)
  fits : (base cfg + first) % cfg.entries + m ≤ cfg.entries
  got : got.length ≤ m
  owner : ∀ j, j < m → s.granted[first + j]? = some t
  fresh : ∀ j, j < m → g.gone (base cfg + first + j) = false

def Batch (call : EnqCall α) : Prop := call.rest ≠ [] ∧ call.rest.length < 2 ^ 29

def Wish (call : DeqCall) : Prop := call.rest ≠ 0 ∧ call.rest < 2 ^ 29

/-- What a consumer knows that opens the use behind use `u`. -/
structure Behind (cfg : Config) (fr : Prop) (s : State Tid α) (g : Uses) (ridx vsn u : Nat) :
    Prop where
  vsn : vsn = u / cfg.blocks
  block : u % cfg.blocks = ridx % cfg.blocks
  after : ridx + cfg.blocks ≤ u
  opened : u ≤ g.res
  taken : (u + 1) * cfg.entries ≤ s.claimed cfg
  idx : ridx ≤ s.queue.ridx
  prompt : fr → u = ridx + cfg.blocks

/-- What thread `t` knows where it stands. -/
def PcOk (cfg : Config) (fr : Prop) (s : State Tid α) (g : Uses) (t : Tid) : Pc α → Prop
  | .idle _ => True
  | .enqWidx call => Batch call
  | .enqAllocated call widx | .enqAdd call widx => Batch call ∧ widx ≤ s.queue.widx
  | .enqCopy call widx first space offset todo => call.rest.length < 2 ^ 29 ∧
      ∃ written, Copies cfg s g t widx first space offset written todo
  | .enqConsumed call widx => Batch call ∧ widx ≤ s.queue.widx ∧
      (widx + cfg.blocks + 1) * cfg.entries ≤ s.taken cfg
  | .resetCommitted call widx => Batch call ∧ widx ≤ s.queue.widx ∧
      (widx + cfg.blocks + 1) * cfg.entries ≤ s.taken cfg ∧
        ∀ p, p < (widx + 2) * cfg.entries → g.gone p = true
  | .resetAllocated call widx => Batch call ∧ widx ≤ s.queue.widx ∧ widx + cfg.blocks + 1 ≤ g.comm
  | .advanceWidx call widx => Batch call ∧ widx + cfg.blocks + 1 ≤ g.alloc
  | .deqRidx call => Wish call
  | .deqReserved call ridx => Wish call ∧ ridx ≤ s.queue.ridx
  | .deqCommitted call ridx reserved => Wish call ∧
      ∃ u x, Seen cfg (s.claimed cfg) g ridx reserved u x ∧ x < cfg.entries
  | .deqAllocated call ridx reserved committedSpace total => Wish call ∧
      ∃ u x y m, Seen cfg (s.claimed cfg) g ridx reserved u x ∧ 0 < m ∧ total = 8 * m ∧
        x + m ≤ y ∧ y ≤ cfg.entries ∧ committedSpace = cfg.initValue + 8 * y ∧
          (s.claimed cfg = u * cfg.entries + x → y ≤ marked cfg g.done u)
  | .deqReserve call ridx reserved total => Wish call ∧
      ∃ u x m, Seen cfg (s.claimed cfg) g ridx reserved u x ∧ 0 < m ∧ total = 8 * m ∧
        x + m ≤ cfg.entries ∧
          (s.claimed cfg = u * cfg.entries + x →
            ∀ j, j < x + m → g.done (u * cfg.entries + j) = true)
  | .deqCopy call ridx reserved first total got => Wish call ∧
      ∃ m, Reads cfg s g t ridx reserved first total m got
  | .deqNext call ridx reserved => Wish call ∧ ridx ≤ s.queue.ridx ∧
      ∃ u, Seen cfg (s.claimed cfg) g ridx reserved u cfg.entries
  | .resetConsumed call ridx vsn => Wish call ∧
      ∃ u, Behind cfg fr s g ridx vsn u ∧ u + 1 ≤ g.comm
  | .resetReserved call ridx vsn => Wish call ∧
      ∃ u, Behind cfg fr s g ridx vsn u ∧ u + 1 ≤ g.cons
  | .advanceRidx call ridx => Wish call ∧ ridx + cfg.blocks + 1 ≤ g.res
  | .assertFailed => False

/-- The entries, by their numbers, that a thread is to commit, and to consume. -/
def Pc.writes : Pc α → Nat → Prop
  | .enqCopy _ _ first space _ _, j => first ≤ j ∧ j < first + space >>> bbqEntrySizeLog
  | _, _ => False

def Pc.reads : Pc α → Nat → Prop
  | .deqCopy _ _ _ first total _, j => first ≤ j ∧ j < first + total >>> bbqEntrySizeLog
  | _, _ => False

/-- The index that the thread moves on from, when it has opened the next use. -/
def Pc.opens : Pc α → Option Nat
  | .resetAllocated _ widx | .advanceWidx _ widx => some widx
  | _ => none

def Pc.follows : Pc α → Option Nat
  | .resetReserved _ ridx _ | .advanceRidx _ ridx => some ridx
  | _ => none

/-- The values that were granted to a thread, in their order. -/
def State.share [DecidableEq Tid] (s : State Tid α) (t : Tid) : List α :=
  ((s.granted.zip s.enqueued).filter fun x => x.1 = t).map fun x => x.2.2

/-- What a thread has been granted and not copied. -/
def State.coming (s : State Tid α) : Pc α → List α
  | .deqCopy _ _ _ first total got =>
    ((s.enqueued.drop (first + got.length)).take (total >>> bbqEntrySizeLog - got.length)).map
      fun x => x.2
  | _ => []

/-- Committed values are in their places until they are consumed. -/
def Kept (cfg : Config) (s : State Tid α) (g : Uses) : Prop :=
  ∀ j v, s.enqueued[j]? = some v → g.done (base cfg + j) = true →
    g.gone (base cfg + j) = false → entryAt cfg s.queue (base cfg + j) = v.2

structure Inv [DecidableEq Tid] (cfg : Config) (fr : Prop) (s : State Tid α) (g : Uses) : Prop where
  ring : Ring cfg s.queue (s.taken cfg) (s.claimed cfg) g
  kept : Kept cfg s g
  pcs : ∀ t, PcOk cfg fr s g t (s.pc t)
  writers : ∀ j, j < s.enqueued.length → g.done (base cfg + j) = false →
    ∃ t, (s.pc t).writes j
  readers : ∀ j, j < s.granted.length → g.gone (base cfg + j) = false → ∃ t, (s.pc t).reads j
  opener : g.comm ≤ s.queue.widx + cfg.blocks ∨ ∃ t, (s.pc t).opens = some s.queue.widx
  follower : fr → g.cons ≤ s.queue.ridx + cfg.blocks + 1 ∧
    (g.cons ≤ s.queue.ridx + cfg.blocks ∨ ∃ t, (s.pc t).follows = some s.queue.ridx)
  shares : ∀ t, s.share t = s.received t ++ s.coming (s.pc t)

/-- The state goes on; the entries that change are those of thread `t`. -/
structure Grows (cfg : Config) (t : Tid) (s s' : State Tid α) (g g' : Uses) : Prop where
  widx : s.queue.widx ≤ s'.queue.widx
  ridx : s.queue.ridx ≤ s'.queue.ridx
  enqueued : s.enqueued <+: s'.enqueued
  granted : s.granted <+: s'.granted
  alloc : g.alloc ≤ g'.alloc
  comm : g.comm ≤ g'.comm
  res : g.res ≤ g'.res
  cons : g.cons ≤ g'.cons
  done : ∀ p, g.done p = true → g'.done p = true
  gone : ∀ p, g.gone p = true → g'.gone p = true
  doneOwn : ∀ j x, s.enqueued[j]? = some x → x.1 ≠ t → g.done (base cfg + j) = false →
    g'.done (base cfg + j) = false
  goneOwn : ∀ j u, s.granted[j]? = some u → u ≠ t → g.gone (base cfg + j) = false →
    g'.gone (base cfg + j) = false
  entry : ∀ j x, s.enqueued[j]? = some x → x.1 ≠ t → g.done (base cfg + j) = false →
    entryAt cfg s'.queue (base cfg + j) = entryAt cfg s.queue (base cfg + j)

section Grows

variable {s s' : State Tid α} {g g' : Uses} {t u : Tid}

/-- The entries and who has them are the same. -/
theorem Grows.of_same (t : Tid) (henqueued : s'.enqueued = s.enqueued)
    (hgranted : s'.granted = s.granted) (hentry : s'.queue.entry = s.queue.entry)
    (hdone : g'.done = g.done) (hgone : g'.gone = g.gone)
    (hidx : s.queue.widx ≤ s'.queue.widx ∧ s.queue.ridx ≤ s'.queue.ridx)
    (hprod : g.alloc ≤ g'.alloc ∧ g.comm ≤ g'.comm) (hcons : g.res ≤ g'.res ∧ g.cons ≤ g'.cons) :
    Grows cfg t s s' g g' where
  widx := hidx.1
  ridx := hidx.2
  enqueued := henqueued ▸ List.prefix_rfl
  granted := hgranted ▸ List.prefix_rfl
  alloc := hprod.1
  comm := hprod.2
  res := hcons.1
  cons := hcons.2
  done _ hp := hdone ▸ hp
  gone _ hp := hgone ▸ hp
  doneOwn _ _ _ _ hp := hdone ▸ hp
  goneOwn _ _ _ _ hp := hgone ▸ hp
  entry _ _ _ _ _ := by
    rw [entryAt, entryAt, hentry]

variable (hgrows : Grows cfg t s s' g g')
include hgrows

theorem Grows.taken : s.taken cfg ≤ s'.taken cfg :=
  Nat.add_le_add_left hgrows.enqueued.length_le _

theorem Grows.claimed : s.claimed cfg ≤ s'.claimed cfg :=
  Nat.add_le_add_left hgrows.granted.length_le _

theorem Grows.marked (u : Nat) : marked cfg g.done u ≤ marked cfg g'.done u :=
  Nat.count_mono_left fun _ _ hp => hgrows.done _ hp

theorem Copies.keep {widx first space offset : Nat} {written todo : List α}
    (h : Copies cfg s g u widx first space offset written todo) (hu : u ≠ t) :
    Copies cfg s' g' u widx first space offset written todo := by
  have hmine {j : Nat} (hj : j < written.length + todo.length) :
      ∃ v, s.enqueued[first + j]? = some (u, v) := by
    rw [← List.length_append] at hj
    exact ⟨_, h.values j _ (List.getElem?_eq_getElem hj)⟩
  refine { h with
    values := ?_
    fresh := ?_
    stored := ?_ }
  · intro j v hv
    exact getElem?_mono hgrows.enqueued (h.values j v hv)
  · intro j hj
    obtain ⟨v, hv⟩ := hmine hj
    have hfresh := h.fresh j hj
    rw [Nat.add_assoc] at hfresh ⊢
    exact hgrows.doneOwn _ _ hv hu hfresh
  · intro j v hv
    have hj : j < written.length := (List.getElem?_eq_some_iff.mp hv).1
    obtain ⟨v', hv'⟩ := hmine (Nat.lt_add_right _ hj)
    have hfresh := h.fresh j (Nat.lt_add_right _ hj)
    have hstored := h.stored j v hv
    rw [Nat.add_assoc] at hfresh hstored ⊢
    exact (hgrows.entry _ _ hv' hu hfresh).trans hstored

theorem Reads.keep {ridx reserved first total m : Nat} {got : List α}
    (h : Reads cfg s g u ridx reserved first total m got) (hu : u ≠ t) :
    Reads cfg s' g' u ridx reserved first total m got := by
  refine { h with
    owner := ?_
    fresh := ?_ }
  · intro j hj
    exact getElem?_mono hgrows.granted (h.owner j hj)
  · intro j hj
    have hfresh := h.fresh j hj
    rw [Nat.add_assoc] at hfresh ⊢
    exact hgrows.goneOwn _ _ (h.owner j hj) hu hfresh

theorem Seen.keep {r resv v x : Nat} (h : Seen cfg (s.claimed cfg) g r resv v x) :
    Seen cfg (s'.claimed cfg) g' r resv v x :=
  { h with
    opened := h.opened.trans hgrows.res
    low := h.low.trans hgrows.claimed }

/-- While the cursor is as it was seen, nothing was reserved. -/
theorem Seen.still {r resv v x : Nat} (h : Seen cfg (s.claimed cfg) g r resv v x)
    (hsame : s'.claimed cfg = v * cfg.entries + x) : s.claimed cfg = v * cfg.entries + x := by
  have hlow := h.low
  have hclaimed := hgrows.claimed
  omega

theorem Behind.keep {ridx vsn v : Nat} (h : Behind cfg fr s g ridx vsn v) :
    Behind cfg fr s' g' ridx vsn v :=
  { h with
    opened := h.opened.trans hgrows.res
    taken := h.taken.trans hgrows.claimed
    idx := h.idx.trans hgrows.ridx }

theorem PcOk.keep {pc : Pc α} (h : PcOk cfg fr s g u pc) (hu : u ≠ t) :
    PcOk cfg fr s' g' u pc := by
  cases pc with
  | idle ret => trivial
  | enqWidx call => exact h
  | enqAllocated call widx => exact ⟨h.1, h.2.trans hgrows.widx⟩
  | enqAdd call widx => exact ⟨h.1, h.2.trans hgrows.widx⟩
  | enqCopy call widx first space offset todo =>
    obtain ⟨hrest, written, hcopies⟩ := h
    exact ⟨hrest, written, hcopies.keep hgrows hu⟩
  | enqConsumed call widx =>
    obtain ⟨hbatch, hwidx, hfull⟩ := h
    exact ⟨hbatch, hwidx.trans hgrows.widx, hfull.trans hgrows.taken⟩
  | resetCommitted call widx =>
    obtain ⟨hbatch, hwidx, hfull, hgone⟩ := h
    exact ⟨hbatch, hwidx.trans hgrows.widx, hfull.trans hgrows.taken,
      fun p hp => hgrows.gone p (hgone p hp)⟩
  | resetAllocated call widx =>
    obtain ⟨hbatch, hwidx, hcomm⟩ := h
    exact ⟨hbatch, hwidx.trans hgrows.widx, hcomm.trans hgrows.comm⟩
  | advanceWidx call widx => exact ⟨h.1, h.2.trans hgrows.alloc⟩
  | deqRidx call => exact h
  | deqReserved call ridx => exact ⟨h.1, h.2.trans hgrows.ridx⟩
  | deqCommitted call ridx reserved =>
    obtain ⟨hwish, v, x, hseen, hx⟩ := h
    exact ⟨hwish, v, x, hseen.keep hgrows, hx⟩
  | deqAllocated call ridx reserved committedSpace total =>
    obtain ⟨hwish, v, x, y, m, hseen, hm, htotal, hxy, hy, hspace, hcount⟩ := h
    exact ⟨hwish, v, x, y, m, hseen.keep hgrows, hm, htotal, hxy, hy, hspace,
      fun hsame => (hcount (hseen.still hgrows hsame)).trans (hgrows.marked v)⟩
  | deqReserve call ridx reserved total =>
    obtain ⟨hwish, v, x, m, hseen, hm, htotal, hxm, hready⟩ := h
    exact ⟨hwish, v, x, m, hseen.keep hgrows, hm, htotal, hxm,
      fun hsame j hj => hgrows.done _ (hready (hseen.still hgrows hsame) j hj)⟩
  | deqCopy call ridx reserved first total got =>
    obtain ⟨hwish, m, hreads⟩ := h
    exact ⟨hwish, m, hreads.keep hgrows hu⟩
  | deqNext call ridx reserved =>
    obtain ⟨hwish, hridx, v, hseen⟩ := h
    exact ⟨hwish, hridx.trans hgrows.ridx, v, hseen.keep hgrows⟩
  | resetConsumed call ridx vsn =>
    obtain ⟨hwish, v, hfollows, hcomm⟩ := h
    exact ⟨hwish, v, hfollows.keep hgrows, hcomm.trans hgrows.comm⟩
  | resetReserved call ridx vsn =>
    obtain ⟨hwish, v, hfollows, hcons⟩ := h
    exact ⟨hwish, v, hfollows.keep hgrows, hcons.trans hgrows.cons⟩
  | advanceRidx call ridx => exact ⟨h.1, h.2.trans hgrows.res⟩
  | assertFailed => exact h

end Grows

end Libvsync.Queue.BbqMpmc
