import Libvsync.Core.Chain
import Libvsync.Spinlock.Cnalock

/-!
The invariant of the CNA lock, and that it is kept by the threads that do not have the
lock. The threads that have put themselves into the tail and that have not got the lock
are in two queues, and every state of a release says how these two are linked. The main
queue may have gaps: a thread that has put itself into the tail is not linked to its
predecessor until it writes the `next` pointer of the predecessor, which is NULL up to
then.
-/

namespace Libvsync.Spinlock.Cnalock

open Libvsync.Core Function

variable {Tid : Type}

/-- Thread `y` is going to write the `next` pointer of `x`. -/
def About (s : State Tid) (y x : Tid) : Prop :=
  s.pc y = .acqLink x ∨ ∃ numa, s.pc y = .acqNuma numa x

/-- Thread `y` is behind `x` in the queue. -/
def Hook (s : State Tid) (x y : Tid) : Prop :=
  (s.next x = some y ∧ s.pc y = .acqAwait) ∨ (s.next x = none ∧ About s y x)

/-- The threads behind `x` in the queue, up to the tail. -/
def Hooks (s : State Tid) (x : Tid) : List Tid → Prop
  | [] => s.next x = none ∧ s.tail = some x
  | y :: l => Hook s x y ∧ Hooks s y l

/-- The circular queue with `spin` as its last thread. -/
def Circle (s : State Tid) (sec : List Tid) (spin : Spin Tid) : Prop :=
  (sec = [] ∧ spin = .one) ∨
    ∃ a b, Chain s.next a b sec ∧ s.next b = some a ∧ spin = .node b

/-- The main queue is behind `h`, and the `spin` of `h` records the secondary queue. -/
def Whole (s : State Tid) (h : Tid) (main sec : List Tid) : Prop :=
  Hooks s h main ∧ Circle s sec (s.spin h)

/-- The main queue begins with `c`. -/
def Front (s : State Tid) (c : Tid) (main : List Tid) : Prop :=
  ∃ rest, main = c :: rest ∧ s.pc c = .acqAwait ∧ Hooks s c rest

/-- The secondary queue is not circular for the moment. -/
def Opened (s : State Tid) (sec : List Tid) (secTail : Tid) (secHead : Option Tid) : Prop :=
  ∃ a, secHead = some a ∧ Chain s.next a secTail sec

/-- The threads of the main queue from `first` to `secTail` are in front of `cur`. -/
def Cut (s : State Tid) (main : List Tid) (first secTail cur : Tid) : Prop :=
  ∃ moved rest, main = moved ++ cur :: rest ∧ Chain s.next first secTail moved ∧
    s.next secTail = some cur

def Walk (s : State Tid) (main : List Tid) (first secTail cur : Tid) : Prop :=
  (∃ rest, main = cur :: rest ∧ cur = first) ∨ Cut s main first secTail cur

/-- How the queues are linked, by where the holder stands. -/
def Shape (s : State Tid) (h : Tid) (main sec : List Tid) : Pc Tid → Prop
  | .idle | .acqSpin _ | .acqNext _ | .acqNode _ | .acqXchg _ | .acqNuma _ _ | .acqLink _ => False
  | .acqFirst => Hooks s h main ∧ sec = []
  | .acqAwait | .critical | .relNext _ => Whole s h main sec
  | .relSpin _ next => Whole s h main sec ∧ ∀ n, next = some n → s.next h = some n
  | .relCasNull _ => Whole s h main sec ∧ s.spin h = .one
  | .relSecOpen _ secTail => Whole s h main sec ∧ s.spin h = .node secTail
  | .relCasSec _ secTail secHead | .relSecClose _ secTail secHead =>
    Hooks s h main ∧ Opened s sec secTail secHead ∧ s.next secTail = none ∧
      s.spin h = .node secTail
  | .relAwaitNext _ spin => Whole s h main sec ∧ s.spin h = spin
  | .relKeep _ next spin => Whole s h main sec ∧ s.next h = some next ∧ s.spin h = spin
  | .fsNext _ next => Whole s h main sec ∧ s.next h = some next
  | .fsNode _ next first => Whole s h main sec ∧ s.next h = some next ∧ first = some next
  | .fsTest next _ first secTail cur =>
    Whole s h main sec ∧ s.next h = some next ∧ Walk s main first secTail cur
  | .fsAdvance next _ first cur =>
    Whole s h main sec ∧ s.next h = some next ∧ ∃ secTail, Walk s main first secTail cur
  | .fsSpin next first secTail cur =>
    Whole s h main sec ∧ s.next h = some next ∧ Cut s main first secTail cur
  | .fsXchg next first secTail cur spin =>
    Whole s h main sec ∧ s.next h = some next ∧ Cut s main first secTail cur ∧
      s.spin h = .node spin
  | .fsLink _ secHead secTail cur => Front s cur main ∧ Opened s sec secTail secHead
  | .fsSetSpin _ secTail cur => Front s cur main ∧ Circle s sec (.node secTail)
  | .relReread _ (some succ) => Front s succ main ∧ Circle s sec (s.spin h)
  | .relReread next none => Whole s h main sec ∧ s.next h = some next
  | .relSplice next spin =>
    Whole s h main sec ∧ s.next h = some next ∧ s.spin h = .node spin
  | .relGrant (some succ) value => Front s succ main ∧ Circle s sec value
  | .relGrant none _ => False

/-- What a thread knows that is not in the queues. -/
def OutsideAt (s : State Tid) (t : Tid) : Pc Tid → Prop
  | .idle | .acqSpin _ => True
  | .acqNext _ => s.spin t = .null
  | .acqNode _ | .acqXchg _ => s.spin t = .null ∧ s.next t = none
  | _ => False

def Outside (s : State Tid) (t : Tid) : Prop := OutsideAt s t (s.pc t)

structure Held (s : State Tid) (h : Tid) (main sec : List Tid) : Prop where
  nodup : (h :: (main ++ sec)).Nodup
  outside : ∀ t, t ∉ h :: (main ++ sec) → Outside s t
  quiet : ∀ t ∈ main ++ sec, s.spin t = .null
  waits : ∀ t ∈ sec, s.pc t = .acqAwait
  shape : Shape s h main sec (s.pc h)

def Free (s : State Tid) : Prop := s.tail = none ∧ ∀ t, Outside s t

def Inv (s : State Tid) : Prop := Free s ∨ ∃ h main sec, Held s h main sec

variable {s s' : State Tid} {h x y t : Tid} {main main' sec sec' l : List Tid}

/-- Where a waiting thread stands is the same for the queue. -/
def Still (s s' : State Tid) (t : Tid) : Prop :=
  (s.pc t = .acqAwait → s'.pc t = .acqAwait) ∧ ∀ x, About s t x → About s' t x

theorem Still.of_eq (hpc : s'.pc t = s.pc t) : Still s s' t := by
  refine ⟨fun hwaits => hpc.trans hwaits, fun x habout => ?_⟩
  rw [About, hpc]
  exact habout

theorem Hook.congr (hook : Hook s x y) (hnext : s'.next x = s.next x) (hstill : Still s s' y) :
    Hook s' x y := by
  rcases hook with ⟨hy, hwaits⟩ | ⟨hnone, habout⟩
  · exact .inl ⟨hnext.trans hy, hstill.1 hwaits⟩
  · exact .inr ⟨hnext.trans hnone, hstill.2 x habout⟩

theorem Hooks.congr (hooks : Hooks s x l) (hnext : ∀ z ∈ x :: l, s'.next z = s.next z)
    (hstill : ∀ z ∈ l, Still s s' z) (htail : s'.tail = s.tail) : Hooks s' x l := by
  induction l generalizing x with
  | nil => exact ⟨(hnext x (List.mem_cons_self ..)).trans hooks.1, htail.trans hooks.2⟩
  | cons y l ih =>
    refine ⟨hooks.1.congr (hnext x (List.mem_cons_self ..)) (hstill y (List.mem_cons_self ..)),
      ih hooks.2 (fun z hz => hnext z (List.mem_cons_of_mem _ hz))
        fun z hz => hstill z (List.mem_cons_of_mem _ hz)⟩

theorem Hooks.tail_mem (hooks : Hooks s x l) : ∃ z ∈ x :: l, s.tail = some z := by
  induction l generalizing x with
  | nil => exact ⟨x, List.mem_cons_self .., hooks.2⟩
  | cons y l ih =>
    obtain ⟨z, hz, htail⟩ := ih hooks.2
    exact ⟨z, List.mem_cons_of_mem _ hz, htail⟩

/-- A tail that is the first thread is the only one. -/
theorem Hooks.alone (hooks : Hooks s x l) (hnodup : (x :: l).Nodup) (htail : s.tail = some x) :
    l = [] := by
  cases l with
  | nil => rfl
  | cons y l =>
    obtain ⟨z, hz, htail'⟩ := hooks.2.tail_mem
    rw [htail] at htail'
    cases htail'
    exact absurd hz (List.nodup_cons.mp hnodup).1

/-- A pointer that is set leads to the next thread, which waits. -/
theorem Hooks.front (hooks : Hooks s x l) (hnext : s.next x = some y) : Front s y l := by
  cases l with
  | nil =>
    rw [hooks.1] at hnext
    cases hnext
  | cons z l =>
    rcases hooks.1 with ⟨hz, hwaits⟩ | ⟨hnone, -⟩
    · rw [hnext] at hz
      cases hz
      exact ⟨l, rfl, hwaits, hooks.2⟩
    · rw [hnext] at hnone
      cases hnone

theorem Hooks.queued (hooks : Hooks s x l) (hy : y ∈ l) :
    s.pc y = .acqAwait ∨ ∃ z ∈ x :: l, About s y z ∧ s.next z = none := by
  induction l generalizing x with
  | nil => cases hy
  | cons y' l ih =>
    rcases List.mem_cons.mp hy with rfl | hy
    · rcases hooks.1 with ⟨-, hwaits⟩ | ⟨hnone, habout⟩
      · exact .inl hwaits
      · exact .inr ⟨x, List.mem_cons_self .., habout, hnone⟩
    · rcases ih hooks.2 hy with hwaits | ⟨z, hz, habout⟩
      · exact .inl hwaits
      · exact .inr ⟨z, List.mem_cons_of_mem _ hz, habout⟩

theorem About.unique (hx : About s t x) (hy : About s t y) : x = y := by
  rcases hx with hx | ⟨m, hx⟩
  · rcases hy with hy | ⟨n, hy⟩
    · rw [hx] at hy
      cases hy
      rfl
    · rw [hx] at hy
      cases hy
  · rcases hy with hy | ⟨n, hy⟩
    · rw [hx] at hy
      cases hy
    · rw [hx] at hy
      cases hy
      rfl

theorem About.not_waits (habout : About s t x) : s.pc t ≠ .acqAwait := by
  rcases habout with hpc | ⟨numa, hpc⟩ <;> rw [hpc] <;> exact nofun

theorem Hooks.append (hooks : Hooks s x l) {tail : Tid} (htail : s.tail = some tail)
    (hnext : s'.next = s.next) (hstill : ∀ z ∈ l, Still s s' z) (htail' : s'.tail = some t)
    (hnone : s.next t = none) (habout : About s' t tail) : Hooks s' x (l ++ [t]) := by
  induction l generalizing x with
  | nil =>
    rw [hooks.2] at htail
    cases htail
    refine ⟨.inr ⟨?_, habout⟩, ?_, htail'⟩
    · rw [hnext]
      exact hooks.1
    · rw [hnext]
      exact hnone
  | cons y l ih =>
    exact ⟨hooks.1.congr (congrFun hnext x) (hstill y (List.mem_cons_self ..)),
      ih hooks.2 fun z hz => hstill z (List.mem_cons_of_mem _ hz)⟩

theorem Hooks.link (hooks : Hooks s x l) (hnodup : (x :: l).Nodup) (ht : t ∈ l)
    (habout : About s t y) (hself : s'.next y = some t)
    (hnext : ∀ z, z ≠ y → s'.next z = s.next z) (hwaits : s'.pc t = .acqAwait)
    (hpc : ∀ z, z ≠ t → s'.pc z = s.pc z) (htail : s'.tail = s.tail) : Hooks s' x l := by
  induction l generalizing x with
  | nil => cases ht
  | cons z l ih =>
    obtain ⟨hx, hnodup'⟩ := List.nodup_cons.mp hnodup
    by_cases hz : t = z
    · subst hz
      have hxy : x = y := by
        rcases hooks.1 with ⟨-, hpc⟩ | ⟨-, habout'⟩
        · exact absurd hpc habout.not_waits
        · exact habout'.unique habout
      subst hxy
      refine ⟨.inl ⟨hself, hwaits⟩, hooks.2.congr (fun z hz => hnext z ?_)
        (fun z hz => .of_eq (hpc z ?_)) htail⟩
      · rintro rfl
        exact hx hz
      · rintro rfl
        exact (List.nodup_cons.mp hnodup').1 hz
    · have ht' : t ∈ l := (List.mem_cons.mp ht).resolve_left hz
      have hxy : x ≠ y := by
        rintro rfl
        rcases hooks.2.queued ht' with hpc | ⟨z', hz', habout', -⟩
        · exact habout.not_waits hpc
        · exact hx (habout.unique habout' ▸ hz')
      exact ⟨hooks.1.congr (hnext x hxy) (.of_eq (hpc z (Ne.symm hz))), ih hooks.2 hnodup' ht'⟩

/-- A step that does not change the queues, other than that the threads `more` are
appended. -/
structure Frame (s s' : State Tid) (h : Tid) (main sec more : List Tid) : Prop where
  hooks : ∀ x after, h :: main = x :: after ∨ (main = x :: after ∧ s.pc x = .acqAwait) →
    Hooks s x after → Hooks s' x (after ++ more)
  keep : ∀ z ∈ h :: (main ++ sec), ∀ w, s.next z = some w → s'.next z = some w
  sec : ∀ z ∈ sec, s'.next z = s.next z
  spin : s'.spin h = s.spin h
  waits : ∀ z ∈ main, s.pc z = .acqAwait → s'.pc z = .acqAwait

namespace Frame

variable {more : List Tid} {secTail first cur : Tid}

theorem keep_main (f : Frame s s' h main sec more) {z w : Tid} (hz : z ∈ main)
    (hw : s.next z = some w) : s'.next z = some w :=
  f.keep z (List.mem_cons_of_mem _ (List.mem_append_left _ hz)) w hw

theorem keep_sec (f : Frame s s' h main sec more) {z w : Tid} (hz : z ∈ sec)
    (hw : s.next z = some w) : s'.next z = some w :=
  f.keep z (List.mem_cons_of_mem _ (List.mem_append_right _ hz)) w hw

theorem keep_self (f : Frame s s' h main sec more) {w : Tid} (hw : s.next h = some w) :
    s'.next h = some w :=
  f.keep h (List.mem_cons_self ..) w hw

theorem circle (f : Frame s s' h main sec more) {spin : Spin Tid} (hcircle : Circle s sec spin) :
    Circle s' sec spin := by
  rcases hcircle with hempty | ⟨a, b, hchain, hback, hspin⟩
  · exact .inl hempty
  · exact .inr ⟨a, b, hchain.mono fun n hn m hm => f.keep_sec hn hm,
      f.keep_sec hchain.last_mem hback, hspin⟩

theorem whole (f : Frame s s' h main sec more) (hwhole : Whole s h main sec) :
    Whole s' h (main ++ more) sec := by
  refine ⟨f.hooks h main (.inl rfl) hwhole.1, ?_⟩
  rw [f.spin]
  exact f.circle hwhole.2

theorem front (f : Frame s s' h main sec more) (hfront : Front s cur main) :
    Front s' cur (main ++ more) := by
  obtain ⟨rest, rfl, hwaits, hooks⟩ := hfront
  exact ⟨rest ++ more, rfl, f.waits cur (List.mem_cons_self ..) hwaits,
    f.hooks cur rest (.inr ⟨rfl, hwaits⟩) hooks⟩

theorem opened (f : Frame s s' h main sec more) {secHead : Option Tid}
    (hopened : Opened s sec secTail secHead) : Opened s' sec secTail secHead := by
  obtain ⟨a, ha, hchain⟩ := hopened
  exact ⟨a, ha, hchain.mono fun n hn m hm => f.keep_sec hn hm⟩

theorem cut (f : Frame s s' h main sec more) (hcut : Cut s main first secTail cur) :
    Cut s' (main ++ more) first secTail cur := by
  obtain ⟨moved, rest, rfl, hchain, hnext⟩ := hcut
  refine ⟨moved, rest ++ more, by simp, hchain.mono fun n hn m hm => ?_, ?_⟩
  · exact f.keep_main (List.mem_append_left _ hn) hm
  · exact f.keep_main (List.mem_append_left _ hchain.last_mem) hnext

theorem walk (f : Frame s s' h main sec more) (hwalk : Walk s main first secTail cur) :
    Walk s' (main ++ more) first secTail cur := by
  rcases hwalk with ⟨rest, rfl, hfirst⟩ | hcut
  · exact .inl ⟨rest ++ more, rfl, hfirst⟩
  · exact .inr (f.cut hcut)

theorem shape (f : Frame s s' h main sec more) {pc : Pc Tid} (hshape : Shape s h main sec pc) :
    Shape s' h (main ++ more) sec pc := by
  cases pc with
  | idle | acqSpin _ | acqNext _ | acqNode _ | acqXchg _ | acqNuma _ _ | acqLink _ => exact hshape
  | acqFirst => exact ⟨f.hooks h main (.inl rfl) hshape.1, hshape.2⟩
  | acqAwait | critical | relNext _ => exact f.whole hshape
  | relSpin numa next =>
    exact ⟨f.whole hshape.1, fun n hn => f.keep_self (hshape.2 n hn)⟩
  | relCasNull numa | relSecOpen numa secTail | relAwaitNext numa spin =>
    exact ⟨f.whole hshape.1, f.spin.trans hshape.2⟩
  | relCasSec numa secTail secHead | relSecClose numa secTail secHead =>
    obtain ⟨hooks, hopened, hnone, hspin⟩ := hshape
    have hmem : secTail ∈ sec := by
      obtain ⟨a, -, hchain⟩ := hopened
      exact hchain.last_mem
    exact ⟨f.hooks h main (.inl rfl) hooks, f.opened hopened, (f.sec secTail hmem).trans hnone,
      f.spin.trans hspin⟩
  | relKeep numa next spin | relSplice next spin =>
    exact ⟨f.whole hshape.1, f.keep_self hshape.2.1, f.spin.trans hshape.2.2⟩
  | fsNext numa next => exact ⟨f.whole hshape.1, f.keep_self hshape.2⟩
  | fsNode numa next first => exact ⟨f.whole hshape.1, f.keep_self hshape.2.1, hshape.2.2⟩
  | fsTest next myNode first secTail cur =>
    exact ⟨f.whole hshape.1, f.keep_self hshape.2.1, f.walk hshape.2.2⟩
  | fsAdvance next myNode first cur =>
    obtain ⟨hwhole, hnext, secTail, hwalk⟩ := hshape
    exact ⟨f.whole hwhole, f.keep_self hnext, secTail, f.walk hwalk⟩
  | fsSpin next first secTail cur =>
    exact ⟨f.whole hshape.1, f.keep_self hshape.2.1, f.cut hshape.2.2⟩
  | fsXchg next first secTail cur spin =>
    obtain ⟨hwhole, hnext, hcut, hspin⟩ := hshape
    exact ⟨f.whole hwhole, f.keep_self hnext, f.cut hcut, f.spin.trans hspin⟩
  | fsLink next secHead secTail cur => exact ⟨f.front hshape.1, f.opened hshape.2⟩
  | fsSetSpin next secTail cur => exact ⟨f.front hshape.1, f.circle hshape.2⟩
  | relReread next succ =>
    cases succ with
    | none => exact ⟨f.whole hshape.1, f.keep_self hshape.2⟩
    | some succ =>
      have hcircle := f.circle hshape.2
      rw [← f.spin] at hcircle
      exact ⟨f.front hshape.1, hcircle⟩
  | relGrant succ value =>
    cases succ with
    | none => exact hshape
    | some succ => exact ⟨f.front hshape.1, f.circle hshape.2⟩

end Frame

/-- The main queue is behind the holder or behind its first thread. -/
theorem Shape.line {pc : Pc Tid} (hshape : Shape s h main sec pc) :
    Hooks s h main ∨ ∃ c, Front s c main := by
  cases pc with
  | idle | acqSpin _ | acqNext _ | acqNode _ | acqXchg _ | acqNuma _ _ | acqLink _ =>
    exact hshape.elim
  | acqFirst | relCasSec _ _ _ | relSecClose _ _ _ => exact .inl hshape.1
  | acqAwait | critical | relNext _ => exact .inl hshape.1
  | relSpin _ _ | relCasNull _ | relSecOpen _ _ | relAwaitNext _ _ | relKeep _ _ _
  | relSplice _ _ | fsNext _ _ | fsNode _ _ _ | fsTest _ _ _ _ _ | fsAdvance _ _ _ _
  | fsSpin _ _ _ _ | fsXchg _ _ _ _ _ => exact .inl hshape.1.1
  | fsLink _ _ _ cur | fsSetSpin _ _ cur => exact .inr ⟨cur, hshape.1⟩
  | relReread next succ =>
    cases succ with
    | none => exact .inl hshape.1.1
    | some succ => exact .inr ⟨succ, hshape.1⟩
  | relGrant succ value =>
    cases succ with
    | none => exact hshape.elim
    | some succ => exact .inr ⟨succ, hshape.1⟩

theorem Held.tail (held : Held s h main sec) : ∃ z, s.tail = some z := by
  rcases held.shape.line with hooks | ⟨c, rest, -, -, hooks⟩
  · obtain ⟨z, -, hz⟩ := hooks.tail_mem
    exact ⟨z, hz⟩
  · obtain ⟨z, -, hz⟩ := hooks.tail_mem
    exact ⟨z, hz⟩

/-- A thread of the main queue waits or is going to write the pointer of the one in
front of it, which is the holder or in the main queue. -/
theorem Held.queued (held : Held s h main sec) (ht : t ∈ main) :
    s.pc t = .acqAwait ∨ ∃ z ∈ h :: main, About s t z ∧ s.next z = none := by
  rcases held.shape.line with hooks | ⟨c, rest, rfl, hwaits, hooks⟩
  · exact hooks.queued ht
  · rcases List.mem_cons.mp ht with rfl | ht
    · exact .inl hwaits
    · rcases hooks.queued ht with hpc | ⟨z, hz, habout⟩
      · exact .inl hpc
      · exact .inr ⟨z, List.mem_cons_of_mem _ hz, habout⟩

theorem Outside.congr (hout : Outside s t) (hpc : s'.pc t = s.pc t) (hspin : s'.spin t = s.spin t)
    (hnext : s'.next t = s.next t) : Outside s' t := by
  rw [Outside, hpc]
  rw [Outside] at hout
  cases hat : s.pc t <;> rw [hat] at hout
  case idle | acqSpin => trivial
  case acqNext => exact hspin.trans hout
  case acqNode | acqXchg => exact ⟨hspin.trans hout.1, hnext.trans hout.2⟩
  all_goals exact hout.elim

/-- What a step leaves of a thread. -/
def Same (s s' : State Tid) (t : Tid) : Prop :=
  s'.pc t = s.pc t ∧ s'.spin t = s.spin t ∧ s'.next t = s.next t

/-- A thread that is not in the queues does a step of its own. -/
theorem Held.other (held : Held s h main sec) (ht : t ∉ h :: (main ++ sec))
    (hothers : ∀ u, u ≠ t → Same s s' u) (htail : s'.tail = s.tail) (hout : Outside s' t) :
    Held s' h main sec := by
  have hsame (u : Tid) (hu : u ∈ h :: (main ++ sec)) : Same s s' u :=
    hothers u fun heq => ht (heq ▸ hu)
  have hmain (u : Tid) (hu : u ∈ main) : Same s s' u :=
    hsame u (List.mem_cons_of_mem _ (List.mem_append_left _ hu))
  have hsec (u : Tid) (hu : u ∈ sec) : Same s s' u :=
    hsame u (List.mem_cons_of_mem _ (List.mem_append_right _ hu))
  have hframe : Frame s s' h main sec [] := by
    refine ⟨fun x after hline hooks => ?_, fun z hz w hw => ?_, fun z hz => (hsec z hz).2.2,
      (hsame h (List.mem_cons_self ..)).2.1, fun z hz hwaits => (hmain z hz).1.trans hwaits⟩
    · rw [List.append_nil]
      have hmem (z : Tid) (hz : z ∈ x :: after) : z ∈ h :: main := by
        rcases hline with heq | ⟨rfl, -⟩
        · rw [heq]
          exact hz
        · exact List.mem_cons_of_mem _ hz
      refine hooks.congr (fun z hz => ?_) (fun z hz => ?_) htail
      · rcases List.mem_cons.mp (hmem z hz) with rfl | hz
        · exact (hsame z (List.mem_cons_self ..)).2.2
        · exact (hmain z hz).2.2
      · refine .of_eq ?_
        rcases List.mem_cons.mp (hmem z (List.mem_cons_of_mem _ hz)) with rfl | hz
        · exact (hsame z (List.mem_cons_self ..)).1
        · exact (hmain z hz).1
    · exact (hsame z hz).2.2.trans hw
  refine ⟨held.nodup, fun u hu => ?_, fun u hu => ?_, fun u hu => ?_, ?_⟩
  · by_cases hut : u = t
    · rw [hut]
      exact hout
    · exact (held.outside u hu).congr (hothers u hut).1 (hothers u hut).2.1 (hothers u hut).2.2
  · exact (hsame u (List.mem_cons_of_mem _ hu)).2.1.trans (held.quiet u hu)
  · exact (hsec u hu).1.trans (held.waits u hu)
  · have hshape := hframe.shape held.shape
    rw [List.append_nil] at hshape
    rw [(hsame h (List.mem_cons_self ..)).1]
    exact hshape

variable [DecidableEq Tid]

theorem Held.xchg (held : Held s h main sec) (ht : t ∉ h :: (main ++ sec)) {numa : Nat}
    {tail : Tid} (hat : s.pc t = .acqXchg numa) (htail : s.tail = some tail) :
    Held ({ s with tail := some t }.goto t (.acqNuma numa tail)) h (main ++ [t]) sec := by
  have hout := held.outside t ht
  rw [Outside, hat] at hout
  have hpc (u : Tid) (hu : u ≠ t) :
      ({ s with tail := some t }.goto t (.acqNuma numa tail)).pc u = s.pc u :=
    update_of_ne hu ..
  have hself : ({ s with tail := some t }.goto t (.acqNuma numa tail)).pc t =
      .acqNuma numa tail := update_self ..
  have hin (u : Tid) (hu : u ∈ h :: (main ++ sec)) : u ≠ t := fun heq => ht (heq ▸ hu)
  have hmain (u : Tid) (hu : u ∈ main) : u ≠ t :=
    hin u (List.mem_cons_of_mem _ (List.mem_append_left _ hu))
  have hh : h ≠ t := hin h (List.mem_cons_self ..)
  have hframe : Frame s ({ s with tail := some t }.goto t (.acqNuma numa tail)) h main sec [t] := by
    refine ⟨fun x after hline hooks => ?_, fun z _ w hw => hw, fun z _ => rfl, rfl,
      fun z hz hwaits => (hpc z (hmain z hz)).trans hwaits⟩
    refine hooks.append htail rfl (fun z hz => .of_eq (hpc z ?_)) rfl hout.2 (.inr ⟨numa, hself⟩)
    have hmem : z ∈ h :: main := by
      rcases hline with heq | ⟨rfl, -⟩
      · rw [heq]
        exact List.mem_cons_of_mem _ hz
      · exact List.mem_cons_of_mem _ (List.mem_cons_of_mem _ hz)
    rcases List.mem_cons.mp hmem with rfl | hmem
    · exact hh
    · exact hmain z hmem
  have hperm : (main ++ [t] ++ sec).Perm (t :: (main ++ sec)) := by
    rw [List.append_assoc]
    exact List.perm_middle
  refine ⟨?_, fun u hu => ?_, fun u hu => ?_, fun u hu => ?_, ?_⟩
  · have hperm' : (h :: (main ++ [t] ++ sec)).Perm (t :: h :: (main ++ sec)) :=
      (hperm.cons h).trans (List.Perm.swap t h _)
    exact hperm'.nodup_iff.mpr (List.nodup_cons.mpr ⟨ht, held.nodup⟩)
  · rw [List.mem_cons, hperm.mem_iff, List.mem_cons] at hu
    push Not at hu
    have hold : u ∉ h :: (main ++ sec) := by
      rw [List.mem_cons]
      push Not
      exact ⟨hu.1, hu.2.2⟩
    exact (held.outside u hold).congr (hpc u hu.2.1) rfl rfl
  · rcases List.mem_cons.mp (hperm.mem_iff.mp hu) with rfl | hu
    · exact hout.1
    · exact held.quiet u hu
  · rw [hpc u (hin u (List.mem_cons_of_mem _ (List.mem_append_right _ hu)))]
    exact held.waits u hu
  · rw [hpc h hh]
    exact hframe.shape held.shape

omit [DecidableEq Tid] in
theorem Held.inner (held : Held s h main sec) (ht : t ∈ main) (f : Frame s s' h main sec [])
    (hpc : ∀ u, u ≠ t → s'.pc u = s.pc u) (hspin : s'.spin = s.spin)
    (hnext : ∀ u, u ∉ h :: (main ++ sec) → s'.next u = s.next u) : Held s' h main sec := by
  have hnodup := List.nodup_cons.mp held.nodup
  have hh : h ≠ t := by
    rintro rfl
    exact hnodup.1 (List.mem_append_left _ ht)
  refine ⟨held.nodup, fun u hu => ?_, fun u hu => ?_, fun u hu => ?_, ?_⟩
  · have hut : u ≠ t := by
      rintro rfl
      exact hu (List.mem_cons_of_mem _ (List.mem_append_left _ ht))
    exact (held.outside u hu).congr (hpc u hut) (congrFun hspin u) (hnext u hu)
  · rw [hspin]
    exact held.quiet u hu
  · have hut : u ≠ t := by
      rintro rfl
      exact (List.nodup_append'.mp hnodup.2).2.2 ht hu
    rw [hpc u hut]
    exact held.waits u hu
  · have hshape := f.shape held.shape
    rw [List.append_nil] at hshape
    rw [hpc h hh]
    exact hshape

theorem Held.numa (held : Held s h main sec) (ht : t ∈ main) {numa : Nat} {tail : Tid}
    (hat : s.pc t = .acqNuma numa tail) :
    Held ((s.setNode t numa).goto t (.acqLink tail)) h main sec := by
  have hpc (u : Tid) (hu : u ≠ t) :
      ((s.setNode t numa).goto t (.acqLink tail)).pc u = s.pc u := update_of_ne hu ..
  have hstill (u : Tid) : Still s ((s.setNode t numa).goto t (.acqLink tail)) u := by
    by_cases hu : u = t
    · subst hu
      refine ⟨fun hwaits => ?_, fun x habout => .inl ?_⟩
      · rw [hat] at hwaits
        cases hwaits
      · rw [← About.unique (.inr ⟨numa, hat⟩) habout]
        exact update_self ..
    · exact .of_eq (hpc u hu)
  refine held.inner ht ⟨fun x after _ hooks => ?_, fun z _ w hw => hw, fun z _ => rfl, rfl,
    fun z _ => (hstill z).1⟩ hpc rfl fun _ _ => rfl
  rw [List.append_nil]
  exact hooks.congr (fun _ _ => rfl) (fun z _ => hstill z) rfl

/-- A thread of the main queue links itself to the one in front of it. -/
theorem Held.link (held : Held s h main sec) (ht : t ∈ main) {tail : Tid}
    (hat : s.pc t = .acqLink tail) :
    Held ((s.setNext tail (some t)).goto t .acqAwait) h main sec := by
  have habout : About s t tail := .inl hat
  have hnodup := List.nodup_cons.mp held.nodup
  obtain ⟨-, -, hapart⟩ := List.nodup_append'.mp hnodup.2
  obtain ⟨hmem, hnone⟩ : tail ∈ h :: main ∧ s.next tail = none := by
    rcases held.queued ht with hwaits | ⟨z, hz, habout', hnone⟩
    · exact absurd hwaits habout.not_waits
    · rw [habout.unique habout']
      exact ⟨hz, hnone⟩
  have hpc (u : Tid) (hu : u ≠ t) :
      ((s.setNext tail (some t)).goto t .acqAwait).pc u = s.pc u := update_of_ne hu ..
  have hself : ((s.setNext tail (some t)).goto t .acqAwait).pc t = .acqAwait :=
    update_self ..
  have hnext (u : Tid) (hu : u ≠ tail) :
      ((s.setNext tail (some t)).goto t .acqAwait).next u = s.next u := update_of_ne hu ..
  have hlinked : ((s.setNext tail (some t)).goto t .acqAwait).next tail = some t :=
    update_self ..
  have hmain : (h :: main).Nodup :=
    List.nodup_cons.mpr ⟨fun hin => hnodup.1 (List.mem_append_left _ hin),
      (List.nodup_append'.mp hnodup.2).1⟩
  refine held.inner ht ⟨fun x after hline hooks => ?_, fun z _ w hw => ?_, fun z hz => ?_,
    rfl, fun z _ hwaits => ?_⟩ hpc rfl fun u hu => hnext u ?_
  · rw [List.append_nil]
    obtain ⟨hin, hnodup'⟩ : t ∈ after ∧ (x :: after).Nodup := by
      rcases hline with heq | ⟨heq, hwaits⟩
      · obtain ⟨-, rfl⟩ := List.cons.inj heq
        rw [heq] at hmain
        exact ⟨ht, hmain⟩
      · rw [heq] at ht hmain
        refine ⟨(List.mem_cons.mp ht).resolve_left ?_, (List.nodup_cons.mp hmain).2⟩
        rintro rfl
        exact habout.not_waits hwaits
    exact hooks.link hnodup' hin habout hlinked hnext hself hpc rfl
  · refine (hnext z ?_).trans hw
    rintro rfl
    rw [hnone] at hw
    cases hw
  · refine hnext z ?_
    rintro rfl
    rcases List.mem_cons.mp hmem with rfl | hmem
    · exact hnodup.1 (List.mem_append_right _ hz)
    · exact hapart hmem hz
  · by_cases hz : z = t
    · rw [hz]
      exact hself
    · rw [hpc z hz]
      exact hwaits
  · rintro rfl
    rcases List.mem_cons.mp hmem with rfl | hmem
    · exact hu (List.mem_cons_self ..)
    · exact hu (List.mem_cons_of_mem _ (List.mem_append_left _ hmem))

end Libvsync.Spinlock.Cnalock
