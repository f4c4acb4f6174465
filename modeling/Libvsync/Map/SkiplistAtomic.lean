import Libvsync.Map.SkiplistMap
import Libvsync.Map.SkiplistSeen

/-!
The skiplist is an atomic set. A call that succeeds changes the set in its own compare-and-swap at
the bottom level; a call that does not has its result from a moment between call and return, which
for a walk over snipped nodes is known in hindsight.
-/

namespace Libvsync.Map.Skiplist

open Libvsync.Core

variable {Tid Node Key : Type}

section Effects

variable [DecidableEq Node] [LinearOrder Key] {c : Config Node Key} {keyOf : Node → Key}
variable {s s' s'' : State Tid Node Key} {t : Tid} {n : Node}

/-- The node enters the map, which did not have its key. -/
structure Adds (c : Config Node Key) (keyOf : Node → Key) (key : Key) (node : Node)
    (s s' : State Tid Node Key) : Prop where
  absent : Absent c keyOf key s
  key : keyOf node = key
  present : ∀ n, Present c s' n ↔ n = node ∨ Present c s n

/-- The node leaves the map. -/
structure Removes (c : Config Node Key) (keyOf : Node → Key) (key : Key) (node : Node)
    (s s' : State Tid Node Key) : Prop where
  was : Present c s node
  key : keyOf node = key
  present : ∀ n, Present c s' n ↔ Present c s n ∧ n ≠ node

/-- What a call does to the map when it succeeds. -/
def Act.Does (c : Config Node Key) (keyOf : Node → Key) (s s' : State Tid Node Key) :
    Act Tid Node Key → Prop
  | .add _ key node _ => Adds c keyOf key node s s'
  | .remove _ key => ∃ node, Removes c keyOf key node s s'
  | .removeNode _ key node => Removes c keyOf key node s s'
  | .lookup _ _ | .lookupNext _ _ | .step _ => False

section

omit [DecidableEq Node] [LinearOrder Key]

theorem present_congr (hlinked : s'.linked n 0 = s.linked n 0)
    (hmark : s.linked n 0 = true → (s'.next n 0).2 = (s.next n 0).2) :
    Present c s' n ↔ Present c s n := by
  constructor
  · rintro ⟨hhead, htail, hn, hunmarked⟩
    rw [hlinked] at hn
    exact ⟨hhead, htail, hn, fun hmarked => hunmarked ((hmark hn).trans hmarked)⟩
  · rintro ⟨hhead, htail, hn, hunmarked⟩
    exact ⟨hhead, htail, hlinked.trans hn, fun hmarked => hunmarked ((hmark hn).symm.trans hmarked)⟩

theorem Adds.congr {key : Key} {node : Node} (h : Adds c keyOf key node s s')
    (hsame : ∀ n, Present c s'' n ↔ Present c s' n) : Adds c keyOf key node s s'' :=
  ⟨h.absent, h.key, fun n => (hsame n).trans (h.present n)⟩

theorem Removes.congr {key : Key} {node : Node} (h : Removes c keyOf key node s s')
    (hsame : ∀ n, Present c s'' n ↔ Present c s' n) : Removes c keyOf key node s s'' :=
  ⟨h.was, h.key, fun n => (hsame n).trans (h.present n)⟩

end

/-- The compare-and-swap at the bottom level adds the node. -/
theorem link_adds {a : Adding Node Key} (h : Good c keyOf s) (hpc : s.pc t = .addLink a)
    (hold : s.next (a.preds 0) 0 = (some (a.succs 0), false)) :
    Adds c keyOf a.key a.node s { s with
      next := set2 s.next (a.preds 0) 0 (some a.node, false)
      linked := set2 s.linked a.node 0 true } := by
  have hok := h.inv.pc t
  have hsorted := h.pcs t
  rw [hpc] at hok hsorted
  have hpred := (hok.1.around 0 (Nat.zero_le _)).predLinked
  have hunlinked : s.linked a.node 0 = false := by simpa using hok.1.node.iff 0
  have hne : a.node ≠ a.preds 0 := by
    intro heq
    rw [← heq, hunlinked] at hpred
    cases hpred
  refine ⟨?_, hsorted.1.key, fun n => ?_⟩
  · have hbehind := h.behind hpred (congrArg Prod.snd hold)
      (hsorted.1.around 0 (Nat.zero_le _)).below
    exact h.absent_between hbehind (congrArg Prod.fst hold) hsorted.2
  · rcases Classical.em (n = a.node) with rfl | hn
    · refine iff_of_true ⟨hok.1.node.notHead, hok.1.node.notTail, set2_self .., fun hmarked => ?_⟩
        (.inl rfl)
      have hlinked := h.duty.fresh a.node 0
        ((Writes.isMarked_of_ne (some a.node, false) (.inl hne)).mp hmarked)
      rw [hunlinked] at hlinked
      cases hlinked
    · rw [or_iff_right hn]
      exact present_congr (set2_of_ne _ _ (.inl hn)) fun _ =>
        Writes.set2_mark (congrArg Prod.snd hold).symm

/-- The mark of the bottom pointer removes the node. -/
theorem mark_removes {key : Key} {node : Node} {succ : Option Node} (h : Good c keyOf s)
    (hpc : s.pc t = .markCas key node 0 succ) (hkey : keyOf node = key)
    (hold : s.next node 0 = (succ, false)) :
    Removes c keyOf key node s { s with next := set2 s.next node 0 (succ, true) } := by
  have hok := h.inv.pc t
  rw [hpc] at hok
  refine ⟨⟨hok.notHead, hok.notTail, hok.bottom, State.not_isMarked (congrArg Prod.snd hold)⟩, hkey,
    fun n => ?_⟩
  rcases Classical.em (n = node) with rfl | hn
  · exact iff_of_false (fun hpresent => hpresent.unmarked Writes.mark_self)
      fun hboth => hboth.2 rfl
  · rw [and_iff_left hn]
    exact present_congr rfl fun _ => congrArg Prod.snd (set2_of_ne _ _ (.inl hn))

theorem Writes.present_same {s₁ : State Tid Node Key} {pc' : Pc Node Key} (h : Good c keyOf s)
    (w : Writes c s t s₁ pc') (hnot : (s.pc t).settles s = false) (n : Node) :
    Present c s₁ n ↔ Present c s n := by
  cases w with
  | snip f curr succ place old | reset a level curSucc mark place old =>
    exact present_congr rfl fun _ => set2_mark (congrArg Prod.snd old).symm
  | set a level pc' place =>
    have hok := h.inv.pc t
    rw [place] at hok
    refine present_congr rfl fun hn => congrArg Prod.snd (set2_of_ne _ _ (.inl ?_))
    rintro rfl
    exact absurd ((hok.1.node.iff 0).mp hn) (Nat.not_lt_zero 0)
  | link a level pc' place old =>
    rcases place with ⟨place, rfl⟩ | place
    · rw [place, Pc.settles, decide_eq_true old] at hnot
      cases hnot
    · have hsorted := h.pcs t
      rw [place] at hsorted
      exact present_congr (set2_of_ne _ _ (.inr hsorted.2.ne)) fun _ =>
        set2_mark (congrArg Prod.snd old).symm
  | mark key node level succ pc' place old =>
    cases level with
    | zero =>
      rw [place, Pc.settles, decide_eq_true old] at hnot
      cases hnot
    | succ level =>
      exact present_congr rfl fun _ =>
        congrArg Prod.snd (set2_of_ne _ _ (.inr (Nat.succ_ne_zero level).symm))
  | _ => exact present_congr rfl fun _ => rfl

variable [DecidableEq Tid] {call : Act Tid Node Key}

/-- The step that settles a call does what the call is for. -/
theorem nextStep_does (h : Good c keyOf s) (hserves : (s.pc t).Serves keyOf call t)
    (hstep : nextStep c s t = some s') (hsettles : (s.pc t).settles s = true) :
    call.Does c keyOf s s' := by
  have hsafe : ∀ message, s'.pc t ≠ .failed message := step_safe (a := .step t) h.inv hstep
  cases hpc : s.pc t with
  | addLink a =>
    rw [hpc] at hserves hsettles
    have hold := of_decide_eq_true hsettles
    have hcall : call = .add t a.key a.node a.height := hserves
    subst hcall
    simp only [nextStep, hpc] at hstep
    rw [if_pos hold] at hstep
    cases hstep
    obtain ⟨pc', heq, -⟩ := linkNext_keeps { s with
      next := set2 s.next (a.preds 0) 0 (some a.node, false)
      linked := set2 s.linked a.node 0 true } t a 1
    rw [heq]
    exact (link_adds h hpc hold).congr fun n => present_congr rfl fun _ => rfl
  | markCas key node level succ =>
    rw [hpc] at hserves hsettles
    cases level with
    | zero =>
      have hold := of_decide_eq_true hsettles
      simp only [nextStep, hpc] at hstep
      rw [if_pos hold] at hstep
      cases hstep
      obtain ⟨pc', heq, -⟩ := marked_keeps hsafe
      have hmarks := mark_removes h hpc hserves.2 hold
      rw [heq]
      rcases hserves.1 with rfl | rfl
      · exact ⟨node, hmarks.congr fun n => present_congr rfl fun _ => rfl⟩
      · exact hmarks.congr fun n => present_congr rfl fun _ => rfl
    | succ level => cases hsettles
  | _ =>
    rw [hpc] at hsettles
    cases hsettles

theorem step_same {a : Act Tid Node Key} (h : Good c keyOf s) (hstep : step c s a = some s')
    (hnot : (s.pc a.thread).settles s = false) (n : Node) :
    Present c s' n ↔ Present c s n := by
  obtain ⟨s₁, pc', rfl, w⟩ := step_writes h.inv hstep
  have hgoto : Present c (s₁.goto a.thread pc') n ↔ Present c s₁ n :=
    present_congr rfl fun _ => rfl
  exact hgoto.trans (w.present_same h hnot n)

end Effects

section History

variable [DecidableEq Tid]

def Busy (t : Tid) (s : State Tid Node Key) : Prop := s.pc t ≠ .idle

/-- The label begins a call of the thread. -/
def Act.begins (t : Tid) : Act Tid Node Key → Bool
  | .step _ => false
  | .add u _ _ _ | .remove u _ | .removeNode u _ _ | .lookup u _ | .lookupNext u _ => u = t

/-- The call that the thread has begun last. -/
def lastCall (t : Tid) (past : List (State Tid Node Key × Act Tid Node Key)) :
    Option (Act Tid Node Key) :=
  (past.map Prod.snd).find? (Act.begins t)

variable [DecidableEq Node] [LinearOrder Key] {c : Config Node Key} {keyOf : Node → Key}
variable {s s' : State Tid Node Key} {t : Tid} {call : Act Tid Node Key}
variable {past : List (State Tid Node Key × Act Tid Node Key)}

/-- What is known about a call in progress. -/
structure InCall (c : Config Node Key) (keyOf : Node → Key) (t : Tid) (call : Act Tid Node Key)
    (past : List (State Tid Node Key × Act Tid Node Key)) (s : State Tid Node Key) : Prop where
  begun : lastCall t past = some call
  serves : (s.pc t).Serves keyOf call t
  seen : During (Busy t) (Seen c keyOf call (s.pc t)) (moments past s)
  done : (s.pc t).settled = true →
    Took (Busy t) (fun s a s' => a = .step t ∧ call.Does c keyOf s s') past s

variable {a : Act Tid Node Key}

section

omit [DecidableEq Node] [LinearOrder Key]

theorem begins_of_ne (ht : t ≠ a.thread) : a.begins t = false := by
  cases a with
  | step u => rfl
  | _ => exact decide_eq_false fun heq => ht heq.symm

theorem lastCall_skip (h : a.begins t = false) : lastCall t ((s, a) :: past) = lastCall t past :=
  List.find?_cons_of_neg (by simp [h])

theorem lastCall_begin (h : a.begins t = true) : lastCall t ((s, a) :: past) = some a :=
  List.find?_cons_of_pos h

end

omit [DecidableEq Tid] [LinearOrder Key] in
/-- A place where the call is about to be settled. -/
theorem settled_of_settles {pc : Pc Node Key} (h : pc.settles s = true) :
    pc.settled = false := by
  cases pc with
  | addLink a | markCas key node level succ => rfl
  | _ => cases h

/-- A call begins at a place of its own, with nothing done. -/
theorem beginCall_inCall (h' : LinksInv c s') (hstep : beginCall c s a.thread a = some s')
    (hsafe : ∀ message, s'.pc a.thread ≠ .failed message) (hbusy : Busy a.thread s') :
    InCall c keyOf a.thread a ((s, a) :: past) s' := by
  have hend (hbegins : a.begins a.thread = true)
      (hcontinues : Continues keyOf a a.thread false (s'.pc a.thread))
      (hseen : During (Busy a.thread) (Seen c keyOf a (s'.pc a.thread))
        (moments ((s, a) :: past) s')) : InCall c keyOf a.thread a ((s, a) :: past) s' :=
    ⟨lastCall_begin hbegins, hcontinues.serves, hseen,
      fun hsettled => absurd (hcontinues.settled.symm.trans hsettled) Bool.false_ne_true⟩
  cases a with
  | add u key node height =>
    simp only [beginCall] at hstep
    split at hstep <;> cases hstep
    refine hend (decide_eq_true rfl) ?_ ?_ <;> rw [goto_pc]
    · exact ⟨rfl, rfl⟩
    · exact .now hbusy trivial
  | remove u key =>
    simp only [beginCall, Option.some.injEq] at hstep
    subst hstep
    exact hend (decide_eq_true rfl) (find_continues (.remove none) ⟨rfl, rfl⟩ hsafe)
      (find_sees h' hbusy hsafe)
  | removeNode u key node =>
    simp only [beginCall, Option.some.injEq] at hstep
    subst hstep
    exact hend (decide_eq_true rfl) (find_continues (.remove (some node)) rfl hsafe)
      (find_sees h' hbusy hsafe)
  | lookup u key | lookupNext u key =>
    simp only [beginCall, Option.some.injEq] at hstep
    subst hstep
    refine hend (decide_eq_true rfl) ?_ ?_ <;> rw [goto_pc]
    · exact ⟨rfl, rfl⟩
    · exact .now hbusy h'.head_behind
  | step u => simp [beginCall] at hstep

theorem InCall.step (ho : Ordered c keyOf) (run : (machine Tid c).Run past s)
    (hsound : AllSteps (fun _ a => a.Sound keyOf) past) (h : InCall c keyOf t call past s)
    (hstep : nextStep c s t = some s') (hbusy : Busy t s') :
    InCall c keyOf t call ((s, .step t) :: past) s' := by
  have hgood := run_good ho run hsound
  have hsafe : ∀ message, s'.pc t ≠ .failed message := step_safe (a := .step t) hgood.inv hstep
  have hcontinues := (nextStep_continues ho h.serves hstep hsafe).resolve_left
    fun hreturned => hbusy hreturned.2
  refine ⟨?_, hcontinues.serves, ?_, fun hsettled => ?_⟩
  · exact (lastCall_skip rfl).trans h.begun
  · exact .before hbusy (nextStep_sees ho run hsound h.serves h.seen hstep)
  · rw [hcontinues.settled, Bool.or_eq_true] at hsettled
    rcases hsettled with hsettles | hbefore
    · exact .now hbusy ⟨rfl, nextStep_does hgood h.serves hstep hsettles⟩
    · exact .before hbusy (h.done hbefore)

section

omit [LinearOrder Key]

theorem step_others (h : Inv c s) (hstep : step c s a = some s') (ht : t ≠ a.thread) :
    s'.pc t = s.pc t := by
  obtain ⟨s₁, pc', rfl, w⟩ := step_writes h hstep
  exact w.others ht

theorem step_of_busy (hstep : step c s a = some s') (hbusy : Busy a.thread s) :
    nextStep c s a.thread = some s' := by
  cases a with
  | step t => exact hstep
  | _ =>
    simp only [step] at hstep
    split at hstep
    · rename_i hidle
      exact absurd hidle hbusy
    · cases hstep

end

/-- A thread that runs is in the call that it has begun last. -/
theorem run_inCall (ho : Ordered c keyOf) (run : (machine Tid c).Run past s)
    (hsound : AllSteps (fun _ a => a.Sound keyOf) past) (hbusy : Busy t s) :
    ∃ call, InCall c keyOf t call past s := by
  induction run with
  | start hstart =>
    rw [hstart] at hbusy
    exact absurd rfl hbusy
  | @step past s s' a prior hstep ih =>
    have h := run_good ho prior hsound.tail
    have h' := step_good ho hsound.head h hstep
    have hsafe := step_safe h.inv hstep
    rcases Classical.em (t = a.thread) with rfl | ht
    · cases a with
      | step t =>
        have hbefore : Busy t s := by
          intro hidle
          simp [machine, Skiplist.step, nextStep, hidle] at hstep
        obtain ⟨call, hin⟩ := ih hsound.tail hbefore
        exact ⟨call, hin.step ho prior hsound.tail hstep hbusy⟩
      | _ =>
        simp only [machine, Skiplist.step] at hstep
        split at hstep
        · exact ⟨_, beginCall_inCall h'.inv.heap.toLinksInv hstep hsafe hbusy⟩
        · cases hstep
    · have hpc := step_others h.inv hstep ht
      have hbefore : Busy t s := by
        rw [Busy, ← hpc]
        exact hbusy
      obtain ⟨call, hin⟩ := ih hsound.tail hbefore
      refine ⟨call, (lastCall_skip (begins_of_ne ht)).trans hin.begun, ?_, ?_, ?_⟩
      · rw [hpc]
        exact hin.serves
      · rw [hpc]
        exact .before hbusy hin.seen
      · rw [hpc]
        exact fun hsettled => .before hbusy (hin.done hsettled)

/-- The calls up to the state `s` of a run are those of an atomic set, and the bottom level is the
set in the order of its keys. -/
structure AtomicSet (c : Config Node Key) (keyOf : Node → Key)
    (past : List (State Tid Node Key × Act Tid Node Key)) (s : State Tid Node Key) : Prop where
  sorted : ∃ nodes, Chain (s.level 0) c.head c.tail nodes ∧ (∀ n, Present c s n → n ∈ nodes) ∧
    nodes.Pairwise fun m n => Present c s m → Present c s n → keyOf m < keyOf n
  addTrue : ∀ t outNode, s.pc t = .addRet true outNode →
    ∃ key node height, lastCall t past = some (.add t key node height) ∧
      Took (Busy t) (fun s a s' => a = .step t ∧ Adds c keyOf key node s s') past s
  addFalse : ∀ t outNode, s.pc t = .addRet false outNode →
    ∃ key node height m, lastCall t past = some (.add t key node height) ∧ outNode = some m ∧
      keyOf m = key ∧ During (Busy t) (Present c · m) (moments past s)
  removeTrue : ∀ t, s.pc t = .removeRet true →
    ∃ call key, lastCall t past = some call ∧ call.IsRemoval t key ∧
      Took (Busy t) (fun s a s' => a = .step t ∧ call.Does c keyOf s s') past s
  removeFalse : ∀ t key, s.pc t = .removeRet false → lastCall t past = some (.remove t key) →
    During (Busy t) (Absent c keyOf key) (moments past s)
  lookupSome : ∀ t n, s.pc t = .lookupRet (some n) →
    ∃ key acceptNext, lastCall t past = some (lookupCall t key acceptNext) ∧
      Suits keyOf key acceptNext n ∧ During (Busy t) (Present c · n) (moments past s)
  lookupNone : ∀ t, s.pc t = .lookupRet none →
    ∃ key acceptNext, lastCall t past = some (lookupCall t key acceptNext) ∧
      (acceptNext = false → During (Busy t) (Absent c keyOf key) (moments past s))
  /-- The map changes only in the step that settles a call. -/
  changes : ∀ a s', step c s a = some s' → (∀ n, Present c s' n ↔ Present c s n) ∨
    ∃ call, lastCall a.thread past = some call ∧ call.Does c keyOf s s' ∧
      (s.pc a.thread).settled = false ∧ (s'.pc a.thread).settled = true
  /-- A call that is settled stays so until it returns. -/
  stays : ∀ a s', step c s a = some s' → ∀ t, (s.pc t).settled = true →
    (s'.pc t).settled = true ∨ ¬ Busy t s'
  /-- A node leaves the map once in a run. -/
  removedOnce : ∀ n, (transitions past s).Pairwise fun later earlier =>
    Present c earlier.1 n ∧ ¬ Present c earlier.2.2 n →
      ¬ (Present c later.1 n ∧ ¬ Present c later.2.2 n)

omit [DecidableEq Tid] in
/-- The bottom level in the order of the keys. -/
theorem Good.present_sorted (h : Good c keyOf s) :
    ∃ nodes, Chain (s.level 0) c.head c.tail nodes ∧ (∀ n, Present c s n → n ∈ nodes) ∧
      nodes.Pairwise fun m n => Present c s m → Present c s n → keyOf m < keyOf n := by
  have hlinks := h.inv.heap.toLinksInv
  obtain ⟨nodes, hchain, hranks⟩ := h.bottom.sorted
  refine ⟨nodes, hchain, fun n hn => ?_, hranks.imp fun {m n} hlt hm hn => ?_⟩
  · exact hchain.reaches_mem h.bottom.last (h.bottom.reaches_iff.mpr (hn.on hlinks))
  · rwa [hm.rank_eq, hn.rank_eq, keyRank_lt] at hlt

/-- A node that has been removed is linked and marked for ever. -/
theorem removed_once (ho : Ordered c keyOf) (run : (machine Tid c).Run past s)
    (hsound : AllSteps (fun _ a => a.Sound keyOf) past) (n : Node) :
    (transitions past s).Pairwise fun later earlier =>
      Present c earlier.1 n ∧ ¬ Present c earlier.2.2 n →
        ¬ (Present c later.1 n ∧ ¬ Present c later.2.2 n) := by
  let done (s : State Tid Node Key) : Prop := s.linked n 0 = true ∧ s.isMarked n 0
  have hdone : ∀ past s a s', (machine Tid c).Run past s →
      AllSteps (fun _ a => a.Sound keyOf) past → (machine Tid c).step s a = some s' →
      (Present c s n ∧ ¬ Present c s' n) ∨ done s → done s' := by
    intro past s a s' run hsound hstep hbefore
    obtain ⟨s₁, pc', rfl, heffect⟩ := step_effect (run_good ho run hsound).inv hstep
    rcases hbefore with ⟨hwas, hgone⟩ | ⟨hlinked, hmarked⟩
    · have hlinked := heffect.linked_mono hwas.linked
      refine ⟨hlinked, ?_⟩
      by_contra hunmarked
      exact hgone ⟨hwas.notHead, hwas.notTail, hlinked, hunmarked⟩
    · have hsame := heffect.next_eq hlinked hmarked
      exact ⟨heffect.linked_mono hlinked, (congrArg Prod.snd hsame).trans hmarked⟩
  refine (run.once hdone ?_ hsound).1
  rintro s a s' ⟨-, hmarked⟩ ⟨hwas, -⟩
  exact hwas.unmarked hmarked

/-- The skiplist is an atomic set in every run in which nodes are added under their keys. -/
theorem skiplist_atomic (ho : Ordered c keyOf) (run : (machine Tid c).Run past s)
    (hsound : AllSteps (fun _ a => a.Sound keyOf) past) : AtomicSet c keyOf past s := by
  have h := run_good ho run hsound
  have hcall (t : Tid) {pc : Pc Node Key} (hpc : s.pc t = pc) (hinside : pc.isIdle = false) :
      ∃ call, lastCall t past = some call ∧ pc.Serves keyOf call t ∧
        During (Busy t) (Seen c keyOf call pc) (moments past s) ∧
        (pc.settled = true →
          Took (Busy t) (fun s a s' => a = .step t ∧ call.Does c keyOf s s') past s) := by
    subst hpc
    have hbusy : Busy t s := by
      intro hidle
      rw [hidle] at hinside
      cases hinside
    obtain ⟨call, hin⟩ := run_inCall ho run hsound hbusy
    exact ⟨call, hin.begun, hin.serves, hin.seen, hin.done⟩
  constructor
  · exact h.present_sorted
  · intro t outNode hpc
    obtain ⟨call, hbegun, ⟨key, node, height, rfl, -⟩, -, hdone⟩ := hcall t hpc rfl
    exact ⟨key, node, height, hbegun, hdone rfl⟩
  · intro t outNode hpc
    obtain ⟨call, hbegun, ⟨key, node, height, rfl, hout⟩, hseen, -⟩ := hcall t hpc rfl
    obtain ⟨m, rfl, hkey⟩ := hout rfl
    exact ⟨key, node, height, m, hbegun, rfl, hkey, hseen.mono fun _ h₀ => h₀ m rfl⟩
  · intro t hpc
    obtain ⟨call, hbegun, ⟨key, hremoval⟩, -, hdone⟩ := hcall t hpc rfl
    exact ⟨call, key, hbegun, hremoval, hdone rfl⟩
  · intro t key hpc hlast
    obtain ⟨call, hbegun, -, hseen, -⟩ := hcall t hpc rfl
    obtain rfl := Option.some.inj (hbegun.symm.trans hlast)
    exact hseen.mono fun _ h₀ => h₀ t key rfl
  · intro t n hpc
    obtain ⟨call, hbegun, ⟨key, acceptNext, rfl, hsuits⟩, hseen, -⟩ := hcall t hpc rfl
    exact ⟨key, acceptNext, hbegun, hsuits n rfl, hseen⟩
  · intro t hpc
    obtain ⟨call, hbegun, ⟨key, acceptNext, rfl, -⟩, hseen, -⟩ := hcall t hpc rfl
    refine ⟨key, acceptNext, hbegun, ?_⟩
    rintro rfl
    exact hseen.mono fun _ h₀ => h₀ t key rfl
  · intro a s' hstep
    rcases Bool.eq_false_or_eq_true ((s.pc a.thread).settles s) with hsettles | hnot
    · have hunsettled := settled_of_settles hsettles
      have hbusy : Busy a.thread s := by
        intro hidle
        rw [hidle] at hsettles
        cases hsettles
      obtain ⟨call, hin⟩ := run_inCall ho run hsound hbusy
      have hnext := step_of_busy hstep hbusy
      refine .inr ⟨call, hin.begun, nextStep_does h hin.serves hnext hsettles, hunsettled, ?_⟩
      rcases nextStep_continues ho hin.serves hnext (step_safe h.inv hstep) with hreturns | hgoes
      · exact absurd (hreturns.1.symm.trans hsettles) Bool.false_ne_true
      · rw [hgoes.settled, hsettles, Bool.true_or]
    · exact .inl (step_same h hstep hnot)
  · intro a s' hstep t hsettled
    rcases Classical.em (t = a.thread) with rfl | ht
    · have hbusy : Busy a.thread s := by
        intro hidle
        rw [hidle] at hsettled
        cases hsettled
      obtain ⟨call, hin⟩ := run_inCall ho run hsound hbusy
      have hnext := step_of_busy hstep hbusy
      rcases nextStep_continues ho hin.serves hnext (step_safe h.inv hstep) with hreturns | hgoes
      · exact .inr fun hbusy' => hbusy' hreturns.2
      · rw [hgoes.settled, hsettled, Bool.or_true]
        exact .inl rfl
    · rw [step_others h.inv hstep ht]
      exact .inl hsettled
  · exact removed_once ho run hsound

end History

section Runs

/-- What a lookup that is about to return has found. -/
def Pc.answer {Node Key : Type} : Pc Node Key → Option (Option Node)
  | .lookupRet result => some result
  | _ => none

theorem Pc.answer_iff {Node Key : Type} (pc : Pc Node Key) (result : Option Node) :
    pc.answer = some result ↔ pc = .lookupRet result := by
  cases pc <;> simp [Pc.answer]

/-- While a lookup of key 3 stands on node 2, node 2 is removed and node 3 is added. -/
def lookupOverRemoval : List (Act Bool Nat Nat) :=
  List.flatten [
    .add true 2 2 1 :: List.replicate 12 (.step true),
    .lookup false 3 :: List.replicate 8 (.step false),
    .remove true 2 :: List.replicate 24 (.step true),
    .add true 3 3 1 :: List.replicate 12 (.step true),
    [.step false]]

/-- The lookup returns NULL while node 3 is in the map. -/
theorem skiplist_atomic_hindsight :
    ∃ past s, (machine Bool fourLevels).Run past s ∧ s.pc false = .lookupRet none ∧
      Present fourLevels s 3 ∧ During (Busy false) (Absent fourLevels id 3) (moments past s) := by
  let M := (machine Bool fourLevels).guarded addsItself
  have hend : (M.exec (vskiplistInit fourLevels) lookupOverRemoval).map
      (fun s => ((s.pc false).answer, s.linked 3 0, (s.next 3 0).2)) =
        some (some none, true, false) := by
    decide +kernel
  have hlast : lastCall false (M.pastOf (vskiplistInit fourLevels) [] lookupOverRemoval) =
      some (.lookup false 3) := by
    decide +kernel
  obtain ⟨s, hexec, hs⟩ := Option.map_eq_some_iff.mp hend
  simp only [Prod.mk.injEq, Pc.answer_iff] at hs
  obtain ⟨hret, hlinked, hunmarked⟩ := hs
  obtain ⟨run, hok⟩ := ((Machine.Run.start rfl).exec hexec).of_guarded
  obtain ⟨key, acceptNext, hcall, habsent⟩ := (skiplist_atomic fourLevels_ordered run
    (fun p hp => addsItself_sound (hok p hp))).lookupNone false hret
  have hsame := Option.some.inj (hcall.symm.trans hlast)
  refine ⟨_, s, run, hret, ⟨by decide, by decide, hlinked, State.not_isMarked hunmarked⟩, ?_⟩
  cases acceptNext with
  | true => cases hsame
  | false =>
    cases hsame
    exact habsent rfl

end Runs

end Libvsync.Map.Skiplist
