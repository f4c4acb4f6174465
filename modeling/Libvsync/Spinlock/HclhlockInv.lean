import Libvsync.Spinlock.Hclhlock
import Mathlib.Data.List.Nodup

/-!
The invariant of the HCLH lock. The threads that were spliced onto the global queue form
a line: the first one waits for the qnode that was released last, and every other one
for the qnode of the thread in front of it. The threads of a local queue that were not
spliced yet form a line of their own, whose first thread is or becomes the cluster
master: the qnode in front of it was the tail when spliced, or will be marked so by the
master that is splicing it, or has been taken over by a thread of another cluster.
-/

namespace Libvsync.Spinlock.Hclhlock

open Libvsync.Core

variable {Tid Node : Type}

/-- A release has given the qnode of the thread up and takes the one of `pred`. -/
def Pc.hijacking : Pc Node → Bool
  | .hijackRead _ | .hijackCas _ _ => true
  | _ => false

/-- The qnode that a thread owns. -/
def own (s : State Tid Node) (t : Tid) : Node :=
  if (s.pc t).hijacking then (s.pred t).getD (s.qnode t) else s.qnode t

/-- The qnode that a master is going to mark as the tail when spliced. -/
def Pc.marks : Pc Node → Option Node
  | .twsRead _ localTail | .twsWrite _ localTail _ => localTail
  | _ => none

def Pending (s : State Tid Node) (m : Tid) (x : Node) : Prop := (s.pc m).marks = some x

/-- Thread `y` of cluster `c` is in the global queue behind qnode `p`. -/
def BehindAt (s : State Tid Node) (c : Nat) (p : Node) (y : Tid) : Pc Node → Prop
  | .acqPoll c' pred use | .acqPollNe c' pred use _ =>
    c' = c ∧ pred = p ∧ use = s.uses p ∧ (s.state p).cluster = c ∧ (s.state p).tws = false ∧
      ∀ m, ¬ Pending s m p
  | .twsRead pred _ | .twsWrite pred _ _ | .masterPoll pred | .masterPollNe pred _ => pred = some p
  | .critical | .relRead | .relWrite _ => s.pred y = some p ∧ (s.state p).smw = false
  | _ => False

/-- The global queue behind qnode `p`. `stale` are the qnodes in front of the local
queues: none of them is taken over by a thread of the cluster. -/
def Line (cluster : Tid → Nat) (s : State Tid Node) (stale : Nat → Option Node) (p : Node) :
    List Tid → Prop
  | [] => s.globalQueue = some p
  | y :: line =>
    (some p ≠ stale (cluster y) ∧ BehindAt s (cluster y) p y (s.pc y)) ∧
      Line cluster s stale (s.qnode y) line

/-- The first thread of a local queue. -/
def FirstAt (s : State Tid Node) (c : Nat) (stale : Option Node) (queue : List Tid) :
    Pc Node → Prop
  | .acqPoll c' pred _ | .acqPollNe c' pred _ _ => c' = c ∧ some pred = stale
  | .acqTail c' _ => c' = c
  | .acqGlobal c' _ localTail => c' = c ∧ ∃ u ∈ queue, localTail = some (s.qnode u)
  | _ => False

/-- Another thread of a local queue, behind qnode `p`. -/
def FollowsAt (s : State Tid Node) (c : Nat) (p : Node) : Pc Node → Prop
  | .acqPoll c' pred use | .acqPollNe c' pred use _ => c' = c ∧ pred = p ∧ use = s.uses p
  | _ => False

def Followers (s : State Tid Node) (c : Nat) (p : Node) : List Tid → Prop
  | [] => s.localQueues c = some p
  | y :: rest => FollowsAt s c p (s.pc y) ∧ Followers s c (s.qnode y) rest

def Locals (s : State Tid Node) (c : Nat) (stale : Option Node) : List Tid → Prop
  | [] => s.localQueues c = stale
  | l :: rest => FirstAt s c stale (l :: rest) (s.pc l) ∧ Followers s c (s.qnode l) rest

/-- A qnode that does not grant the lock to a thread of cluster `c`. -/
def Stale (s : State Tid Node) (c : Nat) (x : Node) : Prop :=
  (s.state x).cluster ≠ c ∨ (s.state x).tws = true ∨ ∃ m, Pending s m x

/-- A thread that is in no queue. -/
def OutAt (s : State Tid Node) (c : Nat) (stale : Option Node) (t : Tid) : Pc Node → Prop
  | .idle | .acqState => True
  | .acqLocal c' _ => c' = c
  | .hijackRead c' | .hijackCas c' _ => c' = c ∧ ∃ p, s.pred t = some p ∧ some p ≠ stale
  | _ => False

/-- `token` is the qnode that was released last. -/
structure Inv (cluster : Tid → Nat) (s : State Tid Node) (token : Node) (line : List Tid)
    (queue : Nat → List Tid) (stale : Nat → Option Node) : Prop where
  own_inj : ∀ t u, own s t = own s u → t = u
  own_ne : ∀ t, own s t ≠ token
  global : Line cluster s stale token line
  locals : ∀ c, Locals s c (stale c) (queue c)
  nodup : line.Nodup
  queueNodup : ∀ c, (queue c).Nodup
  apart : ∀ c, ∀ t ∈ queue c, t ∉ line ∧ cluster t = c
  out : ∀ t, t ∉ line → t ∉ queue (cluster t) →
    OutAt s (cluster t) (stale (cluster t)) t (s.pc t)
  owned : ∀ t, (s.pc t).hijacking = false →
    (s.state (s.qnode t)).smw = true ∧ (s.state (s.qnode t)).cluster = cluster t ∧
      (t ∉ line → (s.state (s.qnode t)).tws = false)
  free : (s.state token).smw = false
  stales : ∀ c x, stale c = some x → Stale s c x
  pending : ∀ m x, Pending s m x →
    ∃ before after u, line = before ++ m :: after ∧ u ∈ m :: after ∧ s.qnode u = x
  twsWrite : ∀ m pred x v, s.pc m = .twsWrite pred (some x) v → v = { s.state x with tws := true }
  relWrite : ∀ t cur, s.pc t = .relWrite cur → cur = s.state (s.qnode t)

variable {cluster : Tid → Nat} {s s' : State Tid Node} {token p q : Node} {line rest : List Tid}
  {queue queue' : Nat → List Tid} {stale stale' : Nat → Option Node} {t y : Tid} {c : Nat}

theorem Line.mem (h : Line cluster s stale p line) (hy : y ∈ line) :
    ∃ q ∈ p :: line.map s.qnode, some q ≠ stale (cluster y) ∧
      BehindAt s (cluster y) q y (s.pc y) := by
  induction line generalizing p with
  | nil => cases hy
  | cons x line ih =>
    rcases List.mem_cons.mp hy with rfl | hy
    · exact ⟨p, List.mem_cons_self .., h.1⟩
    · obtain ⟨q, hq, hbehind⟩ := ih h.2 hy
      exact ⟨q, List.mem_cons_of_mem _ hq, hbehind⟩

theorem Line.imp (h : Line cluster s stale p line)
    (himp : ∀ y ∈ line, ∀ q ∈ p :: line.map s.qnode,
      some q ≠ stale (cluster y) ∧ BehindAt s (cluster y) q y (s.pc y) →
        some q ≠ stale' (cluster y) ∧ BehindAt s' (cluster y) q y (s'.pc y))
    (hqnode : ∀ y ∈ line, s'.qnode y = s.qnode y) (hglobal : s'.globalQueue = s.globalQueue) :
    Line cluster s' stale' p line := by
  induction line generalizing p with
  | nil => exact hglobal.trans h
  | cons x line ih =>
    refine ⟨himp x (List.mem_cons_self ..) p (List.mem_cons_self ..) h.1, ?_⟩
    rw [hqnode x (List.mem_cons_self ..)]
    exact ih h.2 (fun y hy q hq => himp y (List.mem_cons_of_mem _ hy) q
      (List.mem_cons_of_mem _ hq)) fun y hy => hqnode y (List.mem_cons_of_mem _ hy)

/-- The last qnode of the global queue. -/
theorem Line.globalQueue (h : Line cluster s stale p line) :
    ∃ q ∈ p :: line.map s.qnode, s.globalQueue = some q := by
  induction line generalizing p with
  | nil => exact ⟨p, List.mem_cons_self .., h⟩
  | cons x line ih =>
    obtain ⟨q, hq, hglobal⟩ := ih h.2
    exact ⟨q, List.mem_cons_of_mem _ hq, hglobal⟩

theorem Followers.mem (h : Followers s c p rest) (hy : y ∈ rest) :
    ∃ q ∈ p :: rest.map s.qnode, FollowsAt s c q (s.pc y) := by
  induction rest generalizing p with
  | nil => cases hy
  | cons x rest ih =>
    rcases List.mem_cons.mp hy with rfl | hy
    · exact ⟨p, List.mem_cons_self .., h.1⟩
    · obtain ⟨q, hq, hfollows⟩ := ih h.2 hy
      exact ⟨q, List.mem_cons_of_mem _ hq, hfollows⟩

theorem Followers.imp (h : Followers s c p rest)
    (himp : ∀ y ∈ rest, ∀ q ∈ p :: rest.map s.qnode,
      FollowsAt s c q (s.pc y) → FollowsAt s' c q (s'.pc y))
    (hqnode : ∀ y ∈ rest, s'.qnode y = s.qnode y)
    (hlocal : s'.localQueues c = s.localQueues c) : Followers s' c p rest := by
  induction rest generalizing p with
  | nil => exact hlocal.trans h
  | cons x rest ih =>
    refine ⟨himp x (List.mem_cons_self ..) p (List.mem_cons_self ..) h.1, ?_⟩
    rw [hqnode x (List.mem_cons_self ..)]
    exact ih h.2 (fun y hy q hq => himp y (List.mem_cons_of_mem _ hy) q
      (List.mem_cons_of_mem _ hq)) fun y hy => hqnode y (List.mem_cons_of_mem _ hy)

theorem Followers.localQueues (h : Followers s c p rest) :
    ∃ q ∈ p :: rest.map s.qnode, s.localQueues c = some q := by
  induction rest generalizing p with
  | nil => exact ⟨p, List.mem_cons_self .., h⟩
  | cons x rest ih =>
    obtain ⟨q, hq, hlocal⟩ := ih h.2
    exact ⟨q, List.mem_cons_of_mem _ hq, hlocal⟩

theorem Followers.append (h : Followers s c p rest) (hself : s'.localQueues c = some (s.qnode t))
    (himp : ∀ y ∈ rest, ∀ q ∈ p :: rest.map s.qnode,
      FollowsAt s c q (s.pc y) → FollowsAt s' c q (s'.pc y))
    (hqnode : s'.qnode = s.qnode)
    (hbehind : ∀ q ∈ p :: rest.map s.qnode, s.localQueues c = some q → FollowsAt s' c q (s'.pc t)) :
    Followers s' c p (rest ++ [t]) := by
  induction rest generalizing p with
  | nil =>
    refine ⟨hbehind p (List.mem_cons_self ..) h, ?_⟩
    rw [hqnode]
    exact hself
  | cons x rest ih =>
    refine ⟨himp x (List.mem_cons_self ..) p (List.mem_cons_self ..) h.1, ?_⟩
    rw [hqnode]
    exact ih h.2 (fun y hy q hq => himp y (List.mem_cons_of_mem _ hy) q
      (List.mem_cons_of_mem _ hq)) fun q hq => hbehind q (List.mem_cons_of_mem _ hq)

/-- A part of a local queue is spliced onto the global queue. -/
theorem Line.append {spliced : List Tid} (h : Line cluster s stale p line)
    (himp : ∀ y ∈ line, ∀ q ∈ p :: line.map s.qnode,
      some q ≠ stale (cluster y) ∧ BehindAt s (cluster y) q y (s.pc y) →
        some q ≠ stale' (cluster y) ∧ BehindAt s' (cluster y) q y (s'.pc y))
    (hqnode : s'.qnode = s.qnode) (hglobal : s.globalQueue = some q)
    (hspliced : Line cluster s' stale' q spliced) :
    Line cluster s' stale' p (line ++ spliced) := by
  induction line generalizing p with
  | nil =>
    have hpq : s.globalQueue = some p := h
    rw [hglobal] at hpq
    cases hpq
    exact hspliced
  | cons x line ih =>
    refine ⟨himp x (List.mem_cons_self ..) p (List.mem_cons_self ..) h.1, ?_⟩
    rw [hqnode]
    exact ih h.2 fun y hy q hq => himp y (List.mem_cons_of_mem _ hy) q
      (List.mem_cons_of_mem _ hq)

/-- The threads behind the master that are spliced with it, up to the one whose qnode
`x` is the tail when spliced. -/
theorem Followers.spliced {spliced : List Tid} {x : Node} (h : Followers s c p (spliced ++ rest))
    (hlast : (p :: spliced.map s.qnode).getLast? = some x)
    (hnodup : (p :: spliced.map s.qnode).Nodup)
    (himp : ∀ y ∈ spliced, ∀ q ∈ p :: spliced.map s.qnode, q ≠ x → FollowsAt s c q (s.pc y) →
      some q ≠ stale' (cluster y) ∧ BehindAt s' (cluster y) q y (s'.pc y))
    (hqnode : s'.qnode = s.qnode) (hglobal : s'.globalQueue = some x) :
    Line cluster s' stale' p spliced ∧ Followers s c x rest := by
  induction spliced generalizing p with
  | nil =>
    cases hlast
    exact ⟨hglobal, h⟩
  | cons y spliced ih =>
    obtain ⟨hp, hnodup'⟩ := List.nodup_cons.mp hnodup
    rw [List.map_cons, List.getLast?_cons_cons] at hlast
    have hne : p ≠ x := by
      rintro rfl
      exact hp (List.mem_of_getLast? hlast)
    obtain ⟨hline, hrest⟩ := ih h.2 hlast hnodup' fun z hz q hq =>
      himp z (List.mem_cons_of_mem _ hz) q (List.mem_cons_of_mem _ hq)
    refine ⟨⟨himp y (List.mem_cons_self ..) p (List.mem_cons_self ..) hne h.1, ?_⟩, hrest⟩
    rw [hqnode]
    exact hline

theorem own_eq (h : (s.pc t).hijacking = false) : own s t = s.qnode t := by
  rw [own, h]
  rfl

theorem BehindAt.not_hijacking {pc : Pc Node} (h : BehindAt s c q y pc) : pc.hijacking = false := by
  cases pc <;> first | rfl | exact h.elim

theorem FirstAt.not_hijacking {pc : Pc Node} {x : Option Node} (h : FirstAt s c x rest pc) :
    pc.hijacking = false := by
  cases pc <;> first | rfl | exact h.elim

theorem FollowsAt.not_hijacking {pc : Pc Node} (h : FollowsAt s c q pc) :
    pc.hijacking = false := by
  cases pc <;> first | rfl | exact h.elim

namespace Inv

theorem line_own (h : Inv cluster s token line queue stale) (ht : t ∈ line) :
    (s.pc t).hijacking = false := by
  obtain ⟨q, -, -, hbehind⟩ := h.global.mem ht
  exact hbehind.not_hijacking

theorem queue_own (h : Inv cluster s token line queue stale) (ht : t ∈ queue c) :
    (s.pc t).hijacking = false := by
  have hlocals := h.locals c
  cases hqueue : queue c with
  | nil =>
    rw [hqueue] at ht
    cases ht
  | cons l rest =>
    rw [hqueue] at ht hlocals
    rcases List.mem_cons.mp ht with rfl | ht
    · exact hlocals.1.not_hijacking
    · obtain ⟨q, -, hfollows⟩ := hlocals.2.mem ht
      exact hfollows.not_hijacking

theorem qnode_inj (h : Inv cluster s token line queue stale) {u : Tid}
    (ht : (s.pc t).hijacking = false) (hu : (s.pc u).hijacking = false)
    (heq : s.qnode t = s.qnode u) : t = u := by
  refine h.own_inj t u ?_
  rw [own_eq ht, own_eq hu, heq]

theorem qnode_ne (h : Inv cluster s token line queue stale) (ht : (s.pc t).hijacking = false) :
    s.qnode t ≠ token := by
  rw [← own_eq ht]
  exact h.own_ne t

end Inv

/-- What a step leaves of a qnode of the global queue. -/
structure Kept (s s' : State Tid Node) (q : Node) : Prop where
  uses : s'.uses q = s.uses q
  cluster : (s'.state q).cluster = (s.state q).cluster
  smw : (s.state q).smw = false → (s'.state q).smw = false
  tws : (∀ m, ¬ Pending s m q) → (s.state q).tws = false →
    (s'.state q).tws = false ∧ ∀ m, ¬ Pending s' m q

theorem BehindAt.kept {pc : Pc Node} (h : BehindAt s c q y pc) (hkept : Kept s s' q)
    (hpred : s'.pred y = s.pred y) : BehindAt s' c q y pc := by
  cases pc with
  | acqPoll c' pred use | acqPollNe c' pred use cur =>
    obtain ⟨hc, hp, huse, hcluster, htws, hpending⟩ := h
    obtain ⟨htws', hpending'⟩ := hkept.tws hpending htws
    exact ⟨hc, hp, huse.trans hkept.uses.symm, hkept.cluster.trans hcluster, htws', hpending'⟩
  | twsRead _ _ | twsWrite _ _ _ | masterPoll _ | masterPollNe _ _ => exact h
  | critical | relRead | relWrite _ => exact ⟨hpred.trans h.1, hkept.smw h.2⟩
  | idle | acqState | acqLocal _ _ | acqTail _ _ | acqGlobal _ _ _ | hijackRead _
  | hijackCas _ _ => exact h

theorem OutAt.kept {pc : Pc Node} {x : Option Node} (h : OutAt s c x t pc)
    (hpred : s'.pred t = s.pred t) : OutAt s' c x t pc := by
  cases pc <;> first | exact h | (rw [OutAt, hpred]; exact h)

theorem FirstAt.kept {pc : Pc Node} {x : Option Node} {l : List Tid} (h : FirstAt s c x l pc)
    (hqnode : ∀ u ∈ l, s'.qnode u = s.qnode u) : FirstAt s' c x l pc := by
  cases pc with
  | acqGlobal c' expTail localTail =>
    obtain ⟨hc, u, hu, htail⟩ := h
    refine ⟨hc, u, hu, ?_⟩
    rw [hqnode u hu]
    exact htail
  | _ => exact h

theorem FollowsAt.kept {pc : Pc Node} (h : FollowsAt s c q pc) (huses : s'.uses q = s.uses q) :
    FollowsAt s' c q pc := by
  cases pc with
  | acqPoll c' pred use | acqPollNe c' pred use cur =>
    exact ⟨h.1, h.2.1, h.2.2.trans huses.symm⟩
  | _ => exact h

/-- Only where `t` stands and its `pred` change. -/
structure Quiet (s s' : State Tid Node) (t : Tid) : Prop where
  pc : ∀ u, u ≠ t → s'.pc u = s.pc u
  pred : ∀ u, u ≠ t → s'.pred u = s.pred u
  state : s'.state = s.state
  qnode : s'.qnode = s.qnode
  uses : s'.uses = s.uses
  localQueues : s'.localQueues = s.localQueues
  globalQueue : s'.globalQueue = s.globalQueue
  hijacking : (s'.pc t).hijacking = (s.pc t).hijacking
  predSelf : (s.pc t).hijacking = true → s'.pred t = s.pred t
  marks : (s'.pc t).marks = (s.pc t).marks

namespace Quiet

theorem pending (h : Quiet s s' t) {m : Tid} {x : Node} : Pending s' m x ↔ Pending s m x := by
  rw [Pending, Pending]
  by_cases hm : m = t
  · rw [hm, h.marks]
  · rw [h.pc m hm]

theorem kept (h : Quiet s s' t) (q : Node) : Kept s s' q := by
  refine ⟨congrFun h.uses q, ?_, ?_, ?_⟩
  · rw [h.state]
  · rw [h.state]
    exact id
  · intro hpending htws
    rw [h.state]
    exact ⟨htws, fun m hm => hpending m (h.pending.mp hm)⟩

theorem hijackings (h : Quiet s s' t) (u : Tid) : (s'.pc u).hijacking = (s.pc u).hijacking := by
  by_cases hu : u = t
  · rw [hu, h.hijacking]
  · rw [h.pc u hu]

theorem own (h : Quiet s s' t) (u : Tid) : own s' u = own s u := by
  rw [Hclhlock.own, Hclhlock.own, h.hijackings, h.qnode]
  split
  · rename_i hhijacking
    by_cases hu : u = t
    · rw [hu] at hhijacking
      rw [hu, h.predSelf hhijacking]
    · rw [h.pred u hu]
  · rfl

end Quiet

theorem Inv.quiet (h : Inv cluster s token line queue stale) (hquiet : Quiet s s' t)
    {pc pc' : Pc Node} (hat : s.pc t = pc) (hat' : s'.pc t = pc')
    (hline : ∀ q ∈ token :: line.map s.qnode, BehindAt s (cluster t) q t pc →
      BehindAt s' (cluster t) q t pc')
    (hfirst : ∀ rest, queue (cluster t) = t :: rest →
      FirstAt s (cluster t) (stale (cluster t)) (t :: rest) pc →
        FirstAt s' (cluster t) (stale (cluster t)) (t :: rest) pc')
    (hfollows : ∀ u ∈ queue (cluster t), FollowsAt s (cluster t) (s.qnode u) pc →
      FollowsAt s' (cluster t) (s.qnode u) pc')
    (hout : OutAt s (cluster t) (stale (cluster t)) t pc →
      OutAt s' (cluster t) (stale (cluster t)) t pc')
    (htws : ∀ pred x v, pc' = .twsWrite pred (some x) v → v = { s.state x with tws := true })
    (hrel : ∀ cur, pc' = .relWrite cur → cur = s.state (s.qnode t)) :
    Inv cluster s' token line queue stale := by
  subst hat hat'
  refine ⟨?_, ?_, ?_, ?_, h.nodup, h.queueNodup, h.apart, ?_, ?_, ?_, ?_, ?_, ?_, ?_⟩
  · intro u v heq
    rw [hquiet.own, hquiet.own] at heq
    exact h.own_inj u v heq
  · intro u
    rw [hquiet.own]
    exact h.own_ne u
  · refine h.global.imp (fun y _ q hq hbehind => ⟨hbehind.1, ?_⟩)
      (fun y _ => congrFun hquiet.qnode y) hquiet.globalQueue
    by_cases hy : y = t
    · subst hy
      exact hline q hq hbehind.2
    · rw [hquiet.pc y hy]
      exact hbehind.2.kept (hquiet.kept q) (hquiet.pred y hy)
  · intro c
    have hlocals := h.locals c
    have hmem := h.apart c
    cases hqueue : queue c with
    | nil =>
      rw [hqueue] at hlocals
      exact (congrFun hquiet.localQueues c).trans hlocals
    | cons l rest =>
      rw [hqueue] at hlocals hmem
      constructor
      · by_cases hl : l = t
        · subst hl
          obtain rfl := (hmem l (List.mem_cons_self ..)).2
          exact hfirst rest hqueue hlocals.1
        · rw [hquiet.pc l hl]
          exact hlocals.1.kept fun u _ => congrFun hquiet.qnode u
      · rw [hquiet.qnode]
        refine hlocals.2.imp (fun y hy q hq hbehind => ?_) (fun y _ => congrFun hquiet.qnode y)
          (congrFun hquiet.localQueues c)
        by_cases hyt : y = t
        · subst hyt
          obtain rfl := (hmem y (List.mem_cons_of_mem _ hy)).2
          obtain ⟨u, hu, rfl⟩ : ∃ u ∈ queue (cluster y), s.qnode u = q := by
            rw [hqueue]
            exact List.mem_map.mp (hq : q ∈ (l :: rest).map s.qnode)
          exact hfollows u hu hbehind
        · rw [hquiet.pc y hyt]
          exact hbehind.kept (congrFun hquiet.uses q)
  · intro u hu hu'
    have hold := h.out u hu hu'
    by_cases hut : u = t
    · subst hut
      exact hout hold
    · rw [hquiet.pc u hut]
      exact hold.kept (hquiet.pred u hut)
  · intro u hu
    rw [hquiet.hijackings] at hu
    rw [hquiet.state, hquiet.qnode]
    exact h.owned u hu
  · rw [hquiet.state]
    exact h.free
  · intro c x hx
    rcases h.stales c x hx with hcluster | htws | ⟨m, hm⟩
    · exact .inl (by rw [hquiet.state]; exact hcluster)
    · exact .inr (.inl (by rw [hquiet.state]; exact htws))
    · exact .inr (.inr ⟨m, hquiet.pending.mpr hm⟩)
  · intro m x hm
    rw [hquiet.qnode]
    exact h.pending m x (hquiet.pending.mp hm)
  · intro m pred x v hm
    rw [hquiet.state]
    by_cases hmt : m = t
    · subst hmt
      exact htws pred x v hm
    · rw [hquiet.pc m hmt] at hm
      exact h.twsWrite m pred x v hm
  · intro u cur hu
    rw [hquiet.state, hquiet.qnode]
    by_cases hut : u = t
    · subst hut
      exact hrel cur hu
    · rw [hquiet.pc u hut] at hu
      exact h.relWrite u cur hu

end Libvsync.Spinlock.Hclhlock
