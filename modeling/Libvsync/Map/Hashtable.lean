import Libvsync.Core.Tally
import Libvsync.Core.Word
import Libvsync.Map.ListsetLfSet
import Mathlib.Algebra.BigOperators.Fin
import Mathlib.Data.Set.Card

/-!
The hash table: an array of lock-free list sets and a counter. A call works on one bucket and
then, if it has succeeded, on the counter. `vhashtable_init` initialises the buckets only; the
counter starts with what the memory held.

Each bucket has its own memory here. An entry is in at most one bucket, so no bucket reads what
another has written.
-/

namespace Libvsync.Map.Hashtable

open Libvsync.Core Function

/-- The table: the sentinels of its buckets, and the keys and their comparison, common to all. -/
structure Table (Node Key : Type) [LinearOrder Key] (B : Nat) where
  head : Fin B → Node
  tail : Fin B → Node
  heads : Function.Injective head
  tails : Function.Injective tail
  distinct : ∀ i j, head i ≠ tail j
  key : Node → Key
  cmpFun : Node → Key → Int
  cmp_neg : ∀ n k, cmpFun n k < 0 ↔ key n < k
  cmp_zero : ∀ n k, cmpFun n k = 0 ↔ key n = k

def Table.bucket {Node Key : Type} [LinearOrder Key] {B : Nat} (tbl : Table Node Key B)
    (idx : Fin B) : ListsetLf.Config Node Key where
  head := tbl.head idx
  tail := tbl.tail idx
  distinct := tbl.distinct idx idx
  key := tbl.key
  cmpFun := tbl.cmpFun
  cmp_neg := tbl.cmp_neg
  cmp_zero := tbl.cmp_zero

/-- `inBucket`: in the call of the list set of that bucket. -/
inductive Pc (B : Nat) where
  | idle
  | inBucket (idx : Fin B)
  | countUp
  | countDown
  deriving DecidableEq

structure State (Tid Node Key : Type) (B : Nat) where
  buckets : Fin B → ListsetLf.State Tid Node Key
  numEntries : Nat
  pc : Tid → Pc B

inductive Act (Tid Node Key : Type) (B : Nat) where
  | insert (t : Tid) (key : Key) (entry : Node) (hashIdx : Fin B)
  | remove (t : Tid) (key : Key) (hashIdx : Fin B)
  | get (t : Tid) (key : Key) (hashIdx : Fin B)
  | step (t : Tid)

def Act.thread {Tid Node Key : Type} {B : Nat} : Act Tid Node Key B → Tid
  | .insert t _ _ _ | .remove t _ _ | .get t _ _ | .step t => t

variable {Tid Node Key : Type} [DecidableEq Tid] [DecidableEq Node] [LinearOrder Key] {B : Nat}

def State.inBucket (s : State Tid Node Key B) (t : Tid) (idx : Fin B) (pc : Pc B)
    (bucket : ListsetLf.State Tid Node Key) : State Tid Node Key B :=
  { s with
    buckets := update s.buckets idx bucket
    pc := update s.pc t pc }

/-- Where a call goes on when the one of the list set returns. -/
def returned : ListsetLf.Pc Node Key → Option (Pc B)
  | .addRet _ _ ok => some (if ok then .countUp else .idle)
  | .removeRet _ ok => some (if ok then .countDown else .idle)
  | .getRet _ _ => some .idle
  | _ => none

def nextStep (tbl : Table Node Key B) (s : State Tid Node Key B) (t : Tid) :
    Option (State Tid Node Key B) :=
  match s.pc t with
  | .idle => none
  | .inBucket idx =>
    (ListsetLf.step (tbl.bucket idx) (s.buckets idx) (.step t)).map
      (s.inBucket t idx ((returned ((s.buckets idx).pc t)).getD (.inBucket idx)))
  | .countUp =>
    some { s with
      numEntries := wadd 64 s.numEntries 1
      pc := update s.pc t .idle }
  | .countDown =>
    some { s with
      numEntries := wsub 64 s.numEntries 1
      pc := update s.pc t .idle }

/-- `vhashtable_insert`, `vhashtable_remove` and `vhashtable_get`. An entry that is in the table,
or was during the run, is not inserted again. -/
def step (tbl : Table Node Key B) (s : State Tid Node Key B) :
    Act Tid Node Key B → Option (State Tid Node Key B)
  | .step t => nextStep tbl s t
  | .insert t key entry hashIdx =>
    if s.pc t = .idle ∧
        ∀ i, (s.buckets i).inUse entry = false ∧ entry ≠ tbl.head i ∧ entry ≠ tbl.tail i then
      (ListsetLf.step (tbl.bucket hashIdx) (s.buckets hashIdx) (.add t key entry)).map
        (s.inBucket t hashIdx (.inBucket hashIdx))
    else none
  | .remove t key hashIdx =>
    if s.pc t = .idle then
      (ListsetLf.step (tbl.bucket hashIdx) (s.buckets hashIdx) (.remove t key)).map
        (s.inBucket t hashIdx (.inBucket hashIdx))
    else none
  | .get t key hashIdx =>
    if s.pc t = .idle then
      (ListsetLf.step (tbl.bucket hashIdx) (s.buckets hashIdx) (.get t key)).map
        (s.inBucket t hashIdx (.inBucket hashIdx))
    else none

/-- `vhashtable_init`; `memory` is what the memory of the counter holds. -/
def vhashtableInit (tbl : Table Node Key B) (memory : Nat) : State Tid Node Key B where
  buckets idx := ListsetLf.vlistsetInit (tbl.bucket idx)
  numEntries := memory
  pc := fun _ => .idle

/-- The runs from one state on. -/
def machine (tbl : Table Node Key B) (origin : State Tid Node Key B) :
    Machine (State Tid Node Key B) (Act Tid Node Key B) where
  start s := s = origin
  step := step tbl

/-- `vhashtable_get_entries_count` -/
def vhashtableGetEntriesCount (s : State Tid Node Key B) : Nat := s.numEntries

/-- The unmarked nodes of a bucket. -/
def members (tbl : Table Node Key B) (idx : Fin B) (bucket : ListsetLf.State Tid Node Key) :
    Set Node :=
  { n | ListsetLf.Member (tbl.bucket idx) bucket n }

/-- The number of unmarked nodes over all buckets. -/
noncomputable def entries (tbl : Table Node Key B) (s : State Tid Node Key B) : Nat :=
  ∑ idx, (members tbl idx (s.buckets idx)).ncard

/-- No call is in progress, and nothing is recorded of earlier ones but the buckets that they
have left. When the table was initialised the counter held `memory`. -/
structure Quiet (tbl : Table Node Key B) (memory : Nat) (s : State Tid Node Key B) : Prop where
  idle : ∀ t, s.pc t = .idle
  buckets : ∀ idx, ListsetLf.Quiet (tbl.bucket idx) (s.buckets idx)
  apart : ∀ n i j, (s.buckets i).inUse n = true → (s.buckets j).inUse n = true → i = j
  heads : ∀ i j, (s.buckets i).inUse (tbl.head j) = false
  word : s.numEntries < 2 ^ 64
  count : s.numEntries % 2 ^ 64 = (memory + entries tbl s) % 2 ^ 64

/-- The calls are over: the entries that were removed and unlinked are free again. -/
def State.renew (s : State Tid Node Key B) : State Tid Node Key B :=
  { s with buckets idx := (s.buckets idx).renew }

/-- A run begins after `vhashtable_init`, or when the calls of another run are over. -/
inductive Begins (tbl : Table Node Key B) (memory : Nat) : State Tid Node Key B → Prop
  | init : Begins tbl memory (vhashtableInit tbl memory)
  | renew {origin s : State Tid Node Key B} {past : List (_ × Act Tid Node Key B)}
      (prior : Begins tbl memory origin) (run : (machine tbl origin).Run past s)
      (hidle : ∀ t, s.pc t = .idle) : Begins tbl memory s.renew

/-- The calls of `vhashtable_insert` that have returned true. -/
def insertions (past : List (State Tid Node Key B × Act Tid Node Key B)) : Nat :=
  past.countP fun p => p.1.pc p.2.thread = .countUp

/-- The calls of `vhashtable_remove` that have returned true. -/
def removals (past : List (State Tid Node Key B × Act Tid Node Key B)) : Nat :=
  past.countP fun p => p.1.pc p.2.thread = .countDown

section Bucket

variable {c : ListsetLf.Config Node Key} {b b' : ListsetLf.State Tid Node Key} {t : Tid}

theorem findReturn_inUse (t : Tid) (k : Key) (caller : ListsetLf.Caller Node) (pred curr : Node) :
    (b.findReturn c t k caller pred curr).inUse = b.inUse := by
  cases caller with
  | add node | remove =>
    rw [ListsetLf.State.findReturn]
    split
    · rfl
    · rfl

theorem findLoop_inUse (t : Tid) (k : Key) (caller : ListsetLf.Caller Node) (pred : Node)
    (curr : Option Node) : (b.findLoop c t k caller pred curr).inUse = b.inUse := by
  cases curr with
  | none => rfl
  | some curr =>
    rw [ListsetLf.State.findLoop]
    split
    · exact findReturn_inUse ..
    · rfl

theorem findForward_inUse (t : Tid) (k : Key) (caller : ListsetLf.Caller Node)
    (pred curr : Node) (succ : Option Node) :
    (b.findForward c t k caller pred curr succ).inUse = b.inUse := by
  rw [ListsetLf.State.findForward]
  split
  · exact findReturn_inUse ..
  · exact findLoop_inUse ..

theorem getLoop_inUse (t : Tid) (k : Key) (curr : Option Node) :
    (b.getLoop c t k curr).inUse = b.inUse := by
  cases curr with
  | none => rfl
  | some curr =>
    rw [ListsetLf.State.getLoop]
    split
    · rfl
    · split
      · rfl
      · rfl

/-- Inside a call no node comes into use. -/
theorem nextStep_inUse (hs : ListsetLf.nextStep c b t = some b') {n : Node}
    (hn : b'.inUse n = true) : b.inUse n = true := by
  have same (h : b'.inUse = b.inUse) : b.inUse n = true := by rwa [← h]
  cases hpc : b.pc t with
  | idle | crashed =>
    rw [ListsetLf.nextStep, hpc] at hs
    cases hs
  | findStart key caller =>
    rw [ListsetLf.nextStep, hpc] at hs
    cases hs
    exact same (findLoop_inUse ..)
  | findRead key caller pred curr =>
    simp only [ListsetLf.nextStep, hpc] at hs
    split at hs
    · cases hs
      exact hn
    · cases hs
      exact same (findForward_inUse ..)
  | findRetire key caller pred curr succ =>
    simp only [ListsetLf.nextStep, hpc] at hs
    split at hs
    · cases hs
      exact same (findForward_inUse ..)
    · cases succ with
      | none =>
        cases hs
        exact hn
      | some succ =>
        cases hs
        exact hn
  | findSnip key caller pred curr succ | addCas key node pred curr
  | removeMark key pred curr succ | removeDetach key pred curr succ =>
    simp only [ListsetLf.nextStep, hpc] at hs
    split at hs
    · cases hs
      exact hn
    · cases hs
      exact hn
  | addWrite key node pred curr | removeRead key pred curr | removeRetire key curr
  | getMark key curr | removeRet key ok | getRet key result =>
    simp only [ListsetLf.nextStep, hpc] at hs
    cases hs
    exact hn
  | getStart key | getNext key curr =>
    simp only [ListsetLf.nextStep, hpc] at hs
    cases hs
    exact same (getLoop_inUse ..)
  | addRet key node ok =>
    simp only [ListsetLf.nextStep, hpc] at hs
    cases hs
    cases ok with
    | true => exact hn
    | false =>
      by_cases hnode : n = node
      · subst hnode
        simp [ListsetLf.State.goto] at hn
      · simpa [ListsetLf.State.goto, update_of_ne hnode] using hn

theorem begin_inUse {a : ListsetLf.Act Tid Node Key} (hs : ListsetLf.step c b a = some b')
    (ha : ∀ t, a ≠ .step t) {n : Node} (hn : b'.inUse n = true) :
    b.inUse n = true ∨ ∃ t k, a = .add t k n := by
  cases a with
  | step t => exact absurd rfl (ha t)
  | add t k node =>
    simp only [ListsetLf.step] at hs
    split at hs
    · obtain ⟨-, hs⟩ := Option.ite_none_right_eq_some.mp hs
      cases hs
      rcases ListsetLf.update_true.mp hn with rfl | hn
      · exact Or.inr ⟨t, k, rfl⟩
      · exact Or.inl hn
    · cases hs
  | remove t k | get t k =>
    simp only [ListsetLf.step] at hs
    split at hs
    · cases hs
      exact Or.inl hn
    · cases hs

omit [DecidableEq Node] [LinearOrder Key] in
theorem goto_done (b : ListsetLf.State Tid Node Key) (t : Tid) (pc : ListsetLf.Pc Node Key) :
    ((b.goto t pc).pc t).done = pc.done := by
  have hpc : (b.goto t pc).pc t = pc := update_self ..
  rw [hpc]

/-- What a call has done to its bucket it has done until it returns. -/
theorem nextStep_done (hs : ListsetLf.nextStep c b t = some b')
    {ch : ListsetLf.Change Node Key} (hdone : (b.pc t).done = some ch) :
    (returned (b.pc t) : Option (Pc B)) ≠ none ∨ (b'.pc t).done = some ch := by
  cases hpc : b.pc t with
  | removeDetach key pred curr succ =>
    rw [hpc] at hdone
    simp only [ListsetLf.nextStep, hpc] at hs
    split at hs
    · cases hs
      exact Or.inr ((goto_done ..).trans hdone)
    · cases hs
      exact Or.inr ((goto_done ..).trans hdone)
  | removeRetire key curr =>
    rw [hpc] at hdone
    simp only [ListsetLf.nextStep, hpc] at hs
    cases hs
    exact Or.inr ((goto_done ..).trans hdone)
  | addRet key node ok => exact Or.inl (Option.some_ne_none _)
  | removeRet key ok => exact Or.inl (Option.some_ne_none _)
  | _ =>
    rw [hpc] at hdone
    cases hdone

theorem nextStep_returned (hs : ListsetLf.nextStep c b t = some b') {pc : Pc B}
    (hret : returned (b.pc t) = some pc) : b'.pc t = .idle ∧ b'.next = b.next := by
  cases hpc : b.pc t with
  | addRet key node ok | removeRet key ok | getRet key result =>
    simp only [ListsetLf.nextStep, hpc] at hs
    cases hs
    exact ⟨update_self .., rfl⟩
  | _ =>
    rw [hpc] at hret
    cases hret

end Bucket

/-- What a call has still to do to the counter. -/
inductive Due where
  | nothing
  | up
  | down

def Due.ups : Due → Nat
  | .up => 1
  | _ => 0

def Due.downs : Due → Nat
  | .down => 1
  | _ => 0

def dueOf : Option (ListsetLf.Change Node Key) → Due
  | none => .nothing
  | some (.added _ _) => .up
  | some (.removed _) => .down

def due (s : State Tid Node Key B) (t : Tid) : Due :=
  match s.pc t with
  | .idle => .nothing
  | .inBucket idx => dueOf ((s.buckets idx).pc t).done
  | .countUp => .up
  | .countDown => .down

structure Inv (tbl : Table Node Key B) (s : State Tid Node Key B) : Prop where
  buckets : ∀ idx, ListsetLf.Inv (tbl.bucket idx) (s.buckets idx)
  outside : ∀ t idx, s.pc t ≠ .inBucket idx → (s.buckets idx).pc t = .idle
  apart : ∀ n i j, (s.buckets i).inUse n = true → (s.buckets j).inUse n = true → i = j
  heads : ∀ i j, (s.buckets i).inUse (tbl.head j) = false

/-- A step inside a bucket, with the entries that may come into use by it. -/
structure BucketStep (tbl : Table Node Key B) (s : State Tid Node Key B) (t : Tid) (idx : Fin B)
    (act : ListsetLf.Act Tid Node Key) (bucket : ListsetLf.State Tid Node Key) (pc : Pc B) :
    Prop where
  thread : act.thread = t
  step : ListsetLf.step (tbl.bucket idx) (s.buckets idx) act = some bucket
  place : s.pc t = .inBucket idx ∧ act = .step t ∧
      pc = (returned ((s.buckets idx).pc t)).getD (.inBucket idx) ∨
    s.pc t = .idle ∧ (∀ u, act ≠ .step u) ∧ pc = .inBucket idx
  inUse : ∀ n, bucket.inUse n = true →
    (s.buckets idx).inUse n = true ∨ ∀ i, (s.buckets i).inUse n = false ∧ n ≠ tbl.head i

variable {tbl : Table Node Key B} {s s' : State Tid Node Key B} {a : Act Tid Node Key B}

theorem step_cases (hs : step tbl s a = some s') :
    (∃ idx act bucket pc, BucketStep tbl s a.thread idx act bucket pc ∧
      s' = s.inBucket a.thread idx pc bucket) ∨
    (s.pc a.thread = .countUp ∧ s' = { s with
      numEntries := wadd 64 s.numEntries 1
      pc := update s.pc a.thread .idle }) ∨
    (s.pc a.thread = .countDown ∧ s' = { s with
      numEntries := wsub 64 s.numEntries 1
      pc := update s.pc a.thread .idle }) := by
  cases a with
  | insert t key entry idx =>
    obtain ⟨⟨hidle, hfresh⟩, hs⟩ := Option.ite_none_right_eq_some.mp hs
    obtain ⟨bucket, hbucket, rfl⟩ := Option.map_eq_some_iff.mp hs
    refine Or.inl ⟨idx, .add t key entry, bucket, .inBucket idx, ⟨rfl, hbucket, Or.inr
      ⟨hidle, fun u h => (by cases h), rfl⟩, fun n hn => ?_⟩, rfl⟩
    rcases begin_inUse hbucket (fun u h => by cases h) hn with hn | ⟨u, k, heq⟩
    · exact Or.inl hn
    · cases heq
      exact Or.inr fun i => ⟨(hfresh i).1, (hfresh i).2.1⟩
  | remove t key idx | get t key idx =>
    obtain ⟨hidle, hs⟩ := Option.ite_none_right_eq_some.mp hs
    obtain ⟨bucket, hbucket, rfl⟩ := Option.map_eq_some_iff.mp hs
    refine Or.inl ⟨idx, _, bucket, .inBucket idx, ⟨rfl, hbucket, Or.inr
      ⟨hidle, fun u h => (by cases h), rfl⟩, fun n hn => ?_⟩, rfl⟩
    rcases begin_inUse hbucket (fun u h => by cases h) hn with hn | ⟨u, k, heq⟩
    · exact Or.inl hn
    · cases heq
  | step t =>
    simp only [step, nextStep] at hs
    split at hs
    · cases hs
    · rename_i idx hpc
      obtain ⟨bucket, hbucket, rfl⟩ := Option.map_eq_some_iff.mp hs
      exact Or.inl ⟨idx, .step t, bucket, _, ⟨rfl, hbucket, Or.inl ⟨hpc, rfl, rfl⟩,
        fun n hn => Or.inl (nextStep_inUse hbucket hn)⟩, rfl⟩
    · rename_i hpc
      cases hs
      exact Or.inr (Or.inl ⟨hpc, rfl⟩)
    · rename_i hpc
      cases hs
      exact Or.inr (Or.inr ⟨hpc, rfl⟩)

omit [DecidableEq Tid] in
theorem Inv.bucket_idle (inv : Inv tbl s) {t : Tid} (hidle : s.pc t = .idle) (idx : Fin B) :
    (s.buckets idx).pc t = .idle :=
  inv.outside t idx fun h => by
    rw [hidle] at h
    cases h

/-- A step inside a bucket, with what it leaves of the thread's place. -/
theorem BucketStep.taken {t : Tid} {idx : Fin B} {act : ListsetLf.Act Tid Node Key}
    {bucket : ListsetLf.State Tid Node Key} {pc : Pc B}
    (h : BucketStep tbl s t idx act bucket pc) (inv : Inv tbl s) :
    (∀ u, u ≠ t → bucket.pc u = (s.buckets idx).pc u) ∧
      ListsetLf.Does (tbl.bucket idx) (s.buckets idx) bucket ((s.buckets idx).pc t)
        (bucket.pc t) := by
  obtain ⟨s₁, pc', rfl, htaken⟩ := ListsetLf.step_taken (inv.buckets idx) h.step
  have hpc : (s₁.goto act.thread pc').pc = update (s.buckets idx).pc t pc' := by
    rw [← htaken.moves.effect.pc_eq, ← h.thread]
    rfl
  have hdoes := htaken.moves.does
  rw [h.thread] at hdoes
  rw [hpc, update_self]
  refine ⟨fun u hu => update_of_ne hu _ _, ?_⟩
  cases hdoes with
  | nothing same done => exact .nothing same done
  | change ch before now holds => exact .change ch before now (holds.goto _ _)

omit [DecidableEq Node] [LinearOrder Key] in
theorem due_inBucket (t : Tid) (idx : Fin B) (pc : Pc B)
    (bucket : ListsetLf.State Tid Node Key) :
    due (s.inBucket t idx pc bucket) t = match pc with
      | .idle => .nothing
      | .inBucket i => dueOf ((update s.buckets idx bucket i).pc t).done
      | .countUp => .up
      | .countDown => .down := by
  simp only [due, State.inBucket, update_self]

omit [DecidableEq Tid] [DecidableEq Node] in
/-- The number of members changes by what the operation has done. -/
theorem members_change [Finite Node] {idx : Fin B} {b b' : ListsetLf.State Tid Node Key}
    {ch : ListsetLf.Change Node Key} (h : ch.Holds (tbl.bucket idx) b b') :
    (members tbl idx b').ncard + (dueOf (some ch)).downs =
      (members tbl idx b).ncard + (dueOf (some ch)).ups := by
  cases ch with
  | added k node =>
    have hnew : node ∉ members tbl idx b := fun hmem => h.absent ⟨node, hmem, h.key⟩
    have hmembers : members tbl idx b' = insert node (members tbl idx b) := Set.ext h.members
    rw [hmembers, Set.ncard_insert_of_notMem hnew]
    rfl
  | removed k =>
    obtain ⟨node, h⟩ := h
    have hmembers : members tbl idx b' = members tbl idx b \ {node} := Set.ext h.members
    rw [hmembers]
    exact Set.ncard_sdiff_singleton_add_one h.member

/-- What the call owes to the counter changes with the members of the bucket only. -/
theorem BucketStep.account {t : Tid} {idx : Fin B} {act : ListsetLf.Act Tid Node Key}
    {bucket : ListsetLf.State Tid Node Key} {pc : Pc B} [Finite Node]
    (h : BucketStep tbl s t idx act bucket pc) (inv : Inv tbl s) :
    (members tbl idx bucket).ncard + (due (s.inBucket t idx pc bucket) t).downs +
        (due s t).ups =
      (members tbl idx (s.buckets idx)).ncard + (due s t).downs +
        (due (s.inBucket t idx pc bucket) t).ups := by
  obtain ⟨-, hdoes⟩ := h.taken inv
  have hwas : due s t = dueOf ((s.buckets idx).pc t).done := by
    rcases h.place with ⟨hpc, -, -⟩ | ⟨hidle, -, -⟩
    · simp only [due, hpc]
    · rw [inv.bucket_idle hidle idx]
      simp only [due, hidle]
      rfl
  by_cases hret : ∃ pc' : Pc B, act = .step t ∧ returned ((s.buckets idx).pc t) = some pc'
  · obtain ⟨pc', rfl, hret⟩ := hret
    obtain ⟨-, hnext⟩ := nextStep_returned h.step hret
    have hmembers : members tbl idx bucket = members tbl idx (s.buckets idx) := by
      unfold members ListsetLf.Member ListsetLf.State.pointer
      rw [hnext]
    have hpc : pc = pc' := by
      rcases h.place with ⟨-, -, hpc⟩ | ⟨-, hno, -⟩
      · rw [hpc, hret]
        rfl
      · exact absurd rfl (hno t)
    have hdue : due (s.inBucket t idx pc bucket) t = due s t := by
      rw [hwas, due_inBucket, hpc]
      clear hwas hdoes
      generalize (s.buckets idx).pc t = at' at hret ⊢
      cases at' with
      | addRet key node ok =>
        cases hret
        cases ok <;> rfl
      | removeRet key ok =>
        cases hret
        cases ok <;> rfl
      | getRet key result =>
        cases hret
        rfl
      | _ => cases hret
    rw [hmembers, hdue]
  · have hpc : pc = .inBucket idx := by
      rcases h.place with ⟨-, hact, hpc⟩ | ⟨-, -, hpc⟩
      · rw [hpc]
        cases hgo : (returned ((s.buckets idx).pc t) : Option (Pc B)) with
        | none => rfl
        | some pc' => exact absurd ⟨pc', hact, hgo⟩ hret
      · exact hpc
    have hdue : due (s.inBucket t idx pc bucket) t = dueOf (bucket.pc t).done := by
      rw [due_inBucket, hpc]
      simp only [update_self]
    rw [hwas, hdue]
    cases hdoes with
    | change ch before now holds =>
      have hchange := members_change holds
      rw [before, now]
      exact hchange
    | nothing same done =>
      have hmembers : members tbl idx bucket = members tbl idx (s.buckets idx) := Set.ext same
      have hdone : (bucket.pc t).done = ((s.buckets idx).pc t).done := by
        cases hd : ((s.buckets idx).pc t).done with
        | none =>
          rw [hd, or_self] at done
          exact done
        | some ch =>
          rcases h.place with ⟨-, rfl, -⟩ | ⟨hidle, -, -⟩
          · rcases nextStep_done (B := B) h.step hd with hreturns | hkept
            · obtain ⟨pc', hpc'⟩ := Option.ne_none_iff_exists'.mp hreturns
              exact absurd ⟨pc', rfl, hpc'⟩ hret
            · exact hkept
          · rw [inv.bucket_idle hidle idx] at hd
            cases hd
      rw [hmembers, hdone]

theorem BucketStep.inv {t : Tid} {idx : Fin B} {act : ListsetLf.Act Tid Node Key}
    {bucket : ListsetLf.State Tid Node Key} {pc : Pc B}
    (h : BucketStep tbl s t idx act bucket pc) (inv : Inv tbl s) :
    Inv tbl (s.inBucket t idx pc bucket) := by
  obtain ⟨hothers, -⟩ := h.taken inv
  have hold (n : Node) (i : Fin B)
      (hn : (update s.buckets idx bucket i).inUse n = true) :
      (s.buckets i).inUse n = true ∨
        i = idx ∧ ∀ j, (s.buckets j).inUse n = false ∧ n ≠ tbl.head j := by
    by_cases hi : i = idx
    · subst hi
      rw [update_self] at hn
      exact (h.inUse n hn).imp id fun hnone => ⟨rfl, hnone⟩
    · rw [update_of_ne hi] at hn
      exact Or.inl hn
  constructor
  · intro i
    by_cases hi : i = idx
    · subst hi
      simp only [State.inBucket, update_self]
      exact ListsetLf.step_inv (inv.buckets i) h.step
    · simp only [State.inBucket, update_of_ne hi]
      exact inv.buckets i
  · intro u i hu
    simp only [State.inBucket] at hu ⊢
    by_cases hut : u = t
    · subst hut
      rw [update_self] at hu
      by_cases hi : i = idx
      · subst hi
        rw [update_self]
        rcases h.place with ⟨-, rfl, hpc⟩ | ⟨-, -, hpc⟩
        · cases hret : (returned ((s.buckets i).pc u) : Option (Pc B)) with
          | none =>
            rw [hpc, hret] at hu
            exact absurd rfl hu
          | some pc' => exact (nextStep_returned h.step hret).1
        · exact absurd hpc hu
      · rw [update_of_ne hi]
        refine inv.outside u i fun hin => ?_
        rcases h.place with ⟨hpc, -, -⟩ | ⟨hpc, -, -⟩
        · rw [hpc] at hin
          cases hin
          exact hi rfl
        · rw [hpc] at hin
          cases hin
    · rw [update_of_ne hut] at hu
      by_cases hi : i = idx
      · subst hi
        rw [update_self, hothers u hut]
        exact inv.outside u i hu
      · rw [update_of_ne hi]
        exact inv.outside u i hu
  · intro n i j hi hj
    rcases hold n i hi with hwasi | ⟨rfl, hnone⟩
    · rcases hold n j hj with hwasj | ⟨rfl, hnone⟩
      · exact inv.apart n i j hwasi hwasj
      · rw [(hnone i).1] at hwasi
        cases hwasi
    · rcases hold n j hj with hwasj | ⟨rfl, -⟩
      · rw [(hnone j).1] at hwasj
        cases hwasj
      · rfl
  · intro i j
    by_contra hused
    rcases hold _ i (Bool.eq_true_of_not_eq_false hused) with hwas | ⟨-, hnone⟩
    · rw [inv.heads i j] at hwas
      cases hwas
    · exact (hnone j).2 rfl

/-- Only the counter and the place of the thread change. -/
theorem Inv.counted (inv : Inv tbl s) {t : Tid} (hpc : ∀ idx, s.pc t ≠ .inBucket idx) (n : Nat) :
    Inv tbl { s with numEntries := n, pc := update s.pc t .idle } := by
  refine ⟨inv.buckets, fun u i hu => ?_, inv.apart, inv.heads⟩
  dsimp only at hu ⊢
  by_cases hut : u = t
  · subst hut
    exact inv.outside u i (hpc i)
  · rw [update_of_ne hut] at hu
    exact inv.outside u i hu

theorem step_inv (inv : Inv tbl s) (hs : step tbl s a = some s') : Inv tbl s' := by
  rcases step_cases hs with ⟨idx, act, bucket, pc, h, rfl⟩ | ⟨hpc, rfl⟩ | ⟨hpc, rfl⟩
  · exact h.inv inv
  · exact inv.counted (fun idx h => by rw [hpc] at h; cases h) _
  · exact inv.counted (fun idx h => by rw [hpc] at h; cases h) _

omit [DecidableEq Tid] in
theorem Quiet.inv {memory : Nat} (h : Quiet tbl memory s) : Inv tbl s :=
  ⟨fun idx => (h.buckets idx).inv, fun t idx _ => (h.buckets idx).idle t, h.apart, h.heads⟩

variable {past : List (State Tid Node Key B × Act Tid Node Key B)} {memory : Nat}
  {origin : State Tid Node Key B}

theorem run_inv (hstart : Quiet tbl memory origin) (run : (machine tbl origin).Run past s) :
    Inv tbl s := by
  apply run.invariant
  · rintro s rfl
    exact hstart.inv
  · intro s a s' h hs
    exact step_inv h hs

omit [DecidableEq Node] in
theorem entries_inBucket (tbl : Table Node Key B) (s : State Tid Node Key B) (t : Tid)
    (idx : Fin B) (pc : Pc B)
    (bucket : ListsetLf.State Tid Node Key) :
    entries tbl (s.inBucket t idx pc bucket) + (members tbl idx (s.buckets idx)).ncard =
      entries tbl s + (members tbl idx bucket).ncard := by
  have hcounts (new : ListsetLf.State Tid Node Key) :
      (fun i => (members tbl i (update s.buckets idx new i)).ncard) =
        update (fun i => (members tbl i (s.buckets i)).ncard) idx
          (members tbl idx new).ncard := by
    funext i
    exact Function.apply_update (fun i b => (members tbl i b).ncard) s.buckets idx new i
  have hsplit (new : ListsetLf.State Tid Node Key) := Finset.sum_update_of_mem
    (Finset.mem_univ idx) (fun i => (members tbl i (s.buckets i)).ncard)
    (members tbl idx new).ncard
  have hwhole := hsplit (s.buckets idx)
  rw [update_eq_self] at hwhole
  simp only [entries, State.inBucket]
  rw [hcounts, hsplit, hwhole]
  omega

theorem due_of_ne {u : Tid} (inv : Inv tbl s) (hs : step tbl s a = some s')
    (hu : u ≠ a.thread) : due s' u = due s u := by
  rcases step_cases hs with ⟨idx, act, bucket, pc, h, rfl⟩ | ⟨-, rfl⟩ | ⟨-, rfl⟩
  · obtain ⟨hothers, -⟩ := h.taken inv
    have hpc : (s.inBucket a.thread idx pc bucket).pc u = s.pc u := update_of_ne hu _ _
    rw [due, due, hpc]
    cases s.pc u with
    | inBucket i =>
      dsimp only [State.inBucket]
      by_cases hi : i = idx
      · subst hi
        rw [update_self, hothers u hu]
      · rw [update_of_ne hi]
    | _ => rfl
  · simp only [due, update_of_ne hu]
  · simp only [due, update_of_ne hu]

omit [DecidableEq Tid] in
theorem entries_vhashtableInit (tbl : Table Node Key B) (memory : Nat) :
    entries tbl (vhashtableInit tbl memory : State Tid Node Key B) = 0 := by
  refine Finset.sum_eq_zero fun idx _ => ?_
  have hnone : members tbl idx ((vhashtableInit tbl memory : State Tid Node Key B).buckets idx) =
      ∅ := by
    rw [Set.eq_empty_iff_forall_notMem]
    intro n hn
    have hquiet : ListsetLf.Quiet (tbl.bucket idx)
        (ListsetLf.vlistsetInit (tbl.bucket idx) : ListsetLf.State Tid Node Key) :=
      ListsetLf.vlistsetInit_quiet _
    obtain ⟨⟨hlinked, hhead, htail⟩, -⟩ := hquiet.inv.list.member_iff.mp hn
    rcases of_decide_eq_true hlinked with heq | heq
    · exact hhead heq
    · exact htail heq
  rw [hnone, Set.ncard_empty]

omit [DecidableEq Tid] in
theorem vhashtableInit_quiet (tbl : Table Node Key B) (hmemory : memory < 2 ^ 64) :
    Quiet tbl memory (vhashtableInit tbl memory : State Tid Node Key B) where
  idle _ := rfl
  buckets idx := ListsetLf.vlistsetInit_quiet (tbl.bucket idx)
  apart n i j hi := by cases hi
  heads _ _ := rfl
  word := hmemory
  count := by
    rw [entries_vhashtableInit]
    rfl

theorem step_account [Finite Node] (inv : Inv tbl s) (hs : step tbl s a = some s') :
    entries tbl s' + (if s.pc a.thread = .countDown then 1 else 0) + (due s' a.thread).downs +
        (due s a.thread).ups =
      entries tbl s + (if s.pc a.thread = .countUp then 1 else 0) + (due s a.thread).downs +
        (due s' a.thread).ups := by
  rcases step_cases hs with ⟨idx, act, bucket, pc, h, rfl⟩ | ⟨hpc, rfl⟩ | ⟨hpc, rfl⟩
  · have haccount := h.account inv
    have hentries := entries_inBucket tbl s a.thread idx pc bucket
    have hdown : s.pc a.thread ≠ .countDown := by
      rcases h.place with ⟨hpc, -, -⟩ | ⟨hpc, -, -⟩ <;> simp [hpc]
    have hup : s.pc a.thread ≠ .countUp := by
      rcases h.place with ⟨hpc, -, -⟩ | ⟨hpc, -, -⟩ <;> simp [hpc]
    rw [if_neg hdown, if_neg hup]
    omega
  · simp [due, hpc, entries, Due.ups, Due.downs]
  · simp [due, hpc, entries, Due.ups, Due.downs]

theorem step_count (hlt : s.numEntries < 2 ^ 64) (hs : step tbl s a = some s') :
    s'.numEntries < 2 ^ 64 ∧
      (s'.numEntries + (if s.pc a.thread = .countDown then 1 else 0)) % 2 ^ 64 =
        (s.numEntries + (if s.pc a.thread = .countUp then 1 else 0)) % 2 ^ 64 := by
  rcases step_cases hs with ⟨idx, act, bucket, pc, h, rfl⟩ | ⟨hpc, rfl⟩ | ⟨hpc, rfl⟩
  · have hdown : s.pc a.thread ≠ .countDown := by
      rcases h.place with ⟨hpc, -, -⟩ | ⟨hpc, -, -⟩ <;> simp [hpc]
    have hup : s.pc a.thread ≠ .countUp := by
      rcases h.place with ⟨hpc, -, -⟩ | ⟨hpc, -, -⟩ <;> simp [hpc]
    rw [if_neg hdown, if_neg hup]
    exact ⟨hlt, rfl⟩
  · refine ⟨wadd_lt .., ?_⟩
    simp [hpc, wadd]
  · refine ⟨wsub_lt .., ?_⟩
    simp only [hpc, wsub, if_true, reduceCtorEq, if_false]
    omega

/-- The counter against the calls that have counted, and these against the buckets. -/
structure Balance (tbl : Table Node Key B) (memory : Nat) (origin : State Tid Node Key B)
    (past : List (State Tid Node Key B × Act Tid Node Key B)) (s : State Tid Node Key B) :
    Prop where
  word : s.numEntries < 2 ^ 64
  count : (s.numEntries + removals past) % 2 ^ 64 =
    (memory + entries tbl origin + insertions past) % 2 ^ 64
  balance : ∃ busy : Finset Tid, (∀ t, t ∉ busy → due s t = .nothing) ∧
    entries tbl s + removals past + ∑ t ∈ busy, (due s t).downs =
      entries tbl origin + insertions past + ∑ t ∈ busy, (due s t).ups

theorem run_balance [Finite Node] (hstart : Quiet tbl memory origin)
    (run : (machine tbl origin).Run past s) : Balance tbl memory origin past s := by
  induction run with
  | start heq =>
    cases heq
    refine ⟨hstart.word, hstart.count, ∅, fun t _ => ?_, rfl⟩
    rw [due, hstart.idle]
  | @step past s s' a run hs ih =>
    have inv := run_inv hstart run
    have haccount := step_account inv hs
    obtain ⟨hlt, hcount⟩ := step_count ih.word hs
    have hinsertions : insertions ((s, a) :: past) =
        insertions past + if s.pc a.thread = .countUp then 1 else 0 := by
      simp [insertions, List.countP_cons]
    have hremovals : removals ((s, a) :: past) =
        removals past + if s.pc a.thread = .countDown then 1 else 0 := by
      simp [removals, List.countP_cons]
    have hdue : due s' = update (due s) a.thread (due s' a.thread) := by
      funext u
      by_cases hu : u = a.thread
      · rw [hu, update_self]
      · rw [update_of_ne hu, due_of_ne inv hs hu]
    refine ⟨hlt, ?_, ?_⟩
    · have hold := ih.count
      rw [hinsertions, hremovals]
      omega
    · obtain ⟨busy, hidle, hsum⟩ := ih.balance
      have hups := @sum_update_busy _ _ _ Due.ups (due s) busy
        (fun u hu => by rw [hidle u hu]; rfl) a.thread (due s' a.thread)
      have hdowns := @sum_update_busy _ _ _ Due.downs (due s) busy
        (fun u hu => by rw [hidle u hu]; rfl) a.thread (due s' a.thread)
      refine ⟨insert a.thread busy, ?_, ?_⟩
      · intro u hu
        have hut : u ≠ a.thread := fun heq => hu (heq ▸ Finset.mem_insert_self a.thread busy)
        rw [due_of_ne inv hs hut]
        exact hidle u fun hin => hu (Finset.mem_insert_of_mem hin)
      · rw [hinsertions, hremovals, hdue]
        omega

omit [DecidableEq Tid] in
/-- The nodes are at different addresses of a 64-bit memory, and a head is no entry. -/
theorem entries_lt [Finite Node] (inv : Inv tbl s) (hnodes : Nat.card Node ≤ 2 ^ 64) :
    entries tbl s < 2 ^ 64 := by
  rcases Nat.eq_zero_or_pos B with rfl | hB
  · rw [entries, Finset.univ_eq_empty, Finset.sum_empty]
    exact Nat.two_pow_pos 64
  have hused {i : Fin B} {n : Node} (hn : n ∈ members tbl i (s.buckets i)) :
      (s.buckets i).inUse n = true := by
    obtain ⟨⟨hlinked, hhead, htail⟩, -⟩ := (inv.buckets i).list.member_iff.mp hn
    rcases (inv.buckets i).list.known n hlinked with hused | heq | heq
    · exact hused
    · exact absurd heq hhead
    · exact absurd heq htail
  let all : Set Node := { n | ∃ i, n ∈ members tbl i (s.buckets i) }
  have hall : all ≠ Set.univ := by
    intro heq
    obtain ⟨i, hi⟩ : tbl.head ⟨0, hB⟩ ∈ all := heq ▸ Set.mem_univ _
    have hfalse := hused hi
    rw [inv.heads i ⟨0, hB⟩] at hfalse
    cases hfalse
  have hinjective : Function.Injective
      (fun p : (i : Fin B) × members tbl i (s.buckets i) => (⟨p.2, p.1, p.2.2⟩ : all)) := by
    rintro ⟨i, n, hn⟩ ⟨j, m, hm⟩ heq
    obtain rfl : n = m := congrArg Subtype.val heq
    obtain rfl := inv.apart n i j (hused hn) (hused hm)
    rfl
  calc
    entries tbl s = Nat.card ((i : Fin B) × members tbl i (s.buckets i)) := by
      rw [Nat.card_sigma]
      rfl
    _ ≤ Nat.card all := Nat.card_le_card_of_injective _ hinjective
    _ < Nat.card Node := Set.ncard_lt_card hall
    _ ≤ 2 ^ 64 := hnodes

omit [DecidableEq Tid] [DecidableEq Node] in
theorem Balance.rest (h : Balance tbl memory origin past s) (hidle : ∀ t, s.pc t = .idle) :
    entries tbl s + removals past = entries tbl origin + insertions past ∧
      s.numEntries % 2 ^ 64 = (memory + entries tbl s) % 2 ^ 64 := by
  obtain ⟨hword, hcount, busy, -, hsum⟩ := h
  have hnothing (t : Tid) : due s t = .nothing := by
    rw [due, hidle]
  have hups : ∑ t ∈ busy, (due s t).ups = 0 :=
    Finset.sum_eq_zero fun t _ => by rw [hnothing t]; rfl
  have hdowns : ∑ t ∈ busy, (due s t).downs = 0 :=
    Finset.sum_eq_zero fun t _ => by rw [hnothing t]; rfl
  omega

/-- The calls of a run leave a state in which calls can begin again. -/
theorem run_renew [Finite Node] (hstart : Quiet tbl memory origin)
    (run : (machine tbl origin).Run past s) (hidle : ∀ t, s.pc t = .idle) :
    Quiet tbl memory s.renew := by
  have inv := run_inv hstart run
  have balance := run_balance hstart run
  have hused {i : Fin B} {n : Node} (hn : (s.renew.buckets i).inUse n = true) :
      (s.buckets i).inUse n = true := (Bool.and_eq_true_iff.mp hn).1
  refine ⟨hidle, fun idx => ?_, fun n i j hi hj => inv.apart n i j (hused hi) (hused hj),
    fun i j => ?_, balance.word, (balance.rest hidle).2⟩
  · exact (inv.buckets idx).renew fun t => inv.bucket_idle (hidle t) idx
  · by_contra hheld
    have hfree := inv.heads i j
    rw [hused (Bool.eq_true_of_not_eq_false hheld)] at hfree
    cases hfree

theorem Begins.quiet [Finite Node] (hmemory : memory < 2 ^ 64) (h : Begins tbl memory origin) :
    Quiet tbl memory origin := by
  induction h with
  | init => exact vhashtableInit_quiet tbl hmemory
  | renew prior run hidle ih => exact run_renew ih run hidle

/-- What the counter shows when no call is in progress. -/
theorem hashtable_count [Finite Node] (hnodes : Nat.card Node ≤ 2 ^ 64)
    (hmemory : memory < 2 ^ 64) (hbegins : Begins tbl memory origin)
    (run : (machine tbl origin).Run past s) (hquiet : ∀ t, s.pc t = .idle) :
    entries tbl s + removals past = entries tbl origin + insertions past ∧
      (vhashtableGetEntriesCount s = entries tbl s ↔ memory = 0) := by
  have hstart := hbegins.quiet hmemory
  have balance := run_balance hstart run
  obtain ⟨hentries, hcount⟩ := balance.rest hquiet
  have hword := balance.word
  have hlt := entries_lt (run_inv hstart run) hnodes
  refine ⟨hentries, ?_⟩
  rw [vhashtableGetEntriesCount]
  omega

/-- One bucket and two nodes. -/
def oneBucket : Table (Fin 4) Nat 1 where
  head _ := ListsetLf.numbered.head
  tail _ := ListsetLf.numbered.tail
  heads := Function.injective_of_subsingleton _
  tails := Function.injective_of_subsingleton _
  distinct _ _ := ListsetLf.numbered.distinct
  key := ListsetLf.numbered.key
  cmpFun := ListsetLf.numbered.cmpFun
  cmp_neg := ListsetLf.numbered.cmp_neg
  cmp_zero := ListsetLf.numbered.cmp_zero

def theBucket : Fin 1 := ⟨0, Nat.one_pos⟩

/-- Two nodes are inserted, one by each thread, and one is removed. -/
def insertInsertRemove : List (Act Bool (Fin 4) Nat 1) :=
  List.flatten [
    .insert true 2 ListsetLf.nodeTwo theBucket :: List.replicate 5 (.step true),
    .insert false 3 ListsetLf.nodeThree theBucket :: List.replicate 6 (.step false),
    .remove true 2 theBucket :: List.replicate 8 (.step true)]

theorem hashtable_count_one :
    ∃ past s, (machine oneBucket (vhashtableInit oneBucket 0 : State Bool _ _ _)).Run past s ∧
      vhashtableGetEntriesCount s = 1 ∧ entries oneBucket s = 1 := by
  let M := machine oneBucket (vhashtableInit oneBucket 0 : State Bool _ _ _)
  have hend : (M.exec (vhashtableInit oneBucket 0) insertInsertRemove).map
      (fun s => (s.pc true, s.pc false, s.numEntries)) = some (.idle, .idle, 1) := by
    decide +kernel
  have hpast : insertions (M.pastOf (vhashtableInit oneBucket 0) [] insertInsertRemove) = 2 ∧
      removals (M.pastOf (vhashtableInit oneBucket 0) [] insertInsertRemove) = 1 := by
    decide +kernel
  obtain ⟨s, hexec, hs⟩ := Option.map_eq_some_iff.mp hend
  simp only [Prod.mk.injEq] at hs
  have run : M.Run _ s := (Machine.Run.start rfl).exec hexec
  have hnodes : Nat.card (Fin 4) ≤ 2 ^ 64 := by
    rw [Nat.card_eq_fintype_card, Fintype.card_fin]
    decide
  have hzero : 0 < 2 ^ 64 := Nat.two_pow_pos 64
  have hcount := hashtable_count hnodes hzero (.init : Begins oneBucket 0 _) run
    fun t => by cases t <;> simp only [hs]
  rw [hpast.1, hpast.2, entries_vhashtableInit] at hcount
  exact ⟨_, s, run, hs.2.2, by omega⟩

/-- The counter of an empty table shows what the memory held. -/
theorem hashtable_count_memory :
    ¬ ∀ past s, (machine oneBucket (vhashtableInit oneBucket 5 : State Bool _ _ _)).Run past s →
      (∀ t, s.pc t = .idle) → vhashtableGetEntriesCount s = entries oneBucket s := by
  intro h
  have hcount := h [] (vhashtableInit oneBucket 5) (.start rfl) fun _ => rfl
  rw [entries_vhashtableInit] at hcount
  cases hcount

end Libvsync.Map.Hashtable
