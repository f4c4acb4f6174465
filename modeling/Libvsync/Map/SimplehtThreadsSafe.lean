import Libvsync.Map.SimplehtThreads
import Mathlib.Data.List.Chain

/-!
The hash table with any number of threads. Until a cleanup restructures the table, keys only
come into empty slots, so that what a search has passed stays passed and a key gets no second
slot; the additions and removals of a key that take place alternate, since each changes the
value slot of the key. A value is destroyed under the write lock, while every thread between
two calls has the read lock.
-/

namespace Libvsync.Map.SimplehtThreads

open Libvsync.Core Libvsync.Map.Simpleht Function

variable {Tid Key Value : Type}

/-- The additions and removals of a key, newest first. -/
def kinds [DecidableEq Key] (k : Key) (effects : List (Effect Tid Key)) : List Kind :=
  (effects.filter fun e => e.key = k).map Effect.kind

/-- The key whose removal took place and has not returned. -/
def Pc.removed : Pc Key Value → Option Key
  | .removeInc k _ | .cleanupRelease k _ | .cleanupAcquire k _ | .cleanup k _
  | .cleanupDestroy k _ | .cleanupUnlock k | .cleanupReacquire k => some k
  | _ => none

/-- The removal took place and has not returned. -/
def pending [DecidableEq Key] (s : State Tid Key Value) (e : Effect Tid Key) : Nat :=
  if e.kind = .removed ∧ (s.pc e.thread).removed = some e.key then 1 else 0

/-- What a call does if it returns OK. -/
def Pc.effect : Pc Key Value → Option (Kind × Key)
  | .chance (.add k _) | .chanceRelease (.add k _) | .chanceAcquire (.add k _)
  | .addKey k _ _ _ | .addCas k _ _ _ | .addAssert k _ _ | .addValue k _ _ => some (.added, k)
  | .chance (.remove k) | .chanceRelease (.remove k) | .chanceAcquire (.remove k)
  | .removeKey k _ | .removeValue k _ | .removeCas k _ _ | .removeInc k _ | .cleanupRelease k _
  | .cleanupAcquire k _ | .cleanup k _ | .cleanupDestroy k _ | .cleanupUnlock k
  | .cleanupReacquire k => some (.removed, k)
  | _ => none

/-- The call of `t` that returns OK in the step from `s` to `s'`. -/
def returnsOk (s s' : State Tid Key Value) (t : Tid) : List (Effect Tid Key) :=
  match (s.pc t).effect, s'.pc t, s'.result t with
  | some (kind, k), .idle, some (.ret .ok) => [⟨t, kind, k⟩]
  | _, _, _ => []

/-- An addition takes place when it puts its value in the slot, and then returns at once. A
removal takes place when it takes the value out, and returns after the cleanup. The calls that
return OK are those that took place. -/
structure Safe [DecidableEq Tid] [DecidableEq Key] [DecidableEq Value] (c : Config Key)
    (s : State Tid Key Value) : Prop where
  returns : ∀ a s', step c s a = some s' → s'.returned = returnsOk s s' a.thread ++ s.returned
  probed : Probed c s.table
  alternate : ∀ k, (kinds k s.effects).IsChain (· ≠ ·)
  counted : ∀ e, s.effects.count e = s.returned.count e + pending s e
  asserts : ∀ t k v i, s.pc t = .addAssert k v i → s.table.keys i = some k

/-- When a value is destroyed, no thread has one that it obtained by its last call. -/
def Destroys (s : State Tid Key Value) (a : Act Tid Key Value) : Prop :=
  ∀ t k v, a = .step t → s.pc t = .cleanupDestroy k v →
    ∀ u w, s.result u ≠ some (.value (some w))

variable {c : Config Key} {s s' : State Tid Key Value} {t u : Tid} {q : Pc Key Value}
  {tbl tbl' : Table Key Value} {k : Key} {v : Value} {i d : Nat}

def Pc.holds : Pc Key Value → List Unit
  | .out | .chanceAcquire _ | .cleanupAcquire _ _ | .cleanupReacquire _ => []
  | _ => [()]

def Pc.reading : Pc Key Value → Bool
  | .cleanup _ _ | .cleanupDestroy _ _ | .cleanupUnlock _ | .cleanupReacquire _ => false
  | _ => true

/-- What a thread has obtained it has between two calls only. -/
structure Locked (s : State Tid Key Value) : Prop where
  held : Held s.lock (fun t => (s.pc t).reading) (fun t => (s.pc t).holds)
  idle : ∀ t v, s.result t = some (.value (some v)) → s.pc t = .idle

theorem Locked.destroys {a : Act Tid Key Value} (h : Locked s) : Destroys s a := by
  intro t k v _ hat u w hu
  have hwriter : (s.lock ()).writer = some t := by
    rw [h.held.writer]
    constructor
    · rw [hat]
      rfl
    · rw [hat]
      exact List.mem_singleton.mpr rfl
  have hreader : u ∈ (s.lock ()).readers := by
    rw [h.held.readers]
    have hidle := h.idle u w hu
    constructor
    · rw [hidle]
      rfl
    · rw [hidle]
      exact List.mem_singleton.mpr rfl
  rw [h.held.excludes () t hwriter] at hreader
  cases hreader

variable [DecidableEq Tid]

theorem goto_self (s : State Tid Key Value) (t : Tid) (q : Pc Key Value) :
    (s.goto t q).pc t = q :=
  update_self ..

/-- The results after a step of `t`: they are as they were, but for `t`. -/
structure Results (s s' : State Tid Key Value) (t : Tid) (q : Pc Key Value) : Prop where
  others : ∀ u, u ≠ t → s'.result u = s.result u
  mine : ∀ v, s'.result t = some (.value (some v)) → q = .idle

omit [DecidableEq Tid] in
theorem Locked.same (h : Locked s) (hresult : s'.result = s.result) (hat : s.pc t ≠ .idle) :
    Results s s' t q :=
  ⟨fun _ _ => by rw [hresult], fun v hv => absurd (h.idle t v (hresult ▸ hv)) hat⟩

theorem Results.set {r : Option (Result Value)}
    (hresult : s'.result = update s.result t r) (hmine : r = none ∨ q = .idle) :
    Results s s' t q := by
  refine ⟨fun u hu => ?_, fun v hv => ?_⟩
  · rw [hresult, update_of_ne hu]
  · rw [hresult, update_self] at hv
    rcases hmine with hnone | hidle
    · rw [hnone] at hv
      cases hv
    · exact hidle

theorem Results.idle (hr : Results s s' t q) (h : Locked s) (hpc : s'.pc = update s.pc t q)
    (u : Tid) (v : Value) (hu : s'.result u = some (.value (some v))) : s'.pc u = .idle := by
  rw [hpc]
  by_cases hut : u = t
  · subst hut
    rw [update_self]
    exact hr.mine v hu
  · rw [update_of_ne hut]
    rw [hr.others u hut] at hu
    exact h.idle u v hu

theorem Locked.move (h : Locked s) (hlock : s'.lock = s.lock)
    (hpc : s'.pc = update s.pc t q)
    (hholds : q.holds = (s.pc t).holds) (hreading : q.reading = (s.pc t).reading)
    (hr : Results s s' t q) : Locked s' := by
  refine ⟨?_, hr.idle h hpc⟩
  rw [hlock]
  have hsame (u : Tid) :
      (s'.pc u).holds = (s.pc u).holds ∧ (s'.pc u).reading = (s.pc u).reading := by
    rw [hpc]
    by_cases hut : u = t
    · rw [hut, update_self]
      exact ⟨hholds, hreading⟩
    · rw [update_of_ne hut]
      exact ⟨rfl, rfl⟩
  refine h.held.congr (fun u _ => (hsame u).2) fun u => ?_
  rw [(hsame u).1]

theorem Locked.acquire (h : Locked s) {l : Locks Unit Tid}
    (hacquire : s.lock.acquire q.reading t () = some l) (hlock : s'.lock = l)
    (hpc : s'.pc = update s.pc t q) (hfree : (s.pc t).holds = [])
    (hholds : q.holds = [()]) (hr : Results s s' t q) : Locked s' := by
  refine ⟨?_, hr.idle h hpc⟩
  have hself : s'.pc t = q := by
    rw [hpc, update_self]
  have hother (u : Tid) (hu : u ≠ t) : s'.pc u = s.pc u := by
    rw [hpc, update_of_ne hu]
  rw [hlock]
  refine h.held.acquire (t := t) (i := ()) (fun u hu => ?_) (fun u hu => ?_) ?_
    (fun hne => absurd hfree hne) ?_ ?_
  · rw [hother u hu]
  · rw [hother u hu]
  · rw [hself]
    exact hacquire
  · rw [hfree]
    exact fun _ => List.not_mem_nil
  · rw [hself, hfree, hholds]

theorem Locked.release (h : Locked s) (hlock : s'.lock = s.lock.release (s.pc t).reading t ())
    (hpc : s'.pc = update s.pc t q) (hold : (s.pc t).holds = [()])
    (hfree : q.holds = []) (hreading : q.reading = (s.pc t).reading)
    (hr : Results s s' t q) : Locked s' := by
  refine ⟨?_, hr.idle h hpc⟩
  have hself : s'.pc t = q := by
    rw [hpc, update_self]
  have hother (u : Tid) (hu : u ≠ t) : s'.pc u = s.pc u := by
    rw [hpc, update_of_ne hu]
  rw [hlock]
  refine h.held.release (t := t) (i := ()) (fun u hu => ?_) (fun u hu => ?_) ?_ ?_
  · rw [hother u hu]
  · rw [hother u hu]
  · rw [hself, hreading]
  · rw [hself, hold, hfree]

/-- A step of `t` that leaves the lock as it is. -/
theorem Locked.goto (h : Locked s) (hlock : s'.lock = s.lock)
    (hpc : s'.pc = update s.pc t q) (hresult : s'.result = s.result)
    (hat : s.pc t ≠ .idle) (hholds : q.holds = (s.pc t).holds)
    (hreading : q.reading = (s.pc t).reading) : Locked s' :=
  h.move hlock hpc hholds hreading (h.same hresult hat)

/-- The call of `t` returns, without a change of the lock. -/
theorem Locked.finish (h : Locked s) {r : Result Value} (hlock : s'.lock = s.lock)
    (hpc : s'.pc = update s.pc t .idle)
    (hresult : s'.result = update s.result t (some r))
    (hholds : (s.pc t).holds = [()]) (hreading : (s.pc t).reading = true) : Locked s' :=
  h.move hlock hpc hholds.symm hreading.symm (.set hresult (.inr rfl))

theorem Locked.addNext (h : Locked s) {cnt : Nat} (hat : s.pc t ≠ .idle)
    (hholds : (s.pc t).holds = [()]) (hreading : (s.pc t).reading = true) :
    Locked (s.addNext c t k v cnt i) := by
  rw [State.addNext]
  split
  · exact h.goto rfl rfl rfl hat hholds.symm hreading.symm
  · exact h.finish rfl rfl rfl hholds hreading

variable [DecidableEq Value]

section Returns

variable {s₁ : State Tid Key Value}

omit [DecidableEq Value]

theorem goto_returns (hreturned : s₁.returned = s.returned) (hq : q ≠ .idle) :
    (s₁.goto t q).returned = returnsOk s (s₁.goto t q) t ++ s.returned := by
  have hnone : returnsOk s (s₁.goto t q) t = [] := by
    rw [returnsOk, goto_self]
    split
    · contradiction
    · rfl
  rw [hnone]
  exact hreturned

theorem finish_returns {r : Result Value} (hreturned : s₁.returned = s.returned)
    (hr : r ≠ .ret .ok) :
    (s₁.finish t r).returned = returnsOk s (s₁.finish t r) t ++ s.returned := by
  have hresult : (s₁.finish t r).result t = some r := update_self ..
  have hnone : returnsOk s (s₁.finish t r) t = [] := by
    rw [returnsOk, hresult]
    split
    · rename_i hok
      exact absurd (Option.some.inj hok) hr
    · rfl
  rw [hnone]
  exact hreturned

theorem finish_ok {kind : Kind} (heffect : (s.pc t).effect = some (kind, k))
    (hreturned : s₁.returned = ⟨t, kind, k⟩ :: s.returned) :
    (s₁.finish t (.ret .ok)).returned =
      returnsOk s (s₁.finish t (.ret .ok)) t ++ s.returned := by
  have hresult : (s₁.finish t (.ret .ok)).result t = some (.ret .ok) := update_self ..
  have hpc : (s₁.finish t (.ret .ok)).pc t = .idle := goto_self ..
  have hone : returnsOk s (s₁.finish t (.ret .ok)) t = [⟨t, kind, k⟩] := by
    rw [returnsOk, hresult, hpc, heffect]
  rw [hone]
  exact hreturned

theorem addNext_returns {cnt : Nat} :
    (s.addNext c t k v cnt i).returned = returnsOk s (s.addNext c t k v cnt i) t ++ s.returned := by
  rw [State.addNext]
  split
  · exact goto_returns rfl (by rintro ⟨⟩)
  · exact finish_returns rfl (by rintro ⟨⟩)

end Returns

theorem nextStep_returns (hstep : nextStep c s t = some s') :
    s'.returned = returnsOk s s' t ++ s.returned := by
  rw [nextStep] at hstep
  cases hat : s.pc t with
  | out | idle | chance _ =>
    rw [hat] at hstep
    cases hstep
  | chanceRelease _ | removeInc _ _ | cleanupRelease _ _ | cleanupDestroy _ _ | cleanupUnlock _ =>
    rw [hat] at hstep
    cases hstep
    exact goto_returns rfl (by rintro ⟨⟩)
  | getValue _ =>
    rw [hat] at hstep
    cases hstep
    exact finish_returns rfl (by rintro ⟨⟩)
  | chanceAcquire call =>
    rw [hat] at hstep
    obtain ⟨s₁, hs, rfl⟩ := Option.map_eq_some_iff.mp hstep
    obtain ⟨l, -, rfl⟩ := Option.map_eq_some_iff.mp hs
    exact goto_returns rfl (by cases call <;> rintro ⟨⟩)
  | cleanupAcquire _ _ =>
    rw [hat] at hstep
    obtain ⟨s₁, hs, rfl⟩ := Option.map_eq_some_iff.mp hstep
    obtain ⟨l, -, rfl⟩ := Option.map_eq_some_iff.mp hs
    exact goto_returns rfl (by rintro ⟨⟩)
  | cleanupReacquire key =>
    rw [hat] at hstep
    obtain ⟨s₁, hs, rfl⟩ := Option.map_eq_some_iff.mp hstep
    obtain ⟨l, -, rfl⟩ := Option.map_eq_some_iff.mp hs
    exact finish_ok (by rw [hat]; rfl) rfl
  | getKey _ _ =>
    rw [hat] at hstep
    dsimp only at hstep
    split at hstep
    · cases hstep
      exact finish_returns rfl (by rintro ⟨⟩)
    · split at hstep <;> cases hstep <;> exact goto_returns rfl (by rintro ⟨⟩)
  | addKey _ _ _ _ | addCas _ _ _ _ =>
    rw [hat] at hstep
    dsimp only at hstep
    split at hstep
    · cases hstep
      exact goto_returns rfl (by rintro ⟨⟩)
    · split at hstep <;> cases hstep
      · exact addNext_returns
      · exact goto_returns rfl (by rintro ⟨⟩)
  | addAssert _ _ _ =>
    rw [hat] at hstep
    dsimp only at hstep
    split at hstep
    · cases hstep
    · obtain ⟨-, hs⟩ := Option.ite_none_right_eq_some.mp hstep
      cases hs
      exact goto_returns rfl (by rintro ⟨⟩)
  | addValue _ _ _ =>
    rw [hat] at hstep
    dsimp only at hstep
    split at hstep <;> cases hstep
    · exact finish_ok (by rw [hat]; rfl) rfl
    · exact finish_returns rfl (by rintro ⟨⟩)
  | removeKey _ _ =>
    rw [hat] at hstep
    dsimp only at hstep
    split at hstep
    · cases hstep
      exact finish_returns rfl (by rintro ⟨⟩)
    · split at hstep
      · cases hstep
        exact goto_returns rfl (by rintro ⟨⟩)
      · split at hstep <;> cases hstep
        · exact goto_returns rfl (by rintro ⟨⟩)
        · exact finish_returns rfl (by rintro ⟨⟩)
  | removeValue _ _ =>
    rw [hat] at hstep
    dsimp only at hstep
    split at hstep <;> cases hstep
    · exact finish_returns rfl (by rintro ⟨⟩)
    · exact goto_returns rfl (by rintro ⟨⟩)
  | removeCas _ _ _ =>
    rw [hat] at hstep
    dsimp only at hstep
    split at hstep <;> cases hstep
    · exact goto_returns rfl (by rintro ⟨⟩)
    · exact finish_returns rfl (by rintro ⟨⟩)
  | cleanup _ _ =>
    rw [hat] at hstep
    dsimp only at hstep
    split at hstep <;> cases hstep
    exact goto_returns rfl (by rintro ⟨⟩)

theorem step_returns {a : Act Tid Key Value} (hstep : step c s a = some s') :
    s'.returned = returnsOk s s' a.thread ++ s.returned := by
  have hnone {t : Tid} (heffect : (s.pc t).effect = none) : returnsOk s s' t = [] := by
    rw [returnsOk, heffect]
  cases a with
  | register t =>
    simp only [step] at hstep
    cases hat : s.pc t <;> rw [hat] at hstep
    case out =>
      obtain ⟨s₁, hs, rfl⟩ := Option.map_eq_some_iff.mp hstep
      obtain ⟨l, -, rfl⟩ := Option.map_eq_some_iff.mp hs
      rw [Act.thread, hnone (by rw [hat]; rfl)]
      rfl
    all_goals cases hstep
  | deregister t | call t _ =>
    simp only [step] at hstep
    cases hat : s.pc t <;> rw [hat] at hstep <;> cases hstep
    rw [Act.thread, hnone (by rw [hat]; rfl)]
    rfl
  | chance t writer =>
    simp only [step] at hstep
    cases hat : s.pc t <;> rw [hat] at hstep
    case chance call =>
      cases writer <;> cases hstep
      · exact goto_returns rfl (by cases call <;> rintro ⟨⟩)
      · exact goto_returns rfl (by rintro ⟨⟩)
    all_goals cases hstep
  | step t => exact nextStep_returns hstep

theorem Locked.nextStep (h : Locked s) (hstep : SimplehtThreads.nextStep c s t = some s') :
    Locked s' := by
  have hacquire {r : Bool} {s₁ : State Tid Key Value} (hs : s.acquire t r = some s₁) :
      s.lock.acquire r t () = some s₁.lock ∧ s₁.pc = s.pc ∧ s₁.result = s.result := by
    obtain ⟨l, hl, rfl⟩ := Option.map_eq_some_iff.mp hs
    exact ⟨hl, rfl, rfl⟩
  unfold SimplehtThreads.nextStep at hstep
  cases hat : s.pc t with
  | out | idle | chance _ =>
    rw [hat] at hstep
    cases hstep
  | chanceRelease call =>
    rw [hat] at hstep
    cases hstep
    refine h.release (q := .chanceAcquire call) ?_ rfl (by rw [hat]; rfl) rfl (by rw [hat]; rfl)
      (h.same rfl (by rw [hat]; nofun))
    rw [hat]
    rfl
  | chanceAcquire call =>
    rw [hat] at hstep
    obtain ⟨s₁, hs, rfl⟩ := Option.map_eq_some_iff.mp hstep
    obtain ⟨hl, hpc, hresult⟩ := hacquire hs
    have hpcs : (s₁.goto t (begin c call)).pc = update s.pc t (begin c call) := by
      rw [← hpc]
      rfl
    refine h.acquire (q := begin c call) ?_ rfl hpcs (by rw [hat]; rfl) ?_
      (h.same hresult (by rw [hat]; nofun))
    · cases call <;> exact hl
    · cases call <;> rfl
  | getKey key index =>
    rw [hat] at hstep
    dsimp only at hstep
    split at hstep
    · cases hstep
      exact h.finish rfl rfl rfl (by rw [hat]; rfl) (by rw [hat]; rfl)
    · split at hstep <;> cases hstep <;>
        exact h.goto rfl rfl rfl (by rw [hat]; nofun) (by rw [hat]; rfl) (by rw [hat]; rfl)
  | getValue index =>
    rw [hat] at hstep
    cases hstep
    exact h.finish rfl rfl rfl (by rw [hat]; rfl) (by rw [hat]; rfl)
  | addKey key value cnt index | addCas key value cnt index =>
    rw [hat] at hstep
    dsimp only at hstep
    split at hstep
    · cases hstep
      exact h.goto rfl rfl rfl (by rw [hat]; nofun) (by rw [hat]; rfl) (by rw [hat]; rfl)
    · split at hstep <;> cases hstep
      · exact h.addNext (by rw [hat]; nofun) (by rw [hat]; rfl) (by rw [hat]; rfl)
      · exact h.goto rfl rfl rfl (by rw [hat]; nofun) (by rw [hat]; rfl) (by rw [hat]; rfl)
  | addAssert key value index =>
    rw [hat] at hstep
    dsimp only at hstep
    split at hstep
    · cases hstep
    · obtain ⟨-, hs⟩ := Option.ite_none_right_eq_some.mp hstep
      cases hs
      exact h.goto rfl rfl rfl (by rw [hat]; nofun) (by rw [hat]; rfl) (by rw [hat]; rfl)
  | addValue key value index =>
    rw [hat] at hstep
    dsimp only at hstep
    split at hstep <;> cases hstep <;>
      exact h.finish rfl rfl rfl (by rw [hat]; rfl) (by rw [hat]; rfl)
  | removeKey key index =>
    rw [hat] at hstep
    dsimp only at hstep
    split at hstep
    · cases hstep
      exact h.finish rfl rfl rfl (by rw [hat]; rfl) (by rw [hat]; rfl)
    · split at hstep
      · cases hstep
        exact h.goto rfl rfl rfl (by rw [hat]; nofun) (by rw [hat]; rfl) (by rw [hat]; rfl)
      · split at hstep <;> cases hstep
        · exact h.goto rfl rfl rfl (by rw [hat]; nofun) (by rw [hat]; rfl) (by rw [hat]; rfl)
        · exact h.finish rfl rfl rfl (by rw [hat]; rfl) (by rw [hat]; rfl)
  | removeValue key index =>
    rw [hat] at hstep
    dsimp only at hstep
    split at hstep <;> cases hstep
    · exact h.finish rfl rfl rfl (by rw [hat]; rfl) (by rw [hat]; rfl)
    · exact h.goto rfl rfl rfl (by rw [hat]; nofun) (by rw [hat]; rfl) (by rw [hat]; rfl)
  | removeCas key index value =>
    rw [hat] at hstep
    dsimp only at hstep
    split at hstep <;> cases hstep
    · exact h.goto rfl rfl rfl (by rw [hat]; nofun) (by rw [hat]; rfl) (by rw [hat]; rfl)
    · exact h.finish rfl rfl rfl (by rw [hat]; rfl) (by rw [hat]; rfl)
  | removeInc key value | cleanupDestroy key value =>
    rw [hat] at hstep
    cases hstep
    exact h.goto rfl rfl rfl (by rw [hat]; nofun) (by rw [hat]; rfl) (by rw [hat]; rfl)
  | cleanupRelease key value =>
    rw [hat] at hstep
    cases hstep
    refine h.release (q := .cleanupAcquire key value) ?_ rfl (by rw [hat]; rfl) rfl
      (by rw [hat]; rfl) (h.same rfl (by rw [hat]; nofun))
    rw [hat]
    rfl
  | cleanupAcquire key value =>
    rw [hat] at hstep
    obtain ⟨s₁, hs, rfl⟩ := Option.map_eq_some_iff.mp hstep
    obtain ⟨hl, hpc, hresult⟩ := hacquire hs
    have hpcs : (s₁.goto t (.cleanup key value)).pc =
        update s.pc t (.cleanup key value) := by
      rw [← hpc]
      rfl
    exact h.acquire (q := .cleanup key value) hl rfl hpcs (by rw [hat]; rfl) rfl
      (h.same hresult (by rw [hat]; nofun))
  | cleanup key value =>
    rw [hat] at hstep
    dsimp only at hstep
    split at hstep <;> cases hstep
    exact h.goto rfl rfl rfl (by rw [hat]; nofun) (by rw [hat]; rfl) (by rw [hat]; rfl)
  | cleanupUnlock key =>
    rw [hat] at hstep
    cases hstep
    refine h.release (q := .cleanupReacquire key) ?_ rfl (by rw [hat]; rfl) rfl
      (by rw [hat]; rfl) (h.same rfl (by rw [hat]; nofun))
    rw [hat]
    rfl
  | cleanupReacquire key =>
    rw [hat] at hstep
    obtain ⟨s₁, hs, rfl⟩ := Option.map_eq_some_iff.mp hstep
    obtain ⟨hl, hpc, hresult⟩ := hacquire hs
    refine h.acquire (q := .idle) hl rfl ?_ (by rw [hat]; rfl) rfl
      (.set (r := some (.ret .ok)) ?_ (.inr rfl))
    · rw [← hpc]
      rfl
    · rw [← hresult]
      rfl

theorem Locked.step (h : Locked s) {a : Act Tid Key Value} (hstep : step c s a = some s') :
    Locked s' := by
  cases a with
  | register t =>
    simp only [SimplehtThreads.step] at hstep
    cases hat : s.pc t <;> rw [hat] at hstep
    case out =>
      obtain ⟨s₁, hs, rfl⟩ := Option.map_eq_some_iff.mp hstep
      obtain ⟨l, hl, rfl⟩ := Option.map_eq_some_iff.mp hs
      exact h.acquire (q := .idle) hl rfl rfl (by rw [hat]; rfl) rfl
        (h.same rfl (by rw [hat]; nofun))
    all_goals cases hstep
  | deregister t =>
    simp only [SimplehtThreads.step] at hstep
    cases hat : s.pc t <;> rw [hat] at hstep <;> cases hstep
    refine h.release (q := .out) ?_ rfl (by rw [hat]; rfl) rfl (by rw [hat]; rfl)
      (.set rfl (.inl rfl))
    rw [hat]
    rfl
  | call t call =>
    simp only [SimplehtThreads.step] at hstep
    cases hat : s.pc t <;> rw [hat] at hstep <;> cases hstep
    exact h.move rfl rfl (by rw [hat]; rfl) (by rw [hat]; rfl) (.set rfl (.inl rfl))
  | chance t writer =>
    simp only [SimplehtThreads.step] at hstep
    cases hat : s.pc t <;> rw [hat] at hstep
    case chance call =>
      cases writer <;> cases hstep
      · refine h.goto rfl rfl rfl (by rw [hat]; nofun) ?_ ?_ <;> rw [hat] <;> cases call <;> rfl
      · exact h.goto rfl rfl rfl (by rw [hat]; nofun) (by rw [hat]; rfl) (by rw [hat]; rfl)
    all_goals cases hstep
  | step t => exact h.nextStep hstep

omit [DecidableEq Tid] [DecidableEq Value] in
theorem Initial.locked (hs : Initial c s) : Locked s := by
  have hout (u : Tid) : s.pc u = .out := congrFun hs.pc u
  refine ⟨⟨fun i u => ?_, fun i u => ?_, fun i u _ => ?_, fun u => ?_, fun i => ?_⟩,
    fun u v hu => ?_⟩
  · rw [hs.lock, hout u]
    exact iff_of_false nofun fun hmem => List.not_mem_nil hmem.2
  · rw [hs.lock, hout u]
    exact iff_of_false List.not_mem_nil fun hmem => List.not_mem_nil hmem.2
  · rw [hs.lock]
    rfl
  · rw [hout u]
    exact List.nodup_nil
  · rw [hs.lock]
    exact List.nodup_nil
  · rw [hs.result] at hu
    cases hu

/-- What the local variables of a call say of the table. -/
def PcOk (c : Config Key) (tbl : Table Key Value) : Pc Key Value → Prop
  | .addKey k _ cnt index =>
    cnt < c.capacity ∧ c.mask index = c.slot k cnt ∧ ∀ d < cnt, Passes tbl k (c.slot k d)
  | .addCas k _ cnt i =>
    cnt < c.capacity ∧ i = c.slot k cnt ∧ ∀ d < cnt, Passes tbl k (c.slot k d)
  | .addAssert k _ i | .addValue k _ i | .removeValue k i | .removeCas k i _ =>
    i < c.capacity ∧ tbl.keys i = some k
  | .removeKey _ i => i < c.capacity
  | _ => True

/-- The key has a slot, and there is a value in it unless the key was removed last. -/
def Settles (c : Config Key) (tbl : Table Key Value) (k : Key) (kind : Kind) : Prop :=
  ∃ i < c.capacity, tbl.keys i = some k ∧ (tbl.values i ≠ none ↔ kind = .added)

section Table

omit [DecidableEq Tid] [DecidableEq Value]

theorem PcOk.mono (h : PcOk c tbl q)
    (hgrow : ∀ i p, tbl.keys i = some p → tbl'.keys i = some p) : PcOk c tbl' q := by
  have hpasses {k : Key} {i : Nat} (hp : Passes tbl k i) : Passes tbl' k i := by
    obtain ⟨p, hkey, hne⟩ := hp
    exact ⟨p, hgrow i p hkey, hne⟩
  cases q with
  | addKey k v cnt index | addCas k v cnt i =>
    obtain ⟨hcnt, hindex, hpass⟩ := h
    exact ⟨hcnt, hindex, fun d hd => hpasses (hpass d hd)⟩
  | addAssert k v i | addValue k v i | removeValue k i | removeCas k i v =>
    exact ⟨h.1, hgrow _ _ h.2⟩
  | removeKey k i => exact h
  | _ => trivial

theorem Probed.congr (h : Probed c tbl) (hkeys : tbl'.keys = tbl.keys) : Probed c tbl' := by
  refine ⟨fun i j k hi hj => ?_, fun d d' k hd => ?_⟩
  · rw [hkeys]
    exact h.distinct i j k hi hj
  · rw [hkeys]
    exact h.path d d' k hd

/-- The slot of the key that a search ends at, when it has passed all the slots before. -/
theorem Probed.absent (h : Probed c tbl)
    (hpass : ∀ e < d, Passes tbl k (c.slot k e)) (hempty : tbl.keys (c.slot k d) = none) {j : Nat}
    (hj : j < c.capacity) : tbl.keys j ≠ some k := by
  intro hkey
  have hlt := ringDist_lt c.capacity_pos (c.hashKey k) j
  have hslot : c.slot k (ringDist c.capacity (c.hashKey k) j) = j := by
    rw [Config.slot, add_ringDist c.capacity_pos, Nat.mod_eq_of_lt hj]
  rw [← hslot] at hkey
  rcases Nat.lt_trichotomy (ringDist c.capacity (c.hashKey k) j) d with hbefore | heq | hafter
  · obtain ⟨p, hp, hne⟩ := hpass _ hbefore
    exact hne (Option.some.inj (hp.symm.trans hkey))
  · rw [heq, hempty] at hkey
    cases hkey
  · exact h.path _ _ k hlt hkey hafter hempty

theorem update_keys_some {p : Key} (hempty : tbl.keys i = none) {j : Nat}
    (hkey : tbl.keys j = some p) : update tbl.keys i (some k) j = some p := by
  rw [update_of_ne _ _ _, hkey]
  rintro rfl
  rw [hempty] at hkey
  cases hkey

/-- A key comes into the empty slot that its search ends at. -/
theorem Probed.put (h : Probed c tbl) (hd : d < c.capacity)
    (hpass : ∀ e < d, Passes tbl k (c.slot k e)) (hempty : tbl.keys (c.slot k d) = none) :
    Probed c { tbl with keys := update tbl.keys (c.slot k d) (some k) } := by
  have habsent {j : Nat} (hj : j < c.capacity) := h.absent hpass hempty hj
  have hsome {j : Nat} (hj : tbl.keys j ≠ none) :
      update tbl.keys (c.slot k d) (some k) j ≠ none := by
    obtain ⟨p, hp⟩ := Option.ne_none_iff_exists'.mp hj
    rw [update_keys_some hempty hp]
    exact Option.some_ne_none p
  have hold {j : Nat} {p : Key} (hj : j ≠ c.slot k d)
      (hkey : update tbl.keys (c.slot k d) (some k) j = some p) : tbl.keys j = some p := by
    rwa [update_of_ne hj] at hkey
  have hnew {p : Key}
      (hkey : update tbl.keys (c.slot k d) (some k) (c.slot k d) = some p) : p = k := by
    rw [update_self] at hkey
    exact (Option.some.inj hkey).symm
  refine ⟨fun i j p hi hj hki hkj => ?_, fun e e' p he hkey hlt => ?_⟩
  · by_cases hid : i = c.slot k d <;> by_cases hjd : j = c.slot k d
    · rw [hid, hjd]
    · rw [hid] at hki
      have hp := hnew hki
      rw [hp] at hkj
      exact absurd (hold hjd hkj) (habsent hj)
    · rw [hjd] at hkj
      have hp := hnew hkj
      rw [hp] at hki
      exact absurd (hold hid hki) (habsent hi)
    · exact h.distinct i j p hi hj (hold hid hki) (hold hjd hkj)
  · by_cases hslot : c.slot p e = c.slot k d
    · dsimp only at hkey
      rw [hslot] at hkey
      obtain rfl := hnew hkey
      obtain rfl := ring_inj he hd hslot
      obtain ⟨q, hq, -⟩ := hpass e' hlt
      exact hsome (by rw [hq]; exact Option.some_ne_none q)
    · exact hsome (h.path e e' p he (hold hslot hkey) hlt)

variable {kind : Kind}

theorem Settles.mono (h : Settles c tbl k kind)
    (hgrow : ∀ i p, tbl.keys i = some p → tbl'.keys i = some p)
    (hvalues : ∀ i, tbl.keys i = some k → tbl'.values i = tbl.values i) :
    Settles c tbl' k kind := by
  obtain ⟨i, hi, hkey, hvalue⟩ := h
  refine ⟨i, hi, hgrow i k hkey, ?_⟩
  rw [hvalues i hkey]
  exact hvalue

/-- What the value slot of a key says of its last effect. -/
theorem Settles.value (h : Settles c tbl k kind) (hprobed : Probed c tbl) (hi : i < c.capacity)
    (hkey : tbl.keys i = some k) : tbl.values i ≠ none ↔ kind = .added := by
  obtain ⟨j, hj, hkeyj, hvalue⟩ := h
  obtain rfl := hprobed.distinct i j k hi hj hkey hkeyj
  exact hvalue

end Table

variable [DecidableEq Key]

section Effects

omit [DecidableEq Tid] [DecidableEq Value]

variable {effects : List (Effect Tid Key)} {kind : Kind} {k' : Key}

theorem kinds_cons_self : kinds k (⟨t, kind, k⟩ :: effects) = kind :: kinds k effects := by
  rw [kinds, List.filter_cons_of_pos (by simp)]
  rfl

theorem kinds_cons_other (hk : k' ≠ k) : kinds k (⟨t, kind, k'⟩ :: effects) = kinds k effects := by
  rw [kinds, List.filter_cons_of_neg (by simpa using hk)]
  rfl

theorem pending_none {e : Effect Tid Key} (hnone : (s.pc e.thread).removed = none) :
    pending s e = 0 := by
  rw [pending, hnone]
  exact if_neg nofun

theorem pending_some [DecidableEq Tid] {e : Effect Tid Key} (hsome : (s.pc t).removed = some k)
    (ht : e.thread = t) :
    pending s e = if (⟨t, .removed, k⟩ : Effect Tid Key) = e then 1 else 0 := by
  obtain ⟨u, kind, key⟩ := e
  obtain rfl : u = t := ht
  rw [pending, hsome]
  refine if_congr ⟨fun ⟨hkind, hkey⟩ => ?_, fun heq => ?_⟩ rfl rfl
  · rw [show kind = .removed from hkind, Option.some.inj hkey]
  · cases heq
    exact ⟨rfl, rfl⟩

end Effects

/-- The table and the effects up to the first cleanup that restructures it. -/
structure Inv (c : Config Key) (s : State Tid Key Value) : Prop where
  probed : Probed c s.table
  pc : ∀ t, PcOk c s.table (s.pc t)
  last : ∀ k kind, (kinds k s.effects).head? = some kind → Settles c s.table k kind
  alternate : ∀ k, (kinds k s.effects).IsChain (· ≠ ·)
  counted : ∀ e, s.effects.count e = s.returned.count e + pending s e

section Step

omit [DecidableEq Value]

theorem pending_same (hpc : s'.pc = update s.pc t q)
    (hremoved : q.removed = (s.pc t).removed) (e : Effect Tid Key) :
    pending s' e = pending s e := by
  rw [pending, pending, hpc]
  by_cases het : e.thread = t
  · rw [het, update_self, hremoved]
  · rw [update_of_ne het]

theorem pending_other (hpc : s'.pc = update s.pc t q) {e : Effect Tid Key}
    (het : e.thread ≠ t) : pending s' e = pending s e := by
  rw [pending, pending, hpc, update_of_ne het]

/-- The threads after a step of `t` by which keys at most come into empty slots. -/
theorem Inv.pcs (h : Inv c s) (hpc : s'.pc = update s.pc t q)
    (hgrow : ∀ i p, s.table.keys i = some p → s'.table.keys i = some p)
    (hok : PcOk c s'.table q) (u : Tid) : PcOk c s'.table (s'.pc u) := by
  rw [hpc]
  by_cases hut : u = t
  · rw [hut, update_self]
    exact hok
  · rw [update_of_ne hut]
    exact (h.pc u).mono hgrow

/-- A step of `t` that leaves the slots as they are. -/
theorem Inv.move (h : Inv c s) (hpc : s'.pc = update s.pc t q)
    (hkeys : s'.table.keys = s.table.keys) (hvalues : s'.table.values = s.table.values)
    (heffects : s'.effects = s.effects) (hreturned : s'.returned = s.returned)
    (hremoved : q.removed = (s.pc t).removed) (hok : PcOk c s.table q) : Inv c s' := by
  have hgrow (i : Nat) (p : Key) (hp : s.table.keys i = some p) : s'.table.keys i = some p := by
    rw [hkeys]
    exact hp
  refine ⟨h.probed.congr hkeys, h.pcs hpc hgrow (hok.mono hgrow), fun k kind hkind => ?_,
    fun k => ?_, fun e => ?_⟩
  · rw [heffects] at hkind
    exact (h.last k kind hkind).mono hgrow fun i _ => by rw [hvalues]
  · rw [heffects]
    exact h.alternate k
  · rw [heffects, hreturned, pending_same hpc hremoved]
    exact h.counted e

theorem Inv.putKey (h : Inv c s) {cnt : Nat} (hat : s.pc t = .addCas k v cnt i)
    (hempty : s.table.keys i = none) :
    Inv c ({ s with
      table := { s.table with keys := update s.table.keys i (some k) }
      }.goto t (.addAssert k v i)) := by
  have hown := h.pc t
  rw [hat] at hown
  obtain ⟨hcnt, rfl, hpass⟩ := hown
  have hgrow (j : Nat) (p : Key) (hp : s.table.keys j = some p) :
      update s.table.keys (c.slot k cnt) (some k) j = some p :=
    update_keys_some hempty hp
  refine ⟨h.probed.put hcnt hpass hempty, h.pcs rfl hgrow ?_, fun k' kind hkind => ?_,
    h.alternate, fun e => ?_⟩
  · exact ⟨c.slot_lt k cnt, update_self ..⟩
  · exact (h.last k' kind hkind).mono hgrow fun _ _ => rfl
  · exact (h.counted e).trans (congrArg _ (pending_same rfl (by rw [hat]; rfl) e).symm)

/-- The value slot of a key changes, and the key has a new effect. -/
theorem Inv.effect (h : Inv c s) (value : Option Value) (kind : Kind) (hi : i < c.capacity)
    (hkey : s.table.keys i = some k) (hold : s.table.values i = none ↔ kind = .added)
    (hnew : value ≠ none ↔ kind = .added) (hpc : s'.pc = update s.pc t q)
    (hkeys : s'.table.keys = s.table.keys)
    (hvalues : s'.table.values = update s.table.values i value)
    (heffects : s'.effects = ⟨t, kind, k⟩ :: s.effects) (hok : PcOk c s.table q)
    (hcounted : ∀ e, s'.effects.count e = s'.returned.count e + pending s' e) : Inv c s' := by
  have hgrow (i : Nat) (p : Key) (hp : s.table.keys i = some p) : s'.table.keys i = some p := by
    rw [hkeys]
    exact hp
  refine ⟨h.probed.congr hkeys, h.pcs hpc hgrow (hok.mono hgrow), fun k' kind' hkind => ?_,
    fun k' => ?_, hcounted⟩
  · by_cases hk : k = k'
    · subst hk
      rw [heffects, kinds_cons_self] at hkind
      obtain rfl : kind = kind' := Option.some.inj hkind
      refine ⟨i, hi, hgrow i k hkey, ?_⟩
      rw [hvalues, update_self]
      exact hnew
    · rw [heffects, kinds_cons_other hk] at hkind
      refine (h.last k' kind' hkind).mono hgrow fun j hj => ?_
      rw [hvalues, update_of_ne]
      rintro rfl
      exact hk (Option.some.inj (hkey.symm.trans hj))
  · rw [heffects]
    by_cases hk : k = k'
    · subst hk
      rw [kinds_cons_self]
      refine (h.alternate k).cons fun kind' hkind heq => ?_
      -- the last effect of the key is of the other kind, as its value slot shows
      have hvalue := (h.last k kind' hkind).value h.probed hi hkey
      rw [← heq, ← hold] at hvalue
      by_cases hnone : s.table.values i = none
      · exact hvalue.mpr hnone hnone
      · exact hnone (hvalue.mp hnone)
    · rw [kinds_cons_other hk]
      exact h.alternate k'

theorem Inv.putValue (h : Inv c s) (hat : s.pc t = .addValue k v i)
    (hempty : s.table.values i = none) :
    Inv c ({ s with
      table := { s.table with values := update s.table.values i (some v) }
      effects := ⟨t, .added, k⟩ :: s.effects
      returned := ⟨t, .added, k⟩ :: s.returned }.finish t (.ret .ok)) := by
  have hown := h.pc t
  rw [hat] at hown
  refine h.effect (some v) .added hown.1 hown.2 (iff_of_true hempty rfl)
    (iff_of_true (Option.some_ne_none v) rfl) rfl rfl rfl rfl trivial fun e => ?_
  have hsame (s' : State Tid Key Value) (hpc : s'.pc = update s.pc t .idle) :
      pending s' e = pending s e :=
    pending_same hpc (by rw [hat]; rfl) e
  refine Eq.trans ?_ (congrArg _ (hsame _ rfl).symm)
  change (_ :: s.effects).count e = (_ :: s.returned).count e + pending s e
  rw [List.count_cons, List.count_cons, h.counted e, Nat.add_right_comm]

theorem Inv.takeValue (h : Inv c s) (hat : s.pc t = .removeCas k i v)
    (hvalue : s.table.values i = some v) :
    Inv c ({ s with
      table := { s.table with values := update s.table.values i none }
      effects := ⟨t, .removed, k⟩ :: s.effects }.goto t (.removeInc k v)) := by
  have hown := h.pc t
  rw [hat] at hown
  have hfull : s.table.values i ≠ none := by
    rw [hvalue]
    exact Option.some_ne_none v
  have hkind : Kind.removed ≠ .added := Kind.noConfusion
  refine h.effect none .removed hown.1 hown.2 (iff_of_false hfull hkind)
    (iff_of_false (fun hne => hne rfl) hkind) rfl rfl rfl rfl trivial fun e => ?_
  change (_ :: s.effects).count e = s.returned.count e + pending (State.goto _ t _) e
  rw [List.count_cons, h.counted e]
  by_cases het : e.thread = t
  · rw [pending_none (s := s) (by rw [het, hat]; rfl),
      pending_some (k := k) (by rw [goto_self]; rfl) het]
    simp only [beq_iff_eq, Nat.add_zero]
  · have hne : (⟨t, .removed, k⟩ : Effect Tid Key) ≠ e := by
      rintro rfl
      exact het rfl
    rw [if_neg (by simpa using hne)]
    exact congrArg _ (pending_other rfl het).symm

theorem Inv.return (h : Inv c s) (hat : s.pc t = .cleanupReacquire k) (l : Locks Unit Tid) :
    Inv c ({ s with
      lock := l
      returned := ⟨t, .removed, k⟩ :: s.returned }.finish t (.ret .ok)) := by
  refine ⟨h.probed, h.pcs rfl (fun _ _ hp => hp) trivial, h.last, h.alternate, fun e => ?_⟩
  change s.effects.count e = (_ :: s.returned).count e + pending (State.finish _ t _) e
  rw [List.count_cons, h.counted e]
  by_cases het : e.thread = t
  · rw [pending_some (k := k) (by rw [hat]; rfl) het, pending_none]
    · simp only [beq_iff_eq, Nat.add_zero]
    · rw [het]
      exact congrArg Pc.removed (goto_self _ t _)
  · have hne : (⟨t, .removed, k⟩ : Effect Tid Key) ≠ e := by
      rintro rfl
      exact het rfl
    rw [if_neg (by simpa using hne)]
    exact congrArg _ (pending_other rfl het).symm

theorem Inv.begin (h : Inv c s) {call : Call Key Value}
    (hpc : s'.pc = update s.pc t (begin c call))
    (htable : s'.table = s.table) (heffects : s'.effects = s.effects)
    (hreturned : s'.returned = s.returned) (hnone : (s.pc t).removed = none) : Inv c s' := by
  refine h.move hpc (by rw [htable]) (by rw [htable]) heffects hreturned ?_ ?_
  · rw [hnone]
    cases call <;> rfl
  · cases call with
    | add k v => exact ⟨c.capacity_pos, c.mask_eq _, fun d hd => absurd hd (Nat.not_lt_zero d)⟩
    | get k => trivial
    | remove k =>
      change c.mask (c.hashKey k) < c.capacity
      rw [c.mask_eq]
      exact Nat.mod_lt _ c.capacity_pos

/-- The loop of an addition has passed one more slot. -/
theorem Inv.addNext (h : Inv c s) {cnt : Nat} {p : Key} (hnone : (s.pc t).removed = none)
    (hcnt : cnt < c.capacity) (hslot : i = c.slot k cnt)
    (hpass : ∀ d < cnt, Passes s.table k (c.slot k d)) (hkey : s.table.keys i = some p)
    (hcmp : c.cmpKey k p ≠ 0) : Inv c (s.addNext c t k v cnt i) := by
  rw [State.addNext]
  split
  · rename_i hnext
    refine h.move (q := .addKey k v (cnt + 1) (i + 1)) rfl rfl rfl rfl rfl hnone.symm
      ⟨hnext, ?_, fun d hd => ?_⟩
    · rw [hslot, c.mask_slot_succ]
    · rcases Nat.lt_succ_iff_lt_or_eq.mp hd with hlt | rfl
      · exact hpass d hlt
      · rw [← hslot]
        refine ⟨p, hkey, ?_⟩
        rintro rfl
        exact hcmp ((c.cmp_zero p p).mpr rfl)
  · exact h.move (q := .idle) rfl rfl rfl rfl rfl hnone.symm trivial

end Step

theorem Inv.nextStep (h : Inv c s) (hsettled : ∀ k v, s.pc t = .cleanup k v →
    s.table.deletedCount < c.cleaningThreshold)
    (hstep : SimplehtThreads.nextStep c s t = some s') : Inv c s' := by
  have hacquire {r : Bool} {s₁ : State Tid Key Value} (hs : s.acquire t r = some s₁) :
      ∃ l, s₁ = { s with lock := l } := by
    obtain ⟨l, -, rfl⟩ := Option.map_eq_some_iff.mp hs
    exact ⟨l, rfl⟩
  have hown := h.pc t
  unfold SimplehtThreads.nextStep at hstep
  cases hat : s.pc t with
  | out | idle | chance _ =>
    rw [hat] at hstep
    cases hstep
  | chanceRelease call | removeInc k v | cleanupRelease k v | cleanupDestroy k v
  | cleanupUnlock k | getValue index =>
    rw [hat] at hstep
    cases hstep
    exact h.move rfl rfl rfl rfl rfl (by rw [hat]; rfl) trivial
  | chanceAcquire call =>
    rw [hat] at hstep
    obtain ⟨s₁, hs, rfl⟩ := Option.map_eq_some_iff.mp hstep
    obtain ⟨l, rfl⟩ := hacquire hs
    exact h.begin rfl rfl rfl rfl (by rw [hat]; rfl)
  | getKey key index =>
    rw [hat] at hstep
    dsimp only at hstep
    split at hstep
    · cases hstep
      exact h.move rfl rfl rfl rfl rfl (by rw [hat]; rfl) trivial
    · split at hstep <;> cases hstep <;>
        exact h.move rfl rfl rfl rfl rfl (by rw [hat]; rfl) trivial
  | addKey k v cnt index =>
    rw [hat] at hstep hown
    obtain ⟨hcnt, hindex, hpass⟩ := hown
    dsimp only at hstep
    split at hstep
    · cases hstep
      exact h.move rfl rfl rfl rfl rfl (by rw [hat]; rfl) ⟨hcnt, hindex, hpass⟩
    · rename_i p hkey
      split at hstep <;> cases hstep
      · rename_i hcmp
        exact h.addNext (by rw [hat]; rfl) hcnt hindex hpass hkey hcmp
      · rename_i hcmp
        have hsame : k = p := (c.cmp_zero k p).mp (not_not.mp hcmp)
        refine h.move rfl rfl rfl rfl rfl (by rw [hat]; rfl) ⟨?_, hsame ▸ hkey⟩
        rw [hindex]
        exact c.slot_lt k cnt
  | addCas k v cnt i =>
    rw [hat] at hstep hown
    obtain ⟨hcnt, hindex, hpass⟩ := hown
    dsimp only at hstep
    split at hstep
    · rename_i hempty
      cases hstep
      exact h.putKey hat hempty
    · rename_i p hkey
      split at hstep <;> cases hstep
      · rename_i hcmp
        exact h.addNext (by rw [hat]; rfl) hcnt hindex hpass hkey hcmp
      · rename_i hcmp
        have hsame : k = p := (c.cmp_zero k p).mp (not_not.mp hcmp)
        refine h.move rfl rfl rfl rfl rfl (by rw [hat]; rfl) ⟨?_, hsame ▸ hkey⟩
        rw [hindex]
        exact c.slot_lt k cnt
  | addAssert k v i =>
    rw [hat] at hstep hown
    dsimp only at hstep
    split at hstep
    · cases hstep
    · obtain ⟨-, hs⟩ := Option.ite_none_right_eq_some.mp hstep
      cases hs
      exact h.move rfl rfl rfl rfl rfl (by rw [hat]; rfl) hown
  | addValue k v i =>
    rw [hat] at hstep
    dsimp only at hstep
    split at hstep <;> cases hstep
    · rename_i hempty
      exact h.putValue hat hempty
    · exact h.move rfl rfl rfl rfl rfl (by rw [hat]; rfl) trivial
  | removeKey k i =>
    rw [hat] at hstep hown
    dsimp only at hstep
    split at hstep
    · cases hstep
      exact h.move rfl rfl rfl rfl rfl (by rw [hat]; rfl) trivial
    · rename_i p hkey
      split at hstep
      · rename_i hcmp
        cases hstep
        have hsame : k = p := (c.cmp_zero k p).mp hcmp
        exact h.move rfl rfl rfl rfl rfl (by rw [hat]; rfl) ⟨hown, hsame ▸ hkey⟩
      · split at hstep <;> cases hstep
        · refine h.move rfl rfl rfl rfl rfl (by rw [hat]; rfl) ?_
          change c.mask (i + 1) < c.capacity
          rw [c.mask_eq]
          exact Nat.mod_lt _ c.capacity_pos
        · exact h.move rfl rfl rfl rfl rfl (by rw [hat]; rfl) trivial
  | removeValue k i =>
    rw [hat] at hstep hown
    dsimp only at hstep
    split at hstep <;> cases hstep
    · exact h.move rfl rfl rfl rfl rfl (by rw [hat]; rfl) trivial
    · exact h.move rfl rfl rfl rfl rfl (by rw [hat]; rfl) hown
  | removeCas k i v =>
    rw [hat] at hstep
    dsimp only at hstep
    split at hstep <;> cases hstep
    · rename_i hvalue
      exact h.takeValue hat hvalue
    · exact h.move rfl rfl rfl rfl rfl (by rw [hat]; rfl) trivial
  | cleanupAcquire k v =>
    rw [hat] at hstep
    obtain ⟨s₁, hs, rfl⟩ := Option.map_eq_some_iff.mp hstep
    obtain ⟨l, rfl⟩ := hacquire hs
    exact h.move rfl rfl rfl rfl rfl (by rw [hat]; rfl) trivial
  | cleanup k v =>
    rw [hat] at hstep
    have hfew := hsettled k v hat
    simp only [Simpleht.cleanup, if_pos hfew, Option.some.injEq] at hstep
    subst hstep
    exact h.move rfl rfl rfl rfl rfl (by rw [hat]; rfl) trivial
  | cleanupReacquire k =>
    rw [hat] at hstep
    obtain ⟨s₁, hs, rfl⟩ := Option.map_eq_some_iff.mp hstep
    obtain ⟨l, rfl⟩ := hacquire hs
    exact h.return hat l

theorem Inv.step (h : Inv c s) {a : Act Tid Key Value} (hsettled : Settled c s a)
    (hstep : SimplehtThreads.step c s a = some s') : Inv c s' := by
  cases a with
  | register t =>
    simp only [SimplehtThreads.step] at hstep
    cases hat : s.pc t <;> rw [hat] at hstep
    case out =>
      obtain ⟨s₁, hs, rfl⟩ := Option.map_eq_some_iff.mp hstep
      obtain ⟨l, hl, rfl⟩ := Option.map_eq_some_iff.mp hs
      exact h.move rfl rfl rfl rfl rfl (by rw [hat]; rfl) trivial
    all_goals cases hstep
  | deregister t | call t call =>
    simp only [SimplehtThreads.step] at hstep
    cases hat : s.pc t <;> rw [hat] at hstep <;> cases hstep
    exact h.move rfl rfl rfl rfl rfl (by rw [hat]; rfl) trivial
  | chance t writer =>
    simp only [SimplehtThreads.step] at hstep
    cases hat : s.pc t <;> rw [hat] at hstep
    case chance call =>
      cases writer <;> cases hstep
      · exact h.begin rfl rfl rfl rfl (by rw [hat]; rfl)
      · exact h.move rfl rfl rfl rfl rfl (by rw [hat]; rfl) trivial
    all_goals cases hstep
  | step t => exact h.nextStep (fun k v hat => hsettled t k v rfl hat) hstep

omit [DecidableEq Tid] [DecidableEq Value] in
theorem Initial.inv [DecidableEq Tid] (hs : Initial c s) : Inv c s := by
  have hout (u : Tid) : s.pc u = .out := congrFun hs.pc u
  refine ⟨hs.table, fun u => ?_, fun k kind hkind => ?_, fun k => ?_, fun e => ?_⟩
  · rw [hout u]
    trivial
  · rw [hs.effects] at hkind
    cases hkind
  · rw [hs.effects]
    exact .nil
  · rw [hs.effects, hs.returned, pending_none (by rw [hout]; rfl)]
    rfl

theorem Inv.safe (h : Inv c s) : Safe c s :=
  ⟨fun _ _ => step_returns, h.probed, h.alternate, h.counted, fun t k v i hat => by
    have hown := h.pc t
    rw [hat] at hown
    exact hown.2⟩

/-- The table, up to the first cleanup that restructures it, and the values that the threads
have, always. -/
theorem simpleht_threads_safe (c : Config Key)
    {past : List (State Tid Key Value × Act Tid Key Value)} {s : State Tid Key Value}
    (run : (machine c).Run past s) :
    (AllSteps (Settled c) past → Safe c s) ∧ AllSteps Destroys past := by
  constructor
  · intro hsettled
    exact (run.invariant_if (I := Inv c) (fun _ => Initial.inv)
      (fun _ _ _ h hok hstep => h.step hok hstep) hsettled).safe
  · intro p hp
    obtain ⟨past', hrun⟩ := run.earlier hp
    exact (hrun.invariant (I := Locked) (fun _ => Initial.locked)
      fun _ _ _ h hstep => h.step hstep).destroys

omit [DecidableEq Value] [DecidableEq Key] in
theorem probed_vsimplehtInit (c : Config Key) :
    Probed c (vsimplehtInit : Table Key Value) :=
  ⟨fun _ _ _ _ _ hkey => absurd hkey nofun, fun _ _ _ _ hkey => absurd hkey nofun⟩

/-- 16 slots, so that a cleanup restructures the table after 4 removals. -/
def sixteenSlots : Config Nat where
  order := 4
  hashKey k := k
  cmpKey a b := (a : Int) - b
  cmp_zero := diff_zero

def fresh : State Nat Nat Nat :=
  ⟨vsimplehtInit, fun _ => Locks.free, fun _ => .out, fun _ => none, [], []⟩

/-- Two threads find the same slot empty and add the same key. The value of the one is
obtained by the other and is destroyed when the other begins its next call. -/
def overlap : List (Act Nat Nat Nat) :=
  [.register 0, .register 1, .call 0 (.add 1 10), .call 1 (.add 1 11), .chance 0 false,
    .chance 1 false, .step 0, .step 1, .step 0, .step 1, .step 1, .step 1, .step 0, .step 0,
    .call 0 (.get 1), .chance 0 false, .step 0, .step 0, .call 1 (.remove 1), .chance 1 false,
    .step 1, .step 1, .step 1, .step 1, .step 1, .call 0 (.get 1), .chance 0 true, .step 0,
    .step 1, .step 1, .step 1, .step 1, .step 0, .step 1, .step 0, .step 0]

/-- `Settled`, as a test. -/
def settled (s : State Nat Nat Nat) : Act Nat Nat Nat → Bool
  | .step t =>
    match s.pc t with
    | .cleanup _ _ => s.table.deletedCount < sixteenSlots.cleaningThreshold
    | _ => true
  | _ => true

theorem settled_sound {s : State Nat Nat Nat} {a : Act Nat Nat Nat} (hok : settled s a = true) :
    Settled sixteenSlots s a := by
  intro t k v ha hat
  subst ha
  simp only [settled, hat] at hok
  exact of_decide_eq_true hok

theorem simpleht_threads_safe_overlap :
    ∃ (past : List (State Nat Nat Nat × Act Nat Nat Nat)) (s : State Nat Nat Nat),
      (machine sixteenSlots).Run past s ∧ Safe sixteenSlots s ∧ AllSteps Destroys past ∧
        s.effects = [⟨1, .removed, 1⟩, ⟨1, .added, 1⟩] ∧ s.result 0 = some (.value none) := by
  have hexec : (((machine sixteenSlots).guarded settled).exec fresh overlap).map
      (fun s => (s.effects, s.result 0)) =
        some ([⟨1, .removed, 1⟩, ⟨1, .added, 1⟩], some (.value none)) := by
    decide +kernel
  obtain ⟨s, hs, hview⟩ := Option.map_eq_some_iff.mp hexec
  obtain ⟨heffects, hresult⟩ := Prod.mk.inj hview
  have hstart : ((machine sixteenSlots).guarded settled).start fresh :=
    ⟨probed_vsimplehtInit _, rfl, rfl, rfl, rfl, rfl⟩
  obtain ⟨run, hok⟩ := ((Machine.Run.start hstart).exec hs).of_guarded
  obtain ⟨hsafe, hdestroys⟩ := simpleht_threads_safe sixteenSlots run
  exact ⟨_, s, run, hsafe fun p hp => settled_sound (hok p hp), hdestroys, heffects, hresult⟩

/-- Threads 0 and 2 add the same key, and thread 1 takes the value of thread 0 out. Its removal goes
on to the cleanup, when thread 2 puts its value in. -/
def addAgain : List (Act Nat Nat Nat) :=
  [.register 0, .register 1, .register 2, .call 0 (.add 1 10), .call 2 (.add 1 11),
    .chance 0 false, .chance 2 false, .step 0, .step 0, .step 0, .step 0,
    .call 1 (.remove 1), .chance 1 false, .step 1, .step 1, .step 1, .step 2, .step 2, .step 2]

/-- Two overlapping additions of a key have returned OK, and no removal. -/
theorem simpleht_add_again :
    ∃ (past : List (State Nat Nat Nat × Act Nat Nat Nat)) (s : State Nat Nat Nat),
      (machine sixteenSlots).Run past s ∧ AllSteps (Settled sixteenSlots) past ∧
        s.returned = [⟨2, .added, 1⟩, ⟨0, .added, 1⟩] := by
  have hexec : (((machine sixteenSlots).guarded settled).exec fresh addAgain).map State.returned =
      some [⟨2, .added, 1⟩, ⟨0, .added, 1⟩] := by
    decide +kernel
  obtain ⟨s, hs, hview⟩ := Option.map_eq_some_iff.mp hexec
  have hstart : ((machine sixteenSlots).guarded settled).start fresh :=
    ⟨probed_vsimplehtInit _, rfl, rfl, rfl, rfl, rfl⟩
  obtain ⟨run, hok⟩ := ((Machine.Run.start hstart).exec hs).of_guarded
  exact ⟨_, s, run, fun p hp => settled_sound (hok p hp), hview⟩

end Libvsync.Map.SimplehtThreads
