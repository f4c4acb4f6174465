import Libvsync.Thread.FutexMock

/-!
The lists of the futex mock. A record is in the list of its address from the push of its wait
until a wake call takes it out, and has the state 1 as long as it is there. The wake call
that has the lock stands somewhere in the list, and no record in front of it is one of its
address; so what it is going to select are the first records of its address.
-/

namespace Libvsync.Thread.FutexMock

open Libvsync.Core Function

variable {Tid : Type}

/-- The thread has the lock. -/
def Pc.inside : Pc Tid → Bool
  | .waitRead _ _ | .waitLink _ | .waitPush _ | .waitUnlock _ | .wakeLoop _ _ _
  | .wakeFutex _ _ _ _ | .wakeWrite _ _ _ _ | .wakeUnlock => true
  | _ => false

/-- The record was pushed. -/
def Pc.listed : Pc Tid → Bool
  | .await | .waitUnlock false => true
  | _ => false

/-- How many records of an address the wake call is still going to take out. -/
def Pc.taking : Pc Tid → Nat → Nat
  | .wakeLoop m cnt _, a | .wakeFutex m cnt _ _, a | .wakeWrite m cnt _ _, a =>
    if m = a then cnt else 0
  | _, _ => 0

/-- The wait has compared the word and not pushed its record. -/
def Pc.linking : Pc Tid → Nat → Bool
  | .waitLink m, a | .waitPush m, a => m = a
  | _, _ => false

/-- The record that was taken out and has its state still. -/
def Pc.writing : Pc Tid → Option Tid
  | .wakeWrite _ _ _ w => some w
  | _ => none

/-- Where the thread with the lock stands. -/
def State.inside (s : State Tid) : Pc Tid :=
  match s.lock with
  | none => .idle
  | some t => s.pc t

def State.linking (s : State Tid) (a : Nat) : List Tid :=
  match s.lock with
  | none => []
  | some t => if (s.pc t).linking a then [t] else []

structure Lists (s : State Tid) (L : Nat → List Tid) : Prop where
  links : ∀ b, Linked (fun r => (s.waiter r).next) (s.head b) (L b)
  nodup : ∀ b, (L b).Nodup
  listed : ∀ b t, t ∈ L b → (s.pc t).listed = true ∧ (s.waiter t).state = 1 ∧
    bucket (s.waiter t).futex = b
  asleep : ∀ t, (s.pc t).listed = true → (s.waiter t).state = 1 →
    t ∈ L (bucket (s.waiter t).futex) ∨ s.inside.writing = some t

/-- A wait has filled its record. -/
def OwnOk (w : Waiter Tid) : Pc Tid → Prop
  | .waitLock m _ | .waitRead m _ | .waitLink m | .waitPush m => w.state = 1 ∧ w.futex = m
  | _ => True

/-- The pointer `h` of a wake call for `m` stands between two parts of the list. -/
structure At (s : State Tid) (L : Nat → List Tid) (m : Nat) (h : Slot Tid)
    (front rest : List Tid) : Prop where
  list : L (bucket m) = front ++ rest
  passed : ∀ r ∈ front, (s.waiter r).futex ≠ m
  slot : (front = [] ∧ h = .head (bucket m)) ∨ ∃ before r, front = before ++ [r] ∧ h = .next r

/-- What the thread with the lock knows. -/
def HolderOk (s : State Tid) (L : Nat → List Tid) (t : Tid) : Pc Tid → Prop
  | .waitPush m => (s.waiter t).next = s.head (bucket m)
  | .wakeLoop m _ h => ∃ front rest, At s L m h front rest
  | .wakeFutex m cnt h w => cnt ≠ 0 ∧ ∃ front rest, At s L m h front (w :: rest)
  | .wakeWrite m _ h w => (∃ front rest, At s L m h front rest) ∧ (s.pc w).listed = true ∧
      (s.waiter w).state = 1 ∧ ∀ b, w ∉ L b
  | _ => True

/-- The records of an address. -/
def onAddr (s : State Tid) (L : Nat → List Tid) (a : Nat) : List Tid :=
  (L (bucket a)).filter fun t => (s.waiter t).futex = a

/-- The wait has been selected. -/
def Released (s : State Tid) (L : Nat → List Tid) (w : Tid) : Prop :=
  (s.pc w).listed = true ∧ ((s.waiter w).state ≠ 1 ∨ s.inside.writing = some w ∨
    w ∈ (onAddr s L (s.waiter w).futex).take (s.inside.taking (s.waiter w).futex))

/-- The mock and the abstract futex. -/
structure Sim (s : State Tid) (L : Nat → List Tid) (f : Futex Nat Tid) : Prop where
  lists : Lists s L
  lock : ∀ t, (s.pc t).inside = true ↔ s.lock = some t
  own : ∀ t, OwnOk (s.waiter t) (s.pc t)
  holder : ∀ t, s.lock = some t → HolderOk s L t (s.pc t)
  word : f.word = s.word
  waiting : ∀ a, f.waiting a = s.linking a ++ (onAddr s L a).drop (s.inside.taking a)
  woken : ∀ w, w ∈ f.woken ↔ Released s L w

variable {s s' : State Tid} {L : Nat → List Tid} {f : Futex Nat Tid} {t u w : Tid} {pc : Pc Tid}
  {m cnt a b : Nat} {h : Slot Tid} {front rest : List Tid}

theorem At.deref (hat : At s L m h front rest) (hlists : Lists s L) :
    Linked (fun r => (s.waiter r).next) (s.deref h) rest := by
  have hlinks := hlists.links (bucket m)
  rw [hat.list] at hlinks
  rcases hat.slot with ⟨rfl, rfl⟩ | ⟨before, r, rfl, rfl⟩
  · exact hlinks
  · rw [List.append_assoc] at hlinks
    exact hlinks.behind

theorem At.congr (hat : At s L m h front rest)
    (hwaiter : ∀ u ∈ L (bucket m), (s'.waiter u).futex = (s.waiter u).futex) :
    At s' L m h front rest := by
  refine ⟨hat.list, fun r hr => ?_, hat.slot⟩
  rw [hwaiter r (by rw [hat.list]; exact List.mem_append_left _ hr)]
  exact hat.passed r hr

theorem onAddr_congr (hwaiter : ∀ u ∈ L (bucket a), (s'.waiter u).futex = (s.waiter u).futex) :
    onAddr s' L a = onAddr s L a :=
  List.filter_congr fun u hu => by rw [hwaiter u hu]

theorem mem_onAddr : t ∈ onAddr s L a ↔
    t ∈ L (bucket (s.waiter t).futex) ∧ (s.waiter t).futex = a := by
  rw [onAddr, List.mem_filter, decide_eq_true_eq]
  constructor
  · rintro ⟨hmem, rfl⟩
    exact ⟨hmem, rfl⟩
  · rintro ⟨hmem, rfl⟩
    exact ⟨hmem, rfl⟩

theorem HolderOk.congr (hok : HolderOk s L t pc) (hlists : Lists s L) (hhead : s'.head = s.head)
    (hown : s'.waiter t = s.waiter t)
    (hlisted : ∀ u, (s'.pc u).listed = (s.pc u).listed)
    (hwaiter : ∀ u, (s.pc u).listed = true → s'.waiter u = s.waiter u) : HolderOk s' L t pc := by
  have hsame (m : Nat) (u : Tid) (hu : u ∈ L (bucket m)) :
      (s'.waiter u).futex = (s.waiter u).futex := by
    rw [hwaiter u (hlists.listed _ u hu).1]
  cases pc with
  | waitPush m =>
    change (s'.waiter t).next = s'.head (bucket m)
    rw [hown, hhead]
    exact hok
  | wakeLoop m cnt h =>
    obtain ⟨front, rest, hat⟩ := hok
    exact ⟨front, rest, hat.congr (hsame m)⟩
  | wakeFutex m cnt h w =>
    obtain ⟨hcnt, front, rest, hat⟩ := hok
    exact ⟨hcnt, front, rest, hat.congr (hsame m)⟩
  | wakeWrite m cnt h w =>
    obtain ⟨⟨front, rest, hat⟩, hw, hstate, hout⟩ := hok
    refine ⟨⟨front, rest, hat.congr (hsame m)⟩, (hlisted w).trans hw, ?_, hout⟩
    rw [hwaiter w hw]
    exact hstate
  | _ => trivial

theorem inside_some (hlock : s.lock = some t) : s.inside = s.pc t := by
  rw [State.inside, hlock]

theorem linking_some (hlock : s.lock = some t) :
    s.linking a = if (s.pc t).linking a then [t] else [] := by
  rw [State.linking, hlock]

/-- Nothing changes that the futex is made of. -/
theorem Sim.still (hsim : Sim s L f) (hword : s'.word = s.word) (hhead : s'.head = s.head)
    (hlisted : ∀ u, (s'.pc u).listed = (s.pc u).listed)
    (hwaiter : ∀ u, (s.pc u).listed = true → s'.waiter u = s.waiter u)
    (htaking : ∀ a, s'.inside.taking a = s.inside.taking a)
    (hlinking : ∀ a, s'.linking a = s.linking a)
    (hwriting : s'.inside.writing = s.inside.writing)
    (hlock : ∀ t, (s'.pc t).inside = true ↔ s'.lock = some t)
    (hown : ∀ t, OwnOk (s'.waiter t) (s'.pc t))
    (hholder : ∀ t, s'.lock = some t → HolderOk s' L t (s'.pc t)) : Sim s' L f := by
  have hsame (b : Nat) (u : Tid) (hu : u ∈ L b) : s'.waiter u = s.waiter u :=
    hwaiter u (hsim.lists.listed b u hu).1
  have honAddr (a : Nat) : onAddr s' L a = onAddr s L a :=
    onAddr_congr fun u hu => by rw [hsame _ u hu]
  refine ⟨⟨fun b => ?_, hsim.lists.nodup, fun b u hu => ?_, fun u hu hstate => ?_⟩, hlock, hown,
    hholder, hsim.word.trans hword.symm, fun a => ?_, fun w => ?_⟩
  · rw [hhead]
    exact (hsim.lists.links b).congr fun u hu => by rw [hsame b u hu]
  · rw [hlisted, hsame b u hu]
    exact hsim.lists.listed b u hu
  · rw [hlisted] at hu
    rw [hwaiter u hu] at hstate ⊢
    rw [hwriting]
    exact hsim.lists.asleep u hu hstate
  · rw [hlinking, honAddr, htaking]
    exact hsim.waiting a
  · rw [hsim.woken, Released, Released, hlisted]
    refine and_congr_right fun hw => ?_
    rw [hwaiter w hw, hwriting, honAddr, htaking]

section Steps

variable [DecidableEq Tid]

theorem goto_self (s : State Tid) (t : Tid) (pc : Pc Tid) : (s.goto t pc).pc t = pc :=
  update_self ..

theorem goto_other (s : State Tid) (pc : Pc Tid) (hu : u ≠ t) : (s.goto t pc).pc u = s.pc u :=
  update_of_ne hu ..

/-- What a step of one thread leaves as it is. -/
structure Moved (s s' : State Tid) (t : Tid) (pc : Pc Tid) : Prop where
  self : s'.pc t = pc
  other : ∀ u, u ≠ t → s'.pc u = s.pc u
  waiter : ∀ u, u ≠ t → s'.waiter u = s.waiter u

theorem moved_goto (s : State Tid) (t : Tid) (pc : Pc Tid) : Moved s (s.goto t pc) t pc :=
  ⟨goto_self .., fun _ hu => goto_other _ _ hu, fun _ _ => rfl⟩

theorem moved_setWaiter (s : State Tid) (t : Tid) (w : Waiter Tid) (pc : Pc Tid) :
    Moved s ((s.setWaiter t w).goto t pc) t pc :=
  ⟨goto_self .., fun _ hu => goto_other _ _ hu, fun _ hu => update_of_ne hu ..⟩

section

omit [DecidableEq Tid]

theorem Moved.listed (hmoved : Moved s s' t pc) (hlisted : pc.listed = (s.pc t).listed) (u : Tid) :
    (s'.pc u).listed = (s.pc u).listed := by
  by_cases hut : u = t
  · rw [hut, hmoved.self, hlisted]
  · rw [hmoved.other u hut]

theorem Moved.lock (hmoved : Moved s s' t pc) (hsim : Sim s L f) (hlock : s'.lock = s.lock)
    (hinside : pc.inside = (s.pc t).inside) (u : Tid) :
    (s'.pc u).inside = true ↔ s'.lock = some u := by
  rw [hlock, ← hsim.lock u]
  by_cases hut : u = t
  · rw [hut, hmoved.self, hinside]
  · rw [hmoved.other u hut]

/-- The lists stay as they are while no record is about to be written. -/
theorem Moved.lists (hmoved : Moved s s' t pc) (hlists : Lists s L) (hhead : s'.head = s.head)
    (hwaiter : s'.waiter = s.waiter) (hlisted : pc.listed = (s.pc t).listed)
    (hwriting : s.inside.writing = none) : Lists s' L := by
  have hsame := hmoved.listed hlisted
  refine ⟨?_, hlists.nodup, fun b u hu => ?_, fun u hu hstate => ?_⟩
  · rw [hhead, hwaiter]
    exact hlists.links
  · rw [hsame, hwaiter]
    exact hlists.listed b u hu
  · rw [hsame] at hu
    rw [hwaiter] at hstate ⊢
    rcases hlists.asleep u hu hstate with hin | hin
    · exact .inl hin
    · rw [hwriting] at hin
      cases hin

theorem Moved.own (hmoved : Moved s s' t pc) (hsim : Sim s L f) (hown : OwnOk (s'.waiter t) pc)
    (u : Tid) : OwnOk (s'.waiter u) (s'.pc u) := by
  by_cases hut : u = t
  · rw [hut, hmoved.self]
    exact hown
  · rw [hmoved.other u hut, hmoved.waiter u hut]
    exact hsim.own u

end

/-- A thread goes on without a change of the lock or of the lists. -/
theorem Sim.move (hsim : Sim s L f) (hmoved : Moved s s' t pc) (hlock : s'.lock = s.lock)
    (hword : s'.word = s.word) (hhead : s'.head = s.head)
    (hmine : (s.pc t).listed = true → s'.waiter t = s.waiter t)
    (hlisted : pc.listed = (s.pc t).listed) (hinside : pc.inside = (s.pc t).inside)
    (hown : OwnOk (s'.waiter t) pc)
    (hhold : s.lock = some t → (∀ a, pc.taking a = (s.pc t).taking a) ∧
      (∀ a, pc.linking a = (s.pc t).linking a) ∧ pc.writing = (s.pc t).writing ∧
        HolderOk s' L t pc) : Sim s' L f := by
  have hpcs := hmoved.listed hlisted
  have hwaiter (u : Tid) (hu : (s.pc u).listed = true) : s'.waiter u = s.waiter u := by
    by_cases hut : u = t
    · rw [hut] at hu ⊢
      exact hmine hu
    · exact hmoved.waiter u hut
  have hview : (∀ a, s'.inside.taking a = s.inside.taking a) ∧
      (∀ a, s'.linking a = s.linking a) ∧ s'.inside.writing = s.inside.writing ∧
        ∀ u, s'.lock = some u → HolderOk s' L u (s'.pc u) := by
    cases hs : s.lock with
    | none =>
      have hs' : s'.lock = none := hlock.trans hs
      have hnone : s'.inside = .idle ∧ s.inside = .idle := by
        rw [State.inside, State.inside, hs, hs']
        exact ⟨rfl, rfl⟩
      rw [hnone.1, hnone.2]
      refine ⟨fun _ => rfl, fun a => ?_, rfl, fun u hu => ?_⟩
      · rw [State.linking, State.linking, hs, hs']
      · rw [hs'] at hu
        cases hu
    | some v =>
      have hs' : s'.lock = some v := hlock.trans hs
      rw [inside_some hs, inside_some hs']
      by_cases hvt : v = t
      · subst hvt
        obtain ⟨htaking, hlinking, hwriting, hok⟩ := hhold hs
        rw [hmoved.self]
        refine ⟨htaking, fun a => ?_, hwriting, fun u hu => ?_⟩
        · rw [linking_some hs, linking_some hs', hmoved.self, hlinking]
        · obtain rfl := Option.some.inj (hs'.symm.trans hu)
          rw [hmoved.self]
          exact hok
      · rw [hmoved.other v hvt]
        refine ⟨fun _ => rfl, fun a => ?_, rfl, fun u hu => ?_⟩
        · rw [linking_some hs, linking_some hs', hmoved.other v hvt]
        · obtain rfl := Option.some.inj (hs'.symm.trans hu)
          rw [hmoved.other v hvt]
          exact (hsim.holder v hs).congr hsim.lists hhead (hmoved.waiter v hvt) hpcs hwaiter
  refine hsim.still hword hhead hpcs hwaiter hview.1 hview.2.1 hview.2.2.1 (fun u => ?_)
    (hmoved.own hsim hown) hview.2.2.2
  rw [hlock, ← hsim.lock]
  by_cases hut : u = t
  · rw [hut, hmoved.self, hinside]
  · rw [hmoved.other u hut]

section

omit [DecidableEq Tid]

theorem Sim.outside (hsim : Sim s L f) (hs : s.lock = some t) (hu : u ≠ t) :
    (s.pc u).inside = false := by
  rw [Bool.eq_false_iff]
  intro hin
  exact hu (Option.some.inj (((hsim.lock u).mp hin).symm.trans hs))

theorem Sim.free (hsim : Sim s L f) (hs : s.lock = none) (u : Tid) : (s.pc u).inside = false := by
  rw [Bool.eq_false_iff, Ne, hsim.lock, hs]
  nofun

end

theorem Sim.acquire (hsim : Sim s L f) (hs : s.lock = none) {v : Nat}
    (hat : s.pc t = .waitLock m v) :
    Sim ({ s with lock := some t }.goto t (.waitRead m v)) L f := by
  set s' := ({ s with lock := some t } : State Tid).goto t (.waitRead m v)
  have hmoved : Moved s s' t (.waitRead m v) :=
    ⟨goto_self .., fun _ hu => goto_other _ _ hu, fun _ _ => rfl⟩
  have hown := hsim.own t
  rw [hat] at hown
  have hinside : s.inside = .idle := by
    rw [State.inside, hs]
  have hinside' : s'.inside = .waitRead m v := (inside_some rfl).trans hmoved.self
  refine hsim.still rfl rfl (hmoved.listed (by rw [hat]; rfl)) (fun _ _ => rfl) (fun a => ?_)
    (fun a => ?_) ?_ (fun u => ?_) (hmoved.own hsim hown) fun u hu => ?_
  · rw [hinside, hinside']
    rfl
  · rw [linking_some (s := s') rfl, hmoved.self, State.linking, hs]
    rfl
  · rw [hinside, hinside']
    rfl
  · by_cases hut : u = t
    · rw [hut, hmoved.self]
      exact iff_of_true rfl rfl
    · rw [hmoved.other u hut, hsim.free hs u]
      exact iff_of_false Bool.false_ne_true fun heq => hut (Option.some.inj heq).symm
  · obtain rfl : t = u := Option.some.inj hu
    rw [hmoved.self]
    trivial

theorem Sim.release (hsim : Sim s L f) (hin : (s.pc t).inside = true)
    (htaking : ∀ a, (s.pc t).taking a = 0) (hlinking : ∀ a, (s.pc t).linking a = false)
    (hwriting : (s.pc t).writing = none) (hlisted : pc.listed = (s.pc t).listed)
    (hout : pc.inside = false) (hown : OwnOk (s.waiter t) pc) : Sim (s.release t pc) L f := by
  have hs := (hsim.lock t).mp hin
  have hmoved : Moved s (s.release t pc) t pc :=
    ⟨goto_self .., fun _ hu => goto_other _ _ hu, fun _ _ => rfl⟩
  refine hsim.still rfl rfl (hmoved.listed hlisted) (fun _ _ => rfl) (fun a => ?_) (fun a => ?_) ?_
    (fun u => ?_) (hmoved.own hsim hown) fun u hu => nomatch hu
  · rw [inside_some hs, htaking]
    rfl
  · rw [linking_some hs, hlinking]
    rfl
  · rw [inside_some hs, hwriting]
    rfl
  · refine iff_of_false ?_ fun heq => nomatch heq
    by_cases hut : u = t
    · rw [hut, hmoved.self, hout]
      exact Bool.false_ne_true
    · rw [hmoved.other u hut, hsim.outside hs hut]
      exact Bool.false_ne_true

section

omit [DecidableEq Tid]

theorem Sim.write (hsim : Sim s L f) (m v : Nat) :
    Sim { s with word := update s.word m v } L
      { f with word := update f.word m v } := by
  refine ⟨⟨hsim.lists.links, hsim.lists.nodup, hsim.lists.listed, hsim.lists.asleep⟩, hsim.lock,
    hsim.own, fun t ht => ?_, congrArg (update · m v) hsim.word, hsim.waiting, hsim.woken⟩
  exact (hsim.holder t ht).congr hsim.lists rfl rfl (fun _ => rfl) fun _ _ => rfl

/-- A thread whose record is not in a list waits at no address, unless it is about to push the
record. -/
theorem Sim.not_waiting (hsim : Sim s L f) (hlisted : (s.pc t).listed = false)
    (hlinking : ∀ a, (s.pc t).linking a = false) (a : Nat) : t ∉ f.waiting a := by
  rw [hsim.waiting, List.mem_append]
  rintro (hmem | hmem)
  · cases hs : s.lock with
    | none =>
      rw [State.linking, hs] at hmem
      cases hmem
    | some u =>
      rw [linking_some hs] at hmem
      split at hmem
      · rename_i hu
        obtain rfl := List.mem_singleton.mp hmem
        rw [hlinking a] at hu
        cases hu
      · cases hmem
  · have hin := mem_onAddr.mp (List.mem_of_mem_drop hmem)
    rw [(hsim.lists.listed _ t hin.1).1] at hlisted
    cases hlisted

end

theorem Sim.sleep (hsim : Sim s L f) {v : Nat} (hat : s.pc t = .waitRead m v)
    (hword : s.word m = v) :
    ∃ f', Futex.Step f (.sleep m v t) f' ∧ Sim (s.goto t (.waitLink m)) L f' := by
  have hs : s.lock = some t := (hsim.lock t).mp (by rw [hat]; rfl)
  set s' := s.goto t (.waitLink m)
  have hmoved : Moved s s' t (.waitLink m) := moved_goto s t _
  have hown := hsim.own t
  rw [hat] at hown
  have hlisted : ∀ u, (s'.pc u).listed = (s.pc u).listed := hmoved.listed (by rw [hat]; rfl)
  have hinside : s.inside = .waitRead m v := (inside_some hs).trans hat
  have hinside' : s'.inside = .waitLink m := (inside_some (s := s') hs).trans hmoved.self
  have hout : (s.pc t).listed = false := by
    rw [hat]
    rfl
  refine ⟨{ f with waiting := update f.waiting m (t :: f.waiting m) },
    .sleep f (by rw [hsim.word, hword]) (hsim.not_waiting hout fun a => ?_) ?_ (.refl _), ?_⟩
  · rw [hat]
    rfl
  · rw [hsim.woken, Released, hout]
    exact fun hw => Bool.false_ne_true hw.1
  refine ⟨hmoved.lists hsim.lists rfl rfl (by rw [hat]; rfl) (by rw [hinside]; rfl),
    hmoved.lock hsim rfl (by rw [hat]; rfl), hmoved.own hsim hown, fun u hu => ?_, hsim.word,
    fun a => ?_, fun w => ?_⟩
  · obtain rfl : t = u := Option.some.inj (hs.symm.trans hu)
    rw [hmoved.self]
    trivial
  · have hold := hsim.waiting a
    rw [linking_some hs, hat, hinside] at hold
    rw [linking_some (s := s') hs, hmoved.self, hinside']
    change update f.waiting m (t :: f.waiting m) a = _
    by_cases ham : a = m
    · subst ham
      rw [update_self, hold, show (Pc.waitLink a : Pc Tid).linking a = true from
        decide_eq_true rfl]
      rfl
    · rw [update_of_ne ham, hold, show (Pc.waitLink m : Pc Tid).linking a = false from
        decide_eq_false (Ne.symm ham)]
      rfl
  · change w ∈ f.woken ↔ _
    rw [hsim.woken, Released, Released, hlisted, hinside, hinside']
    rfl

theorem Sim.push (hsim : Sim s L f) (hat : s.pc t = .waitPush m) :
    Sim ((s.setHead (bucket m) (some t)).goto t (.waitUnlock false))
      (update L (bucket m) (t :: L (bucket m))) f := by
  have hs : s.lock = some t := (hsim.lock t).mp (by rw [hat]; rfl)
  set s' := (s.setHead (bucket m) (some t)).goto t (.waitUnlock false)
  set L' := update L (bucket m) (t :: L (bucket m))
  have hmoved : Moved s s' t (.waitUnlock false) :=
    ⟨goto_self .., fun _ hu => goto_other _ _ hu, fun _ _ => rfl⟩
  have hown := hsim.own t
  have hnext := hsim.holder t hs
  rw [hat] at hown hnext
  obtain ⟨hstate, hfutex⟩ := hown
  have hinside : s.inside = .waitPush m := (inside_some hs).trans hat
  have hinside' : s'.inside = .waitUnlock false := (inside_some (s := s') hs).trans hmoved.self
  have hout (b : Nat) : t ∉ L b := by
    intro hmem
    have hlisted := (hsim.lists.listed b t hmem).1
    rw [hat] at hlisted
    cases hlisted
  have hself : L' (bucket m) = t :: L (bucket m) := update_self ..
  have hother : ∀ b, b ≠ bucket m → L' b = L b := fun b hb => update_of_ne hb ..
  have hgrown (b : Nat) (u : Tid) : u ∈ L' b ↔ (u = t ∧ b = bucket m) ∨ u ∈ L b := by
    by_cases hb : b = bucket m
    · rw [hb, hself, List.mem_cons, and_iff_left rfl]
    · rw [hother b hb]
      exact (or_iff_right fun hu => hb hu.2).symm
  have honAddr (a : Nat) : onAddr s' L' a = if a = m then t :: onAddr s L a else onAddr s L a := by
    change (L' (bucket a)).filter (fun u => (s.waiter u).futex = a) = _
    by_cases ham : a = m
    · rw [if_pos ham, ham, hself, List.filter_cons_of_pos
        (by rw [hfutex]; exact decide_eq_true rfl)]
      rfl
    · rw [if_neg ham]
      by_cases hb : bucket a = bucket m
      · rw [hb, hself, List.filter_cons_of_neg (by simpa [hfutex] using Ne.symm ham), ← hb]
        rfl
      · rw [hother _ hb]
        rfl
  refine ⟨⟨fun b => ?_, fun b => ?_, fun b u hu => ?_, fun u hu hstate => ?_⟩, fun u => ?_,
    hmoved.own hsim trivial, fun u hu => ?_, hsim.word, fun a => ?_, fun w => ?_⟩
  · change Linked (fun r => (s.waiter r).next) (update s.head (bucket m) (some t) b) _
    by_cases hb : b = bucket m
    · rw [hb, hself, update_self]
      exact (hsim.lists.links (bucket m)).push hnext
    · rw [hother b hb, update_of_ne hb]
      exact hsim.lists.links b
  · by_cases hb : b = bucket m
    · rw [hb, hself]
      exact List.nodup_cons.mpr ⟨hout _, hsim.lists.nodup _⟩
    · rw [hother b hb]
      exact hsim.lists.nodup b
  · rcases (hgrown b u).mp hu with ⟨rfl, rfl⟩ | hold
    · rw [hmoved.self]
      exact ⟨rfl, hstate, congrArg bucket hfutex⟩
    · have hut : u ≠ t := by
        rintro rfl
        exact hout b hold
      rw [hmoved.other u hut]
      exact hsim.lists.listed b u hold
  · change u ∈ L' (bucket (s.waiter u).futex) ∨ _
    rw [hgrown]
    by_cases hut : u = t
    · exact .inl (.inl ⟨hut, by rw [hut, hfutex]⟩)
    · rw [hmoved.other u hut] at hu
      rcases hsim.lists.asleep u hu hstate with hin | hwriting
      · exact .inl (.inr hin)
      · rw [hinside] at hwriting
        cases hwriting
  · exact hmoved.lock hsim rfl (by rw [hat]; rfl) u
  · obtain rfl : t = u := Option.some.inj (hs.symm.trans hu)
    rw [hmoved.self]
    trivial
  · rw [hsim.waiting, linking_some hs, hat, hinside, linking_some (s := s') hs, hmoved.self,
      hinside', honAddr]
    by_cases ham : a = m
    · rw [if_pos ham, ham, show (Pc.waitPush m : Pc Tid).linking m = true from decide_eq_true rfl]
      rfl
    · rw [if_neg ham, show (Pc.waitPush m : Pc Tid).linking a = false from
        decide_eq_false (Ne.symm ham)]
      rfl
  · rw [hsim.woken, Released, Released, hinside, hinside']
    by_cases hwt : w = t
    · rw [hwt, hat, hmoved.self]
      refine iff_of_false (fun hw => nomatch hw.1) ?_
      rintro ⟨-, hne | hwriting | htake⟩
      · exact hne hstate
      · cases hwriting
      · cases htake
    · rw [hmoved.other w hwt]
      rfl

theorem Sim.back (hsim : Sim s L f) (hat : s.pc t = .await) (hstate : (s.waiter t).state ≠ 1) :
    ∃ f', Futex.Step f (.back t) f' ∧ Sim (s.goto t .idle) L f' := by
  set s' := s.goto t .idle
  have hmoved : Moved s s' t .idle := moved_goto s t _
  have hlisted : (s.pc t).listed = true := by
    rw [hat]
    rfl
  have hwoken : t ∈ f.woken := (hsim.woken t).mpr ⟨hlisted, .inl hstate⟩
  have hout (b : Nat) : t ∉ L b := fun hmem => hstate (hsim.lists.listed b t hmem).2.1
  have hnot : s.lock ≠ some t := by
    rw [Ne, ← hsim.lock, hat]
    exact Bool.false_ne_true
  have hview : s'.inside = s.inside ∧ ∀ a, s'.linking a = s.linking a := by
    cases hs : s.lock with
    | none =>
      rw [State.inside, State.inside, show s'.lock = none from hs, hs]
      exact ⟨rfl, fun a => by rw [State.linking, State.linking, show s'.lock = none from hs, hs]⟩
    | some u =>
      have hut : u ≠ t := by
        rintro rfl
        exact hnot hs
      rw [inside_some hs, inside_some (s := s') hs, hmoved.other u hut]
      exact ⟨rfl, fun a => by
        rw [linking_some hs, linking_some (s := s') hs, hmoved.other u hut]⟩
  refine ⟨{ f with woken := f.woken \ {t} }, .back f hwoken,
    ⟨⟨hsim.lists.links, hsim.lists.nodup, fun b u hu => ?_, fun u hu hstate => ?_⟩, fun u => ?_,
      hmoved.own hsim trivial, fun u hu => ?_, hsim.word, fun a => ?_, fun w => ?_⟩⟩
  · have hut : u ≠ t := by
      rintro rfl
      exact hout b hu
    rw [hmoved.other u hut]
    exact hsim.lists.listed b u hu
  · have hut : u ≠ t := by
      rintro rfl
      rw [hmoved.self] at hu
      cases hu
    rw [hmoved.other u hut] at hu
    rw [hview.1]
    exact hsim.lists.asleep u hu hstate
  · exact hmoved.lock hsim rfl (by rw [hat]; rfl) u
  · have hut : u ≠ t := by
      rintro rfl
      exact hnot hu
    have hok := hsim.holder u hu
    rw [hmoved.other u hut]
    cases hpc : s.pc u <;> rw [hpc] at hok
    case wakeWrite m cnt h w =>
      obtain ⟨hplace, hw, hwstate, hwout⟩ := hok
      have hwt : w ≠ t := by
        rintro rfl
        exact hstate hwstate
      obtain ⟨front, rest, hplace⟩ := hplace
      refine ⟨⟨front, rest, hplace.congr fun _ _ => rfl⟩, ?_, hwstate, hwout⟩
      rw [hmoved.other w hwt]
      exact hw
    case wakeLoop m cnt h =>
      obtain ⟨front, rest, hplace⟩ := hok
      exact ⟨front, rest, hplace.congr fun _ _ => rfl⟩
    case wakeFutex m cnt h w =>
      obtain ⟨hcnt, front, rest, hplace⟩ := hok
      exact ⟨hcnt, front, rest, hplace.congr fun _ _ => rfl⟩
    all_goals exact hok
  · rw [hview.1, hview.2]
    exact hsim.waiting a
  · change w ∈ f.woken ∧ w ∉ ({t} : Set Tid) ↔ _
    rw [hsim.woken, Released, Released, hview.1, Set.mem_singleton_iff]
    by_cases hwt : w = t
    · rw [hwt, hmoved.self]
      exact iff_of_false (fun hw => hw.2 rfl) fun hw => nomatch hw.1
    · rw [hmoved.other w hwt]
      exact and_iff_left hwt

/-- A wake call has the lock: the records that it is going to take out are selected. -/
theorem Sim.select (hsim : Sim s L f) (hs : s.lock = none) {n : Nat}
    (hat : s.pc t = .wakeLock m n) :
    ∃ f', Futex.Step f (.wake m n) f' ∧
      Sim ({ s with lock := some t }.goto t (.wakeLoop m n (.head (bucket m)))) L f' := by
  set s' := ({ s with lock := some t } : State Tid).goto t (.wakeLoop m n (.head (bucket m)))
  have hmoved : Moved s s' t (.wakeLoop m n (.head (bucket m))) :=
    ⟨goto_self .., fun _ hu => goto_other _ _ hu, fun _ _ => rfl⟩
  have hlisted : ∀ u, (s'.pc u).listed = (s.pc u).listed := hmoved.listed (by rw [hat]; rfl)
  have hinside : s.inside = .idle := by
    rw [State.inside, hs]
  have hinside' : s'.inside = .wakeLoop m n (.head (bucket m)) :=
    (inside_some rfl).trans hmoved.self
  have hwaiting (a : Nat) : f.waiting a = onAddr s L a := by
    rw [hsim.waiting, hinside, State.linking, hs]
    rfl
  have htaking (a : Nat) : (Pc.wakeLoop m n (.head (bucket m)) : Pc Tid).taking a =
      if m = a then n else 0 := rfl
  refine ⟨{ f with
      waiting := update f.waiting m ((f.waiting m).drop n)
      woken := f.woken ∪ { w | w ∈ (f.waiting m).take n } },
    .wake f (by rw [List.take_append_drop]) List.length_take, ?_⟩
  refine ⟨hmoved.lists hsim.lists rfl rfl (by rw [hat]; rfl) (by rw [hinside]; rfl),
    fun u => ?_, hmoved.own hsim trivial, fun u hu => ?_, hsim.word, fun a => ?_, fun w => ?_⟩
  · by_cases hut : u = t
    · rw [hut, hmoved.self]
      exact iff_of_true rfl rfl
    · rw [hmoved.other u hut, hsim.free hs u]
      exact iff_of_false Bool.false_ne_true fun heq => hut (Option.some.inj heq).symm
  · obtain rfl : t = u := Option.some.inj hu
    rw [hmoved.self]
    exact ⟨[], L (bucket m), rfl, fun r hr => absurd hr List.not_mem_nil, .inl ⟨rfl, rfl⟩⟩
  · rw [linking_some (s := s') rfl, hmoved.self, hinside', htaking]
    change update f.waiting m ((f.waiting m).drop n) a = _
    by_cases ham : a = m
    · rw [ham, update_self, if_pos rfl, hwaiting]
      rfl
    · rw [update_of_ne ham, if_neg (Ne.symm ham), hwaiting]
      rfl
  · change w ∈ f.woken ∨ w ∈ (f.waiting m).take n ↔ _
    rw [hsim.woken, hwaiting, Released, Released, hlisted, hinside, hinside', htaking]
    change _ ↔ (s.pc w).listed = true ∧ ((s.waiter w).state ≠ 1 ∨ _ ∨
      w ∈ (onAddr s L (s.waiter w).futex).take (if m = (s.waiter w).futex then n else 0))
    constructor
    · rintro (⟨hw, hne | hwriting | htake⟩ | hw)
      · exact ⟨hw, .inl hne⟩
      · cases hwriting
      · cases htake
      · have hin := mem_onAddr.mp (List.mem_of_mem_take hw)
        rw [hin.2, if_pos rfl]
        exact ⟨(hsim.lists.listed _ w hin.1).1, .inr (.inr hw)⟩
    · rintro ⟨hw, hne | hwriting | htake⟩
      · exact .inl ⟨hw, .inl hne⟩
      · cases hwriting
      · by_cases hfutex : m = (s.waiter w).futex
        · rw [← hfutex, if_pos rfl] at htake
          exact .inr htake
        · rw [if_neg hfutex] at htake
          cases htake

/-- A wake call has taken out as many records as it was called for, or all. -/
theorem Sim.stop (hsim : Sim s L f) (hat : s.pc t = .wakeLoop m cnt h)
    (hdone : cnt = 0 ∨ onAddr s L m = []) : Sim (s.goto t .wakeUnlock) L f := by
  have hs : s.lock = some t := (hsim.lock t).mp (by rw [hat]; rfl)
  set s' := s.goto t .wakeUnlock
  have hmoved : Moved s s' t .wakeUnlock := moved_goto s t _
  have hlisted : ∀ u, (s'.pc u).listed = (s.pc u).listed := hmoved.listed (by rw [hat]; rfl)
  have hinside : s.inside = .wakeLoop m cnt h := (inside_some hs).trans hat
  have hinside' : s'.inside = .wakeUnlock := (inside_some (s := s') hs).trans hmoved.self
  have hnone (a : Nat) : (onAddr s L a).drop ((Pc.wakeLoop m cnt h).taking a) = onAddr s L a ∧
      (onAddr s L a).take ((Pc.wakeLoop m cnt h).taking a) = [] := by
    rw [show (Pc.wakeLoop m cnt h).taking a = if m = a then cnt else 0 from rfl]
    by_cases hma : m = a
    · rw [if_pos hma]
      rcases hdone with rfl | hempty
      · exact ⟨rfl, rfl⟩
      · rw [← hma, hempty]
        exact ⟨List.drop_nil, List.take_nil⟩
    · rw [if_neg hma]
      exact ⟨rfl, rfl⟩
  refine ⟨hmoved.lists hsim.lists rfl rfl (by rw [hat]; rfl) (by rw [hinside]; rfl),
    hmoved.lock hsim rfl (by rw [hat]; rfl), hmoved.own hsim trivial, fun u hu => ?_, hsim.word,
    fun a => ?_, fun w => ?_⟩
  · obtain rfl : t = u := Option.some.inj (hs.symm.trans hu)
    rw [hmoved.self]
    trivial
  · rw [hsim.waiting, hinside, linking_some hs, hat, (hnone a).1, hinside',
      linking_some (s := s') hs, hmoved.self]
    rfl
  · rw [hsim.woken, Released, Released, hlisted, hinside, hinside', (hnone _).2]
    rfl

omit [DecidableEq Tid] in
theorem At.onAddr_eq (hplace : At s L m h front rest) :
    onAddr s L m = rest.filter fun u => (s.waiter u).futex = m := by
  have hfront : front.filter (fun u => (s.waiter u).futex = m) = [] := by
    refine List.filter_eq_nil_iff.mpr fun r hr => ?_
    rw [decide_eq_true_eq]
    exact hplace.passed r hr
  rw [onAddr, hplace.list, List.filter_append, hfront, List.nil_append]

/-- The record that a wake call stands at is taken out of the list. -/
theorem At.assign (hplace : At s L m h front (w :: rest)) (hlists : Lists s L) :
    let s' := s.assign (s.waiter w).next h
    let L' := update L (bucket m) (front ++ rest)
    (∀ b, Linked (fun r => (s'.waiter r).next) (s'.head b) (L' b)) ∧
      (∀ u, (s'.waiter u).state = (s.waiter u).state ∧
        (s'.waiter u).futex = (s.waiter u).futex) ∧
      s'.pc = s.pc ∧ s'.lock = s.lock ∧ s'.word = s.word := by
  have hnodup := hlists.nodup (bucket m)
  have hlinks := hlists.links (bucket m)
  rw [hplace.list] at hnodup hlinks
  rcases hplace.slot with ⟨rfl, rfl⟩ | ⟨before, r, rfl, rfl⟩
  · refine ⟨fun b => ?_, fun _ => ⟨rfl, rfl⟩, rfl, rfl, rfl⟩
    change Linked (fun r => (s.waiter r).next)
      (update s.head (bucket m) (s.waiter w).next b) (update L (bucket m) _ b)
    by_cases hb : b = bucket m
    · rw [hb, update_self, update_self]
      exact hlinks.2
    · rw [update_of_ne hb, update_of_ne hb]
      exact hlists.links b
  · have hr : r ∈ L (bucket m) := by
      rw [hplace.list]
      simp
    have hnext : (fun u => ((s.assign (s.waiter w).next (.next r)).waiter u).next) =
        update (fun u => (s.waiter u).next) r (s.waiter w).next := by
      funext u
      change (update s.waiter r _ u).next = _
      by_cases hur : u = r
      · rw [hur, update_self, update_self]
      · rw [update_of_ne hur, update_of_ne hur]
    refine ⟨fun b => ?_, fun u => ?_, rfl, rfl, rfl⟩
    · change Linked (fun u => ((s.assign (s.waiter w).next (.next r)).waiter u).next) (s.head b)
        (update L (bucket m) _ b)
      rw [hnext]
      by_cases hb : b = bucket m
      · rw [hb, update_self, List.append_assoc]
        rw [List.append_assoc] at hlinks hnodup
        exact hlinks.unlink hnodup
      · rw [update_of_ne hb]
        refine (hlists.links b).congr fun u hu => update_of_ne ?_ _ _
        rintro rfl
        exact hb ((hlists.listed b u hu).2.2.symm.trans (hlists.listed _ u hr).2.2)
    · change (update s.waiter r _ u).state = _ ∧ (update s.waiter r _ u).futex = _
      by_cases hur : u = r
      · rw [hur, update_self]
        exact ⟨rfl, rfl⟩
      · rw [update_of_ne hur]
        exact ⟨rfl, rfl⟩

theorem Sim.take (hsim : Sim s L f) (hat : s.pc t = .wakeFutex m cnt h w)
    (hmine : (s.waiter w).futex = m) :
    ∃ L', Sim ((s.assign (s.waiter w).next h).goto t (.wakeWrite m (cnt - 1) h w)) L' f := by
  have hs : s.lock = some t := (hsim.lock t).mp (by rw [hat]; rfl)
  have hok := hsim.holder t hs
  rw [hat] at hok
  obtain ⟨hcnt, front, rest, hplace⟩ := hok
  obtain ⟨k, rfl⟩ := Nat.exists_eq_succ_of_ne_zero hcnt
  obtain ⟨hlinks, hwaiter, hpcs, hlock, hword⟩ := hplace.assign hsim.lists
  set s₁ := s.assign (s.waiter w).next h
  set L' := update L (bucket m) (front ++ rest)
  set s' := s₁.goto t (.wakeWrite m (k + 1 - 1) h w)
  have hself : s'.pc t = .wakeWrite m k h w := goto_self ..
  have hother : ∀ u, u ≠ t → s'.pc u = s.pc u := fun u hu =>
    (goto_other _ _ hu).trans (congrFun hpcs u)
  have hstate (u : Tid) : (s'.waiter u).state = (s.waiter u).state := (hwaiter u).1
  have hfutex (u : Tid) : (s'.waiter u).futex = (s.waiter u).futex := (hwaiter u).2
  have hs' : s'.lock = some t := hlock.trans hs
  have hlisted (u : Tid) : (s'.pc u).listed = (s.pc u).listed := by
    by_cases hut : u = t
    · rw [hut, hself, hat]
      rfl
    · rw [hother u hut]
  have hinside : s.inside = .wakeFutex m (k + 1) h w := (inside_some hs).trans hat
  have hinside' : s'.inside = .wakeWrite m k h w := (inside_some hs').trans hself
  have hmember : w ∈ L (bucket m) := by
    rw [hplace.list]
    simp
  obtain ⟨hwlisted, hwstate, -⟩ := hsim.lists.listed _ w hmember
  have hlist : L' (bucket m) = front ++ rest := update_self ..
  have hothers : ∀ b, b ≠ bucket m → L' b = L b := fun b hb => update_of_ne hb ..
  have hnodup : (front ++ w :: rest).Nodup := by
    rw [← hplace.list]
    exact hsim.lists.nodup _
  have hsub (b : Nat) (u : Tid) (hu : u ∈ L b) : u ∈ L' b ∨ u = w := by
    by_cases hb : b = bucket m
    · rw [hb, hplace.list, List.mem_append, List.mem_cons] at hu
      rw [hb, hlist, List.mem_append]
      tauto
    · rw [hothers b hb]
      exact .inl hu
  have hold (b : Nat) (u : Tid) (hu : u ∈ L' b) : u ∈ L b ∧ u ≠ w := by
    by_cases hb : b = bucket m
    · rw [hb, hlist] at hu
      refine ⟨?_, fun heq => ?_⟩
      · rw [hb, hplace.list]
        rcases List.mem_append.mp hu with hu | hu
        · exact List.mem_append_left _ hu
        · exact List.mem_append_right _ (List.mem_cons_of_mem w hu)
      · exact (List.nodup_middle.mp hnodup).notMem (heq ▸ hu)
    · rw [hothers b hb] at hu
      refine ⟨hu, ?_⟩
      rintro rfl
      exact hb ((hsim.lists.listed b u hu).2.2.symm.trans (hsim.lists.listed _ u hmember).2.2)
  have hplace' : At s' L' m h front rest := by
    refine ⟨hlist, fun r hr => ?_, hplace.slot⟩
    rw [hfutex]
    exact hplace.passed r hr
  have honAddr : onAddr s L m = w :: onAddr s' L' m := by
    rw [hplace.onAddr_eq, hplace'.onAddr_eq, List.filter_cons_of_pos
      (p := fun u => decide ((s.waiter u).futex = m)) (decide_eq_true hmine)]
    exact congrArg _ (List.filter_congr fun u _ => by rw [hfutex])
  have honOther (a : Nat) (ham : m ≠ a) : onAddr s' L' a = onAddr s L a := by
    have hsame : onAddr s' L' a = (L' (bucket a)).filter fun u => (s.waiter u).futex = a :=
      List.filter_congr fun u _ => by rw [hfutex]
    rw [hsame, onAddr]
    by_cases hb : bucket a = bucket m
    · have hnot : ¬ (decide ((s.waiter w).futex = a)) = true := by
        rw [decide_eq_true_eq, hmine]
        exact ham
      rw [hb, hlist, hplace.list, List.filter_append, List.filter_append,
        List.filter_cons_of_neg (p := fun u => decide ((s.waiter u).futex = a)) hnot]
    · rw [hothers _ hb]
  refine ⟨L', ⟨hlinks, fun b => ?_, fun b u hu => ?_, fun u hu hone => ?_⟩,
    fun u => ?_, fun u => ?_,
    fun u hu => ?_, hsim.word.trans hword.symm, fun a => ?_, fun u => ?_⟩
  · by_cases hb : b = bucket m
    · rw [hb, hlist]
      exact (List.nodup_cons.mp (List.nodup_middle.mp hnodup)).2
    · rw [hothers b hb]
      exact hsim.lists.nodup b
  · rw [hlisted, hstate, hfutex]
    exact hsim.lists.listed b u (hold b u hu).1
  · rw [hlisted] at hu
    rw [hstate] at hone
    rw [hfutex, hinside']
    rcases hsim.lists.asleep u hu hone with hin | hwriting
    · refine (hsub _ u hin).imp_right fun heq => ?_
      rw [heq]
      rfl
    · rw [hinside] at hwriting
      cases hwriting
  · rw [show s'.lock = s.lock from hlock, ← hsim.lock]
    by_cases hut : u = t
    · rw [hut, hself, hat]
      exact Iff.rfl
    · rw [hother u hut]
  · by_cases hut : u = t
    · rw [hut, hself]
      trivial
    · have hown := hsim.own u
      rw [hother u hut]
      cases hpc : s.pc u <;> rw [hpc] at hown <;>
        first | trivial | exact ⟨(hstate u).trans hown.1, (hfutex u).trans hown.2⟩
  · obtain rfl : t = u := Option.some.inj (hs'.symm.trans hu)
    rw [hself]
    refine ⟨⟨front, rest, hplace'⟩, (hlisted w).trans hwlisted, (hstate w).trans hwstate, ?_⟩
    exact fun b hb => (hold b w hb).2 rfl
  · rw [hsim.waiting, linking_some hs, linking_some hs', hat, hself, hinside, hinside']
    change [] ++ (onAddr s L a).drop (if m = a then k + 1 else 0) =
      [] ++ (onAddr s' L' a).drop (if m = a then k else 0)
    by_cases hma : m = a
    · rw [if_pos hma, if_pos hma, ← hma, honAddr, List.drop_succ_cons]
    · rw [if_neg hma, if_neg hma, honOther a hma]
  · rw [hsim.woken, Released, Released, hlisted, hstate, hfutex, hinside, hinside']
    refine and_congr_right fun hu => or_congr_right ?_
    change none = some u ∨ u ∈ (onAddr s L (s.waiter u).futex).take
      (if m = (s.waiter u).futex then k + 1 else 0) ↔ some w = some u ∨ u ∈
        (onAddr s' L' (s.waiter u).futex).take (if m = (s.waiter u).futex then k else 0)
    rw [or_iff_right nofun, Option.some_inj]
    by_cases hma : m = (s.waiter u).futex
    · rw [if_pos hma, if_pos hma, ← hma, honAddr, List.take_succ_cons, List.mem_cons, eq_comm]
    · have hwu : w ≠ u := by
        rintro rfl
        exact hma hmine.symm
      rw [if_neg hma, if_neg hma, or_iff_right hwu]
      rfl

/-- A record that was taken out gets the state that its wait is waiting for. -/
theorem Sim.wakeWrite (hsim : Sim s L f) (hat : s.pc t = .wakeWrite m cnt h w) :
    Sim ((s.setWaiter w { s.waiter w with state := 0 }).goto t (.wakeLoop m cnt h)) L f := by
  have hs : s.lock = some t := (hsim.lock t).mp (by rw [hat]; rfl)
  have hok := hsim.holder t hs
  rw [hat] at hok
  obtain ⟨⟨front, rest, hplace⟩, hwlisted, hwstate, hout⟩ := hok
  set s' := (s.setWaiter w { s.waiter w with state := 0 }).goto t (.wakeLoop m cnt h)
  have hself : s'.pc t = .wakeLoop m cnt h := goto_self ..
  have hother : ∀ u, u ≠ t → s'.pc u = s.pc u := fun u hu => goto_other _ _ hu
  have hwaiter : ∀ u, u ≠ w → s'.waiter u = s.waiter u := fun u hu => update_of_ne hu ..
  have hzero : s'.waiter w = { s.waiter w with state := 0 } := update_self ..
  have hfutex (u : Tid) : (s'.waiter u).futex = (s.waiter u).futex := by
    by_cases huw : u = w
    · rw [huw, hzero]
    · rw [hwaiter u huw]
  have hlisted (u : Tid) : (s'.pc u).listed = (s.pc u).listed := by
    by_cases hut : u = t
    · rw [hut, hself, hat]
      rfl
    · rw [hother u hut]
  have hmember (b : Nat) (u : Tid) (hu : u ∈ L b) : s'.waiter u = s.waiter u :=
    hwaiter u fun heq => hout b (heq ▸ hu)
  have hinside : s.inside = .wakeWrite m cnt h w := (inside_some hs).trans hat
  have hinside' : s'.inside = .wakeLoop m cnt h := (inside_some (s := s') hs).trans hself
  have honAddr (a : Nat) : onAddr s' L a = onAddr s L a := onAddr_congr fun u _ => hfutex u
  refine ⟨⟨fun b => ?_, hsim.lists.nodup, fun b u hu => ?_, fun u hu hone => ?_⟩, fun u => ?_,
    fun u => ?_, fun u hu => ?_, hsim.word, fun a => ?_, fun u => ?_⟩
  · exact (hsim.lists.links b).congr fun u hu => by rw [hmember b u hu]
  · rw [hlisted, hmember b u hu]
    exact hsim.lists.listed b u hu
  · have huw : u ≠ w := by
      rintro rfl
      rw [hzero] at hone
      cases hone
    rw [hlisted] at hu
    rw [hwaiter u huw] at hone ⊢
    rcases hsim.lists.asleep u hu hone with hin | hwriting
    · exact .inl hin
    · rw [hinside] at hwriting
      exact absurd (Option.some.inj hwriting).symm huw
  · refine Iff.trans ?_ (hsim.lock u)
    by_cases hut : u = t
    · rw [hut, hself, hat]
      exact Iff.rfl
    · rw [hother u hut]
  · by_cases hut : u = t
    · rw [hut, hself]
      trivial
    · rw [hother u hut]
      by_cases huw : u = w
      · rw [huw]
        cases hpc : s.pc w <;> rw [hpc] at hwlisted <;> trivial
      · rw [hwaiter u huw]
        exact hsim.own u
  · obtain rfl : t = u := Option.some.inj (hs.symm.trans hu)
    rw [hself]
    exact ⟨front, rest, hplace.congr fun u _ => hfutex u⟩
  · rw [hsim.waiting, linking_some hs, linking_some (s := s') hs, hat, hself, hinside, hinside',
      honAddr]
    rfl
  · rw [hsim.woken, Released, Released, hlisted, hfutex, hinside, hinside', honAddr]
    refine and_congr_right fun hu => ?_
    by_cases huw : u = w
    · rw [huw, hzero]
      exact iff_of_true (.inr (.inl rfl)) (.inl Nat.zero_ne_one)
    · rw [hwaiter u huw]
      refine or_congr_right ?_
      change some w = some u ∨ _ ↔ none = some u ∨ _
      rw [or_iff_right fun heq => huw (Option.some.inj heq).symm, or_iff_right nofun]
      rfl

theorem Sim.wait_step (hsim : Sim s L f) (hstep : nextStep s t = some s') :
    (∃ m v, s.pc t = .waitLock m v) ∨ (∃ m v, s.pc t = .waitRead m v) ∨
      (∃ m, s.pc t = .waitLink m) ∨ (∃ m, s.pc t = .waitPush m) ∨
      (∃ done, s.pc t = .waitUnlock done) ∨ s.pc t = .await →
    Matches Futex.Step (fun s f => ∃ L, Sim s L f) (event s (.step t)) s' f := by
  have hown := hsim.own t
  rintro (⟨m, v, hat⟩ | ⟨m, v, hat⟩ | ⟨m, hat⟩ | ⟨m, hat⟩ | ⟨done, hat⟩ | hat)
  all_goals
    rw [nextStep, hat] at hstep
    rw [event, hat]
    rw [hat] at hown
  · obtain ⟨hs, heq⟩ := Option.ite_none_right_eq_some.mp hstep
    cases heq
    exact .inl ⟨rfl, L, hsim.acquire hs hat⟩
  · dsimp only at hstep ⊢
    split at hstep
    · rename_i hword
      cases hstep
      rw [if_pos hword]
      obtain ⟨f', hf, hsim'⟩ := hsim.sleep hat hword
      exact .inr ⟨_, f', rfl, hf, L, hsim'⟩
    · rename_i hword
      cases hstep
      rw [if_neg hword]
      refine .inl ⟨rfl, L, hsim.move (moved_goto s t _) rfl rfl rfl (fun _ => rfl) ?_ ?_ trivial
        fun _ => ⟨fun _ => ?_, fun _ => ?_, ?_, trivial⟩⟩
      all_goals
        rw [hat]
        rfl
  · cases hstep
    have hmine : ((s.setWaiter t { s.waiter t with next := s.head (bucket m) }).goto t
        (.waitPush m)).waiter t = { s.waiter t with next := s.head (bucket m) } :=
      update_self ..
    refine .inl ⟨rfl, L, hsim.move (moved_setWaiter s t _ _) rfl rfl rfl
      (fun hlisted => ?_) ?_ ?_ ?_
      fun _ => ⟨fun _ => ?_, fun _ => ?_, ?_, ?_⟩⟩
    · rw [hat] at hlisted
      cases hlisted
    · rw [hat]
      rfl
    · rw [hat]
      rfl
    · rw [hmine]
      exact hown
    · rw [hat]
      rfl
    · rw [hat]
      rfl
    · rw [hat]
      rfl
    · rw [HolderOk, hmine]
      rfl
  · cases hstep
    exact .inl ⟨rfl, _, hsim.push hat⟩
  · cases hstep
    refine .inl ⟨rfl, L, hsim.release (by rw [hat]; rfl) (fun _ => by rw [hat]; rfl)
      (fun _ => by rw [hat]; rfl) (by rw [hat]; rfl) ?_ ?_ ?_⟩
    · rw [hat]
      cases done <;> rfl
    · cases done <;> rfl
    · cases done <;> trivial
  · obtain ⟨hstate, heq⟩ := Option.ite_none_right_eq_some.mp hstep
    cases heq
    obtain ⟨f', hf, hsim'⟩ := hsim.back hat hstate
    exact .inr ⟨_, f', rfl, hf, L, hsim'⟩

theorem Sim.wake_step (hsim : Sim s L f) (hstep : nextStep s t = some s') :
    (∃ m n, s.pc t = .wakeLock m n) ∨ (∃ m cnt h, s.pc t = .wakeLoop m cnt h) ∨
      (∃ m cnt h w, s.pc t = .wakeFutex m cnt h w) ∨
      (∃ m cnt h w, s.pc t = .wakeWrite m cnt h w) ∨ s.pc t = .wakeUnlock →
    Matches Futex.Step (fun s f => ∃ L, Sim s L f) (event s (.step t)) s' f := by
  rintro (⟨m, n, hat⟩ | ⟨m, cnt, h, hat⟩ | ⟨m, cnt, h, w, hat⟩ | ⟨m, cnt, h, w, hat⟩ | hat)
  all_goals
    rw [nextStep, hat] at hstep
    rw [event, hat]
  · obtain ⟨hs, heq⟩ := Option.ite_none_right_eq_some.mp hstep
    cases heq
    obtain ⟨f', hf, hsim'⟩ := hsim.select hs hat
    exact .inr ⟨_, f', rfl, hf, L, hsim'⟩
  · have hs : s.lock = some t := (hsim.lock t).mp (by rw [hat]; rfl)
    have hok := hsim.holder t hs
    rw [hat] at hok
    obtain ⟨front, rest, hplace⟩ := hok
    have hderef := hplace.deref hsim.lists
    dsimp only at hstep
    split at hstep
    · -- the end of the list
      rename_i hnone
      cases hstep
      rw [hnone] at hderef
      refine .inl ⟨rfl, L, hsim.stop hat (.inr ?_)⟩
      rw [hplace.onAddr_eq, hderef.of_none]
      rfl
    · rename_i w hsome
      split at hstep
      · rename_i hcnt
        cases hstep
        rw [hsome] at hderef
        obtain ⟨rest, rfl, -⟩ := hderef.of_some
        refine .inl ⟨rfl, L, hsim.move (moved_goto s t _) rfl rfl rfl (fun _ => rfl) ?_ ?_ trivial
          fun _ => ⟨fun _ => ?_, fun _ => ?_, ?_, hcnt, front, rest, hplace.congr fun _ _ => rfl⟩⟩
        all_goals
          rw [hat]
          rfl
      · rename_i hcnt
        cases hstep
        exact .inl ⟨rfl, L, hsim.stop hat (.inl (not_not.mp hcnt))⟩
  · have hs : s.lock = some t := (hsim.lock t).mp (by rw [hat]; rfl)
    dsimp only at hstep
    split at hstep
    · rename_i hmine
      cases hstep
      exact .inl ⟨rfl, hsim.take hat hmine⟩
    · rename_i hother
      cases hstep
      have hok := hsim.holder t hs
      rw [hat] at hok
      obtain ⟨hcnt, front, rest, hplace⟩ := hok
      have hplace' : At (s.goto t (.wakeLoop m cnt (.next w))) L m (.next w)
        (front ++ [w]) rest := by
        refine ⟨?_, fun r hr => ?_, .inr ⟨front, w, rfl, rfl⟩⟩
        · rw [hplace.list, List.append_assoc]
          rfl
        · rcases List.mem_append.mp hr with hr | hr
          · exact hplace.passed r hr
          · rw [List.mem_singleton.mp hr]
            exact hother
      refine .inl ⟨rfl, L, hsim.move (moved_goto s t _) rfl rfl rfl (fun _ => rfl) ?_ ?_ trivial
        fun _ => ⟨fun _ => ?_, fun _ => ?_, ?_, front ++ [w], rest, hplace'⟩⟩
      all_goals
        rw [hat]
        rfl
  · cases hstep
    exact .inl ⟨rfl, L, hsim.wakeWrite hat⟩
  · cases hstep
    refine .inl ⟨rfl, L, hsim.release ?_ (fun _ => ?_) (fun _ => ?_) ?_ ?_ rfl trivial⟩
    all_goals
      rw [hat]
      rfl

theorem Sim.matches {a : Act Tid} (hsim : Sim s L f) (hstep : step s a = some s') :
    Matches Futex.Step (fun s f => ∃ L, Sim s L f) (event s a) s' f := by
  cases a with
  | vfutexWait t m v =>
    obtain ⟨hat, heq⟩ := Option.ite_none_right_eq_some.mp hstep
    cases heq
    have hmine : ((s.setWaiter t ⟨1, m, none⟩).goto t (.waitLock m v)).waiter t = ⟨1, m, none⟩ :=
      update_self ..
    refine .inl ⟨rfl, L, hsim.move (moved_setWaiter s t _ _) rfl rfl rfl
      (fun hlisted => ?_) ?_ ?_ ?_
      fun hs => ?_⟩
    · rw [hat] at hlisted
      cases hlisted
    · rw [hat]
      rfl
    · rw [hat]
      rfl
    · rw [hmine]
      exact ⟨rfl, rfl⟩
    · rw [← hsim.lock, hat] at hs
      cases hs
  | vfutexWake t m v =>
    obtain ⟨hat, heq⟩ := Option.ite_none_right_eq_some.mp hstep
    cases heq
    refine .inl ⟨rfl, L, hsim.move (moved_goto s t _) rfl rfl rfl (fun _ => rfl) ?_ ?_ trivial
      fun hs => ?_⟩
    · rw [hat]
      rfl
    · rw [hat]
      rfl
    · rw [← hsim.lock, hat] at hs
      cases hs
  | write m v =>
    cases hstep
    exact .inr ⟨_, _, rfl, .write f m v, L, hsim.write m v⟩
  | step t =>
    cases hat : s.pc t with
    | idle =>
      rw [step, nextStep, hat] at hstep
      cases hstep
    | waitLock | waitRead | waitLink | waitPush | waitUnlock | await =>
      exact hsim.wait_step hstep (by simp [hat])
    | wakeLock | wakeLoop | wakeFutex | wakeWrite | wakeUnlock =>
      exact hsim.wake_step hstep (by simp [hat])

section

omit [DecidableEq Tid]

theorem Initial.sim (hs : Initial s) : ∃ f, Futex.Initial f ∧ ∃ L, Sim s L f := by
  have hidle (t : Tid) : s.pc t = .idle := congrFun hs.pc t
  have hinside : s.inside = .idle := by
    rw [State.inside, hs.lock]
  refine ⟨⟨s.word, fun _ => [], ∅⟩, ⟨fun _ => rfl, rfl⟩, fun _ => [],
    ⟨fun b => congrFun hs.head b, fun _ => List.nodup_nil, fun b t ht => absurd ht List.not_mem_nil,
      fun t ht => ?_⟩, fun t => ?_, fun t => ?_, fun t ht => ?_, rfl, fun a => ?_, fun w => ?_⟩
  · rw [hidle t] at ht
    cases ht
  · rw [hidle t, hs.lock]
    exact iff_of_false Bool.false_ne_true nofun
  · rw [hidle t]
    trivial
  · rw [hidle t]
    trivial
  · rw [hinside, State.linking, hs.lock]
    rfl
  · refine iff_of_false (fun hw => hw) fun hw => ?_
    rw [Released, hidle w] at hw
    cases hw.1

theorem Sim.agrees (hsim : Sim s L f) : Agrees s f := by
  have hmember (a : Nat) (t : Tid) (ht : t ∈ onAddr s L a) : (s.waiter t).state = 1 :=
    (hsim.lists.listed _ t (mem_onAddr.mp ht).1).2.1
  refine ⟨hsim.word, fun a t ht => ?_, fun hs t ht => ?_, fun hs t hat => ?_⟩
  · rw [hsim.waiting, List.mem_append] at ht
    rcases ht with ht | ht
    · cases hs : s.lock with
      | none =>
        rw [State.linking, hs] at ht
        cases ht
      | some u =>
        rw [linking_some hs] at ht
        split at ht
        · rename_i hu
          obtain rfl := List.mem_singleton.mp ht
          have hown := hsim.own t
          cases hpc : s.pc t <;> rw [hpc] at hu hown <;> first | exact hown.1 | cases hu
        · cases ht
    · exact hmember a t (List.mem_of_mem_drop ht)
  · have hinside : s.inside = .idle := by
      rw [State.inside, hs]
    rw [hsim.woken, Released, hinside] at ht
    obtain ⟨hlisted, hne | hwriting | htake⟩ := ht
    · have hfree := hsim.free hs t
      cases hpc : s.pc t <;> rw [hpc] at hlisted hfree <;>
        first | exact ⟨rfl, hne⟩ | cases hlisted | cases hfree
    · cases hwriting
    · cases htake
  · have hinside : s.inside = .idle := by
      rw [State.inside, hs]
    have hlisted : (s.pc t).listed = true := by
      rw [hat]
      rfl
    by_cases hone : (s.waiter t).state = 1
    · refine .inr ⟨(s.waiter t).futex, ?_⟩
      rcases hsim.lists.asleep t hlisted hone with hin | hwriting
      · rw [hsim.waiting, hinside, State.linking, hs]
        exact mem_onAddr.mpr ⟨hin, rfl⟩
      · rw [hinside] at hwriting
        cases hwriting
    · exact .inl ((hsim.woken t).mpr ⟨hlisted, .inl hone⟩)

end

/-- The mock is a futex: its waits and wake calls are steps of one. -/
theorem run_trace {past : List (State Tid × Act Tid)} (run : (machine Tid).Run past s) :
    ∃ f, Futex.Trace (eventsOf event past) f ∧ Agrees s f := by
  have hall : AllSteps (fun _ _ => True) past := fun _ _ => trivial
  obtain ⟨f, htrace, L, hsim⟩ := run.simulates (R := fun s f => ∃ L, Sim s L f)
    (fun _ hs => Initial.sim hs) (fun _ _ _ _ ⟨_, hsim⟩ _ hstep => hsim.matches hstep) hall
  exact ⟨f, htrace, hsim.agrees⟩

end Steps

end Libvsync.Thread.FutexMock
