import Libvsync.Spinlock.CnalockInv

/-!
The steps of the holder, which split the main queue, put the secondary queue in front of
it, and hand the lock over, and what follows for whole runs.
-/

namespace Libvsync.Spinlock.Cnalock

open Libvsync.Core Function

variable {Tid : Type} [DecidableEq Tid] {s s' : State Tid} {h x y t : Tid}
  {main main' sec sec' l : List Tid}

section

omit [DecidableEq Tid]

theorem Hooks.drop {before after : List Tid} (hooks : Hooks s x (before ++ y :: after)) :
    Hooks s y after := by
  induction before generalizing x with
  | nil => exact hooks.2
  | cons z before ih => exact ih hooks.2

/-- Threads that pointers lead to wait, since they have linked themselves. -/
theorem Hooks.waits {before after : List Tid} (hooks : Hooks s x (before ++ y :: after))
    (hlinks : (x :: (before ++ [y])).IsChain (fun a b => s.next a = some b)) :
    (∀ z ∈ before, s.pc z = .acqAwait) ∧ Front s y (y :: after) := by
  induction before generalizing x with
  | nil =>
    have hnext : s.next x = some y := (List.isChain_cons.mp hlinks).1 y rfl
    exact ⟨nofun, hooks.front hnext⟩
  | cons z before ih =>
    obtain ⟨hhead, hrest⟩ := List.isChain_cons.mp hlinks
    obtain ⟨hwaits, hfront⟩ := ih hooks.2 hrest
    refine ⟨?_, hfront⟩
    intro w hw
    rcases List.mem_cons.mp hw with rfl | hw
    · obtain ⟨rest, -, hpc, -⟩ := hooks.front (hhead w rfl)
      exact hpc
    · exact hwaits w hw

/-- A chain of waiting threads is put in front of the queue. -/
theorem Hooks.of_chain {a b : Tid} {rest : List Tid} (hchain : Chain s.next a b (a :: rest))
    (hwaits : ∀ z ∈ rest, s.pc z = .acqAwait) (hooks : Hooks s b l) : Hooks s a (rest ++ l) := by
  induction rest generalizing a with
  | nil =>
    have hab : a = b := Option.some.inj hchain.last
    rw [hab]
    exact hooks
  | cons c rest ih =>
    obtain ⟨hlink, hlinks⟩ := List.isChain_cons.mp hchain.links
    refine ⟨.inl ⟨hlink c rfl, hwaits c (List.mem_cons_self ..)⟩,
      ih ⟨hlinks, rfl, ?_, (List.nodup_cons.mp hchain.nodup).2⟩
        fun z hz => hwaits z (List.mem_cons_of_mem _ hz)⟩
    have hlast := hchain.last
    rw [List.getLast?_cons_cons] at hlast
    exact hlast

theorem Held.main_nodup (held : Held s h main sec) : (h :: main).Nodup := by
  obtain ⟨hout, hnodup⟩ := List.nodup_cons.mp held.nodup
  exact List.nodup_cons.mpr ⟨fun hin => hout (List.mem_append_left _ hin),
    (List.nodup_append'.mp hnodup).1⟩

theorem Held.not_mem (held : Held s h main sec) : h ∉ main ∧ h ∉ sec := by
  obtain ⟨hout, -⟩ := List.nodup_cons.mp held.nodup
  exact ⟨fun hin => hout (List.mem_append_left _ hin),
    fun hin => hout (List.mem_append_right _ hin)⟩

/-- The secondary queue is apart from the holder and the main queue. -/
theorem Held.sec_ne (held : Held s h main sec) {z : Tid} (hz : z ∈ sec) : z ∉ h :: main := by
  intro hin
  rcases List.mem_cons.mp hin with rfl | hin
  · exact held.not_mem.2 hz
  · exact (List.nodup_append'.mp (List.nodup_cons.mp held.nodup).2).2.2 hin hz

end

theorem Held.holder {pc : Pc Tid} (held : Held s h main sec)
    (hperm : (main' ++ sec').Perm (main ++ sec)) (hpc : s'.pc = update s.pc h pc)
    (hspin : ∀ u, u ≠ h → s'.spin u = s.spin u)
    (hnext : ∀ u, u ∉ h :: (main ++ sec) → s'.next u = s.next u)
    (hsec : ∀ u ∈ sec', s.pc u = .acqAwait) (hshape : Shape s' h main' sec' pc) :
    Held s' h main' sec' := by
  have hpcs (u : Tid) (hu : u ≠ h) : s'.pc u = s.pc u := by
    rw [hpc, update_of_ne hu]
  have hmem (u : Tid) : u ∈ h :: (main' ++ sec') ↔ u ∈ h :: (main ++ sec) :=
    (hperm.cons h).mem_iff
  have hnodup : (h :: (main' ++ sec')).Nodup := (hperm.cons h).nodup_iff.mpr held.nodup
  have hne (u : Tid) (hu : u ∈ main' ++ sec') : u ≠ h := by
    rintro rfl
    exact (List.nodup_cons.mp hnodup).1 hu
  refine ⟨hnodup, fun u hu => ?_, fun u hu => ?_, fun u hu => ?_, ?_⟩
  · rw [hmem] at hu
    have huh : u ≠ h := by
      rintro rfl
      exact hu (List.mem_cons_self ..)
    exact (held.outside u hu).congr (hpcs u huh) (hspin u huh) (hnext u hu)
  · rw [hspin u (hne u hu)]
    exact held.quiet u (hperm.mem_iff.mp hu)
  · rw [hpcs u (hne u (List.mem_append_right _ hu))]
    exact hsec u hu
  · rw [hpc, update_self]
    exact hshape

theorem Hooks.goto {pc : Pc Tid} (hooks : Hooks s x l) (hh : h ∉ l) : Hooks (s.goto h pc) x l := by
  refine hooks.congr (fun _ _ => rfl) (fun z hz => .of_eq (update_of_ne ?_ ..)) rfl
  rintro rfl
  exact hh hz

theorem Front.goto {pc : Pc Tid} (hfront : Front s x l) (hh : h ∉ l) :
    Front (s.goto h pc) x l := by
  obtain ⟨rest, rfl, hwaits, hooks⟩ := hfront
  obtain ⟨hx, hrest⟩ := not_or.mp (mt List.mem_cons.mpr hh)
  exact ⟨rest, rfl, (update_of_ne (Ne.symm hx) ..).trans hwaits, hooks.goto hrest⟩

theorem Held.goto {pc : Pc Tid} (held : Held s h main sec)
    (hshape : Shape (s.goto h pc) h main sec pc) : Held (s.goto h pc) h main sec :=
  held.holder .rfl rfl (fun _ _ => rfl) (fun _ _ => rfl) held.waits hshape

theorem Held.goto_whole {pc : Pc Tid} (held : Held s h main sec) (hwhole : Whole s h main sec) :
    Whole (s.goto h pc) h main sec :=
  ⟨hwhole.1.goto held.not_mem.1, hwhole.2⟩

section

omit [DecidableEq Tid]

theorem Circle.of_node {spin : Spin Tid} {b : Tid} (hcircle : Circle s sec spin)
    (hspin : spin = .node b) : ∃ a, Chain s.next a b sec ∧ s.next b = some a := by
  rcases hcircle with ⟨-, rfl⟩ | ⟨a, b', hchain, hback, rfl⟩
  · cases hspin
  · cases hspin
    exact ⟨a, hchain, hback⟩

theorem Circle.of_one {spin : Spin Tid} (hcircle : Circle s sec spin) (hspin : spin = .one) :
    sec = [] := by
  rcases hcircle with ⟨hnil, -⟩ | ⟨a, b, -, -, rfl⟩
  · exact hnil
  · cases hspin

theorem Circle.not_null (hcircle : Circle s sec .null) : False := by
  rcases hcircle with ⟨-, hone⟩ | ⟨_, _, -, -, hnode⟩
  · cases hone
  · cases hnode

end

theorem Held.relSecOpen (held : Held s h main sec) {numa : Nat} {secTail : Tid}
    (hat : s.pc h = .relSecOpen numa secTail) :
    Held ((s.setNext secTail none).goto h (.relCasSec numa secTail (s.next secTail))) h main
      sec := by
  have hshape := held.shape
  rw [hat] at hshape
  obtain ⟨⟨hooks, hcircle⟩, hspin⟩ := hshape
  obtain ⟨a, hchain, hback⟩ := hcircle.of_node hspin
  have hnext (u : Tid) (hu : u ≠ secTail) : update s.next secTail none u = s.next u :=
    update_of_ne hu ..
  have hne (u : Tid) (hu : u ∈ h :: main) : u ≠ secTail := by
    rintro rfl
    exact held.sec_ne hchain.last_mem hu
  refine held.holder .rfl rfl (fun _ _ => rfl) (fun u hu => hnext u ?_) held.waits
    ⟨Hooks.goto (hooks.congr (fun z hz => hnext z (hne z hz)) (fun _ _ => .of_eq rfl) rfl)
      held.not_mem.1, ⟨a, hback, hchain.congr fun n _ hn => hnext n hn⟩,
      update_self .., hspin⟩
  rintro rfl
  exact hu (List.mem_cons_of_mem _ (List.mem_append_right _ hchain.last_mem))

theorem Held.relCasSec (held : Held s h main sec) {numa : Nat} {secTail : Tid}
    {secHead : Option Tid} (hat : s.pc h = .relCasSec numa secTail secHead)
    (htail : s.tail = some h) :
    Held ({ s with tail := some secTail }.goto h (.relGrant secHead .one)) h sec [] := by
  have hshape := held.shape
  rw [hat] at hshape
  obtain ⟨hooks, ⟨a, rfl, hchain⟩, hnone, hspin⟩ := hshape
  obtain rfl := hooks.alone held.main_nodup htail
  refine held.holder (by rw [List.append_nil]; rfl) rfl (fun _ _ => rfl) (fun _ _ => rfl) nofun
    ⟨?_, .inl ⟨rfl, rfl⟩⟩
  obtain ⟨rest, rfl⟩ := hchain.eq_cons
  refine Front.goto ⟨rest, rfl, held.waits a (List.mem_cons_self ..), ?_⟩ held.not_mem.2
  have hlast : Hooks { s with tail := some secTail } secTail [] := ⟨hnone, rfl⟩
  have hline := Hooks.of_chain (s := { s with tail := some secTail }) hchain
    (fun z hz => held.waits z (List.mem_cons_of_mem _ hz)) hlast
  rw [List.append_nil] at hline
  exact hline

theorem Held.relSecClose (held : Held s h main sec) {numa : Nat} {secTail : Tid}
    {secHead : Option Tid} (hat : s.pc h = .relSecClose numa secTail secHead) :
    Held ((s.setNext secTail secHead).goto h (.relAwaitNext numa (.node secTail))) h main sec := by
  have hshape := held.shape
  rw [hat] at hshape
  obtain ⟨hooks, ⟨a, rfl, hchain⟩, hnone, hspin⟩ := hshape
  have hnext (u : Tid) (hu : u ≠ secTail) :
      update s.next secTail (some a) u = s.next u := update_of_ne hu ..
  have hne (u : Tid) (hu : u ∈ h :: main) : u ≠ secTail := by
    rintro rfl
    exact held.sec_ne hchain.last_mem hu
  refine held.holder .rfl rfl (fun _ _ => rfl) (fun u hu => hnext u ?_) held.waits
    ⟨⟨Hooks.goto (hooks.congr (fun z hz => hnext z (hne z hz)) (fun _ _ => .of_eq rfl) rfl)
      held.not_mem.1, .inr ⟨a, secTail, hchain.congr fun n _ hn => hnext n hn,
        update_self .., hspin⟩⟩, hspin⟩
  rintro rfl
  exact hu (List.mem_cons_of_mem _ (List.mem_append_right _ hchain.last_mem))

section

omit [DecidableEq Tid]

/-- The first thread of the main queue is the one that the holder points to. -/
theorem Whole.front (hwhole : Whole s h main sec) (hnext : s.next h = some x) : Front s x main :=
  hwhole.1.front hnext

theorem Walk.advance {first secTail cur next : Tid} (hwalk : Walk s main first secTail cur)
    (hooks : Hooks s h main) (hnodup : main.Nodup) (hnext : s.next cur = some next) :
    Cut s main first cur next := by
  rcases hwalk with ⟨rest, rfl, rfl⟩ | ⟨moved, rest, rfl, hchain, hlink⟩
  · obtain ⟨rest', rfl, -, -⟩ := hooks.2.front hnext
    exact ⟨[cur], rest', rfl, .singleton _ _, hnext⟩
  · obtain ⟨rest', rfl, -, -⟩ := hooks.drop.front hnext
    have hnodup' : (moved ++ [cur]).Nodup := by
      rw [List.append_cons] at hnodup
      exact (List.nodup_append'.mp hnodup).1
    exact ⟨moved ++ [cur], rest', by simp, hchain.append (.singleton _ _) hlink hnodup', hnext⟩

/-- What is moved to the secondary queue, and what remains of the main queue. -/
theorem Held.cut (held : Held s h main sec) {first secTail cur next : Tid}
    (hwhole : Whole s h main sec) (hnext : s.next h = some next)
    (hcut : Cut s main first secTail cur) :
    ∃ moved rest, main = moved ++ cur :: rest ∧ Chain s.next first secTail moved ∧
      (∀ z ∈ moved, s.pc z = .acqAwait) ∧ Front s cur (cur :: rest) := by
  obtain ⟨moved, rest, rfl, hchain, hlink⟩ := hcut
  obtain ⟨moved', rfl⟩ := hchain.eq_cons
  obtain ⟨_, heq, -, -⟩ := hwhole.front hnext
  obtain ⟨rfl, -⟩ := List.cons.inj heq
  have hlinks : (h :: (first :: moved' ++ [cur])).IsChain (fun a b => s.next a = some b) := by
    refine List.isChain_cons.mpr ⟨fun a ha => ?_, hchain.links.append (.singleton _) ?_⟩
    · cases ha
      exact hnext
    · intro a ha b hb
      rw [hchain.last] at ha
      cases ha
      cases hb
      exact hlink
  obtain ⟨hwaits, hfront⟩ := hwhole.1.waits hlinks
  exact ⟨first :: moved', rest, rfl, hchain, hwaits, hfront⟩

theorem perm_moved (moved rest sec : List Tid) :
    (rest ++ (sec ++ moved)).Perm ((moved ++ rest) ++ sec) := by
  calc (rest ++ (sec ++ moved)).Perm ((sec ++ moved) ++ rest) := List.perm_append_comm
    _ = sec ++ (moved ++ rest) := List.append_assoc ..
    _ |>.Perm ((moved ++ rest) ++ sec) := List.perm_append_comm

end

/-- There is no secondary queue: what is in front of the successor becomes it. -/
theorem Held.fsSpin (held : Held s h main sec) {first secTail cur next : Tid}
    (hat : s.pc h = .fsSpin next first secTail cur) (hspin : s.spin h = .one) :
    ∃ main' sec', Held (s.goto h (.fsLink next (some first) secTail cur)) h main' sec' := by
  have hshape := held.shape
  rw [hat] at hshape
  obtain ⟨hwhole, hnext, hcut⟩ := hshape
  obtain ⟨moved, rest, rfl, hchain, hwaits, hfront⟩ := held.cut hwhole hnext hcut
  obtain rfl := hwhole.2.of_one hspin
  have hh : h ∉ cur :: rest := fun hin => held.not_mem.1 (List.mem_append_right _ hin)
  refine ⟨cur :: rest, moved, held.holder ?_ rfl (fun _ _ => rfl) (fun _ _ => rfl) hwaits
    ⟨hfront.goto hh, first, rfl, hchain⟩⟩
  rw [List.append_nil]
  exact List.perm_append_comm

/-- The last thread of the secondary queue is linked to what is moved to it. -/
theorem Held.fsXchg (held : Held s h main sec) {first secTail cur next spin : Tid}
    (hat : s.pc h = .fsXchg next first secTail cur spin) :
    ∃ main' sec', Held ((s.setNext spin (some first)).goto h
      (.fsLink next (s.next spin) secTail cur)) h main' sec' := by
  have hshape := held.shape
  rw [hat] at hshape
  obtain ⟨hwhole, hnext, hcut, hspin⟩ := hshape
  obtain ⟨moved, rest, rfl, hchain, hwaits, hfront⟩ := held.cut hwhole hnext hcut
  obtain ⟨a, hsec, hback⟩ := hwhole.2.of_node hspin
  have hupdate (u : Tid) (hu : u ≠ spin) :
      update s.next spin (some first) u = s.next u := update_of_ne hu ..
  have hne (u : Tid) (hu : u ∈ moved ++ cur :: rest) : u ≠ spin := by
    rintro rfl
    exact held.sec_ne hsec.last_mem (List.mem_cons_of_mem _ hu)
  have hperm := perm_moved moved (cur :: rest) sec
  have hnodup : (sec ++ moved).Nodup := by
    have hall := hperm.nodup_iff.mpr (List.nodup_cons.mp held.nodup).2
    exact (List.nodup_append'.mp hall).2.1
  have hfront' : Front (s.setNext spin (some first)) cur (cur :: rest) := by
    obtain ⟨rest', heq, hpc, hooks⟩ := hfront
    obtain ⟨-, rfl⟩ := List.cons.inj heq
    exact ⟨rest, rfl, hpc, hooks.congr
      (fun z hz => hupdate z (hne z (List.mem_append_right _ hz))) (fun _ _ => .of_eq rfl) rfl⟩
  have hh : h ∉ cur :: rest := fun hin => held.not_mem.1 (List.mem_append_right _ hin)
  refine ⟨cur :: rest, sec ++ moved, held.holder hperm rfl (fun _ _ => rfl)
    (fun u hu => hupdate u ?_) (fun u hu => ?_) ⟨hfront'.goto hh, a, hback, ?_⟩⟩
  · rintro rfl
    exact hu (List.mem_cons_of_mem _ (List.mem_append_right _ hsec.last_mem))
  · rcases List.mem_append.mp hu with hu | hu
    · exact held.waits u hu
    · exact hwaits u hu
  · refine Chain.append (hsec.congr fun n _ hn => hupdate n hn)
      (hchain.congr fun n hn _ => hupdate n (hne n (List.mem_append_left _ hn)))
      (update_self ..) hnodup

theorem Held.fsLink (held : Held s h main sec) {next secTail cur : Tid} {secHead : Option Tid}
    (hat : s.pc h = .fsLink next secHead secTail cur) :
    Held ((s.setNext secTail secHead).goto h (.fsSetSpin next secTail cur)) h main sec := by
  have hshape := held.shape
  rw [hat] at hshape
  obtain ⟨⟨rest, rfl, hpc, hooks⟩, a, rfl, hchain⟩ := hshape
  have hnext (u : Tid) (hu : u ≠ secTail) :
      update s.next secTail (some a) u = s.next u := update_of_ne hu ..
  have hfront : Front (s.setNext secTail (some a)) cur (cur :: rest) := by
    refine ⟨rest, rfl, hpc, hooks.congr (fun z hz => hnext z ?_) (fun _ _ => .of_eq rfl) rfl⟩
    rintro rfl
    exact held.sec_ne hchain.last_mem (List.mem_cons_of_mem _ hz)
  refine held.holder .rfl rfl (fun _ _ => rfl) (fun u hu => hnext u ?_) held.waits
    ⟨hfront.goto held.not_mem.1, .inr ⟨a, secTail, hchain.congr fun n _ hn => hnext n hn,
      update_self .., rfl⟩⟩
  rintro rfl
  exact hu (List.mem_cons_of_mem _ (List.mem_append_right _ hchain.last_mem))

/-- The secondary queue is put in front of the main queue. -/
theorem Held.relSplice (held : Held s h main sec) {next spin : Tid}
    (hat : s.pc h = .relSplice next spin) :
    Held ((s.setNext spin (some next)).goto h (.relGrant (s.next spin) .one)) h (sec ++ main)
      [] := by
  have hshape := held.shape
  rw [hat] at hshape
  obtain ⟨hwhole, hnext, hspin⟩ := hshape
  obtain ⟨rest, rfl, hpc, hooks⟩ := hwhole.front hnext
  obtain ⟨a, hsec, hback⟩ := hwhole.2.of_node hspin
  have hupdate (u : Tid) (hu : u ≠ spin) :
      update s.next spin (some next) u = s.next u := update_of_ne hu ..
  have hooks' : Hooks (s.setNext spin (some next)) spin (next :: rest) := by
    refine ⟨.inl ⟨update_self .., hpc⟩, hooks.congr (fun z hz => hupdate z ?_)
      (fun _ _ => .of_eq rfl) rfl⟩
    rintro rfl
    exact held.sec_ne hsec.last_mem (List.mem_cons_of_mem _ hz)
  have hh : h ∉ sec ++ next :: rest := by
    intro hin
    rcases List.mem_append.mp hin with hin | hin
    · exact held.not_mem.2 hin
    · exact held.not_mem.1 hin
  have hfront : Front (s.setNext spin (some next)) a (sec ++ next :: rest) := by
    obtain ⟨sec', rfl⟩ := hsec.eq_cons
    exact ⟨sec' ++ next :: rest, rfl, held.waits a (List.mem_cons_self ..),
      Hooks.of_chain (hsec.congr fun n _ hn => hupdate n hn)
        (fun z hz => held.waits z (List.mem_cons_of_mem _ hz)) hooks'⟩
  rw [hback]
  refine held.holder ?_ rfl (fun _ _ => rfl) (fun u hu => hupdate u ?_) nofun
    ⟨hfront.goto hh, .inl ⟨rfl, rfl⟩⟩
  · rw [List.append_nil]
    exact List.perm_append_comm
  · rintro rfl
    exact hu (List.mem_cons_of_mem _ (List.mem_append_right _ hsec.last_mem))

theorem goto_self (s : State Tid) (t : Tid) (pc : Pc Tid) : (s.goto t pc).pc t = pc :=
  update_self ..

theorem outside_idle (s : State Tid) (t : Tid) : Outside (s.goto t .idle) t := by
  rw [Outside, goto_self]
  trivial

theorem Held.relGrant (held : Held s h main sec) {succ : Tid} {value : Spin Tid}
    (hat : s.pc h = .relGrant (some succ) value) :
    ∃ main', Held ((s.setSpin succ value).goto h .idle) succ main' sec := by
  have hshape := held.shape
  rw [hat] at hshape
  obtain ⟨⟨rest, rfl, hwaits, hooks⟩, hcircle⟩ := hshape
  obtain ⟨hh, hnodup⟩ := List.nodup_cons.mp held.nodup
  have hpc (u : Tid) (hu : u ≠ h) : ((s.setSpin succ value).goto h .idle).pc u = s.pc u :=
    update_of_ne hu ..
  have hspin (u : Tid) (hu : u ≠ succ) :
      ((s.setSpin succ value).goto h .idle).spin u = s.spin u := update_of_ne hu ..
  have hne (u : Tid) (hu : u ∈ succ :: rest ++ sec) : u ≠ h := by
    rintro rfl
    exact hh hu
  have hother (u : Tid) (hu : u ∈ rest ++ sec) : u ≠ succ := by
    rintro rfl
    exact (List.nodup_cons.mp hnodup).1 hu
  refine ⟨rest, hnodup, fun u hu => ?_, fun u hu => ?_, fun u hu => ?_, ?_⟩
  · by_cases huh : u = h
    · rw [huh]
      exact outside_idle _ h
    · have hout : u ∉ h :: (succ :: rest ++ sec) := by
        rw [List.mem_cons]
        push Not
        exact ⟨huh, hu⟩
      have hus : u ≠ succ := fun heq => hu (heq ▸ List.mem_cons_self ..)
      exact (held.outside u hout).congr (hpc u huh) (hspin u hus) rfl
  · rw [hspin u (hother u hu)]
    exact held.quiet u (List.mem_cons_of_mem _ hu)
  · rw [hpc u (hne u (List.mem_append_right _ hu))]
    exact held.waits u hu
  · rw [hpc succ (hne succ (List.mem_cons_self ..)), hwaits]
    have hrest : h ∉ rest := fun hin => hh (List.mem_cons_of_mem _ (List.mem_append_left _ hin))
    refine ⟨Hooks.goto (hooks.congr (fun _ _ => rfl) (fun _ _ => .of_eq rfl) rfl) hrest, ?_⟩
    rw [show ((s.setSpin succ value).goto h .idle).spin succ = value from update_self ..]
    exact hcircle

/-- The holder has not found a successor of its own NUMA node. -/
theorem Held.handOver (held : Held s h main sec) (hwhole : Whole s h main sec) {next : Tid}
    (hnext : s.next h = some next) :
    Held (s.goto h (handOver next (s.spin h) none)) h main sec := by
  refine held.goto ?_
  cases hspin : s.spin h with
  | null =>
    have hcircle := hwhole.2
    rw [hspin] at hcircle
    exact hcircle.not_null.elim
  | one =>
    refine ⟨(hwhole.front hnext).goto held.not_mem.1, ?_⟩
    have hcircle := hwhole.2
    rw [hspin] at hcircle
    exact hcircle
  | node spin => exact ⟨held.goto_whole hwhole, hnext, hspin⟩

theorem Held.holder_step (held : Held s h main sec) (hstep : nextStep s h = some s') : Inv s' := by
  have hshape := held.shape
  rw [Cnalock.nextStep] at hstep
  cases hat : s.pc h with
  | idle | acqSpin _ | acqNext _ | acqNode _ | acqXchg _ | acqNuma _ _ | acqLink _ =>
    rw [hat] at hshape
    exact hshape.elim
  | critical | relKeep _ _ _ =>
    rw [hat] at hstep
    cases hstep
  | acqFirst =>
    rw [hat] at hstep hshape
    cases hstep
    obtain ⟨hooks, rfl⟩ := hshape
    refine .inr ⟨h, main, [], held.holder .rfl rfl (fun u hu => update_of_ne hu ..)
      (fun _ _ => rfl) held.waits ⟨?_, .inl ⟨rfl, update_self ..⟩⟩⟩
    exact Hooks.goto (hooks.congr (fun _ _ => rfl) (fun _ _ => .of_eq rfl) rfl) held.not_mem.1
  | acqAwait =>
    rw [hat] at hshape
    simp only [hat] at hstep
    split at hstep
    · cases hstep
    · cases hstep
      exact .inr ⟨h, main, sec, held.goto (held.goto_whole hshape)⟩
  | relNext numa =>
    rw [hat] at hstep hshape
    cases hstep
    exact .inr ⟨h, main, sec, held.goto ⟨held.goto_whole hshape, fun n hn => hn⟩⟩
  | relSpin numa next =>
    rw [hat] at hshape
    obtain ⟨hwhole, hnext⟩ := hshape
    cases next with
    | some next =>
      rw [hat] at hstep
      cases hstep
      exact .inr ⟨h, main, sec, held.goto ⟨held.goto_whole hwhole, hnext next rfl, rfl⟩⟩
    | none =>
      simp only [hat] at hstep
      split at hstep
      · rename_i hspin
        cases hstep
        exact .inr ⟨h, main, sec, held.goto ⟨held.goto_whole hwhole, hspin⟩⟩
      · rename_i secTail hspin
        cases hstep
        exact .inr ⟨h, main, sec, held.goto ⟨held.goto_whole hwhole, hspin⟩⟩
      · cases hstep
  | relCasNull numa =>
    rw [hat] at hshape
    simp only [hat] at hstep
    obtain ⟨hwhole, hspin⟩ := hshape
    split at hstep
    · rename_i htail
      cases hstep
      obtain rfl := hwhole.1.alone held.main_nodup htail
      obtain rfl := hwhole.2.of_one hspin
      refine .inl ⟨rfl, fun u => ?_⟩
      by_cases hu : u = h
      · rw [hu]
        exact outside_idle _ h
      · exact (held.outside u (by simpa using hu)).congr (update_of_ne hu ..) rfl rfl
    · cases hstep
      exact .inr ⟨h, main, sec, held.goto ⟨held.goto_whole hwhole, hspin⟩⟩
  | relSecOpen numa secTail =>
    rw [hat] at hstep
    cases hstep
    exact .inr ⟨h, main, sec, held.relSecOpen hat⟩
  | relCasSec numa secTail secHead =>
    rw [hat] at hshape
    simp only [hat] at hstep
    split at hstep
    · rename_i htail
      cases hstep
      exact .inr ⟨h, sec, [], held.relCasSec hat htail⟩
    · cases hstep
      obtain ⟨hooks, hrest⟩ := hshape
      exact .inr ⟨h, main, sec, held.goto ⟨hooks.goto held.not_mem.1, hrest⟩⟩
  | relSecClose numa secTail secHead =>
    rw [hat] at hstep
    cases hstep
    exact .inr ⟨h, main, sec, held.relSecClose hat⟩
  | relAwaitNext numa spin =>
    rw [hat] at hshape
    simp only [hat] at hstep
    split at hstep
    · rename_i next hnext
      cases hstep
      exact .inr ⟨h, main, sec, held.goto ⟨held.goto_whole hshape.1, hnext, hshape.2⟩⟩
    · cases hstep
  | fsNext numa next =>
    rw [hat] at hstep hshape
    cases hstep
    exact .inr ⟨h, main, sec, held.goto ⟨held.goto_whole hshape.1, hshape.2, hshape.2⟩⟩
  | fsNode numa next first =>
    rw [hat] at hstep hshape
    obtain ⟨hwhole, hnext, rfl⟩ := hshape
    cases hstep
    obtain ⟨rest, heq, -, -⟩ := hwhole.front hnext
    exact .inr ⟨h, main, sec, held.goto ⟨held.goto_whole hwhole, hnext, .inl ⟨rest, heq, rfl⟩⟩⟩
  | fsTest next myNode first secTail cur =>
    rw [hat] at hshape
    simp only [hat] at hstep
    obtain ⟨hwhole, hnext, hwalk⟩ := hshape
    split at hstep
    · split at hstep
      · rename_i hfirst
        cases hstep
        have hfront : Front s first main := by
          obtain ⟨rest, heq, hfront⟩ := hwhole.front hnext
          rcases hwalk with ⟨rest', heq', hcur⟩ | ⟨moved, rest', heq', hchain, -⟩
          · rw [heq] at heq'
            obtain ⟨rfl, -⟩ := List.cons.inj heq'
            rw [← hcur]
            exact ⟨rest, heq, hfront⟩
          · -- the search has gone past the first thread
            have hnodup := (List.nodup_cons.mp held.main_nodup).2
            rw [heq'] at hnodup
            refine absurd (List.mem_cons_self ..) ((List.nodup_append'.mp hnodup).2.2 ?_)
            rw [hfirst]
            exact hchain.first_mem
        exact .inr ⟨h, main, sec, held.goto ⟨hfront.goto held.not_mem.1, hwhole.2⟩⟩
      · rename_i hfirst
        cases hstep
        rcases hwalk with ⟨_, -, hcur⟩ | hcut
        · exact absurd hcur hfirst
        · exact .inr ⟨h, main, sec, held.goto ⟨held.goto_whole hwhole, hnext, hcut⟩⟩
    · cases hstep
      exact .inr ⟨h, main, sec, held.goto ⟨held.goto_whole hwhole, hnext, secTail, hwalk⟩⟩
  | fsAdvance next myNode first cur =>
    rw [hat] at hshape
    simp only [hat] at hstep
    obtain ⟨hwhole, hnext, secTail, hwalk⟩ := hshape
    split at hstep
    · rename_i cur' hcur
      cases hstep
      have hnodup := (List.nodup_cons.mp held.main_nodup).2
      exact .inr ⟨h, main, sec, held.goto ⟨held.goto_whole hwhole, hnext,
        .inr (hwalk.advance hwhole.1 hnodup hcur)⟩⟩
    · cases hstep
      exact .inr ⟨h, main, sec, held.goto ⟨held.goto_whole hwhole, hnext⟩⟩
  | fsSpin next first secTail cur =>
    rw [hat] at hshape
    simp only [hat] at hstep
    obtain ⟨hwhole, hnext, hcut⟩ := hshape
    split at hstep
    · rename_i spin hspin
      cases hstep
      exact .inr ⟨h, main, sec, held.goto ⟨held.goto_whole hwhole, hnext, hcut, hspin⟩⟩
    · rename_i hspin
      have hcircle := hwhole.2
      rw [hspin] at hcircle
      exact hcircle.not_null.elim
    · rename_i hspin
      cases hstep
      exact .inr ⟨h, held.fsSpin hat hspin⟩
  | fsXchg next first secTail cur spin =>
    rw [hat] at hstep
    cases hstep
    exact .inr ⟨h, held.fsXchg hat⟩
  | fsLink next secHead secTail cur =>
    rw [hat] at hstep
    cases hstep
    exact .inr ⟨h, main, sec, held.fsLink hat⟩
  | fsSetSpin next secTail cur =>
    rw [hat] at hstep hshape
    cases hstep
    refine .inr ⟨h, main, sec, held.holder .rfl rfl (fun u hu => update_of_ne hu ..)
      (fun _ _ => rfl) held.waits ⟨?_, ?_⟩⟩
    · obtain ⟨rest, rfl, hpc, hooks⟩ := hshape.1
      exact Front.goto ⟨rest, rfl, hpc, hooks.congr (fun _ _ => rfl) (fun _ _ => .of_eq rfl) rfl⟩
        held.not_mem.1
    · rw [show ((s.setSpin h (.node secTail)).goto h (.relReread next (some cur))).spin h =
        .node secTail from update_self ..]
      exact hshape.2
  | relReread next succ =>
    rw [hat] at hstep hshape
    cases hstep
    cases succ with
    | none => exact .inr ⟨h, main, sec, held.handOver hshape.1 hshape.2⟩
    | some succ =>
      exact .inr ⟨h, main, sec, held.goto ⟨hshape.1.goto held.not_mem.1, hshape.2⟩⟩
  | relSplice next spin =>
    rw [hat] at hstep
    cases hstep
    exact .inr ⟨h, sec ++ main, [], held.relSplice hat⟩
  | relGrant succ value =>
    cases succ with
    | none =>
      rw [hat] at hshape
      exact hshape.elim
    | some succ =>
      rw [hat] at hstep
      cases hstep
      obtain ⟨main', hheld⟩ := held.relGrant hat
      exact .inr ⟨succ, main', sec, hheld⟩

/-- The thread has the lock: from the exchange that found no other thread, or the
write to its `spin`, until it hands the lock over. -/
def Granted (s : State Tid) (t : Tid) : Prop :=
  match s.pc t with
  | .idle | .acqSpin _ | .acqNext _ | .acqNode _ | .acqXchg _ | .acqNuma _ _ | .acqLink _ => False
  | .acqAwait => s.spin t ≠ .null
  | _ => True

/-- The thread has put itself into the tail and does not have the lock. -/
def Queued (s : State Tid) (t : Tid) : Prop :=
  (s.pc t = .acqAwait ∧ s.spin t = .null) ∨ ∃ x, About s t x

/-- Where a thread without the lock is: linked in the main queue, in the secondary
queue, or going to write the `next` pointer of the thread in front of it. -/
inductive Place (s : State Tid) (h : Tid) (main sec : List Tid) (t : Tid) : Prop
  | main : t ∈ main → t ∉ sec → s.pc t = .acqAwait → Place s h main sec t
  | secondary : t ∈ sec → t ∉ main → s.pc t = .acqAwait → Place s h main sec t
  | linking (x : Tid) : t ∈ main → t ∉ sec → x ∈ h :: main → About s t x → s.next x = none →
      Place s h main sec t

section

omit [DecidableEq Tid]

theorem Outside.not_queued (hout : Outside s t) : ¬ Queued s t := by
  rw [Outside] at hout
  rintro (⟨hat, -⟩ | ⟨x, hat | ⟨numa, hat⟩⟩) <;> rw [hat] at hout <;> exact hout

theorem Outside.not_granted (hout : Outside s t) : ¬ Granted s t := by
  rw [Outside] at hout
  rw [Granted]
  cases hat : s.pc t <;> rw [hat] at hout
  case idle | acqSpin | acqNext | acqNode | acqXchg => exact id
  all_goals exact hout.elim

theorem Queued.not_granted (hqueued : Queued s t) : ¬ Granted s t := by
  rw [Granted]
  rcases hqueued with ⟨hat, hnull⟩ | ⟨x, hat | ⟨numa, hat⟩⟩ <;> rw [hat]
  · exact fun hspin => hspin hnull
  · exact id
  · exact id

theorem Held.granted (held : Held s h main sec) : Granted s h := by
  have hshape := held.shape
  rw [Granted]
  cases hat : s.pc h <;> rw [hat] at hshape
  case idle | acqSpin | acqNext | acqNode | acqXchg | acqNuma | acqLink => exact hshape
  case acqAwait =>
    intro hnull
    have hcircle := hshape.2
    rw [hnull] at hcircle
    exact hcircle.not_null
  all_goals trivial

theorem Held.place (held : Held s h main sec) (ht : t ∈ main ++ sec) : Place s h main sec t := by
  obtain ⟨-, -, hapart⟩ := List.nodup_append'.mp (List.nodup_cons.mp held.nodup).2
  rcases List.mem_append.mp ht with hmain | hsec
  · have hsec : t ∉ sec := fun hin => hapart hmain hin
    rcases held.queued hmain with hpc | ⟨z, hz, habout, hnone⟩
    · exact .main hmain hsec hpc
    · exact .linking z hmain hsec hz habout hnone
  · exact .secondary hsec (fun hin => hapart hin hsec) (held.waits t hsec)

theorem Held.queued_iff (held : Held s h main sec) : Queued s t ↔ t ∈ main ++ sec := by
  constructor
  · intro hqueued
    by_contra ht
    by_cases hh : t = h
    · exact hqueued.not_granted (hh ▸ held.granted)
    · refine (held.outside t ?_).not_queued hqueued
      rw [List.mem_cons]
      push Not
      exact ⟨hh, ht⟩
  · intro ht
    cases held.place ht with
    | main _ _ hat => exact .inl ⟨hat, held.quiet t ht⟩
    | secondary _ _ hat => exact .inl ⟨hat, held.quiet t ht⟩
    | linking x _ _ _ habout _ => exact .inr ⟨x, habout⟩

theorem Held.eq_of_granted (held : Held s h main sec) (hgranted : Granted s t) : t = h := by
  by_contra hne
  by_cases ht : t ∈ main ++ sec
  · exact (held.queued_iff.mpr ht).not_granted hgranted
  · refine (held.outside t ?_).not_granted hgranted
    rw [List.mem_cons]
    push Not
    exact ⟨hne, ht⟩

/-- A thread that has the lock is the holder. -/
theorem Inv.holder (inv : Inv s) (hgranted : Granted s t) : ∃ main sec, Held s t main sec := by
  rcases inv with hfree | ⟨h, main, sec, held⟩
  · exact absurd hgranted (hfree.2 t).not_granted
  · exact ⟨main, sec, held.eq_of_granted hgranted ▸ held⟩

end

theorem Outside.own_step (hout : Outside s t) (hstep : nextStep s t = some s')
    (hxchg : ∀ numa, s.pc t ≠ .acqXchg numa) :
    (∀ u, u ≠ t → Same s s' u) ∧ s'.tail = s.tail ∧ Outside s' t := by
  rw [Outside] at hout
  rw [Cnalock.nextStep] at hstep
  cases hat : s.pc t <;> rw [hat] at hout
  case idle =>
    rw [hat] at hstep
    cases hstep
  case acqSpin numa =>
    rw [hat] at hstep
    cases hstep
    refine ⟨fun u hu => ⟨update_of_ne hu .., update_of_ne hu .., rfl⟩, rfl, ?_⟩
    rw [Outside, goto_self]
    exact update_self ..
  case acqNext numa =>
    rw [hat] at hstep
    cases hstep
    refine ⟨fun u hu => ⟨update_of_ne hu .., rfl, update_of_ne hu ..⟩, rfl, ?_⟩
    rw [Outside, goto_self]
    exact ⟨hout, update_self ..⟩
  case acqNode numa =>
    rw [hat] at hstep
    cases hstep
    refine ⟨fun u hu => ⟨update_of_ne hu .., rfl, rfl⟩, rfl, ?_⟩
    rw [Outside, goto_self]
    exact hout
  case acqXchg numa => exact absurd hat (hxchg numa)
  all_goals exact hout.elim

theorem Free.other (hfree : Free s) (hothers : ∀ u, u ≠ t → Same s s' u)
    (htail : s'.tail = s.tail) (hout : Outside s' t) : Free s' := by
  refine ⟨htail.trans hfree.1, fun u => ?_⟩
  by_cases hu : u = t
  · rw [hu]
    exact hout
  · exact (hfree.2 u).congr (hothers u hu).1 (hothers u hu).2.1 (hothers u hu).2.2

theorem Free.any_step (hfree : Free s) (hstep : nextStep s t = some s') : Inv s' := by
  have hout := hfree.2 t
  by_cases hxchg : ∃ numa, s.pc t = .acqXchg numa
  · obtain ⟨numa, hat⟩ := hxchg
    rw [Outside, hat] at hout
    simp only [Cnalock.nextStep, hat, hfree.1] at hstep
    cases hstep
    have hshape : Shape ({ s with tail := some t }.goto t .acqFirst) t [] [] .acqFirst :=
      ⟨⟨hout.2, rfl⟩, rfl⟩
    refine .inr ⟨t, [], [], List.nodup_singleton t, fun u hu => ?_, ?_, ?_, ?_⟩
    · have hne : u ≠ t := by simpa using hu
      exact (hfree.2 u).congr (update_of_ne hne ..) rfl rfl
    · intro u hu
      cases hu
    · intro u hu
      cases hu
    · rw [goto_self]
      exact hshape
  · obtain ⟨hothers, htail, hout'⟩ := hout.own_step hstep fun numa hat => hxchg ⟨numa, hat⟩
    exact .inl (hfree.other hothers htail hout')

theorem Held.main_step (held : Held s h main sec) (ht : t ∈ main)
    (hstep : nextStep s t = some s') : Held s' h main sec := by
  rcases held.queued ht with hwaits | ⟨z, -, habout, -⟩
  · have hnull := held.quiet t (List.mem_append_left _ ht)
    simp only [Cnalock.nextStep, hwaits, hnull] at hstep
    cases hstep
  · rcases habout with hat | ⟨numa, hat⟩
    · simp only [Cnalock.nextStep, hat] at hstep
      cases hstep
      exact held.link ht hat
    · simp only [Cnalock.nextStep, hat] at hstep
      cases hstep
      exact held.numa ht hat

theorem Held.outside_step (held : Held s h main sec) (ht : t ∉ h :: (main ++ sec))
    (hstep : nextStep s t = some s') : Inv s' := by
  have hout := held.outside t ht
  by_cases hxchg : ∃ numa, s.pc t = .acqXchg numa
  · obtain ⟨numa, hat⟩ := hxchg
    obtain ⟨tail, htail⟩ := held.tail
    simp only [Cnalock.nextStep, hat, htail] at hstep
    cases hstep
    exact .inr ⟨h, main ++ [t], sec, held.xchg ht hat htail⟩
  · obtain ⟨hothers, htail, hout'⟩ := hout.own_step hstep fun numa hat => hxchg ⟨numa, hat⟩
    exact .inr ⟨h, main, sec, held.other ht hothers htail hout'⟩

theorem Inv.thread_step (inv : Inv s) (hstep : nextStep s t = some s') : Inv s' := by
  rcases inv with hfree | ⟨h, main, sec, held⟩
  · exact hfree.any_step hstep
  · by_cases ht : t ∈ h :: (main ++ sec)
    · rcases List.mem_cons.mp ht with rfl | ht
      · exact held.holder_step hstep
      · rcases List.mem_append.mp ht with hmain | hsec
        · exact .inr ⟨h, main, sec, held.main_step hmain hstep⟩
        · simp only [Cnalock.nextStep, held.waits t hsec, held.quiet t ht] at hstep
          cases hstep
    · exact held.outside_step ht hstep

theorem Inv.step {a : Act Tid} (inv : Inv s) (hstep : step s a = some s') : Inv s' := by
  cases a with
  | acquire t numa =>
    simp only [Cnalock.step] at hstep
    split at hstep
    · rename_i hidle
      cases hstep
      have hothers (u : Tid) (hu : u ≠ t) : Same s (s.goto t (.acqSpin numa)) u :=
        ⟨update_of_ne hu .., rfl, rfl⟩
      have hout : Outside (s.goto t (.acqSpin numa)) t := by
        rw [Outside, goto_self]
        trivial
      rcases inv with hfree | ⟨h, main, sec, held⟩
      · exact .inl (hfree.other hothers rfl hout)
      · refine .inr ⟨h, main, sec, held.other (fun hin => ?_) hothers rfl hout⟩
        rcases List.mem_cons.mp hin with rfl | hin
        · have hshape := held.shape
          rw [hidle] at hshape
          exact hshape
        · rcases List.mem_append.mp hin with hmain | hsec
          · rcases held.queued hmain with hpc | ⟨z, -, hpc | ⟨numa, hpc⟩, -⟩ <;>
              rw [hidle] at hpc <;> cases hpc
          · have hpc := held.waits t hsec
            rw [hidle] at hpc
            cases hpc
    · cases hstep
  | release t numa =>
    simp only [Cnalock.step] at hstep
    split at hstep
    · rename_i hat
      cases hstep
      obtain ⟨main, sec, held⟩ := inv.holder (by rw [Granted, hat]; trivial)
      have hshape := held.shape
      rw [hat] at hshape
      exact .inr ⟨t, main, sec, held.goto (held.goto_whole hshape)⟩
    · cases hstep
  | keep t keepLock =>
    simp only [Cnalock.step] at hstep
    split at hstep
    · rename_i numa next spin hat
      obtain ⟨main, sec, held⟩ := inv.holder (by rw [Granted, hat]; trivial)
      have hshape := held.shape
      rw [hat] at hshape
      obtain ⟨hwhole, hnext, rfl⟩ := hshape
      split at hstep
      · cases hstep
        exact .inr ⟨t, main, sec, held.goto ⟨held.goto_whole hwhole, hnext⟩⟩
      · cases hstep
        exact .inr ⟨t, main, sec, held.handOver hwhole hnext⟩
    · cases hstep
  | step t => exact inv.thread_step hstep

omit [DecidableEq Tid] in
theorem cnalockInit_free (spin : Tid → Spin Tid) (next : Tid → Option Tid) (node : Tid → Nat) :
    Free (cnalockInit spin next node) :=
  ⟨rfl, fun _ => trivial⟩

variable {spin : Tid → Spin Tid} {next : Tid → Option Tid} {node : Tid → Nat}
  {past : List (State Tid × Act Tid)}

theorem run_inv (run : (machine Tid spin next node).Run past s) : Inv s := by
  refine run.invariant (I := Inv) ?_ fun s a s' inv hstep => inv.step hstep
  rintro s rfl
  exact .inl (cnalockInit_free spin next node)

/-- At most one thread has the lock, and every thread that has put itself into the tail
and does not have the lock is in one place of the two queues, which are linked as the
position of the holder says. -/
structure Safe (s : State Tid) : Prop where
  exclusive : ∀ t u, Granted s t → Granted s u → t = u
  queues : (∀ t, ¬ Queued s t) ∨ ∃ h main sec, Granted s h ∧ (main ++ sec).Nodup ∧
    (∀ t, Queued s t ↔ t ∈ main ++ sec) ∧ (∀ t, Queued s t → Place s h main sec t) ∧
    Shape s h main sec (s.pc h)

theorem cnalock_safe (run : (machine Tid spin next node).Run past s) : Safe s := by
  rcases run_inv run with hfree | ⟨h, main, sec, held⟩
  · exact ⟨fun t u ht => absurd ht (hfree.2 t).not_granted, .inl fun t => (hfree.2 t).not_queued⟩
  · refine ⟨fun t u ht hu => ?_, .inr ⟨h, main, sec, held.granted,
      (List.nodup_cons.mp held.nodup).2, fun t => held.queued_iff,
      fun t ht => held.place (held.queued_iff.mp ht), held.shape⟩⟩
    rw [held.eq_of_granted ht, held.eq_of_granted hu]

/-- Thread 1 is of another NUMA node and waits in front of thread 2. Thread 0 moves it to
the secondary queue and hands the lock to thread 2, which makes the secondary queue
the main queue again, so that thread 1 gets the lock. -/
def aside : List (Act Nat) :=
  List.flatten [
    .acquire 0 0 :: List.replicate 5 (.step 0),
    .acquire 1 1 :: List.replicate 6 (.step 1),
    .acquire 2 0 :: List.replicate 6 (.step 2),
    [.release 0 0, .step 0, .step 0, .keep 0 true], List.replicate 10 (.step 0),
    .step 2 :: .release 2 0 :: List.replicate 5 (.step 2),
    [.step 1]]

theorem cnalock_safe_aside :
    ∃ past s, (machine Nat (fun _ => .null) (fun _ => none) fun _ => 0).Run past s ∧ Safe s ∧
      s.pc 1 = .critical ∧ s.pc 0 = .idle ∧ s.pc 2 = .idle := by
  let M := machine Nat (fun _ => .null) (fun _ => none) fun _ => 0
  have hexec : (M.exec (cnalockInit (fun _ => .null) (fun _ => none) fun _ => 0) aside).map
      (fun s => (s.pc 1, s.pc 0, s.pc 2)) = some (.critical, .idle, .idle) := by
    decide +kernel
  obtain ⟨s, hs, hview⟩ := Option.map_eq_some_iff.mp hexec
  obtain ⟨hone, hrest⟩ := Prod.mk.inj hview
  obtain ⟨hzero, htwo⟩ := Prod.mk.inj hrest
  have run := (Machine.Run.start (M := M) rfl).exec hs
  exact ⟨_, s, run, cnalock_safe run, hone, hzero, htwo⟩

end Libvsync.Spinlock.Cnalock
