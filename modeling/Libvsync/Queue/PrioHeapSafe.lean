import Libvsync.Queue.PrioHeap

/-!
One thread's calls of the heap-based priority queue. Between the calls the nodes below `next` are
available and in heap order and the others are empty; `vqueue_prio_add` moves one busy node up,
`vqueue_prio_remove_min` moves the node from the bottom down.
-/

namespace Libvsync.Queue.PrioHeap

open Libvsync.Core.HeapOrder Function

variable {Data : Type} {capacity tid : Nat} {q : PQueue Data}

/-- What a node stores. -/
def item (node : Node Data) : Nat × Option Data := (node.score, node.data)

def PQueue.score (q : PQueue Data) (i : Nat) : Nat := (q.heap i).score

/-- The stored items. -/
def PQueue.items (q : PQueue Data) : Multiset (Nat × Option Data) :=
  contents (fun i => item (q.heap i)) q.next

structure Stored (node : Node Data) : Prop where
  tag : node.tag = .available
  owner : node.owner = noOne
  data : node.data ≠ none

/-- The queue between the calls. -/
structure Filled (capacity : Nat) (q : PQueue Data) : Prop where
  held : q.held = []
  low : 1 ≤ q.next
  high : q.next ≤ capacity + 1
  used : ∀ i, 1 ≤ i → i < q.next → Stored (q.heap i)
  free : ∀ i, q.next ≤ i → i ≤ capacity → (q.heap i).tag = .empty
  ordered : Ordered q.score q.next

/-- The node at `c` is on its way up. -/
structure Rising (capacity tid : Nat) (q : PQueue Data) (c : Nat) : Prop where
  held : q.held = []
  low : 1 ≤ c
  below : c < q.next
  high : q.next ≤ capacity + 1
  tag : (q.heap c).tag = .busy
  owner : (q.heap c).owner = tid
  data : (q.heap c).data ≠ none
  used : ∀ i, 1 ≤ i → i < q.next → i ≠ c → Stored (q.heap i)
  free : ∀ i, q.next ≤ i → i ≤ capacity → (q.heap i).tag = .empty
  order : UpTo q.score q.next c

theorem swap_heap (q : PQueue Data) (a b : Nat) : (q.swap a b).heap = swapped q.heap a b := by
  funext i
  rw [PQueue.swap]
  dsimp only
  rcases eq_or_ne i b with rfl | hib
  · rw [update_self, swapped_right]
  · rw [update_of_ne hib]
    rcases eq_or_ne i a with rfl | hia
    · rw [update_self, swapped_left]
    · rw [update_of_ne hia, swapped_of_ne _ hia hib]

theorem swap_score (q : PQueue Data) (a b : Nat) : (q.swap a b).score = swapped q.score a b := by
  funext i
  rw [PQueue.score, swap_heap]
  rfl

theorem swap_items {a b : Nat} (ha : 1 ≤ a) (han : a < q.next) (hb : 1 ≤ b) (hbn : b < q.next) :
    (q.swap a b).items = q.items := by
  rw [PQueue.items, swap_heap]
  exact contents_swapped (fun i => item (q.heap i)) ha han hb hbn

theorem settle_of_ne {c i : Nat} (h : i ≠ c) : (q.settle c).heap i = q.heap i :=
  update_of_ne h _ _

theorem settle_self (q : PQueue Data) (c : Nat) :
    (q.settle c).heap c = { q.heap c with tag := .available, owner := noOne } :=
  update_self ..

theorem settle_item (q : PQueue Data) (c i : Nat) :
    item ((q.settle c).heap i) = item (q.heap i) := by
  rcases eq_or_ne i c with rfl | hi
  · rw [settle_self]
    rfl
  · rw [settle_of_ne hi]

theorem settle_score (q : PQueue Data) (c : Nat) : (q.settle c).score = q.score := by
  funext i
  exact congrArg Prod.fst (settle_item q c i)

theorem settle_items (q : PQueue Data) (c : Nat) : (q.settle c).items = q.items :=
  contents_congr fun i _ _ => settle_item q c i

theorem addLoop_swap {c : Nat} (hheld : q.held = []) (hc : 1 < c) (hcap : c < capacity + 1)
    (hparent : (q.heap (c / 2)).tag = .available) (htag : (q.heap c).tag = .busy)
    (howner : (q.heap c).owner = tid) (hlt : (q.heap c).score < (q.heap (c / 2)).score) :
    addLoop capacity tid q c = addLoop capacity tid (q.swap c (c / 2)) (c / 2) := by
  obtain ⟨next, heap, held⟩ := q
  dsimp only at *
  subst hheld
  have hp : c / 2 < capacity + 1 := by omega
  have hle : c / 2 ≤ c := by omega
  rw [addLoop, if_pos hc]
  simp [PQueue.lock, PQueue.unlock, PQueue.amOwner, PQueue.swap, hp, hcap, hle, hc.le, hparent,
    htag, howner, hlt]

theorem addLoop_settle {c : Nat} (hheld : q.held = []) (hc : 1 < c) (hcap : c < capacity + 1)
    (hparent : (q.heap (c / 2)).tag = .available) (htag : (q.heap c).tag = .busy)
    (howner : (q.heap c).owner = tid) (hle : ¬ (q.heap c).score < (q.heap (c / 2)).score) :
    addLoop capacity tid q c = some (q.settle c) := by
  obtain ⟨next, heap, held⟩ := q
  dsimp only at *
  subst hheld
  have hp : c / 2 < capacity + 1 := by omega
  have hle' : c / 2 ≤ c := by omega
  rw [addLoop, if_pos hc]
  simp [PQueue.lock, PQueue.unlock, PQueue.amOwner, PQueue.settle, hp, hcap, hle', hc.le, hparent,
    htag, howner, hle]

theorem addLoop_root (hheld : q.held = []) (hcap : 1 < capacity + 1)
    (htag : (q.heap 1).tag = .busy) (howner : (q.heap 1).owner = tid) :
    addLoop capacity tid q 1 = some (q.settle 1) := by
  obtain ⟨next, heap, held⟩ := q
  dsimp only at *
  subst hheld
  rw [addLoop, if_neg (Nat.lt_irrefl 1), if_pos rfl]
  simp [PQueue.lock, PQueue.unlock, PQueue.amOwner, PQueue.settle, hcap, htag, howner]

theorem Rising.swap {c : Nat} (h : Rising capacity tid q c) (hc : 2 ≤ c)
    (hlt : q.score c < q.score (c / 2)) : Rising capacity tid (q.swap c (c / 2)) (c / 2) := by
  have hbelow := h.below
  have hheap := swap_heap q c (c / 2)
  constructor
  · exact h.held
  · omega
  · exact Nat.lt_of_le_of_lt (Nat.div_le_self c 2) hbelow
  · exact h.high
  · rw [hheap, swapped_right]
    exact h.tag
  · rw [hheap, swapped_right]
    exact h.owner
  · rw [hheap, swapped_right]
    exact h.data
  · intro i hi hin hne
    rw [hheap]
    rcases eq_or_ne i c with rfl | hic
    · rw [swapped_left]
      exact h.used (i / 2) (by omega) (by omega) (by omega)
    · rw [swapped_of_ne _ hic hne]
      exact h.used i hi hin hic
  · intro i hi hicap
    have hi : q.next ≤ i := hi
    rw [hheap, swapped_of_ne _ (by omega) (by omega)]
    exact h.free i hi hicap
  · rw [swap_score]
    exact h.order.swap hc hbelow hlt

theorem Rising.settle {c : Nat} (h : Rising capacity tid q c)
    (hstop : 2 ≤ c → q.score (c / 2) ≤ q.score c) : Filled capacity (q.settle c) := by
  have hbelow := h.below
  refine ⟨h.held, h.low.trans hbelow.le, h.high, fun i hi hin => ?_, fun i hi hicap => ?_, ?_⟩
  · rcases eq_or_ne i c with rfl | hic
    · rw [settle_self]
      exact ⟨rfl, rfl, h.data⟩
    · rw [settle_of_ne hic]
      exact h.used i hi hin hic
  · have hi : q.next ≤ i := hi
    rw [settle_of_ne (by omega)]
    exact h.free i hi hicap
  · rw [settle_score]
    exact h.order.done hstop

/-- The node finds its place on the way to the root. -/
theorem addLoop_fills {c : Nat} (h : Rising capacity tid q c) :
    ∃ q', addLoop capacity tid q c = some q' ∧ Filled capacity q' ∧ q'.items = q.items := by
  induction c using Nat.strong_induction_on generalizing q with
  | _ c ih =>
    have hbelow := h.below
    have hhigh := h.high
    rcases Nat.eq_or_lt_of_le h.low with rfl | hc
    · exact ⟨_, addLoop_root h.held (by omega) h.tag h.owner, h.settle fun h2 => by omega,
        settle_items q 1⟩
    · have hparent := (h.used (c / 2) (by omega) (by omega) (by omega)).tag
      by_cases hlt : q.score c < q.score (c / 2)
      · obtain ⟨q', heq, hfilled, hitems⟩ := ih (c / 2) (by omega) (h.swap hc hlt)
        refine ⟨q', ?_, hfilled, ?_⟩
        · rw [addLoop_swap h.held hc (by omega) hparent h.tag h.owner hlt]
          exact heq
        · rw [hitems, swap_items (by omega) (by omega) (by omega) (by omega)]
      · exact ⟨_, addLoop_settle h.held hc (by omega) hparent h.tag h.owner hlt,
          h.settle fun _ => Nat.le_of_not_lt hlt, settle_items q c⟩

/-- `vqueue_prio_add` fails exactly on a full heap. -/
theorem vqueuePrioAdd_full (h : Filled capacity q) (hfull : q.next = capacity + 1) (data : Data)
    (priority : Nat) : vqueuePrioAdd capacity tid q data priority = some (q, false) := by
  obtain ⟨next, heap, held⟩ := q
  have hheld := h.held
  dsimp only at *
  subst hheld
  simp [vqueuePrioAdd, PQueue.lock, PQueue.unlock, hfull]

/-- The queue with the new node at the bottom. -/
def PQueue.push (q : PQueue Data) (node : Node Data) : PQueue Data :=
  { q with next := q.next + 1, heap := update q.heap q.next node }

theorem vqueuePrioAdd_room (h : Filled capacity q) (hroom : q.next ≤ capacity) (data : Data)
    {priority : Nat} (hpriority : priority ≤ 2 ^ 32 - 1) :
    vqueuePrioAdd capacity tid q data priority =
      (addLoop capacity tid (q.push ⟨.busy, priority, tid, some data⟩) q.next).map
        fun q' => (q', true) := by
  obtain ⟨next, heap, held⟩ := q
  have hheld := h.held
  have hlow := h.low
  dsimp only at *
  subst hheld
  have hne : next ≠ 0 := by omega
  have hpriority : priority ≤ 4294967295 := hpriority
  simp [vqueuePrioAdd, PQueue.lock, PQueue.unlock, PQueue.occupy, PQueue.push, hroom, hroom.not_gt,
    hlow, hpriority, hne, Option.map_eq_bind]

theorem Filled.push (h : Filled capacity q) (hroom : q.next ≤ capacity) (tid : Nat) (data : Data)
    (priority : Nat) :
    Rising capacity tid (q.push ⟨.busy, priority, tid, some data⟩) q.next ∧
      (q.push ⟨.busy, priority, tid, some data⟩).items = (priority, some data) ::ₘ q.items := by
  have hself : (q.push ⟨.busy, priority, tid, some data⟩).heap q.next =
      ⟨.busy, priority, tid, some data⟩ := update_self ..
  have hother {i : Nat} (hi : i ≠ q.next) :
      (q.push ⟨.busy, priority, tid, some data⟩).heap i = q.heap i := update_of_ne hi _ _
  refine ⟨⟨h.held, h.low, Nat.lt_succ_self _, Nat.succ_le_succ hroom, by rw [hself], by rw [hself],
    by rw [hself]; exact Option.some_ne_none _, fun i hi hin hne => ?_, fun i hi hicap => ?_,
    fun i hi hin hne => ?_, fun i hi hin hparent hc => ?_⟩, ?_⟩
  · have hin : i < q.next + 1 := hin
    rw [hother hne]
    exact h.used i hi (by omega)
  · have hi : q.next + 1 ≤ i := hi
    rw [hother (by omega)]
    exact h.free i (by omega) hicap
  · have hin : i < q.next + 1 := hin
    rw [PQueue.score, PQueue.score, hother hne, hother (by omega)]
    exact h.ordered i hi (by omega)
  · have hin : i < q.next + 1 := hin
    omega
  · rw [PQueue.items, PQueue.push, contents_succ _ h.low]
    dsimp only
    rw [update_self, PQueue.items]
    congr 1
    exact contents_congr fun i _ hi => by rw [update_of_ne (by omega)]

/-- The node at `p` is on its way down; its lock is held. -/
structure Sinking (capacity : Nat) (q : PQueue Data) (p : Nat) : Prop where
  held : q.held = [p]
  low : 1 ≤ p
  below : p < q.next
  high : q.next ≤ capacity
  used : ∀ i, 1 ≤ i → i < q.next → Stored (q.heap i)
  free : ∀ i, q.next ≤ i → i ≤ capacity → (q.heap i).tag = .empty
  order : DownTo q.score q.next p

def PQueue.release (q : PQueue Data) : PQueue Data := { q with held := [] }

theorem removeLoop_end {p fuel : Nat} (hheld : q.held = [p]) (hcap : p ≤ capacity)
    (hp : capacity / 2 ≤ p) : removeLoop capacity (fuel + 1) q p = some q.release := by
  obtain ⟨next, heap, held⟩ := q
  dsimp only at *
  subst hheld
  simp [removeLoop, PQueue.unlock, PQueue.release, hp.not_gt, Nat.lt_succ_of_le hcap]

theorem removeLoop_leaf {p fuel : Nat} (hheld : q.held = [p]) (hlow : 1 ≤ p)
    (hp : p < capacity / 2) (hleft : (q.heap (p * 2)).tag = .empty) :
    removeLoop capacity (fuel + 1) q p = some q.release := by
  obtain ⟨next, heap, held⟩ := q
  dsimp only at *
  subst hheld
  have h1 : p * 2 < capacity := by omega
  have h2 : p * 2 + 1 < capacity := by omega
  have h3 : p ≤ p * 2 := by omega
  have h4 : p ≤ p * 2 + 1 := by omega
  have h5 : p ≤ capacity := by omega
  simp [removeLoop, PQueue.lock, PQueue.unlock, PQueue.release, hp, h1, h2, h3, h4, h5, h1.le,
    h2.le,
    hleft]

/-- The child that is compared with its parent. -/
def PQueue.child (q : PQueue Data) (p : Nat) : Nat :=
  if (q.heap (p * 2 + 1)).tag = .empty ∨ (q.heap (p * 2)).score < (q.heap (p * 2 + 1)).score then
    p * 2
  else p * 2 + 1

theorem removeLoop_swap {p fuel : Nat} (hheld : q.held = [p]) (hlow : 1 ≤ p)
    (hp : p < capacity / 2) (hleft : (q.heap (p * 2)).tag ≠ .empty)
    (hchild : (q.heap (q.child p)).tag ≠ .empty)
    (hlt : (q.heap (q.child p)).score < (q.heap p).score) :
    removeLoop capacity (fuel + 1) q p =
      removeLoop capacity fuel { q.swap p (q.child p) with held := [q.child p] } (q.child p) := by
  obtain ⟨next, heap, held⟩ := q
  dsimp only at *
  subst hheld
  have h1 : p * 2 < capacity := by omega
  have h2 : p * 2 + 1 < capacity := by omega
  have h3 : p ≤ p * 2 := by omega
  have h4 : p ≤ p * 2 + 1 := by omega
  have h5 : p ≤ capacity := by omega
  have h6 : p ≠ p * 2 := by omega
  have h7 : p ≠ p * 2 + 1 := by omega
  by_cases huse : (heap (p * 2 + 1)).tag = .empty ∨
      (heap (p * 2)).score < (heap (p * 2 + 1)).score
  · rw [PQueue.child, if_pos huse] at hchild hlt ⊢
    simp [removeLoop, PQueue.lock, PQueue.unlock, PQueue.swap, hp, h1, h2, h3, h4, h5, h6, h6.symm,
      h1.le, h2.le, hleft, huse, hlt, hlt.le]
  · have hright : ¬ (heap (p * 2)).score < (heap (p * 2 + 1)).score := fun h => huse (Or.inr h)
    rw [PQueue.child, if_neg huse] at hchild hlt ⊢
    simp [removeLoop, PQueue.lock, PQueue.unlock, PQueue.swap, hp, h1, h2, h3, h4, h5, h7, h7.symm,
      h1.le, h2.le, hleft, hright, hchild, hlt, hlt.le]

theorem removeLoop_stop {p fuel : Nat} (hheld : q.held = [p]) (hlow : 1 ≤ p)
    (hp : p < capacity / 2) (hleft : (q.heap (p * 2)).tag ≠ .empty)
    (hle : (q.heap p).score ≤ (q.heap (q.child p)).score) :
    removeLoop capacity (fuel + 1) q p = some q.release := by
  obtain ⟨next, heap, held⟩ := q
  dsimp only at *
  subst hheld
  have h1 : p * 2 < capacity := by omega
  have h2 : p * 2 + 1 < capacity := by omega
  have h3 : p ≤ p * 2 := by omega
  have h4 : p ≤ p * 2 + 1 := by omega
  have h5 : p ≤ capacity := by omega
  by_cases huse : (heap (p * 2 + 1)).tag = .empty ∨
      (heap (p * 2)).score < (heap (p * 2 + 1)).score
  · rw [PQueue.child, if_pos huse] at hle
    simp [removeLoop, PQueue.lock, PQueue.unlock, PQueue.release, hp, h1, h2, h3, h4, h5,
      h1.le, h2.le, hleft, huse, hle, hle.not_gt]
  · rw [PQueue.child, if_neg huse] at hle
    simp [removeLoop, PQueue.lock, PQueue.unlock, PQueue.release, hp, h1, h2, h3, h4, h5,
      h1.le, h2.le, hleft, huse, hle, hle.not_gt]

/-- The node is in its place. -/
theorem Sinking.finish {p : Nat} (h : Sinking capacity q p)
    (hstop : ∀ i, 2 ≤ i → i < q.next → i / 2 = p → q.score p ≤ q.score i) :
    Filled capacity q.release :=
  ⟨rfl, h.low.trans h.below.le, Nat.le_succ_of_le h.high, h.used, h.free, h.order.done hstop⟩

theorem Sinking.child {p : Nat} (h : Sinking capacity q p) (hleft : p * 2 < q.next)
    (hright : p * 2 + 1 ≤ capacity) :
    q.child p / 2 = p ∧ q.child p < q.next ∧
      ∀ i, 2 ≤ i → i < q.next → i / 2 = p → q.score (q.child p) ≤ q.score i := by
  have hlow := h.low
  have hempty (hlt : p * 2 + 1 < q.next) : (q.heap (p * 2 + 1)).tag ≠ .empty := by
    rw [(h.used _ (by omega) hlt).tag]
    exact Tag.noConfusion
  rw [PQueue.child]
  split
  · rename_i huse
    refine ⟨by omega, hleft, fun i hi hin hparent => ?_⟩
    obtain rfl | rfl : i = p * 2 ∨ i = p * 2 + 1 := by omega
    · exact Nat.le_refl _
    · exact (huse.resolve_left (hempty hin)).le
  · rename_i huse
    obtain ⟨hright', hle⟩ := not_or.mp huse
    have hlt : p * 2 + 1 < q.next := by
      by_contra hge
      exact hright' (h.free _ (Nat.le_of_not_lt hge) hright)
    refine ⟨by omega, hlt, fun i hi hin hparent => ?_⟩
    obtain rfl | rfl : i = p * 2 ∨ i = p * 2 + 1 := by omega
    · exact Nat.le_of_not_lt hle
    · exact Nat.le_refl _

theorem Sinking.swap {p c : Nat} (h : Sinking capacity q p) (hc : c / 2 = p) (hcn : c < q.next)
    (hlt : q.score c < q.score p)
    (hleast : ∀ i, 2 ≤ i → i < q.next → i / 2 = p → q.score c ≤ q.score i) :
    Sinking capacity { q.swap p c with held := [c] } c := by
  have hlow := h.low
  have hheap (i : Nat) : ({ q.swap p c with held := [c] } : PQueue Data).heap i =
      swapped q.heap p c i := congrFun (swap_heap q p c) i
  refine ⟨rfl, by omega, hcn, h.high, fun i hi hin => ?_, fun i hi hicap => ?_, ?_⟩
  · have hin : i < q.next := hin
    rw [hheap]
    rcases eq_or_ne i p with rfl | hip
    · rw [swapped_left]
      exact h.used c (by omega) hcn
    · rcases eq_or_ne i c with rfl | hic
      · rw [swapped_right]
        exact h.used p hlow h.below
      · rw [swapped_of_ne _ hip hic]
        exact h.used i hi hin
  · have hi : q.next ≤ i := hi
    have hbelow := h.below
    rw [hheap, swapped_of_ne _ (by omega) (by omega)]
    exact h.free i hi hicap
  · have hscore : ({ q.swap p c with held := [c] } : PQueue Data).score = swapped q.score p c :=
      swap_score q p c
    rw [hscore]
    exact h.order.swap hlow hc hlt hleast hcn

/-- The node finds its place on the way down. The rounds that the half of the array allows are
enough. -/
theorem removeLoop_fills {p k : Nat} (fuel : Nat) (hpow : capacity = 2 ^ k)
    (h : Sinking capacity q p)
    (hfuel : 1 ≤ fuel) (hrounds : capacity / 2 < fuel + p) :
    ∃ q', removeLoop capacity fuel q p = some q' ∧ Filled capacity q' ∧ q'.items = q.items := by
  induction fuel generalizing q p with
  | zero => omega
  | succ fuel ih =>
    have hlow := h.low
    have hbelow := h.below
    have hhigh := h.high
    rcases Nat.lt_or_ge p (capacity / 2) with hp | hp
    · rcases Nat.lt_or_ge (p * 2) q.next with hleft | hleft
      · obtain ⟨hparent, hcn, hleast⟩ := h.child hleft (by omega)
        have hleftTag : (q.heap (p * 2)).tag ≠ .empty := by
          rw [(h.used _ (by omega) hleft).tag]
          exact Tag.noConfusion
        by_cases hlt : q.score (q.child p) < q.score p
        · have hchildTag : (q.heap (q.child p)).tag ≠ .empty := by
            rw [(h.used _ (by omega) hcn).tag]
            exact Tag.noConfusion
          rw [removeLoop_swap h.held hlow hp hleftTag hchildTag hlt]
          obtain ⟨q', heq, hfilled, hitems⟩ := ih (h.swap hparent hcn hlt hleast) (by omega)
            (by omega)
          refine ⟨q', heq, hfilled, hitems.trans ?_⟩
          exact swap_items hlow hbelow (by omega) hcn
        · rw [removeLoop_stop h.held hlow hp hleftTag (Nat.le_of_not_lt hlt)]
          refine ⟨_, rfl, h.finish fun i hi hin hip => ?_, rfl⟩
          exact (Nat.le_of_not_lt hlt).trans (hleast i hi hin hip)
      · rw [removeLoop_leaf h.held hlow hp (h.free _ hleft (by omega))]
        exact ⟨_, rfl, h.finish fun i hi hin hip => by omega, rfl⟩
    · have hcap : capacity ≤ p * 2 := by
        cases k with
        | zero => omega
        | succ k =>
          rw [Nat.pow_succ] at hpow
          omega
      rw [removeLoop_end h.held (by omega) hp]
      exact ⟨_, rfl, h.finish fun i hi hin hip => by omega, rfl⟩

theorem vqueuePrioRemoveMin_empty (h : Filled capacity q) (hempty : q.next = 1) :
    vqueuePrioRemoveMin capacity q = some (q, none) := by
  obtain ⟨next, heap, held⟩ := q
  have hheld := h.held
  dsimp only at *
  subst hheld hempty
  simp [vqueuePrioRemoveMin, PQueue.lock, PQueue.unlock]

/-- The queue after the root was emptied and exchanged with the bottom. -/
def PQueue.pop (q : PQueue Data) (held : List Nat) : PQueue Data where
  next := q.next - 1
  heap := swapped (update q.heap 1 { q.heap 1 with tag := .empty, owner := noOne })
    (q.next - 1) 1
  held := held

/-- The code's exchange, made on the array itself. -/
theorem pop_heap (heap : Nat → Node Data) (b : Nat) (node : Node Data) :
    update (update (update heap 1 node) b
      (update heap 1 node 1)) 1 (update heap 1 node b) =
        swapped (update heap 1 node) b 1 :=
  swap_heap ⟨0, update heap 1 node, []⟩ b 1

theorem vqueuePrioRemoveMin_last (h : Filled capacity q) (hlast : q.next = 2) :
    vqueuePrioRemoveMin capacity q = some (q.pop [], (q.heap 1).data) := by
  have htag := (h.used 1 (Nat.le_refl 1) (by omega)).tag
  have hcap : 0 < capacity := by
    have hhigh := h.high
    omega
  have hpop := pop_heap q.heap 1 { q.heap 1 with tag := .empty, owner := noOne }
  obtain ⟨next, heap, held⟩ := q
  have hheld := h.held
  dsimp only at *
  subst hheld hlast
  simp [vqueuePrioRemoveMin, PQueue.lock, PQueue.unlock, PQueue.swap, PQueue.pop, ← hpop, hcap,
    Nat.one_le_of_lt hcap, htag]

theorem vqueuePrioRemoveMin_more (h : Filled capacity q) (hmore : 3 ≤ q.next) :
    vqueuePrioRemoveMin capacity q =
      (removeLoop capacity capacity (q.pop [1]) 1).map fun q' => (q', (q.heap 1).data) := by
  have htag := (h.used 1 (Nat.le_refl 1) (by omega)).tag
  have hbottom := (h.used (q.next - 1) (by omega) (by omega)).tag
  have hhigh := h.high
  have hpop := pop_heap q.heap (q.next - 1) { q.heap 1 with tag := .empty, owner := noOne }
  obtain ⟨next, heap, held⟩ := q
  have hheld := h.held
  dsimp only at *
  subst hheld
  have h1 : next ≠ 1 := by omega
  have h2 : 1 < next := by omega
  have h3 : 0 < capacity := by omega
  have h5 : 1 ≤ next - 1 := by omega
  have h6 : next - 1 ≠ 1 := by omega
  have h7 : next - 1 ≠ 0 := by omega
  simp [vqueuePrioRemoveMin, PQueue.lock, PQueue.unlock, PQueue.swap, PQueue.pop, ← hpop, h1, h2,
    h3, hhigh, h5, h6, h7, htag, hbottom]
  rw [Option.map_eq_bind]
  rfl

theorem pop_top (held : List Nat) (hmore : 3 ≤ q.next) :
    (q.pop held).heap 1 = q.heap (q.next - 1) := by
  rw [PQueue.pop]
  dsimp only
  rw [swapped_right, update_of_ne (by omega)]

theorem pop_bottom (held : List Nat) :
    (q.pop held).heap (q.next - 1) = { q.heap 1 with tag := .empty, owner := noOne } := by
  rw [PQueue.pop]
  dsimp only
  rw [swapped_left, update_self]

theorem pop_of_ne (held : List Nat) {i : Nat} (h1 : i ≠ 1) (hb : i ≠ q.next - 1) :
    (q.pop held).heap i = q.heap i := by
  rw [PQueue.pop]
  dsimp only
  rw [swapped_of_ne _ hb h1, update_of_ne h1]

theorem pop_items (held : List Nat) (hmore : 2 ≤ q.next) :
    q.items = item (q.heap 1) ::ₘ (q.pop held).items := by
  have hcleared : contents (fun i => item ((q.pop held).heap i)) q.next = q.items := by
    refine Eq.trans (contents_swapped (fun i => item (update q.heap 1
      { q.heap 1 with tag := .empty, owner := noOne } i)) (by omega : 1 ≤ q.next - 1) (by omega)
      (Nat.le_refl 1) (by omega)) (contents_congr fun i _ _ => ?_)
    rcases eq_or_ne i 1 with rfl | hi
    · rw [update_self]
      rfl
    · rw [update_of_ne hi]
  have hnext : q.next = q.next - 1 + 1 := by omega
  rw [hnext, contents_succ _ (by omega), pop_bottom] at hcleared
  exact hcleared.symm

theorem Filled.pop (h : Filled capacity q) (hmore : 3 ≤ q.next) :
    Sinking capacity (q.pop [1]) 1 := by
  have hhigh := h.high
  have hnext : (q.pop [1]).next = q.next - 1 := rfl
  constructor
  · rfl
  · exact Nat.le_refl 1
  · omega
  · omega
  · intro i hi hin
    rcases eq_or_ne i 1 with rfl | hi1
    · rw [pop_top [1] hmore]
      exact h.used _ (by omega) (by omega)
    · rw [pop_of_ne [1] hi1 (by omega)]
      exact h.used i hi (by omega)
  · intro i hi hicap
    rcases eq_or_ne i (q.next - 1) with rfl | hib
    · rw [pop_bottom]
    · rw [pop_of_ne [1] (by omega) hib]
      exact h.free i (by omega) hicap
  · refine ⟨fun i hi hin hparent => ?_, fun i hi hin hparent hc => by omega⟩
    rw [PQueue.score, PQueue.score, pop_of_ne [1] hparent (by omega),
      pop_of_ne [1] (by omega) (by omega)]
    exact h.ordered i hi (by omega)

theorem Filled.pop_last (h : Filled capacity q) (hlast : q.next = 2) :
    Filled capacity (q.pop []) := by
  have hhigh := h.high
  have hnext : (q.pop []).next = 1 := by
    rw [PQueue.pop]
    dsimp only
    omega
  refine ⟨rfl, by omega, by omega, fun i hi hin => by omega, fun i hi hicap => ?_,
    fun i hi hin => by omega⟩
  rcases eq_or_ne i (q.next - 1) with rfl | hib
  · rw [pop_bottom]
  · rw [pop_of_ne [] (by omega) hib]
    exact h.free i (by omega) hicap

theorem card_items (q : PQueue Data) : q.items.card = q.next - 1 := card_contents _ _

theorem Filled.least (h : Filled capacity q) {x : Nat × Option Data} (hx : x ∈ q.items) :
    q.score 1 ≤ x.1 := by
  obtain ⟨i, hi, hin, rfl⟩ := mem_contents.mp hx
  exact h.ordered.root_le hi hin

/-- One call of either function, made on `q`, does what a priority queue does, and the locks are
released. -/
structure Serves (capacity tid : Nat) (q : PQueue Data) : Prop where
  add : ∀ data priority, priority ≤ 2 ^ 32 - 1 → ∃ q' ok,
    vqueuePrioAdd capacity tid q data priority = some (q', ok) ∧ q'.held = [] ∧
      (ok = false ↔ q.items.card = capacity) ∧
      q'.items = if ok then (priority, some data) ::ₘ q.items else q.items
  removeMin : ∃ q' ret, vqueuePrioRemoveMin capacity q = some (q', ret) ∧ q'.held = [] ∧
    (ret = none ↔ q.items = 0) ∧ (ret = none → q'.items = q.items) ∧
    ∀ data, ret = some data → ∃ score, q.items = (score, some data) ::ₘ q'.items ∧
      ∀ x ∈ q.items, score ≤ x.1

theorem Filled.add (h : Filled capacity q) (tid : Nat) (data : Data) {priority : Nat}
    (hpriority : priority ≤ 2 ^ 32 - 1) : ∃ q' ok,
    vqueuePrioAdd capacity tid q data priority = some (q', ok) ∧ Filled capacity q' ∧
      (ok = false ↔ q.items.card = capacity) ∧
      q'.items = if ok then (priority, some data) ::ₘ q.items else q.items := by
  have hlow := h.low
  have hcard := card_items q
  rcases Nat.eq_or_lt_of_le h.high with hfull | hroom
  · refine ⟨q, false, vqueuePrioAdd_full h hfull data priority, h, ⟨fun _ => ?_, fun _ => rfl⟩,
      rfl⟩
    omega
  · obtain ⟨hrising, hitems⟩ := h.push (Nat.le_of_lt_succ hroom) tid data priority
    obtain ⟨q', heq, hfilled, hkept⟩ := addLoop_fills hrising
    refine ⟨q', true, ?_, hfilled, ⟨fun hok => ?_, fun hok => ?_⟩, hkept.trans hitems⟩
    · rw [vqueuePrioAdd_room h (Nat.le_of_lt_succ hroom) data hpriority, heq]
      rfl
    · exact Bool.noConfusion hok
    · omega

theorem Filled.removeMin {k : Nat} (hpow : capacity = 2 ^ k) (h : Filled capacity q) : ∃ q' ret,
    vqueuePrioRemoveMin capacity q = some (q', ret) ∧ Filled capacity q' ∧
      (ret = none ↔ q.items = 0) ∧ (ret = none → q'.items = q.items) ∧
      ∀ data, ret = some data → ∃ score, q.items = (score, some data) ::ₘ q'.items ∧
        ∀ x ∈ q.items, score ≤ x.1 := by
  have hlow := h.low
  have hcard := card_items q
  rcases Nat.eq_or_lt_of_le h.low with hempty | hsome
  · have hzero : q.items = 0 := Multiset.card_eq_zero.mp (by omega)
    exact ⟨q, none, vqueuePrioRemoveMin_empty h hempty.symm, h, ⟨fun _ => hzero, fun _ => rfl⟩,
      fun _ => rfl, fun data hsomeData => (Option.some_ne_none data hsomeData.symm).elim⟩
  · have hdata := (h.used 1 (Nat.le_refl 1) hsome).data
    have hpos : q.items ≠ 0 := fun hzero => by
      rw [hzero, Multiset.card_zero] at hcard
      omega
    -- Both kinds of calls take the root's item.
    have htaken (q' : PQueue Data) (hitems : q.items = item (q.heap 1) ::ₘ q'.items) :
        ((q.heap 1).data = none ↔ q.items = 0) ∧ ((q.heap 1).data = none → q'.items = q.items) ∧
        ∀ data, (q.heap 1).data = some data → ∃ score, q.items = (score, some data) ::ₘ q'.items ∧
          ∀ x ∈ q.items, score ≤ x.1 := by
      refine ⟨⟨fun hnone => absurd hnone hdata, fun hzero => absurd hzero hpos⟩,
        fun hnone => absurd hnone hdata, fun data hsomeData => ⟨q.score 1, ?_, fun x => h.least⟩⟩
      rw [← hsomeData]
      exact hitems
    rcases Nat.eq_or_lt_of_le hsome with hlast | hmore
    · exact ⟨_, _, vqueuePrioRemoveMin_last h hlast.symm, h.pop_last hlast.symm,
        htaken _ (pop_items [] hsome)⟩
    · have hpow1 : 1 ≤ capacity := hpow ▸ Nat.one_le_two_pow
      obtain ⟨q', heq, hfilled, hitems⟩ :=
        removeLoop_fills capacity hpow (h.pop hmore) hpow1 (by omega)
      refine ⟨q', _, ?_, hfilled, htaken q' (hitems ▸ pop_items [1] hsome)⟩
      rw [vqueuePrioRemoveMin_more h hmore, heq]
      rfl

theorem Filled.serves {k : Nat} (hpow : capacity = 2 ^ k) (h : Filled capacity q) :
    Serves capacity tid q := by
  constructor
  · intro data priority hpriority
    obtain ⟨q', ok, heq, hfilled, hrest⟩ := h.add tid data hpriority
    exact ⟨q', ok, heq, hfilled.held, hrest⟩
  · obtain ⟨q', ret, heq, hfilled, hrest⟩ := h.removeMin hpow
    exact ⟨q', ret, heq, hfilled.held, hrest⟩

theorem vqueuePrioInit_filled (hcap : 1 ≤ capacity) (memory : Nat → Nat) :
    Filled capacity (vqueuePrioInit memory : PQueue Data) := by
  refine ⟨rfl, Nat.le_refl 1, by show 1 ≤ capacity + 1; omega, fun i hi hin => ?_,
    fun i _ _ => rfl, fun i hi hin => ?_⟩
  · have hin : i < 1 := hin
    omega
  · have hin : i < 1 := hin
    omega

/-- A call of one of the two functions. -/
inductive Op (Data : Type) where
  | add (data : Data) (priority : Nat)
  | removeMin

/-- The priority passes the function's assertion. -/
def Op.Sound : Op Data → Prop
  | .add _ priority => priority ≤ 2 ^ 32 - 1
  | .removeMin => True

def Op.apply (capacity tid : Nat) (q : PQueue Data) : Op Data → Option (PQueue Data)
  | .add data priority => (vqueuePrioAdd capacity tid q data priority).map Prod.fst
  | .removeMin => (vqueuePrioRemoveMin capacity q).map Prod.fst

theorem Filled.apply {k : Nat} (hpow : capacity = 2 ^ k) (h : Filled capacity q) (tid : Nat)
    (op : Op Data) (hop : op.Sound) : ∃ q', op.apply capacity tid q = some q' ∧
    Filled capacity q' := by
  cases op with
  | add data priority =>
    obtain ⟨q', ok, heq, hfilled, _⟩ := h.add tid data hop
    exact ⟨q', congrArg (Option.map Prod.fst) heq, hfilled⟩
  | removeMin =>
    obtain ⟨q', ret, heq, hfilled, _⟩ := h.removeMin hpow
    exact ⟨q', congrArg (Option.map Prod.fst) heq, hfilled⟩

/-- On a heap whose capacity is a power of two, every sequence of calls returns, and each further
call adds its item or takes an item of least score. -/
theorem vqueuePrio_serves (k tid : Nat) (memory : Nat → Nat) (ops : List (Op Data))
    (hops : ∀ op ∈ ops, op.Sound) :
    (vqueuePrioInit memory : PQueue Data).items = 0 ∧
    ∃ q, ops.foldlM (Op.apply (2 ^ k) tid) (vqueuePrioInit memory) = some q ∧
      Serves (2 ^ k) tid q := by
  refine ⟨rfl, ?_⟩
  have hinit : Filled (2 ^ k) (vqueuePrioInit memory : PQueue Data) :=
    vqueuePrioInit_filled Nat.one_le_two_pow memory
  generalize (vqueuePrioInit memory : PQueue Data) = q at hinit ⊢
  induction ops generalizing q with
  | nil => exact ⟨q, rfl, hinit.serves rfl⟩
  | cons op ops ih =>
    obtain ⟨q', heq, hfilled⟩ := hinit.apply rfl tid op (hops op List.mem_cons_self)
    rw [List.foldlM_cons, heq]
    exact ih (fun op hop => hops op (List.mem_cons_of_mem _ hop)) q' hfilled

theorem vqueuePrio_serves_full : ∃ q : PQueue Char,
    [Op.add 'a' 7, Op.add 'b' 3, Op.add 'c' 5, Op.removeMin].foldlM (Op.apply (2 ^ 1) 0)
      (vqueuePrioInit fun i => i) = some q ∧ Serves (2 ^ 1) 0 q :=
  (vqueuePrio_serves 1 0 (fun i => i)
    [Op.add 'a' 7, Op.add 'b' 3, Op.add 'c' 5, Op.removeMin] (by simp [Op.Sound])).2

end Libvsync.Queue.PrioHeap
