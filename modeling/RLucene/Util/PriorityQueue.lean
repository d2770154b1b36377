import Mathlib.Data.Multiset.AddSub
import RLucene.Lib.BinaryHeap
import RLucene.Store.DataOutput

/-!
# Priority queues

A priority queue is a binary heap of bounded size. The array of the source has an unused first
entry, so positions are counted from one there; here they are counted from zero. `Holds lt q items`
says what is in the queue: clients see its elements as a multiset, of which the top is least.
-/

namespace RLucene.Util

open Multiset Lib Store

/-- A queue of a bounded size. -/
structure PriorityQueue (α : Type) where
  heap : List α
  maxSize : Nat

namespace PriorityQueue

variable {α : Type} (lt : α → α → Bool)

/-- An empty queue, if the bound is small enough. -/
def new (maxSize : Nat) : Result (PriorityQueue α) :=
  if maxSize ≠ 0 ∧ 2147483647 ≤ maxSize then
    .error (.illegalArgument s!"maxSize must be >= 0 and < 2147483647; got: {maxSize}")
  else .ok ⟨[], maxSize⟩

/-- How many elements there are. -/
def size (q : PriorityQueue α) : Nat :=
  q.heap.length

/-- The least element. -/
def top (q : PriorityQueue α) : Option α :=
  q.heap.head?

/-- The room of the array. There is always one place, to avoid a test in `top`. -/
def capacity (q : PriorityQueue α) : Nat :=
  if q.maxSize = 0 then 1 else q.maxSize

/-- Add an element, if there is room. -/
def add (q : PriorityQueue α) (element : α) : Result (PriorityQueue α) :=
  if q.capacity < q.size + 1 then
    .error (.arrayIndexOutOfBounds
      s!"Cannot add an element to a queue with remaining capacity: {q.maxSize - q.size}")
  else .ok { q with heap := BinaryHeap.add lt q.heap element }

/-- Replace the top and move it to its place. -/
def updateTopWithNewTop (q : PriorityQueue α) (newTop : α) : PriorityQueue α :=
  { q with heap := BinaryHeap.updateTop lt (q.heap.set 0 newTop) }

/-- Remove the least element. -/
def pop (q : PriorityQueue α) : Option α × PriorityQueue α :=
  (q.top, { q with heap := BinaryHeap.pop lt q.heap })

/-- Add an element. If the queue is full, the least one is dropped. -/
def insertWithOverflow (q : PriorityQueue α) (element : α) :
    Result (Option α × PriorityQueue α) :=
  if q.size < q.maxSize then do
    let q ← q.add lt element
    return (none, q)
  else
    match q.top with
    | none => .ok (some element, q)
    | some top =>
      if lt top element then .ok (some top, q.updateTopWithNewTop lt element)
      else .ok (some element, q)

/-! ## What a queue holds -/

/-- The queue holds the elements, in a heap. -/
structure Holds (q : PriorityQueue α) (items : Multiset α) : Prop where
  ordered : BinaryHeap.Ordered lt 0 q.heap
  items_eq : (q.heap : Multiset α) = items

variable {lt} {q : PriorityQueue α} {items : Multiset α}

theorem holds_nil (lt : α → α → Bool) (maxSize : Nat) :
    Holds lt (⟨[], maxSize⟩ : PriorityQueue α) 0 :=
  ⟨BinaryHeap.ordered_nil 0, rfl⟩

/-- A new queue is empty. -/
theorem new_holds (lt : α → α → Bool) {maxSize : Nat} (hsize : maxSize < 2147483647) :
    ∃ q : PriorityQueue α, new maxSize = .ok q ∧ q.maxSize = maxSize ∧ Holds lt q 0 := by
  refine ⟨⟨[], maxSize⟩, ?_, rfl, holds_nil lt maxSize⟩
  rw [new, if_neg]
  omega

/-- No queue is made with another bound. -/
theorem lt_of_new {maxSize : Nat} {q : PriorityQueue α} (h : new maxSize = .ok q) :
    maxSize < 2147483647 := by
  by_contra hlarge
  rw [new, if_pos (by omega)] at h
  cases h

section

variable (hlt : IsComparison lt) (h : Holds lt q items)

include h

theorem Holds.size_eq : q.size = items.card := by
  rw [← h.items_eq, coe_card, size]

theorem Holds.top_eq_none : q.top = none ↔ items = 0 := by
  rw [← h.items_eq, top, List.head?_eq_none_iff, coe_eq_zero]

variable {t : α} {rest : Multiset α}

/-- The top is the first entry. -/
theorem Holds.heap_eq (ht : q.top = some t)
    (hitems : items = t ::ₘ rest) : ∃ others, q.heap = t :: others ∧
    (others : Multiset α) = rest := by
  obtain ⟨others, hheap⟩ := List.head?_eq_some_iff.mp ht
  have hsame := h.items_eq
  rw [hheap, hitems, ← cons_coe] at hsame
  exact ⟨others, hheap, (cons_inj_right t).mp hsame⟩

/-- Only how the elements of the queue compare matters. -/
theorem Holds.congr {lt' : α → α → Bool} (heq : ∀ a ∈ items, ∀ b ∈ items, lt' a b = lt a b) :
    Holds lt' q items := by
  have hmem : ∀ {i a}, q.heap[i]? = some a → a ∈ items := fun ha =>
    h.items_eq ▸ mem_coe.mpr (List.mem_of_getElem? ha)
  refine ⟨fun i a b hi hk ha hb => ?_, h.items_eq⟩
  rw [heq a (hmem ha) b (hmem hb)]
  exact h.ordered i a b hi hk ha hb

omit h in
theorem lt_capacity {n : Nat} (hn : n < q.maxSize) : n < q.capacity := by
  unfold capacity
  split <;> omega

include hlt

/-- One element more. -/
theorem Holds.add (element : α) (hroom : items.card < q.capacity) :
    ∃ q', q.add lt element = .ok q' ∧ q'.maxSize = q.maxSize ∧ Holds lt q' (element ::ₘ items) := by
  refine ⟨{ q with heap := BinaryHeap.add lt q.heap element }, ?_, rfl,
    BinaryHeap.add_ordered hlt h.ordered element, ?_⟩
  · rw [PriorityQueue.add, if_neg]
    rw [h.size_eq]
    omega
  · rw [← h.items_eq, cons_coe]
    exact coe_eq_coe.mpr (BinaryHeap.add_perm lt q.heap element)

/-- The top is an element, and least. -/
theorem Holds.top (ht : q.top = some t) :
    ∃ rest, items = t ::ₘ rest ∧ ∀ a ∈ items, lt a t = false := by
  obtain ⟨others, hheap⟩ := List.head?_eq_some_iff.mp ht
  refine ⟨others, ?_, fun a ha => ?_⟩
  · rw [← h.items_eq, hheap, cons_coe]
  · rw [← h.items_eq, hheap, mem_coe] at ha
    exact (hheap ▸ h.ordered).top_least hlt ha

/-- Another element in place of the top. -/
theorem Holds.updateTop (ht : q.top = some t) (hitems : items = t ::ₘ rest) (newTop : α) :
    Holds lt (q.updateTopWithNewTop lt newTop) (newTop ::ₘ rest) := by
  obtain ⟨others, hheap, rfl⟩ := h.heap_eq ht hitems
  have hset : q.heap.set 0 newTop = newTop :: others := by
    rw [hheap]
    rfl
  refine ⟨?_, ?_⟩
  · show BinaryHeap.Ordered lt 0 (BinaryHeap.updateTop lt (q.heap.set 0 newTop))
    rw [hset]
    exact BinaryHeap.updateTop_ordered hlt (h.ordered.of_top hheap)
  · show ((BinaryHeap.updateTop lt (q.heap.set 0 newTop) : List α) : Multiset α) = _
    rw [hset, cons_coe]
    exact coe_eq_coe.mpr (BinaryHeap.updateTop_perm lt _)

/-- The top is removed. -/
theorem Holds.pop (ht : q.top = some t) (hitems : items = t ::ₘ rest) :
    (q.pop lt).1 = some t ∧ Holds lt (q.pop lt).2 rest := by
  obtain ⟨others, hheap, rfl⟩ := h.heap_eq ht hitems
  have hpop := BinaryHeap.pop_spec hlt (hheap ▸ h.ordered)
  refine ⟨ht, ?_, ?_⟩
  · show BinaryHeap.Ordered lt 0 (BinaryHeap.pop lt q.heap)
    rw [hheap]
    exact hpop.1
  · show ((BinaryHeap.pop lt q.heap : List α) : Multiset α) = _
    rw [hheap]
    exact coe_eq_coe.mpr hpop.2

/-- An element that has room. -/
theorem Holds.insertWithOverflow_room (element : α) (hroom : items.card < q.maxSize) :
    ∃ q', q.insertWithOverflow lt element = .ok (none, q') ∧ q'.maxSize = q.maxSize ∧
      Holds lt q' (element ::ₘ items) := by
  obtain ⟨q', hadd, hmax, hholds⟩ := h.add hlt element (lt_capacity hroom)
  refine ⟨q', ?_, hmax, hholds⟩
  rw [insertWithOverflow, if_pos (h.size_eq ▸ hroom), hadd]
  rfl

/-- A full queue drops the least of its elements and the new one. -/
theorem Holds.insertWithOverflow_full (element : α) (hfull : q.maxSize ≤ items.card) :
    ∃ dropped q' kept, q.insertWithOverflow lt element = .ok (some dropped, q') ∧
      q'.maxSize = q.maxSize ∧ Holds lt q' kept ∧ dropped ::ₘ kept = element ::ₘ items ∧
      ∀ a ∈ kept, lt a dropped = false := by
  rw [insertWithOverflow, if_neg (by rw [h.size_eq]; omega)]
  cases htop : q.top with
  | none =>
    refine ⟨element, q, items, rfl, rfl, h, rfl, ?_⟩
    rw [h.top_eq_none.mp htop]
    simp
  | some top =>
    obtain ⟨rest, hitems, hleast⟩ := h.top hlt htop
    cases hless : lt top element with
    | true =>
      refine ⟨top, q.updateTopWithNewTop lt element, element ::ₘ rest, by simp [hless], rfl,
        h.updateTop hlt htop hitems element, ?_, fun a ha => ?_⟩
      · rw [hitems, cons_swap]
      · rcases mem_cons.mp ha with rfl | ha
        · exact hlt.asymm hless
        · exact hleast a (hitems ▸ mem_cons_of_mem ha)
    | false =>
      refine ⟨element, q, items, by simp [hless], rfl, h, rfl, fun a ha => ?_⟩
      exact hlt.notLess_trans (hleast a ha) hless

end

/-! ## Filling two queues -/

/-- Elements go to the first queue, and what it drops goes to the second one. -/
def spill (lt lt' : α → α → Bool) : List α → PriorityQueue α → PriorityQueue α →
    Result (PriorityQueue α × PriorityQueue α)
  | [], q, r => .ok (q, r)
  | element :: elements, q, r => do
    let (evicted, q) ← q.insertWithOverflow lt element
    match evicted with
    | some dropped => do
      let r ← r.add lt' dropped
      spill lt lt' elements q r
    | none => spill lt lt' elements q r

/-- The first queue is filled first, and no element of it is less than one of the second. -/
structure Spilling (lt lt' : α → α → Bool) (q r : PriorityQueue α) (items others : Multiset α)
    (left : List α) : Prop where
  first : Holds lt q items
  second : Holds lt' r others
  card_le : items.card ≤ q.maxSize
  card_eq : items.card + others.card + left.length = q.maxSize + r.maxSize
  full_or_empty : items.card = q.maxSize ∨ others = 0
  behind : ∀ b ∈ others, ∀ a ∈ items, lt a b = false

section

variable {lt' : α → α → Bool} {r : PriorityQueue α} {others : Multiset α}
  {element : α} {left : List α}

/-- An element that finds room. -/
theorem Spilling.room (hlt : IsComparison lt)
    (h : Spilling lt lt' q r items others (element :: left))
    (hroom : items.card < q.maxSize) :
    ∃ q', q.insertWithOverflow lt element = .ok (none, q') ∧ q'.maxSize = q.maxSize ∧
      Spilling lt lt' q' r (element ::ₘ items) others left := by
  obtain ⟨q', hinsert, hmax, hholds⟩ := h.first.insertWithOverflow_room hlt element hroom
  have hcard := h.card_eq
  obtain rfl : others = 0 := h.full_or_empty.resolve_left (by omega)
  rw [List.length_cons, card_zero] at hcard
  refine ⟨q', hinsert, hmax, hholds, h.second, ?_, ?_, .inr rfl, by simp⟩
  · rw [card_cons, hmax]
    omega
  · rw [card_cons, hmax, card_zero]
    omega

/-- An element that finds the first queue full, so that one goes to the second. -/
theorem Spilling.full (hlt : IsComparison lt) (hlt' : IsComparison lt')
    (h : Spilling lt lt' q r items others (element :: left)) (hfull : items.card = q.maxSize) :
    ∃ dropped q' r' items', q.insertWithOverflow lt element = .ok (some dropped, q') ∧
      r.add lt' dropped = .ok r' ∧ q'.maxSize = q.maxSize ∧ r'.maxSize = r.maxSize ∧
      dropped ::ₘ items' = element ::ₘ items ∧
      Spilling lt lt' q' r' items' (dropped ::ₘ others) left := by
  obtain ⟨dropped, q', items', hinsert, hmax, hholds, hsame, hleast⟩ :=
    h.first.insertWithOverflow_full hlt element hfull.ge
  have hcard := h.card_eq
  rw [List.length_cons] at hcard
  obtain ⟨r', hadd, hmax', hholds'⟩ := h.second.add hlt' dropped (lt_capacity (by omega))
  have hcard' : items'.card = items.card := by
    simpa using congrArg Multiset.card hsame
  refine ⟨dropped, q', r', items', hinsert, hadd, hmax, hmax', hsame, hholds, hholds', by omega, ?_,
    .inl (by omega), ?_⟩
  · rw [card_cons]
    omega
  · intro b hb a ha
    rcases mem_cons.mp hb with rfl | hb
    · exact hleast a ha
    · -- either the element was there before, or it came for one that was
      have ha' : a ∈ element ::ₘ items := hsame ▸ mem_cons_of_mem ha
      rcases mem_cons.mp ha' with rfl | ha'
      · have hd : dropped ∈ a ::ₘ items := hsame ▸ mem_cons_self _ _
        rcases mem_cons.mp hd with rfl | hd
        · rw [cons_inj_right] at hsame
          exact h.behind b hb dropped (hsame ▸ ha)
        · exact hlt.notLess_trans (hleast a ha) (h.behind b hb dropped hd)
      · exact h.behind b hb a ha'

/-- At the end both queues are full. -/
theorem Spilling.spill (hlt : IsComparison lt) (hlt' : IsComparison lt')
    (h : Spilling lt lt' q r items others left) :
    ∃ q' r' items' others', spill lt lt' left q r = .ok (q', r') ∧ Holds lt q' items' ∧
      Holds lt' r' others' ∧ q'.maxSize = q.maxSize ∧ r'.maxSize = r.maxSize ∧
      items'.card = q.maxSize ∧ others'.card = r.maxSize ∧
      items' + others' = items + others + (left : Multiset α) ∧
      ∀ b ∈ others', ∀ a ∈ items', lt a b = false := by
  induction left generalizing q r items others with
  | nil =>
    have hcard := h.card_eq
    have hle := h.card_le
    rw [List.length_nil] at hcard
    have hfull : items.card = q.maxSize := by
      rcases h.full_or_empty with hfull | rfl
      · exact hfull
      · rw [card_zero] at hcard
        omega
    exact ⟨q, r, items, others, rfl, h.first, h.second, rfl, rfl,
      hfull, by omega, by simp, h.behind⟩
  | cons element left ih =>
    unfold PriorityQueue.spill
    rcases Nat.lt_or_ge items.card q.maxSize with hroom | hge
    · obtain ⟨q₁, hinsert, hmax, hnext⟩ := h.room hlt hroom
      obtain ⟨q', r', items', others', hrun, hfirst, hsecond, hmax₁, hmax₂, hcard, hcard', hsame,
        hbehind⟩ := ih hnext
      refine ⟨q', r', items', others', ?_, hfirst, hsecond, hmax₁.trans hmax,
        hmax₂, hcard.trans hmax, hcard', ?_, hbehind⟩
      · rw [hinsert]
        exact hrun
      · rw [hsame, ← cons_coe]
        simp only [cons_add, add_cons]
    · obtain ⟨dropped, q₁, r₁, items₁, hinsert, hadd, hmax, hmax', hdrop, hnext⟩ :=
        h.full hlt hlt' (le_antisymm h.card_le hge)
      obtain ⟨q', r', items', others', hrun, hfirst, hsecond, hmax₁, hmax₂, hcard, hcard', hsame,
        hbehind⟩ := ih hnext
      refine ⟨q', r', items', others', ?_, hfirst, hsecond, hmax₁.trans hmax, hmax₂.trans hmax',
        hcard.trans hmax, hcard'.trans hmax', ?_, hbehind⟩
      · rw [hinsert, ok_bind]
        simp only [hadd, ok_bind]
        exact hrun
      · rw [hsame, ← cons_coe, add_cons, ← cons_add, hdrop]
        simp only [cons_add, add_cons]

end

end PriorityQueue

end RLucene.Util
