import Mathlib.Data.Multiset.AddSub
import RLucene.Lib.BinaryHeap

/-!
# Heaps of longs

A heap of `i64` values in an array that keeps what earlier uses left behind the last value. The
array of the source has an unused first entry, so positions are counted from one there; here the
entries start at zero. `Holds h items` says what is in the heap, whatever else is in the array.
-/

namespace RLucene.Util

open List Lib

/-- A heap in an array. -/
structure LongHeap where
  heap : List Int
  size : Nat
  size_le : size ≤ heap.length

namespace LongHeap

/-- The order of the heap. -/
def less (a b : Int) : Bool :=
  decide (a < b)

/-- An empty heap. -/
def new (maxSize : Nat) : LongHeap :=
  ⟨replicate maxSize 0, 0, Nat.zero_le _⟩

/-- Forget the values. -/
def clear (h : LongHeap) : LongHeap :=
  { h with size := 0, size_le := Nat.zero_le _ }

/-- The values in the heap. -/
def live (h : LongHeap) : List Int :=
  h.heap.take h.size

/-- The entry at a position of the heap, counted from one. -/
def get (h : LongHeap) (i : Nat) : Int :=
  h.heap.getD (i - 1) 0

/-- The least value. -/
def top (h : LongHeap) : Int :=
  h.get 1

/-- The array after room for one more value has been made. -/
def grown (h : LongHeap) : List Int :=
  if h.size = h.heap.length then
    h.heap ++ replicate (((h.size + 1) * 3 + 1) / 2 - (h.size + 1)) 0
  else h.heap

theorem lt_length_grown (h : LongHeap) : h.size < h.grown.length := by
  have := h.size_le
  unfold grown
  split
  · rw [length_append, length_replicate]
    omega
  · omega

theorem length_siftUp (fuel : Nat) (l : List Int) (i : Nat) (node : Int) :
    (BinaryHeap.siftUp less fuel l i node).length = l.length := by
  induction fuel generalizing l i with
  | zero => exact length_set
  | succ fuel ih =>
    unfold BinaryHeap.siftUp
    split
    · exact length_set
    · split
      · split
        · rw [ih, length_set]
        · exact length_set
      · exact length_set

theorem length_siftDown (fuel : Nat) (l : List Int) (i : Nat) (node : Int) :
    (BinaryHeap.siftDown less fuel l i node).length = l.length := by
  induction fuel generalizing l i with
  | zero => exact length_set
  | succ fuel ih =>
    unfold BinaryHeap.siftDown
    split
    · exact length_set
    · split
      · split
        · rw [ih, length_set]
        · exact length_set
      · exact length_set

/-- Adds a value. The new value sifts up from the first place behind the others. -/
def push (h : LongHeap) (element : Int) : LongHeap where
  heap := BinaryHeap.siftUp less (h.size + 1) (h.grown.take (h.size + 1)) h.size element ++
    h.grown.drop (h.size + 1)
  size := h.size + 1
  size_le := by
    have := h.lt_length_grown
    rw [length_append, length_siftUp, length_take, length_drop]
    omega

/-- Replaces the top, and sifts the new one down. -/
def updateTop (h : LongHeap) (value : Int) : LongHeap where
  heap := BinaryHeap.siftDown less h.size ((h.heap.set 0 value).take h.size) 0 value ++
    (h.heap.set 0 value).drop h.size
  size := h.size
  size_le := by
    have := h.size_le
    rw [length_append, length_siftDown, length_take, length_drop, length_set]
    omega

/-! ## What a heap holds -/

theorem less_isComparison : IsComparison less :=
  isComparison_lt _

theorem live_length (h : LongHeap) : h.live.length = h.size := by
  have := h.size_le
  rw [live, length_take]
  omega

/-- The heap of the values, with one more. -/
theorem live_push (h : LongHeap) (element : Int) :
    (h.push element).live = BinaryHeap.add less h.live element := by
  have hgrown := h.lt_length_grown
  have hsize := h.size_le
  have hlen : (h.grown.take (h.size + 1)).length = h.size + 1 := by
    rw [length_take]
    omega
  -- the values stay where they are, and the new one takes the place behind them
  have hset : (h.grown.take (h.size + 1)).set h.size element = h.live ++ [element] := by
    rw [take_succ_eq_append_getElem hgrown, set_append_right _ _ (by rw [length_take]; omega)]
    have htake : h.grown.take h.size = h.live := by
      unfold grown
      split
      · rw [take_append_of_le_length hsize, live]
      · rfl
    rw [htake, live_length, Nat.sub_self, set_cons_zero]
  rw [live, push, take_left' (by rw [length_siftUp, hlen]), BinaryHeap.siftUp_eq _ (by omega), hset,
    BinaryHeap.add, live_length]

/-- The heap of the values, with another top. -/
theorem live_updateTop (h : LongHeap) (value : Int) :
    (h.updateTop value).live = BinaryHeap.updateTop less (h.live.set 0 value) := by
  have htake : (h.heap.set 0 value).take h.size = h.live.set 0 value := by
    rw [live, take_set]
  have hlen : (h.live.set 0 value).length = h.size := by
    rw [length_set, live_length]
  have hsift : (BinaryHeap.siftDown less h.size ((h.heap.set 0 value).take h.size) 0 value).length =
      h.size := by
    rw [length_siftDown, htake, hlen]
  rw [live, updateTop, take_left' hsift, htake]
  rcases Nat.eq_zero_or_pos h.size with hzero | hpos
  · rw [hzero] at hlen ⊢
    rw [eq_nil_of_length_eq_zero hlen]
    rfl
  · rw [BinaryHeap.siftDown_eq less_isComparison _ (by omega), set_set, BinaryHeap.updateTop, hlen]

/-- The heap has these values. -/
structure Holds (h : LongHeap) (items : Multiset Int) : Prop where
  ordered : BinaryHeap.Ordered less 0 h.live
  items_eq : (h.live : Multiset Int) = items

variable {h : LongHeap} {items : Multiset Int}

/-- An empty heap. -/
theorem clear_holds (h : LongHeap) : Holds h.clear 0 :=
  ⟨BinaryHeap.ordered_nil 0, rfl⟩

theorem Holds.size_eq (hh : Holds h items) : h.size = items.card := by
  rw [← hh.items_eq, Multiset.coe_card, live_length]

/-- One value more. -/
theorem Holds.push (hh : Holds h items) (element : Int) :
    Holds (h.push element) (element ::ₘ items) := by
  refine ⟨live_push h element ▸ BinaryHeap.add_ordered less_isComparison hh.ordered element, ?_⟩
  rw [live_push, ← hh.items_eq, Multiset.cons_coe]
  exact Multiset.coe_eq_coe.mpr (BinaryHeap.add_perm less h.live element)

theorem get_succ (h : LongHeap) {i : Nat} (hi : i < h.size) : h.get (i + 1) = h.live.getD i 0 := by
  rw [get, live, Nat.add_sub_cancel, getD_eq_getElem?_getD, getD_eq_getElem?_getD, getElem?_take,
    if_pos hi]

/-- The positions of the heap, in order, hold its values. -/
theorem map_get (h : LongHeap) : (range' 1 h.size).map h.get = h.live := by
  apply ext_getElem
  · rw [length_map, length_range', live_length]
  · intro i hi hi'
    rw [live_length] at hi'
    rw [getElem_map, getElem_range', Nat.one_mul, Nat.add_comm, get_succ h hi',
      getD_eq_getElem?_getD, getElem?_eq_getElem, Option.getD_some]

theorem live_eq_cons (hpos : 0 < h.size) : ∃ rest, h.live = h.top :: rest := by
  have hlen := live_length h
  cases hlive : h.live with
  | nil =>
    rw [hlive] at hlen
    exact absurd hlen hpos.ne
  | cons t rest =>
    refine ⟨rest, ?_⟩
    rw [top, get_succ h hpos, hlive, getD_cons_zero]

/-- The positions behind the first one hold the values other than the top. -/
theorem map_get_tail (h : LongHeap) : (range' 2 (h.size - 1)).map h.get = h.live.tail := by
  rw [← map_get, ← map_tail]
  cases h.size with
  | zero => rfl
  | succ size => rw [range'_succ, Nat.add_sub_cancel, tail_cons]

/-- The top is one of the values, and the least. -/
theorem Holds.top_spec (hh : Holds h items) (hpos : 0 < items.card) :
    ∃ rest, items = h.top ::ₘ rest ∧ ∀ a ∈ items, h.top ≤ a := by
  obtain ⟨rest, hlive⟩ := live_eq_cons (hh.size_eq ▸ hpos)
  refine ⟨rest, by rw [← hh.items_eq, hlive, Multiset.cons_coe], fun a ha => ?_⟩
  rw [← hh.items_eq, Multiset.mem_coe, hlive] at ha
  have hord := hh.ordered
  rw [hlive] at hord
  simpa [less] using hord.top_least less_isComparison ha

/-- Another value in place of the least one. -/
theorem Holds.updateTop (hh : Holds h items) {rest : Multiset Int} (hitems : items = h.top ::ₘ rest)
    (value : Int) : Holds (h.updateTop value) (value ::ₘ rest) := by
  have hpos : 0 < h.size := by
    rw [hh.size_eq, hitems, Multiset.card_cons]
    exact Nat.succ_pos _
  obtain ⟨others, hlive⟩ := live_eq_cons hpos
  have hrest : (others : Multiset Int) = rest := by
    rw [← hh.items_eq, hlive, ← Multiset.cons_coe, Multiset.cons_inj_right] at hitems
    exact hitems
  refine ⟨?_, ?_⟩
  · rw [live_updateTop, hlive, set_cons_zero]
    exact BinaryHeap.updateTop_ordered less_isComparison (hh.ordered.of_top hlive)
  · rw [live_updateTop, hlive, set_cons_zero, ← hrest, Multiset.cons_coe]
    exact Multiset.coe_eq_coe.mpr (BinaryHeap.updateTop_perm less _)

end LongHeap

end RLucene.Util
