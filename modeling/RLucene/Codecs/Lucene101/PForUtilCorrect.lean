import RLucene.Codecs.Lucene101.ForDeltaCorrect
import RLucene.Codecs.Lucene101.PForUtil

/-!
# Patched blocks are decoded to what was encoded

`decode_encode_patched`: the bytes of a block decode to the block and are skipped as a whole,
whatever the heap held before; there are at most seven exceptions, and each patch is a byte. What
makes it work is that the heap ends with the eight greatest integers of the block (`Collects`), so
that at most seven lie above the least of them.
-/

namespace RLucene.Codecs.Lucene101

open Nat List Lib Store Util Util.Packed Internal.Vectorization
open Multiset (mem_coe cons_add add_cons mem_add card_cons coe_countP coe_add)

namespace PForUtil

open ForUtil

/-! ## The eight greatest integers -/

variable {ints : List I32} {bits n : Nat} {v : I32} {s : Patching} {indices : List Nat}

variable {block : List I32}

section

/-- The heap holds eight of the values seen, the others are not above its least one. -/
structure Collects (state : LongHeap × Int) (seen : Multiset Int) : Prop where
  top_eq : state.2 = state.1.top
  split : ∃ kept dropped, state.1.Holds kept ∧ kept.card = maxExceptions + 1 ∧
    kept + dropped = seen ∧ ∀ d ∈ dropped, d ≤ state.1.top

variable {state : LongHeap × Int} {seen : Multiset Int}

/-- One more value. -/
theorem Collects.offer (h : Collects state seen) (v : I32) :
    Collects (offer state v) (v.toInt ::ₘ seen) := by
  obtain ⟨htop, kept, dropped, hholds, hcard, hsum, hle⟩ := h
  unfold PForUtil.offer
  split
  · rename_i hgt
    obtain ⟨rest, hkept, hleast⟩ := hholds.top_spec (by rw [hcard]; decide)
    have hholds' := hholds.updateTop hkept v.toInt
    have hcard' : (v.toInt ::ₘ rest).card = maxExceptions + 1 := by
      rw [← hcard, hkept, card_cons, card_cons]
    -- the least value gives way to the new one, and is not above the new least one
    have hmono : state.1.top ≤ (state.1.updateTop v.toInt).top := by
      obtain ⟨rest', hnew, -⟩ := hholds'.top_spec (by rw [hcard']; decide)
      have hmem : (state.1.updateTop v.toInt).top ∈ v.toInt ::ₘ rest := by
        rw [hnew]
        exact Multiset.mem_cons_self _ _
      rcases Multiset.mem_cons.mp hmem with heq | hmem
      · rw [heq, ← htop]
        exact hgt.le
      · exact hleast _ (hkept ▸ Multiset.mem_cons_of_mem hmem)
    refine ⟨rfl, v.toInt ::ₘ rest, state.1.top ::ₘ dropped, hholds', hcard', ?_, fun d hd => ?_⟩
    · rw [← hsum, hkept, cons_add, cons_add, add_cons]
    · rcases Multiset.mem_cons.mp hd with rfl | hd
      · exact hmono
      · exact (hle d hd).trans hmono
  · refine ⟨htop, kept, v.toInt ::ₘ dropped, hholds, hcard, ?_, fun d hd => ?_⟩
    · rw [← hsum, add_cons]
    · rcases Multiset.mem_cons.mp hd with rfl | hd
      · omega
      · exact hle d hd

/-- The values of a list. -/
def valuesOf (ints : List I32) : Multiset Int :=
  (ints.map BitVec.toInt : List Int)

theorem valuesOf_cons (v : I32) (ints : List I32) :
    valuesOf (v :: ints) = v.toInt ::ₘ valuesOf ints :=
  rfl

theorem valuesOf_append (a b : List I32) : valuesOf (a ++ b) = valuesOf a + valuesOf b := by
  rw [valuesOf, map_append, ← coe_add]
  rfl

/-- A chunk, one by one. -/
theorem Collects.foldl_offer (h : Collects state seen) (chunk : List I32) :
    Collects (chunk.foldl PForUtil.offer state) (seen + valuesOf chunk) := by
  induction chunk generalizing state seen with
  | nil => simpa [valuesOf] using h
  | cons v chunk ih =>
    have := ih (h.offer v)
    rwa [cons_add, ← add_cons, ← valuesOf_cons] at this

/-- Values that are not above the least one change nothing. -/
theorem foldl_offer_of_le {chunk : List I32} (h : ∀ v ∈ chunk, v.toInt ≤ state.2) :
    chunk.foldl PForUtil.offer state = state := by
  induction chunk with
  | nil => rfl
  | cons v chunk ih =>
    have hv := h v mem_cons_self
    rw [foldl_cons, PForUtil.offer, if_neg (by omega)]
    exact ih (forall_mem_cons.mp h).2

/-- The heap holds machine integers. -/
theorem Collects.toInt_ofInt (h : Collects state seen)
    (hrange : ∀ value ∈ seen, ∃ v : I32, value = v.toInt) :
    (BitVec.ofInt 32 state.2).toInt = state.2 := by
  obtain ⟨htop, kept, dropped, hholds, hcard, hsum, -⟩ := h
  obtain ⟨rest, hkept, -⟩ := hholds.top_spec (by rw [hcard]; decide)
  have hmem : state.2 ∈ seen := by
    rw [htop, ← hsum, hkept]
    exact mem_add.mpr (.inl (Multiset.mem_cons_self _ _))
  obtain ⟨v, hv⟩ := hrange _ hmem
  rw [hv, BitVec.ofInt_toInt]

/-- A chunk that is passed over has nothing to offer. -/
theorem Collects.offerChunk (h : Collects state seen)
    (hrange : ∀ value ∈ seen, ∃ v : I32, value = v.toInt) (chunk : List I32) :
    Collects (offerChunk state chunk) (seen + valuesOf chunk) := by
  have heq : PForUtil.offerChunk state chunk = chunk.foldl PForUtil.offer state := by
    unfold PForUtil.offerChunk
    split
    · rfl
    · rename_i hnone
      refine (foldl_offer_of_le fun v hv => ?_).symm
      by_contra hgt
      refine hnone (any_eq_true.mpr ⟨v, hv, ?_⟩)
      rw [BitVec.slt_iff_toInt_lt, h.toInt_ofInt hrange]
      omega
  rw [heq]
  exact h.foldl_offer chunk

theorem valuesOf_range : ∀ value ∈ valuesOf ints, ∃ v : I32, value = v.toInt := by
  intro value hvalue
  obtain ⟨v, -, rfl⟩ := mem_map.mp (mem_coe.mp hvalue)
  exact ⟨v, rfl⟩

/-- All chunks. -/
theorem Collects.foldl_offerChunk {seen : List I32} (h : Collects state (valuesOf seen))
    (chunks : List (List I32)) :
    Collects (chunks.foldl PForUtil.offerChunk state) (valuesOf (seen ++ chunks.flatten)) := by
  induction chunks generalizing state seen with
  | nil => simpa using h
  | cons chunk chunks ih =>
    have hstep := h.offerChunk valuesOf_range chunk
    rw [← valuesOf_append] at hstep
    simpa using ih hstep

/-- The heap has what was pushed. -/
theorem foldl_push_holds {top : LongHeap} {items : Multiset Int} (h : top.Holds items)
    (ints : List I32) :
    (ints.foldl (fun (top : LongHeap) v => top.push v.toInt) top).Holds
    (items + valuesOf ints) := by
  induction ints generalizing top items with
  | nil => simpa [valuesOf] using h
  | cons v ints ih =>
    have := ih (h.push v.toInt)
    rwa [cons_add, ← add_cons, ← valuesOf_cons] at this

/-- The heap ends with the eight greatest integers of the block, whatever it held before. -/
theorem collectTop_spec (top : LongHeap) (hlen : block.length = blockSize) :
    ∃ state, collectTop top block = .ok state ∧ Collects state (valuesOf block) := by
  rw [blockSize] at hlen
  have hfirst : sliceInts block 0 (maxExceptions + 1) = .ok (block.take 8) := by
    rw [sliceInts, if_pos (by rw [hlen]; decide)]
    rfl
  have hrest : sliceInts block (maxExceptions + 1) (blockSize - (maxExceptions + 1)) =
      .ok (block.drop 8) := by
    rw [sliceInts, if_pos (by rw [hlen]; decide), take_of_length_le]
    · rfl
    · rw [length_drop, hlen]
      decide
  generalize hpushed : (block.take 8).foldl (fun (top : LongHeap) v => top.push v.toInt) top.clear =
    pushed
  have hholds : pushed.Holds (valuesOf (block.take 8)) := by
    have := foldl_push_holds top.clear_holds (block.take 8)
    rwa [zero_add, hpushed] at this
  have hcard : (valuesOf (block.take 8)).card = maxExceptions + 1 := by
    rw [valuesOf, Multiset.coe_card, length_map, length_take, hlen]
    rfl
  have hstart : Collects (pushed, pushed.top) (valuesOf (block.take 8)) :=
    ⟨rfl, _, 0, hholds, hcard, add_zero _, fun d hd => absurd hd (Multiset.notMem_zero d)⟩
  refine ⟨(chunksExact 8 (block.drop 8)).foldl PForUtil.offerChunk (pushed, pushed.top), ?_, ?_⟩
  · rw [collectTop, hfirst, ok_bind]
    rw [hpushed, hrest, ok_bind, pure_eq_ok]
  · have := hstart.foldl_offerChunk (chunksExact 8 (block.drop 8))
    rwa [@chunksExact_flatten _ 8 15 _ (by decide) (by rw [length_drop, hlen]),
      take_append_drop] at this

end

/-! ## Widths -/

section

/-- The bits of a value that an `i32` holds. -/
theorem bitsRequired_eq {x : Int} (hnonneg : 0 ≤ x) (hlt : x < 2 ^ 31) :
    ∃ bits, PackedInts.bitsRequired x = .ok bits ∧ 1 ≤ bits ∧ bits ≤ 31 ∧ x < 2 ^ bits := by
  obtain ⟨n, rfl⟩ := Int.eq_ofNat_of_zero_le hnonneg
  have hn : n < 2 ^ 31 := by omega
  have hasU : asU 64 (n : Int) = n := asU_of_lt (by omega)
  have hsize : Nat.size n ≤ 31 := Nat.size_le.mpr hn
  refine ⟨max 1 (Nat.size n), ?_, Nat.le_max_left _ _, by omega, ?_⟩
  · rw [PackedInts.bitsRequired, if_neg (by omega), PackedInts.unsignedBitsRequired, hasU]
  · have : n < 2 ^ max 1 (Nat.size n) := (lt_size_self n).trans_le
      (Nat.pow_le_pow_right (by decide) (Nat.le_max_right _ _))
    exact_mod_cast this

theorem foldl_max_lt {values : List Int} {start bound : Int} (hstart : start < bound)
    (h : ∀ x ∈ values, x < bound) : values.foldl max start < bound := by
  have hmem : values.foldl max start ∈ start :: values := @foldl_min_mem_cons Intᵒᵈ _ values start
  rcases mem_cons.mp hmem with hmax | hmem
  · exact hmax.trans_lt hstart
  · exact h _ hmem

/-- What a plan says about its block. -/
structure Fitting (p : Plan) (block : List I32) : Prop where
  bits_pos : 1 ≤ p.patchedBitsRequired
  bits_le : p.patchedBitsRequired ≤ 31
  few : p.numExceptions ≤ maxExceptions
  count : p.numExceptions = block.countP fun v => decide (v.toInt > p.maxUnpatchedValue)
  max_le : p.maxBitsRequired ≤ p.patchedBitsRequired + 8
  below : ∀ v ∈ block, v.toInt < 2 ^ p.maxBitsRequired

theorem toInt_eq_toNat_of_nonneg (h : 0 ≤ v.toInt) : v.toInt = v.toNat := by
  rw [BitVec.toInt_eq_toNat_cond] at h ⊢
  split at h
  · rename_i hlt
    rw [if_pos hlt]
  · omega

/-- Every integer has at most the greatest number of bits. -/
theorem Fitting.toNat_lt {p : Plan} (h : Fitting p block)
    (hrange : ∀ v ∈ block, 0 ≤ v.toInt) (hv : v ∈ block) : v.toNat < 2 ^ p.maxBitsRequired := by
  have hbelow := h.below v hv
  rw [toInt_eq_toNat_of_nonneg (hrange v hv)] at hbelow
  exact_mod_cast hbelow

/-- The plan fits the block. -/
theorem plan_spec (top : LongHeap) (hlen : block.length = blockSize)
    (hrange : ∀ v ∈ block, 0 ≤ v.toInt) : ∃ p, plan top block = .ok p ∧ Fitting p block := by
  obtain ⟨⟨heap, topValue⟩, hcollect, htop, kept, dropped, hholds, hcard, hsum, hdropped⟩ :=
    collectTop_spec top hlen
  obtain rfl : topValue = heap.top := htop
  have hvalue : ∀ x ∈ valuesOf block, 0 ≤ x ∧ x < 2 ^ 31 := by
    intro x hx
    obtain ⟨v, hv, rfl⟩ := mem_map.mp (mem_coe.mp hx)
    exact ⟨hrange v hv, BitVec.toInt_lt⟩
  have hkept : ∀ x ∈ kept, x ∈ valuesOf block := fun x hx =>
    hsum ▸ mem_add.mpr (.inl hx)
  have hlive : ∀ x ∈ heap.live, x ∈ kept := fun x hx => by
    rw [← hholds.items_eq]
    exact mem_coe.mpr hx
  obtain ⟨rest, hcons, -⟩ := hholds.top_spec (by rw [hcard]; decide)
  have htopMem : heap.top ∈ kept := hcons ▸ Multiset.mem_cons_self _ _
  have hmax : (range' 1 heap.size).foldl (fun m i => max m (heap.get i)) 0 =
      heap.live.foldl max 0 := by
    rw [← heap.map_get, foldl_map]
  obtain ⟨hzeroMax, hleMax⟩ := le_foldl_max heap.live 0
  obtain ⟨maxBits, hmaxBits, hmaxPos, hmaxLe, hmaxLt⟩ := bitsRequired_eq hzeroMax
    (foldl_max_lt (by decide) fun x hx => (hvalue x (hkept x (hlive x hx))).2)
  obtain ⟨topBits, htopBits, htopPos, htopLe, htopLt⟩ :=
    bitsRequired_eq (hvalue _ (hkept _ htopMem)).1
    (hvalue _ (hkept _ htopMem)).2
  generalize hbits : max topBits (maxBits - 8) = bits
  -- the values that were dropped are no larger than the top, so none is an exception
  have htopFits : heap.top ≤ 2 ^ bits - 1 := by
    have : (2 : Int) ^ topBits ≤ 2 ^ bits := pow_le_pow_right₀ (by decide) (by omega)
    omega
  refine ⟨⟨heap, maxBits, bits, (range' 2 (heap.size - 1)).countP
    fun i => decide (heap.get i > 2 ^ bits - 1)⟩, ?_, ?_⟩
  · rw [plan, hcollect, ok_bind]
    dsimp only
    rw [hmax, hmaxBits, ok_bind, htopBits, ok_bind, hbits]
    rfl
  have htail : (range' 2 (heap.size - 1)).countP (fun i => decide (heap.get i > 2 ^ bits - 1)) =
      heap.live.tail.countP fun x => decide (x > 2 ^ bits - 1) := by
    rw [← heap.map_get_tail, countP_map]
    rfl
  obtain ⟨others, hothers⟩ := @LongHeap.live_eq_cons heap (by rw [hholds.size_eq, hcard]; decide)
  have htopCount : heap.live.countP (fun x => decide (x > 2 ^ bits - 1)) =
      heap.live.tail.countP fun x => decide (x > 2 ^ bits - 1) := by
    rw [hothers, countP_cons_of_neg (by simpa using htopFits), tail_cons]
  constructor
  · show 1 ≤ bits
    omega
  · show bits ≤ 31
    omega
  · refine countP_le_length.trans ?_
    rw [length_range', hholds.size_eq, hcard]
    decide
  · have hkeptCount : kept.countP (· > 2 ^ bits - 1) = heap.live.countP (· > 2 ^ bits - 1) := by
      rw [← hholds.items_eq, coe_countP]
    have hdroppedCount : dropped.countP (· > 2 ^ bits - 1) = 0 :=
      Multiset.countP_eq_zero.mpr fun d hd => not_lt.mpr ((hdropped d hd).trans htopFits)
    have hblock : (valuesOf block).countP (· > 2 ^ bits - 1) =
        block.countP fun v => decide (v.toInt > 2 ^ bits - 1) := by
      rw [valuesOf, coe_countP, countP_map]
      rfl
    rw [htail, ← htopCount, ← hkeptCount]
    exact ((add_zero _).symm.trans (by rw [← hdroppedCount, ← Multiset.countP_add, hsum])).trans
      hblock
  · show maxBits ≤ bits + 8
    omega
  · intro v hv
    have hmem : v.toInt ∈ kept + dropped := by
      rw [hsum]
      exact mem_coe.mpr (mem_map_of_mem hv)
    have hleTop : heap.top ≤ heap.live.foldl max 0 := hleMax _ (hothers ▸ mem_cons_self)
    rcases mem_add.mp hmem with hmem | hmem
    · rw [← hholds.items_eq, mem_coe] at hmem
      exact (hleMax _ hmem).trans_lt hmaxLt
    · exact ((hdropped _ hmem).trans hleTop).trans_lt hmaxLt

end

/-! ## Patches -/

section

variable {p : Plan}

/-- The bits that are kept of each integer. -/
def lowBits (bits : Nat) (v : I32) : I32 :=
  v &&& BitVec.ofInt 32 (2 ^ bits - 1)

/-- The indices below `n` of the exceptions. -/
def exceptionsBelow (bits : Nat) (block : List I32) (n : Nat) : List Nat :=
  (range n).filter fun i => decide (2 ^ bits ≤ (intAt block i).toNat)

/-- Patches as they are stored. -/
def patchBytes (patch : Nat → UInt8) (indices : List Nat) : Bytes :=
  indices.flatMap fun i => [UInt8.ofNat i, patch i]

theorem patchBytes_length (patch : Nat → UInt8) (indices : List Nat) :
    (patchBytes patch indices).length = 2 * indices.length := by
  induction indices with
  | nil => rfl
  | cons i indices ih =>
    rw [patchBytes, flatMap_cons, length_append, ← patchBytes, ih, length_cons]
    simp only [length_cons, length_nil]
    omega

theorem patchBytes_append (patch : Nat → UInt8) (a b : List Nat) :
    patchBytes patch (a ++ b) = patchBytes patch a ++ patchBytes patch b :=
  flatMap_append

/-- The bits that stay. -/
theorem toNat_lowBits (hbits : bits ≤ 31) (v : I32) :
    (lowBits bits v).toNat = v.toNat % 2 ^ bits := by
  have hlt : 2 ^ bits ≤ 2 ^ 31 := Nat.pow_le_pow_right (by decide) hbits
  have hpos : 1 ≤ 2 ^ bits := Nat.one_le_two_pow
  have hmask : (BitVec.ofInt 32 (2 ^ bits - 1)).toNat = 2 ^ bits - 1 := by
    rw [show ((2 : Int) ^ bits - 1) = ((2 ^ bits - 1 : Nat) : Int) by push_cast [hpos]; rfl,
      BitVec.ofInt_natCast, BitVec.toNat_ofNat]
    exact mod_eq_of_lt (by omega)
  rw [lowBits, BitVec.toNat_and, hmask, and_two_pow_sub_one_eq_mod]

/-- What a value has below the width is all it has, if it is no exception. -/
theorem lowBits_of_lt (hbits : bits ≤ 31) (hv : v.toNat < 2 ^ bits) : lowBits bits v = v := by
  apply BitVec.eq_of_toNat_eq
  rw [toNat_lowBits hbits, mod_eq_of_lt hv]

theorem shiftRight_shiftLeft_le (n k : Nat) : n >>> k <<< k ≤ n := by
  rw [shiftRight_eq_div_pow, shiftLeft_eq]
  exact div_mul_le_self _ _

/-- The high bits, put back where they were. -/
theorem lowBits_or_high (hbits : bits ≤ 31) (v : I32) :
    lowBits bits v ||| BitVec.ofNat 32 (v.toNat >>> bits <<< bits) = v := by
  apply BitVec.eq_of_toNat_eq
  rw [BitVec.toNat_or, toNat_lowBits hbits, BitVec.toNat_ofNat,
    mod_eq_of_lt ((shiftRight_shiftLeft_le _ _).trans_lt v.isLt), Nat.or_comm,
    shiftLeft_eq, mul_comm, ← two_pow_add_eq_or_of_lt (mod_lt _ (Nat.two_pow_pos bits)),
    shiftRight_eq_div_pow, div_add_mod]

/-- How far the exceptions of a block have been cut off. -/
structure Patched (bits : Nat) (block : List I32) (n : Nat) (s : Patching) : Prop where
  length : s.ints.length = blockSize
  ints : ∀ i < blockSize, intAt s.ints i =
    if i < n then lowBits bits (intAt block i) else intAt block i
  count : s.exceptionCount = (exceptionsBelow bits block n).length
  room : s.exceptions.length = maxExceptions * 2
  patches : s.exceptions.take (s.exceptionCount * 2) =
    patchBytes (fun i => patchOf bits (intAt block i)) (exceptionsBelow bits block n)

/-- One more integer may be an exception. -/
theorem exceptionsBelow_succ (bits : Nat) (block : List I32) (n : Nat) :
    exceptionsBelow bits block (n + 1) = exceptionsBelow bits block n ++
      if 2 ^ bits ≤ (intAt block n).toNat then [n] else [] := by
  rw [exceptionsBelow, range_succ, filter_append, ← exceptionsBelow]
  by_cases h : 2 ^ bits ≤ (intAt block n).toNat
  · rw [if_pos h, filter_cons_of_pos (by simpa using h), filter_nil]
  · rw [if_neg h, filter_cons_of_neg (by simpa using h), filter_nil]

/-- Exceptions only become more. -/
theorem exceptionsBelow_mono (bits : Nat) (block : List I32) {m : Nat} (h : n ≤ m) :
    (exceptionsBelow bits block n).length ≤ (exceptionsBelow bits block m).length :=
  ((range_sublist.mpr h).filter _).length_le

theorem take_set_two {l : Bytes} {c : Nat} (h : c * 2 + 1 < l.length) (a b : UInt8) :
    ((l.set (c * 2) a).set (c * 2 + 1) b).take ((c + 1) * 2) = l.take (c * 2) ++ [a, b] := by
  apply ext_getElem?
  intro i
  rw [getElem?_take, getElem?_append, length_take, min_eq_left (by omega),
    getElem?_take, getElem?_set, getElem?_set, length_set]
  rcases Nat.lt_trichotomy i (c * 2) with hlt | rfl | hgt
  · rw [if_pos (by omega), if_neg (by omega), if_neg (by omega), if_pos hlt, if_pos hlt]
  · rw [if_pos (by omega), if_neg (by omega), if_pos rfl, if_pos (by omega), if_neg (by omega),
      Nat.sub_self]
    rfl
  · by_cases hnext : i = c * 2 + 1
    · rw [if_pos (by omega), if_pos hnext.symm, if_pos h, if_neg (by omega),
        show i - c * 2 = 1 by omega]
      rfl
    · rw [if_neg (by omega), if_neg (by omega), getElem?_eq_none (by simp; omega)]

/-- The comparison of the vectors finds the exceptions. -/
theorem isException_iff (hbits : p.patchedBitsRequired ≤ 31) (hv : 0 ≤ v.toInt) :
    (BitVec.ofInt 32 p.maxUnpatchedValue).slt v = true ↔ 2 ^ p.patchedBitsRequired ≤ v.toNat := by
  have hpos : (1 : Int) ≤ 2 ^ p.patchedBitsRequired := one_le_pow₀ (by decide)
  have hle : (2 : Int) ^ p.patchedBitsRequired ≤ 2 ^ 31 := pow_le_pow_right₀ (by decide) hbits
  have hbound : (BitVec.ofInt 32 p.maxUnpatchedValue).toInt = 2 ^ p.patchedBitsRequired - 1 := by
    rw [BitVec.toInt_ofInt, Plan.maxUnpatchedValue]
    exact Int.bmod_eq_of_le (by omega) (by omega)
  have hpow : ((2 ^ p.patchedBitsRequired : Nat) : Int) = 2 ^ p.patchedBitsRequired := by
    rfl
  rw [BitVec.slt_iff_toInt_lt, hbound, toInt_eq_toNat_of_nonneg hv]
  omega

/-- Before the first integer. -/
theorem Patched.start (bits : Nat) (hlen : block.length = blockSize) :
    Patched bits block 0 ⟨block, replicate (maxExceptions * 2) 0, 0⟩ where
  length := hlen
  ints i _ := (if_neg (Nat.not_lt_zero i)).symm
  count := rfl
  room := length_replicate
  patches := rfl

/-- One integer. -/
theorem Patched.patchInt (h : Patched p.patchedBitsRequired block n s) (hn : n < blockSize)
    (hbits : p.patchedBitsRequired ≤ 31) (hnonneg : 0 ≤ (intAt block n).toInt)
    (hfew : (exceptionsBelow p.patchedBitsRequired block (n + 1)).length ≤ maxExceptions) :
    ∃ s', patchInt p (fun v => (BitVec.ofInt 32 p.maxUnpatchedValue).slt v) s n = .ok s' ∧
      Patched p.patchedBitsRequired block (n + 1) s' := by
  have hlt : n < s.ints.length := by rwa [h.length]
  have hat : intAt s.ints n = intAt block n := by rw [h.ints n hn, if_neg (Nat.lt_irrefl n)]
  have hsucc := exceptionsBelow_succ p.patchedBitsRequired block n
  rw [PForUtil.patchInt, getInt_eq hlt, ok_bind, hat]
  by_cases hexception : 2 ^ p.patchedBitsRequired ≤ (intAt block n).toNat
  · rw [if_pos hexception] at hsucc
    rw [hsucc, length_append, length_singleton, ← h.count] at hfew
    have hroom : s.exceptionCount * 2 + 1 < s.exceptions.length := by
      rw [h.room]
      omega
    rw [if_pos ((isException_iff hbits hnonneg).mpr hexception), setByte,
      if_pos (by omega), ok_bind, setByte, if_pos (by rwa [length_set]), ok_bind, setInt_eq hlt,
      ok_bind, pure_eq_ok]
    refine ⟨_, rfl, length_set.trans h.length, fun i hi => ?_, ?_, ?_, ?_⟩
    · rw [intAt_set hlt]
      by_cases heq : i = n
      · rw [if_pos heq, if_pos (by omega), heq]
        rfl
      · rw [if_neg heq, h.ints i hi]
        simp only [show i < n + 1 ↔ i < n by omega]
    · rw [hsucc, length_append, length_singleton, ← h.count]
    · rw [length_set, length_set, h.room]
    · rw [take_set_two hroom, h.patches, hsucc, patchBytes_append]
      rfl
  · rw [if_neg hexception, append_nil] at hsucc
    rw [if_neg (fun hlt => hexception ((isException_iff hbits hnonneg).mp hlt)), pure_eq_ok]
    refine ⟨s, rfl, h.length, fun i hi => ?_, by rw [h.count, hsucc], h.room, by
      rw [h.patches, hsucc]⟩
    rw [h.ints i hi]
    by_cases heq : i = n
    · rw [if_neg (by omega), if_pos (by omega), heq,
        lowBits_of_lt hbits (Nat.lt_of_not_le hexception)]
    · simp only [show i < n + 1 ↔ i < n by omega]

theorem map_intAt (block : List I32) : (range block.length).map (intAt block) = block := by
  apply ext_getElem
  · rw [length_map, length_range]
  · intro i hi hi'
    rw [getElem_map, getElem_range, intAt_eq_getElem hi']

theorem intAt_mem {i : Nat} (hi : i < block.length) : intAt block i ∈ block :=
  intAt_eq_getElem hi ▸ getElem_mem _

/-- The heap counts the exceptions. -/
theorem Fitting.numExceptions_eq (h : Fitting p block) (hlen : block.length = blockSize)
    (hrange : ∀ v ∈ block, 0 ≤ v.toInt) :
    p.numExceptions = (exceptionsBelow p.patchedBitsRequired block blockSize).length := by
  rw [h.count, exceptionsBelow, ← countP_eq_length_filter, ← hlen]
  conv_lhs => rw [← map_intAt block, countP_map]
  apply countP_congr
  intro i hi
  have hv : 0 ≤ (intAt block i).toInt := hrange _ (intAt_mem (mem_range.mp hi))
  have hpow : ((2 ^ p.patchedBitsRequired : Nat) : Int) = 2 ^ p.patchedBitsRequired := by
    rfl
  simp only [Function.comp_apply, decide_eq_true_eq, Plan.maxUnpatchedValue,
    toInt_eq_toNat_of_nonneg hv]
  omega

/-- All exceptions are cut off, and their patches fit the array. -/
theorem patchInts_spec (h : Fitting p block) (hlen : block.length = blockSize)
    (hrange : ∀ v ∈ block, 0 ≤ v.toInt) :
    ∃ s, patchInts p block = .ok s ∧ Patched p.patchedBitsRequired block blockSize s := by
  have hcount := h.numExceptions_eq hlen hrange
  have hstart := Patched.start p.patchedBitsRequired hlen
  have hloop := @foldlM_range LuceneError Patching
    (patchInt p fun v => (BitVec.ofInt 32 p.maxUnpatchedValue).slt v)
    (Patched p.patchedBitsRequired block) blockSize
    (fun i s hi hs => hs.patchInt hi h.bits_le (hrange _ (intAt_mem (hlen ▸ hi)))
      ((exceptionsBelow_mono _ _ hi).trans (hcount ▸ h.few))) _ hstart
  unfold patchInts
  by_cases hnone : p.numExceptions > 0
  · have hbound : p.maxUnpatchedValue ≤ 2 ^ 31 - 1 := by
      have : (2 : Int) ^ p.patchedBitsRequired ≤ 2 ^ 31 := pow_le_pow_right₀ (by decide) h.bits_le
      rw [Plan.maxUnpatchedValue]
      omega
    rw [if_pos hnone, if_pos hbound]
    exact hloop
  · -- with no exception there is nothing to cut off
    have hempty : ∀ n ≤ blockSize, exceptionsBelow p.patchedBitsRequired block n = [] := fun n hn =>
      eq_nil_of_length_eq_zero (by
        have := exceptionsBelow_mono p.patchedBitsRequired block hn
        omega)
    rw [if_neg hnone]
    refine ⟨_, rfl, hlen, fun i hi => ?_, ?_, hstart.room, ?_⟩
    · have hsucc := exceptionsBelow_succ p.patchedBitsRequired block i
      rw [hempty (i + 1) hi, hempty i hi.le, nil_append] at hsucc
      rw [if_pos hi, lowBits_of_lt h.bits_le]
      by_contra hge
      rw [if_pos (Nat.le_of_not_lt hge)] at hsucc
      exact absurd hsucc (cons_ne_nil _ _).symm
    · rw [hempty blockSize le_rfl]
      rfl
    · rw [hempty blockSize le_rfl]
      rfl

end

/-! ## Decoding -/

section

variable {file : Bytes} {pos : Nat}

/-- A patch has all the high bits. -/
theorem patchOf_toNat (hv : 0 ≤ v.toInt) (hlt : v.toNat < 2 ^ (bits + 8)) :
    (patchOf bits v).toNat = v.toNat >>> bits := by
  have hasU : asU 64 v.toInt = v.toNat := by
    rw [toInt_eq_toNat_of_nonneg hv]
    exact asU_of_lt (v.isLt.trans (by decide))
  have hbyte : v.toNat >>> bits < 256 := by
    rw [shiftRight_eq_div_pow, Nat.div_lt_iff_lt_mul (Nat.two_pow_pos bits)]
    rwa [Nat.pow_add, mul_comm] at hlt
  rw [patchOf, hasU, UInt8.toNat_ofNat', mod_eq_of_lt hbyte]

/-- The patches are applied one after the other. -/
theorem applyPatches_spec (bits : Nat) (patch : Nat → UInt8) (hlen : ints.length = blockSize)
    (hindices : ∀ i ∈ indices, i < blockSize) (hnodup : indices.Nodup)
    (hat : At file pos (patchBytes patch indices)) :
    ∃ ints', (range indices.length).foldlM (fun state _ => applyPatch bits state)
        (ints, (⟨file, pos⟩ : IndexInput)) = .ok (ints', ⟨file, pos + 2 * indices.length⟩) ∧
      ints'.length = blockSize ∧ ∀ i, intAt ints' i =
        if i ∈ indices then intAt ints i ||| BitVec.ofNat 32 (patch i).toNat <<< bits
        else intAt ints i := by
  induction indices generalizing ints pos with
  | nil => exact ⟨ints, rfl, hlen, fun i => (if_neg not_mem_nil).symm⟩
  | cons first indices ih =>
    obtain ⟨hfirst, hnodup⟩ := nodup_cons.mp hnodup
    have hlt : first < blockSize := hindices first mem_cons_self
    rw [patchBytes, flatMap_cons, at_append_iff, ← patchBytes] at hat
    obtain ⟨hpair, hrest⟩ := hat
    obtain ⟨hindex, hpatch⟩ :=
      at_append_iff.mp (show At file pos ([UInt8.ofNat first] ++ [patch first]) from hpair)
    change At file (pos + 1) _ at hpatch
    change At file (pos + 2) _ at hrest
    have hbyte : (UInt8.ofNat first).toNat = first := by
      exact mod_eq_of_lt (hlt.trans (by decide))
    have hstep : applyPatch bits (ints, (⟨file, pos⟩ : IndexInput)) = .ok (ints.set first
        (intAt ints first ||| BitVec.ofNat 32 (patch first).toNat <<< bits), ⟨file, pos + 2⟩) := by
      rw [applyPatch, IndexInput.readByte_mk hindex, ok_bind]
      dsimp only
      rw [IndexInput.readByte_mk hpatch, ok_bind]
      rw [hbyte, getInt_eq (by rwa [hlen]), ok_bind, setInt_eq (by rwa [hlen]), ok_bind]
      rfl
    obtain ⟨ints', hrun, hlen', hints⟩ := ih (length_set.trans hlen)
      (forall_mem_cons.mp hindices).2 hnodup hrest
    refine ⟨ints', ?_, hlen', fun i => ?_⟩
    · rw [length_cons, foldlM_range_const, hstep]
      refine hrun.trans ?_
      rw [show pos + 2 + 2 * indices.length = pos + 2 * (indices.length + 1) by omega]
    · rw [hints i, intAt_set (by rwa [hlen])]
      by_cases heq : i = first
      · rw [heq, if_neg hfirst, if_pos rfl, if_pos mem_cons_self]
      · rw [if_neg heq]
        simp only [mem_cons, heq, false_or]

/-- The bytes of a block, wherever they stand, decode to it and are skipped as a whole. -/
def DecodesTo (block tmp dest : List I32) (bytes : Bytes) : Prop :=
  ∀ file pos, At file pos bytes →
    decode ⟨file, pos⟩ tmp dest = .ok (block, ⟨file, pos + bytes.length⟩) ∧
      skip ⟨file, pos⟩ = .ok ⟨file, pos + bytes.length⟩

/-- The parts of a token. -/
theorem token_parts : ∀ n ≤ 7, ∀ bits < 32,
    (UInt8.ofNat (n <<< 5 ||| bits) &&& 0x1f).toNat = bits ∧
      (UInt8.ofNat (n <<< 5 ||| bits) >>> 5).toNat = n := by
  decide +kernel

theorem skipBytes_mk (h : pos + n ≤ file.length) :
    IndexInput.skipBytes ⟨file, pos⟩ (n : Int) = .ok ⟨file, pos + n⟩ := by
  exact IndexInput.seek_ok h

/-- Where the parts of an encoded block are. -/
theorem parts_at {token : UInt8} {body : Bytes} {patch : Nat → UInt8}
    (hat : At file pos ([token] ++ body ++ patchBytes patch indices)) :
    At file pos [token] ∧ At file (pos + 1) body ∧
      At file (pos + 1 + body.length) (patchBytes patch indices) ∧
      ([token] ++ body ++ patchBytes patch indices).length =
        1 + body.length + 2 * indices.length ∧
      pos + 1 + body.length + 2 * indices.length ≤ file.length := by
  have hroom := hat.le_length (by simp)
  simp only [at_append_iff, length_append, length_singleton, patchBytes_length, ← add_assoc]
    at hat hroom ⊢
  exact ⟨hat.1.1, hat.1.2, hat.2, trivial, hroom⟩

/-- A block all of whose integers have the same low bits. -/
theorem decodesTo_zero {token : UInt8} {w : I32} {patch : Nat → UInt8} {indices : List Nat}
    {tmp dest : List I32} (hblock : block.length = blockSize) (hdest : dest.length = blockSize)
    (htoken : (token &&& 0x1f).toNat = 0 ∧ (token >>> 5).toNat = indices.length) (hw : 0 ≤ w.toInt)
    (hindices : ∀ i ∈ indices, i < blockSize) (hnodup : indices.Nodup)
    (hvalues : ∀ i < blockSize, intAt block i = if i ∈ indices
      then w ||| BitVec.ofNat 32 (patch i).toNat else w) :
    DecodesTo block tmp dest ([token] ++ vIntBytes w.toInt ++ patchBytes patch indices) := by
  intro file pos hat
  obtain ⟨htok, hvint, hpatches, hlength, hroom⟩ := parts_at hat
  have hlt : w.toInt < 2 ^ 31 := BitVec.toInt_lt
  have hasI : asI 32 w.toInt = w.toInt := asI_32 (by omega) (by omega)
  constructor
  · have hfilled : (replicate blockSize w).length = blockSize := length_replicate
    obtain ⟨ints', hrun, hlen', hints⟩ := applyPatches_spec 0 patch hfilled hindices hnodup hpatches
    have heq : ints' = block := by
      refine ext_intAt (hlen'.trans hblock.symm) fun i hi => ?_
      rw [hlen'] at hi
      rw [hints i, hvalues i hi, intAt_eq_getElem (by rwa [length_replicate]), getElem_replicate,
        BitVec.shiftLeft_zero]
    rw [decode, IndexInput.readByte_mk htok, ok_bind]
    dsimp only
    rw [htoken.1, htoken.2, if_pos rfl, IndexInput.readVInt_mk hvint, ok_bind]
    rw [if_neg (by omega), hasI, BitVec.ofInt_toInt, drop_eq_nil_of_le hdest.le,
      append_nil, pure_eq_ok, ok_bind, hrun, heq]
    congr 3
    omega
  · rw [skip, IndexInput.readByte_mk htok, ok_bind]
    dsimp only
    rw [htoken.1, htoken.2, if_pos rfl, IndexInput.readVLong_vInt hvint hw hlt, ok_bind]
    rw [shiftLeft_eq, skipBytes_mk (by omega)]
    congr 2
    omega

/-- A packed block. -/
theorem decodesTo_packed {token : UInt8} {patch : Nat → UInt8} {tmp dest : List I32}
    {packed : Bytes} (hblock : block.length = blockSize) (hints : ints.length = blockSize)
    (hbits : 1 ≤ bits)
    (htoken : (token &&& 0x1f).toNat = bits ∧ (token >>> 5).toNat = indices.length)
    (hlen : packed.length = numBytes bits)
    (hpacked : ∀ file pos, At file pos packed →
      ForUtil.decode bits (⟨file, pos⟩ : IndexInput) tmp dest =
        .ok (ints, ⟨file, pos + numBytes bits⟩))
    (hindices : ∀ i ∈ indices, i < blockSize) (hnodup : indices.Nodup)
    (hvalues : ∀ i < blockSize, intAt block i =
      if i ∈ indices then intAt ints i ||| BitVec.ofNat 32 (patch i).toNat <<< bits
      else intAt ints i) :
    DecodesTo block tmp dest ([token] ++ packed ++ patchBytes patch indices) := by
  intro file pos hat
  obtain ⟨htok, hpack, hpatches, hlength, hroom⟩ := parts_at hat
  rw [hlen] at hpatches
  constructor
  · obtain ⟨ints', hrun, hlen', hat'⟩ := applyPatches_spec bits patch hints hindices hnodup hpatches
    have heq : ints' = block := by
      refine ext_intAt (hlen'.trans hblock.symm) fun i hi => ?_
      rw [hlen'] at hi
      rw [hat' i, hvalues i hi]
    rw [decode, IndexInput.readByte_mk htok, ok_bind]
    dsimp only
    rw [htoken.1, htoken.2, if_neg (by omega), hpacked file (pos + 1) hpack, ok_bind, hrun, heq]
    congr 3
    omega
  · rw [skip, IndexInput.readByte_mk htok, ok_bind]
    dsimp only
    rw [htoken.1, htoken.2, if_neg (by omega), shiftLeft_eq, skipBytes_mk (by omega)]
    congr 2
    omega

/-- The patches of the first `n` exceptions have been shifted. -/
structure ShiftedTo (patch shifted : Nat → UInt8) (indices : List Nat) (length n : Nat)
    (exceptions : Bytes) : Prop where
  length_eq : exceptions.length = length
  take_eq : exceptions.take (indices.length * 2) =
    patchBytes shifted (indices.take n) ++ patchBytes patch (indices.drop n)

/-- One patch is shifted in place. -/
theorem ShiftedTo.set {patch shifted : Nat → UInt8} {length n : Nat} {exceptions : Bytes}
    (h : ShiftedTo patch shifted indices length n exceptions) (hn : n < indices.length) :
    exceptions[2 * n + 1]? = some (patch indices[n]) ∧
      ShiftedTo patch shifted indices length (n + 1)
        (exceptions.set (2 * n + 1) (shifted indices[n])) := by
  have hlen := h.length_eq
  have htake := h.take_eq
  have hdrop : patchBytes patch (indices.drop n) =
      UInt8.ofNat indices[n] :: patch indices[n] :: patchBytes patch (indices.drop (n + 1)) := by
    rw [drop_eq_getElem_cons hn, patchBytes, flatMap_cons, ← patchBytes]
    rfl
  have hbefore : (patchBytes shifted (indices.take n)).length = 2 * n := by
    rw [patchBytes_length, length_take, min_eq_left hn.le]
  have hone : 2 * n + 1 - 2 * n = 1 := by omega
  rw [hdrop] at htake
  refine ⟨?_, length_set.trans hlen, ?_⟩
  · have hget : (exceptions.take (indices.length * 2))[2 * n + 1]? = some (patch indices[n]) := by
      rw [htake, getElem?_append_right (by omega), hbefore, hone]
      rfl
    rwa [getElem?_take, if_pos (by omega)] at hget
  · rw [take_set, htake, set_append_right _ _ (by omega), hbefore, hone, ← take_append_getElem hn,
      patchBytes_append, append_assoc]
    rfl

/-- All patches are shifted. -/
theorem shiftPatches_spec {bits : Nat} {patch : Nat → UInt8} {indices : List Nat}
    {exceptions : Bytes} (hroom : indices.length * 2 ≤ exceptions.length)
    (hpatches : exceptions.take (indices.length * 2) = patchBytes patch indices) :
    ∃ exceptions', shiftPatches bits indices.length exceptions = .ok exceptions' ∧
      exceptions'.take (indices.length * 2) =
        patchBytes (fun i => UInt8.ofNat ((patch i).toNat <<< bits)) indices := by
  generalize hshifted : (fun i => UInt8.ofNat ((patch i).toNat <<< bits)) = shifted
  have hstart : ShiftedTo patch shifted indices exceptions.length 0 exceptions :=
    ⟨rfl, by simpa [patchBytes] using hpatches⟩
  refine (foldlM_range (I := ShiftedTo patch shifted indices exceptions.length)
    (fun n exc hn h => ?_) hstart).imp fun exceptions' hloop => ⟨hloop.1, ?_⟩
  · obtain ⟨hget, hnext⟩ := h.set hn
    have hlen := h.length_eq
    refine ⟨_, ?_, hnext⟩
    rw [hget]
    dsimp only
    rw [setByte, if_pos (by omega), ← hshifted]
  · have htake := hloop.2.take_eq
    rwa [take_length, drop_length, patchBytes, patchBytes, flatMap_nil,
      append_nil, ← patchBytes] at htake

theorem exceptionsBelow_nodup (bits : Nat) (block : List I32) (n : Nat) :
    (exceptionsBelow bits block n).Nodup :=
  nodup_range.filter _

/-- The exceptions are those with too many bits. -/
theorem mem_exceptionsBelow {i : Nat} :
    i ∈ exceptionsBelow bits block n ↔ i < n ∧ 2 ^ bits ≤ (intAt block i).toNat := by
  rw [exceptionsBelow, mem_filter, mem_range, decide_eq_true_eq]

theorem ofNat_shiftLeft (n k : Nat) : BitVec.ofNat 32 n <<< k = BitVec.ofNat 32 (n <<< k) := by
  apply BitVec.eq_of_toNat_eq
  rw [BitVec.toNat_shiftLeft, BitVec.toNat_ofNat, BitVec.toNat_ofNat, shiftLeft_eq, shiftLeft_eq,
    mod_mul_mod]

/-- The patches of a block put back what was cut off. -/
theorem restored {bits i : Nat} (hbits : bits ≤ 31) (hi : i < blockSize) :
    intAt block i = if i ∈ exceptionsBelow bits block blockSize then
      lowBits bits (intAt block i) ||| BitVec.ofNat 32 ((intAt block i).toNat >>> bits <<< bits)
      else lowBits bits (intAt block i) := by
  by_cases hmem : i ∈ exceptionsBelow bits block blockSize
  · rw [if_pos hmem, lowBits_or_high hbits]
  · rw [if_neg hmem, lowBits_of_lt hbits]
    by_contra hge
    exact hmem (mem_exceptionsBelow.mpr ⟨hi, Nat.le_of_not_lt hge⟩)

end

section

variable {p : Plan} {tmp tmp' dest : List I32}

/-- A block whose exceptions have been cut off. -/
theorem writePatched_spec (h : Fitting p block) (hlen : block.length = blockSize)
    (hrange : ∀ v ∈ block, 0 ≤ v.toInt) (hs : Patched p.patchedBitsRequired block blockSize s)
    (htmp : tmp.length = blockSize) (htmp' : tmp'.length = blockSize)
    (hdest : dest.length = blockSize) (out : Bytes) :
    ∃ bytes, writePatched p s tmp out = .ok (out ++ bytes) ∧ DecodesTo block tmp' dest bytes := by
  have hcount := h.numExceptions_eq hlen hrange
  have hbits := h.bits_le
  have hfew : p.numExceptions ≤ 7 := h.few
  have hpatches := hs.patches
  rw [hs.count] at hpatches
  have hvalue : ∀ i < blockSize, 0 ≤ (intAt block i).toInt ∧
      (intAt block i).toNat < 2 ^ p.maxBitsRequired := by
    intro i hi
    have hmem := intAt_mem (hlen ▸ hi)
    exact ⟨hrange _ hmem, h.toNat_lt hrange hmem⟩
  generalize hindices : exceptionsBelow p.patchedBitsRequired block blockSize = indices at *
  have hbelow : ∀ i ∈ indices, i < blockSize := fun i hi =>
    (mem_exceptionsBelow.mp (hindices ▸ hi)).1
  have hnodup : indices.Nodup := hindices ▸ exceptionsBelow_nodup _ _ _
  have hints : ∀ i < blockSize, intAt s.ints i = lowBits p.patchedBitsRequired (intAt block i) :=
    fun i hi => by rw [hs.ints i hi, if_pos hi]
  have hrestored : ∀ i < blockSize, intAt block i = if i ∈ indices then
      intAt s.ints i ||| BitVec.ofNat 32
        ((intAt block i).toNat >>> p.patchedBitsRequired <<< p.patchedBitsRequired)
      else intAt s.ints i := by
    intro i hi
    have := @restored block _ _ hbits hi
    rwa [hindices, ← hints i hi] at this
  have hpatch : ∀ i < blockSize, (patchOf p.patchedBitsRequired (intAt block i)).toNat =
      (intAt block i).toNat >>> p.patchedBitsRequired := fun i hi =>
    patchOf_toNat (hvalue i hi).1 ((hvalue i hi).2.trans_le
      (Nat.pow_le_pow_right (by decide) h.max_le))
  obtain ⟨equal, hequal, hall⟩ := allEqual_sound hs.length
  rw [writePatched, hequal, ok_bind, hcount]
  by_cases hcond : (equal && decide (p.maxBitsRequired ≤ 8)) = true
  · obtain ⟨hequalTrue, hmax⟩ := Bool.and_eq_true_iff.mp hcond
    rw [decide_eq_true_eq] at hmax
    obtain ⟨exceptions', hshift, htake⟩ := @shiftPatches_spec p.patchedBitsRequired _ indices _
      (by rw [hs.room, maxExceptions]; omega) hpatches
    rw [if_pos hcond, hshift, ok_bind, getInt_eq (by rw [hs.length]; decide), ok_bind, pure_eq_ok,
      htake]
    refine ⟨_, by rw [writeByte, writeVInt, writeBytes, append_assoc, append_assoc], ?_⟩
    have htoken := token_parts indices.length (by omega) 0 (by decide)
    rw [or_zero] at htoken
    refine decodesTo_zero hlen hdest htoken ?_ hbelow hnodup fun i hi => ?_
    · have hlow := toNat_lowBits hbits (intAt block 0)
      have hlt : (intAt block 0).toNat % 2 ^ p.patchedBitsRequired < 2 ^ 31 :=
        (mod_lt _ (Nat.two_pow_pos _)).trans_le (Nat.pow_le_pow_right (by decide) hbits)
      rw [hints 0 (by decide), ForDeltaUtil.toInt_eq_toNat (by omega)]
      exact Int.natCast_nonneg _
    · have hbyte :
          (intAt block i).toNat >>> p.patchedBitsRequired <<< p.patchedBitsRequired < 256 :=
        (shiftRight_shiftLeft_le _ _).trans_lt
          ((hvalue i hi).2.trans_le (Nat.pow_le_pow_right (by decide) hmax))
      rw [hpatch i hi, UInt8.toNat_ofNat', mod_eq_of_lt hbyte, ← hall hequalTrue i hi]
      exact hrestored i hi
  · have hfits : ∀ value ∈ s.ints, value.toNat < 2 ^ p.patchedBitsRequired := by
      intro value hmem
      obtain ⟨i, hi, rfl⟩ := getElem_of_mem hmem
      rw [← intAt_eq_getElem hi, hints i (hs.length ▸ hi), toNat_lowBits hbits]
      exact mod_lt _ (Nat.two_pow_pos _)
    obtain ⟨packed, hencode, hpackedLen, hdecode⟩ :=
      encode_spec h.bits_pos hbits hs.length hfits htmp
      htmp' hdest (writeByte out (UInt8.ofNat (indices.length <<< 5 ||| p.patchedBitsRequired)))
    rw [if_neg hcond]
    dsimp only
    rw [hencode, ok_bind, pure_eq_ok, hpatches]
    refine ⟨_, by rw [writeByte, writeBytes, append_assoc, append_assoc], ?_⟩
    refine decodesTo_packed hlen hs.length h.bits_pos
      (token_parts indices.length (by omega) p.patchedBitsRequired (by omega)) hpackedLen hdecode
      hbelow hnodup fun i hi => ?_
    rw [hpatch i hi, ofNat_shiftLeft]
    exact hrestored i hi

end

/-- The bytes of an encoded block decode to it, wherever they stand in a file, and skipping consumes
as many; the heap may hold anything from earlier blocks. The exceptions and the width fit the token,
and the high bits of each exception fit a byte. -/
theorem decode_encode_patched {block : List I32} (hlen : block.length = blockSize)
    (hrange : ∀ v ∈ block, 0 ≤ v.toInt) (top : Option LongHeap) {tmp tmp' dest : List I32}
    (htmp : tmp.length = blockSize) (htmp' : tmp'.length = blockSize)
    (hdest : dest.length = blockSize) (out : Bytes) :
    (∃ bytes state, encode top block tmp out = .ok (out ++ bytes, state) ∧
      ∀ file pos, At file pos bytes →
        decode ⟨file, pos⟩ tmp' dest = .ok (block, ⟨file, pos + bytes.length⟩) ∧
          skip ⟨file, pos⟩ = .ok ⟨file, pos + bytes.length⟩) ∧
    ∃ p, plan (top.getD (LongHeap.new (maxExceptions + 1))) block = .ok p ∧
      p.numExceptions ≤ 7 ∧ p.patchedBitsRequired < 2 ^ 5 ∧
      p.numExceptions = block.countP (fun v => decide (v.toInt > p.maxUnpatchedValue)) ∧
      ∀ v ∈ block, v.toInt > p.maxUnpatchedValue →
        (patchOf p.patchedBitsRequired v).toNat = v.toNat >>> p.patchedBitsRequired := by
  obtain ⟨p, hplan, hfitting⟩ := plan_spec (top.getD (LongHeap.new (maxExceptions + 1))) hlen hrange
  constructor
  · obtain ⟨equal, hequal, hall⟩ := allEqual_sound hlen
    rw [encode, getInt_eq (by rw [hlen]; decide), ok_bind, hequal, ok_bind]
    by_cases hfast : (decide (block.length ≥ blockSize) &&
        decide (0 ≤ (intAt block 0).toInt ∧ (intAt block 0).toInt ≤ 255) && equal) = true
    · obtain ⟨hsmall, hequalTrue⟩ := Bool.and_eq_true_iff.mp hfast
      have hfirst := (decide_eq_true_eq.mp (Bool.and_eq_true_iff.mp hsmall).2).1
      rw [if_pos hfast, pure_eq_ok, writeByte, writeVInt, append_assoc]
      refine ⟨_, _, rfl, ?_⟩
      -- no patches: every integer is the first one
      have hdecodes := @decodesTo_zero block 0 (intAt block 0) (fun _ => 0) [] tmp' dest hlen hdest
        ⟨by decide, by decide⟩ hfirst (forall_mem_nil _) nodup_nil
        fun i hi => by rw [if_neg not_mem_nil, hall hequalTrue i hi]
      rwa [patchBytes, flatMap_nil, append_nil] at hdecodes
    · obtain ⟨s, hpatch, hpatched⟩ := patchInts_spec hfitting hlen hrange
      obtain ⟨bytes, hwrite, hdecodes⟩ :=
        writePatched_spec hfitting hlen hrange hpatched htmp htmp' hdest out
      rw [if_neg hfast, hplan, ok_bind, hpatch, ok_bind, hwrite, ok_bind, pure_eq_ok]
      exact ⟨bytes, _, rfl, hdecodes⟩
  · refine ⟨p, hplan, hfitting.few, ?_, hfitting.count, fun v hv _ => ?_⟩
    · have := hfitting.bits_le
      omega
    · exact patchOf_toNat (hrange v hv) ((hfitting.toNat_lt hrange hv).trans_le
        (Nat.pow_le_pow_right (by decide) hfitting.max_le))

/-- A block with one exception, and one without. -/
theorem decode_encode_patched_outlier :
    (∃ bytes state, encode (some (LongHeap.new 8)) (100000 :: replicate 127 3)
        (replicate 128 0) [] = .ok ([] ++ bytes, state) ∧
      ∀ file pos, At file pos bytes →
        decode ⟨file, pos⟩ (replicate 128 1) (replicate 128 2) =
            .ok (100000 :: replicate 127 3, ⟨file, pos + bytes.length⟩) ∧
          skip ⟨file, pos⟩ = .ok ⟨file, pos + bytes.length⟩) ∧
    ∃ p, plan ((some (LongHeap.new 8)).getD (LongHeap.new (maxExceptions + 1)))
        (100000 :: replicate 127 3) = .ok p ∧
      p.numExceptions ≤ 7 ∧ p.patchedBitsRequired < 2 ^ 5 ∧
      p.numExceptions = (100000 :: replicate 127 (3 : I32)).countP
        (fun v => decide (v.toInt > p.maxUnpatchedValue)) ∧
      ∀ v ∈ (100000 :: replicate 127 (3 : I32)), v.toInt > p.maxUnpatchedValue →
        (patchOf p.patchedBitsRequired v).toNat = v.toNat >>> p.patchedBitsRequired :=
  decode_encode_patched (by rw [length_cons, length_replicate]; rfl)
    (fun v hv => by
      rcases mem_cons.mp hv with rfl | hv
      · decide
      · rw [eq_of_mem_replicate hv]
        decide)
    (some (LongHeap.new 8)) length_replicate length_replicate length_replicate []

end PForUtil

end RLucene.Codecs.Lucene101
