import RLucene.Lib.GapCode
import RLucene.Util.Compress.LowercaseAscii

/-!
# Lowercase text is restored

Both passes over the exceptions are compared with one description of them: `exceptionsFrom` lists
the positions that cannot be moved to six bits, and `stops` adds the artificial ones. The counting
pass counts these stops and the writing pass records them, so the two counts agree. Decompression
undoes the packing at every other position, and puts the recorded bytes back at the stops.
-/

namespace RLucene.Util.LowercaseAsciiCompression

open Nat List Lib Store

/-! ## The exceptions -/

/-- A statement about bytes is settled by going through them. -/
theorem forall_byte {P : UInt8 → Prop} (h : ∀ n < 256, P (UInt8.ofNat n)) (b : UInt8) : P b := by
  have hb := h b.toNat b.toNat_lt
  rwa [UInt8.ofNat_toNat] at hb

/-- The lane test and the test on integers agree, also where the byte wraps. -/
theorem isBad_eq (b : UInt8) : isBad b = !isCompressible b.toNat :=
  forall_byte (P := fun b => isBad b = !isCompressible b.toNat) (by decide +kernel) b

/-- The positions, counted from `i`, of the bytes that cannot be moved to six bits. -/
def exceptionsFrom : (i : Nat) → Bytes → List Nat
  | _, [] => []
  | i, b :: bytes =>
    if isCompressible b.toNat then exceptionsFrom (i + 1) bytes
    else i :: exceptionsFrom (i + 1) bytes

theorem exceptionsFrom_append (i : Nat) (a b : Bytes) :
    exceptionsFrom i (a ++ b) = exceptionsFrom i a ++ exceptionsFrom (i + a.length) b := by
  induction a generalizing i with
  | nil => rfl
  | cons x a ih =>
    have hi : i + 1 + a.length = i + (x :: a).length := by
      rw [length_cons]
      omega
    rw [cons_append, exceptionsFrom, exceptionsFrom, ih, hi]
    split <;> rfl

variable {i p maxExceptions block blockStart len fuel base k n pos : Nat} {bytes out : Bytes}
  {count : Count} {mask x shift dest : UInt8} {e : LuceneError}

/-- The exceptions are the bytes that need eight bits. -/
theorem mem_exceptionsFrom :
    p ∈ exceptionsFrom i bytes ↔
      i ≤ p ∧ ∃ b, bytes[p - i]? = some b ∧ isCompressible b.toNat = false := by
  induction bytes generalizing i with
  | nil => simp [exceptionsFrom]
  | cons x bytes ih =>
    have hcons : p ∈ exceptionsFrom i (x :: bytes) ↔
        p = i ∧ isCompressible x.toNat = false ∨ p ∈ exceptionsFrom (i + 1) bytes := by
      rw [exceptionsFrom]
      split <;> simp [*]
    rw [hcons, ih]
    rcases Nat.lt_trichotomy p i with hlt | rfl | hgt
    · simp [hlt.ne, hlt.not_ge, show ¬ i + 1 ≤ p by omega]
    · simp
    · rw [show p - i = p - (i + 1) + 1 by omega, getElem?_cons_succ]
      simp [hgt.ne', hgt.le, succ_le_of_lt hgt]

theorem exceptionsFrom_increasing (i : Nat) (bytes : Bytes) :
    Increasing (exceptionsFrom i bytes) := by
  induction bytes generalizing i with
  | nil => exact List.Pairwise.nil
  | cons x bytes ih =>
    rw [exceptionsFrom]
    split
    · exact ih (i + 1)
    · exact pairwise_cons.mpr ⟨fun p hp => (mem_exceptionsFrom.mp hp).1, ih (i + 1)⟩

theorem lt_of_mem_exceptionsFrom (h : p ∈ exceptionsFrom i bytes) : p < i + bytes.length := by
  obtain ⟨hle, b, hb, -⟩ := mem_exceptionsFrom.mp h
  have hlt := (List.getElem_of_getElem? hb).1
  omega

/-- The stops at which a text's exceptions are recorded. -/
def recorded (bytes : Bytes) : List Nat :=
  stops 0xFF 0 (exceptionsFrom 0 bytes)

theorem lt_of_mem_recorded (h : p ∈ recorded bytes) : p < bytes.length := by
  obtain ⟨i, hi, hle⟩ := exists_le_of_mem_stops h
  have hlt := lt_of_mem_exceptionsFrom hi
  omega

/-- Every recorded gap fits a byte. -/
theorem recorded_within (bytes : Bytes) : GapsWithin 0xFF 0 (recorded bytes) :=
  stops_within (by omega) (pairwise_cons.mpr
    ⟨fun _ _ => zero_le _, (exceptionsFrom_increasing 0 bytes).imp Nat.le_of_lt⟩)

/-! ## The counting pass -/

/-- The count after passing over exceptions at the given positions. -/
def Count.after (count : Count) (positions : List Nat) : Count :=
  ⟨lastFrom count.previousExceptionIndex positions,
    count.numExceptions + (stops 0xFF count.previousExceptionIndex positions).length⟩

@[simp] theorem Count.after_nil (count : Count) : count.after [] = count := rfl

theorem Count.after_append (count : Count) (a b : List Nat) :
    count.after (a ++ b) = (count.after a).after b := by
  simp only [Count.after, lastFrom_append, stops_append, length_append, add_assoc]

/-- A count that is given up when it is above the maximum. -/
def limited (maxExceptions : Nat) (count : Count) : Option Count :=
  if count.numExceptions ≤ maxExceptions then some count else none

theorem limited_of_le (h : count.numExceptions ≤ maxExceptions) :
    limited maxExceptions count = some count :=
  if_pos h

/-- The count is within the limit. -/
theorem limited_eq_some {count' : Count} :
    limited maxExceptions count = some count' ↔
      count = count' ∧ count.numExceptions ≤ maxExceptions := by
  unfold limited
  split
  · rename_i hle
    simp [hle]
  · rename_i hlt
    simp [hlt]

/-- A limit that is passed stays passed. -/
theorem limited_after_eq_none (h : limited maxExceptions count = none) (positions : List Nat) :
    limited maxExceptions (count.after positions) = none := by
  unfold limited at h ⊢
  split at h
  · cases h
  · rw [if_neg]
    simp only [Count.after]
    omega

/-- The loop counts the stops. -/
theorem countGaps_eq (fuel i : Nat) (count : Count) :
    (countGaps fuel i count).numExceptions + 1 =
      count.numExceptions + (stopsTo 0xFF fuel count.previousExceptionIndex i).length := by
  induction fuel generalizing count with
  | zero => rfl
  | succ fuel ih =>
    rw [countGaps, stopsTo]
    split
    · rw [ih, length_cons, add_assoc, add_comm 1]
    · rfl

variable {input : Bytes} {b : UInt8}

/-- One byte. -/
theorem countByte_eq (hb : input[i]? = some b) (hcount : count.numExceptions ≤ maxExceptions) :
    countByte input maxExceptions i count =
      .ok (limited maxExceptions (count.after (exceptionsFrom i [b]))) := by
  rw [countByte, hb, exceptionsFrom, exceptionsFrom]
  by_cases hc : isCompressible b.toNat
  · simp only [hc, if_true, Count.after_nil, limited_of_le hcount]
  · have hgaps := countGaps_eq i i count
    have hafter : count.after [i] = ⟨i, (countGaps i i count).numExceptions + 1⟩ := by
      simp only [Count.after, stops, append_nil, hgaps, lastFrom_cons, lastFrom_nil]
    simp only [hc, Bool.false_eq_true, if_false, hafter, limited]
    split
    · rw [if_neg (by omega)]
    · rw [if_pos (by omega)]

/-- Some bytes. -/
theorem countBytes_eq {piece : Bytes} (hpiece : piece <+: input.drop i)
    (hcount : count.numExceptions ≤ maxExceptions) :
    countBytes input maxExceptions piece.length i count =
      .ok (limited maxExceptions (count.after (exceptionsFrom i piece))) := by
  induction piece generalizing i count with
  | nil => rw [length_nil, countBytes, exceptionsFrom, Count.after_nil, limited_of_le hcount]
  | cons b piece ih =>
    obtain ⟨rest, hrest⟩ := hpiece
    have hb : input[i]? = some b := by
      have h0 : (input.drop i)[0]? = some b := by
        rw [← hrest]
        rfl
      simpa using h0
    have hpiece : piece <+: input.drop (i + 1) := by
      refine ⟨rest, ?_⟩
      rw [← drop_drop, ← hrest]
      rfl
    have hsplit : exceptionsFrom i (b :: piece) =
        exceptionsFrom i [b] ++ exceptionsFrom (i + 1) piece :=
      exceptionsFrom_append i [b] piece
    rw [length_cons, countBytes, countByte_eq hb hcount, ok_bind, hsplit, Count.after_append]
    cases hlim : limited maxExceptions (count.after (exceptionsFrom i [b])) with
    | none => rw [limited_after_eq_none hlim, pure_eq_ok]
    | some count' =>
      obtain ⟨rfl, hle⟩ := limited_eq_some.mp hlim
      exact ih hpiece hle

theorem foldl_bad_eq_zero {block : Bytes} {bad : UInt8}
    (h : block.foldl (fun (bad : UInt8) b => bad ||| (if isBad b then 1 else 0)) bad = 0) :
    bad = 0 ∧ ∀ b ∈ block, isBad b = false := by
  induction block generalizing bad with
  | nil => exact ⟨h, by simp⟩
  | cons b block ih =>
    obtain ⟨hor, hrest⟩ := ih h
    have hboth := UInt8.or_eq_zero_iff.mp hor
    refine ⟨hboth.1, fun c hc => ?_⟩
    rcases mem_cons.mp hc with rfl | hc
    · by_contra hne
      simp [hne] at hboth
    · exact hrest c hc

/-- A block that is found clean has no exceptions. -/
theorem exceptionsFrom_of_cleanBlock {blockEnd : Nat}
    (h : cleanBlock input blockStart blockEnd = true) :
    exceptionsFrom blockStart ((input.drop blockStart).take (blockEnd - blockStart)) = [] := by
  simp only [cleanBlock, Bool.and_eq_true, beq_iff_eq, decide_eq_true_eq] at h
  obtain ⟨⟨hsize, -⟩, hfold⟩ := h
  obtain ⟨-, hclean⟩ := foldl_bad_eq_zero hfold
  rw [hsize, eq_nil_iff_forall_not_mem]
  intro p hp
  obtain ⟨-, b, hb, hbad⟩ := mem_exceptionsFrom.mp hp
  have hmem := hclean b (mem_of_getElem? hb)
  rw [isBad_eq, hbad] at hmem
  cases hmem

theorem exceptionsFrom_behind (i : Nat) (h : len ≤ blockStart) :
    exceptionsFrom i ((bytes.take len).drop blockStart) = [] := by
  rw [drop_eq_nil_of_le (by rw [length_take]; omega), exceptionsFrom]

/-- The counting pass counts the stops, block by block. -/
theorem countBlocks_eq (hlen : len ≤ input.length) (hfuel : len ≤ blockStart + fuel)
    (hcount : count.numExceptions ≤ maxExceptions) :
    countBlocks input len maxExceptions fuel blockStart count =
      .ok (limited maxExceptions
        (count.after (exceptionsFrom blockStart ((input.take len).drop blockStart)))) := by
  induction fuel generalizing blockStart count with
  | zero =>
    rw [add_zero] at hfuel
    rw [countBlocks, exceptionsFrom_behind _ hfuel, Count.after_nil, limited_of_le hcount]
  | succ fuel ih =>
    rw [countBlocks]
    split
    · obtain ⟨size, hsize⟩ : ∃ size, size = min 16 (len - blockStart) := ⟨_, rfl⟩
      have hpos : 0 < size ∧ size ≤ len - blockStart := by omega
      rw [← hsize]
      -- the bytes of this block, and the ones behind it
      have hpiece : ((input.take len).drop blockStart).take size <+: input.drop blockStart := by
        rw [drop_take]
        exact ( take_prefix _ _).trans ( take_prefix _ _)
      have hpieceLen : (((input.take len).drop blockStart).take size).length = size := by
        rw [length_take, length_drop, length_take]
        omega
      have hsplit : exceptionsFrom blockStart ((input.take len).drop blockStart) =
          exceptionsFrom blockStart (((input.take len).drop blockStart).take size) ++
            exceptionsFrom (blockStart + size) ((input.take len).drop (blockStart + size)) := by
        conv_lhs => rw [← take_append_drop size ((input.take len).drop blockStart)]
        rw [exceptionsFrom_append, hpieceLen, drop_drop]
      have hsub : blockStart + size - blockStart = size := by omega
      rw [hsplit, Count.after_append]
      simp only
      split
      · rename_i hclean
        have hnone := exceptionsFrom_of_cleanBlock hclean
        rw [hsub] at hnone
        have hsame : ((input.take len).drop blockStart).take size =
            (input.drop blockStart).take size := by
          rw [drop_take, take_take, min_eq_left hpos.2]
        rw [hsame, hnone, Count.after_nil]
        exact ih (by omega) hcount
      · have hbytes := countBytes_eq hpiece hcount
        rw [hpieceLen] at hbytes
        rw [hsub, hbytes, ok_bind]
        cases hlim : limited maxExceptions
            (count.after (exceptionsFrom blockStart
              (((input.take len).drop blockStart).take size))) with
        | none => rw [limited_after_eq_none hlim, pure_eq_ok]
        | some count' =>
          obtain ⟨rfl, hle⟩ := limited_eq_some.mp hlim
          exact ih (by omega) hle
    · rename_i hbehind
      rw [exceptionsFrom_behind _ (Nat.not_lt.mp hbehind), Count.after_nil, limited_of_le hcount]

/-! ## The writing pass -/

/-- The byte at a position of the text. -/
def byteAt (input : Bytes) (i : Nat) : UInt8 :=
  input[i]?.getD 0

/-- The output after recording stops. -/
def Writing.record (input : Bytes) (w : Writing) (positions : List Nat) : Writing :=
  ⟨w.out ++ gapBytes (byteAt input) w.previousExceptionIndex positions,
    lastFrom w.previousExceptionIndex positions, w.numExceptions2 + positions.length⟩

variable {w : Writing}

@[simp] theorem Writing.record_nil : w.record input [] = w := by
  simp [Writing.record, gapBytes]

theorem Writing.record_append (a b : List Nat) :
    w.record input (a ++ b) = (w.record input a).record input b := by
  simp only [Writing.record, gapBytes_append, lastFrom_append, length_append,
    append_assoc, add_assoc]

theorem Writing.record_previous (positions : List Nat) :
    (w.record input (stops 0xFF w.previousExceptionIndex positions)).previousExceptionIndex =
      lastFrom w.previousExceptionIndex positions :=
  lastFrom_stops _ _

/-- One exception. -/
theorem writeException_eq (hi : i < input.length) :
    writeException input (i - w.previousExceptionIndex) i w = .ok (w.record input [i]) := by
  simp only [writeException, getElem?_eq_getElem hi, writeByte, Writing.record, gapBytes, byteAt,
    lastFrom_cons, lastFrom_nil, Option.getD_some, append_assoc, length_singleton]
  rfl

/-- The way to an exception, with the exception. -/
theorem writeGaps_eq (fuel : Nat) (hi : i < input.length) :
    (do
      let w ← writeGaps input fuel i w
      writeException input (i - w.previousExceptionIndex) i w) =
      .ok (w.record input (stopsTo 0xFF fuel w.previousExceptionIndex i)) := by
  induction fuel generalizing w with
  | zero =>
    rw [writeGaps, ok_bind, stopsTo]
    exact writeException_eq hi
  | succ fuel ih =>
    rw [writeGaps, stopsTo]
    split
    · have hstop : w.previousExceptionIndex + 0xFF < input.length := by omega
      have hwrite := writeException_eq (w := w) hstop
      rw [Nat.add_sub_cancel_left] at hwrite
      rw [hwrite, ok_bind, ih]
      exact congrArg Except.ok (Writing.record_append [w.previousExceptionIndex + 0xFF] _).symm
    · exact writeException_eq hi

/-- The exceptions of a mask. -/
theorem writeMask_eq {mask : Word} (hfuel : (setBits mask).length ≤ fuel)
    (hlt : ∀ p ∈ setBits mask, block * 16 + p < input.length) :
    writeMask input block fuel mask w =
      .ok (w.record input
        (stops 0xFF w.previousExceptionIndex ((setBits mask).map (block * 16 + ·)))) := by
  induction fuel generalizing mask w with
  | zero =>
    rw [length_eq_zero_iff.mp (le_zero.mp hfuel), map_nil, stops, Writing.record_nil, writeMask]
  | succ fuel ih =>
    rw [writeMask]
    split
    · rename_i hzero
      rw [setBits_eq_nil_iff.mpr hzero, map_nil, stops, Writing.record_nil]
    · rename_i hne
      have hbits := setBits_eq_cons hne
      have hfirst := hlt _ (trailingZeros_mem hne)
      rw [hbits] at hlt hfuel
      have hgaps := writeGaps_eq (w := w) (block * 16 + trailingZeros mask) hfirst
      rw [← bind_assoc, hgaps, ok_bind, ih (le_of_succ_le_succ hfuel) (forall_mem_cons.mp hlt).2,
        hbits, map_cons, stops, Writing.record_append]
      simp only [Writing.record, lastFrom_stopsTo]

/-! ### The masks -/

/-- The bits of a mask. -/
theorem mem_setBits_bitmask {lanes : List Bool} (hlanes : lanes.length ≤ 64) :
    p ∈ setBits (bitmask lanes) ↔ lanes[p]? = some true := by
  have hmask : bitmask lanes = lanes.zipIdx.foldl
      (fun mask lane => if lane.1 then mask ||| 1#64 <<< lane.2 else mask) 0 := by
    rw [bitmask]
    congr 1
    funext mask lane
    split <;> simp
  rw [hmask, @mem_setBits_zipIdx _ _ (· = true) _ _ hlanes]
  simp

/-- The set bits of a mask of bad lanes, moved to where the lanes lie, are the exceptions there. -/
theorem bitmask_positions (hlen : bytes.length ≤ 64) :
    (setBits (bitmask (bytes.map fun byte => !isCompressible byte.toNat))).map (base + ·) =
      exceptionsFrom base bytes := by
  have hinc : Increasing ((setBits (bitmask (bytes.map fun byte =>
      !isCompressible byte.toNat))).map (base + ·)) := by
    refine pairwise_map.mpr ((setBits_increasing _).imp fun h => ?_)
    omega
  refine hinc.ext (exceptionsFrom_increasing base bytes) fun p => ?_
  rw [mem_exceptionsFrom, mem_map]
  constructor
  · rintro ⟨q, hq, rfl⟩
    rw [mem_setBits_bitmask (by rwa [length_map]), getElem?_map, Option.map_eq_some_iff] at hq
    obtain ⟨b, hb, hbad⟩ := hq
    rw [Nat.add_sub_cancel_left]
    exact ⟨Nat.le_add_right _ _, b, hb, by simpa using hbad⟩
  · rintro ⟨hle, b, hb, hbad⟩
    refine ⟨p - base, ?_, by omega⟩
    rw [mem_setBits_bitmask (by rwa [length_map]), getElem?_map, hb]
    simp [hbad]

/-- The mask of a block has its exceptions. -/
theorem blockMask_positions {block : Bytes} (hlen : block.length ≤ 64) :
    (setBits (blockMask block)).map (base + ·) = exceptionsFrom base block := by
  have hlanes : block.map isBad = block.map fun byte => !isCompressible byte.toNat :=
    map_congr_left fun b _ => isBad_eq b
  rw [← bitmask_positions hlen, blockMask]
  simp only [hlanes]
  split
  · rfl
  · rename_i hnone
    have hzero : bitmask (block.map fun byte => !isCompressible byte.toNat) = 0 := by
      rw [← setBits_eq_nil_iff, eq_nil_iff_forall_not_mem]
      intro p hp
      rw [mem_setBits_bitmask (by rwa [length_map])] at hp
      exact hnone (any_eq_true.mpr ⟨true, mem_of_getElem? hp, rfl⟩)
    rw [hzero]

/-- The positions that the masks of consecutive blocks name. -/
def maskPositions : (block : Nat) → List Word → List Nat
  | _, [] => []
  | block, mask :: rest => (setBits mask).map (block * 16 + ·) ++ maskPositions (block + 1) rest

/-- The masks of all blocks have all exceptions. -/
theorem maskPositions_blocks {blocks : List Bytes} {tail : Bytes}
    (hblocks : ∀ b ∈ blocks, b.length = 16) (htail : tail.length ≤ 16) :
    maskPositions block (blocks.map blockMask ++ [tailMask tail]) =
      exceptionsFrom (block * 16) (blocks.flatten ++ tail) := by
  induction blocks generalizing block with
  | nil =>
    simp only [map_nil, nil_append, maskPositions, append_nil, flatten_nil]
    exact bitmask_positions (by omega)
  | cons b blocks ih =>
    have hb := hblocks b mem_cons_self
    rw [map_cons, cons_append, maskPositions, blockMask_positions (by omega),
      ih (forall_mem_cons.mp hblocks).2, flatten_cons, append_assoc, exceptionsFrom_append _ b, hb,
      succ_mul]

/-- The writing pass goes through the exceptions. -/
theorem maskPositions_masks (input : Bytes) :
    maskPositions 0 (masks input) = exceptionsFrom 0 input := by
  have htail : (input.drop (16 * (input.length / 16))).length ≤ 16 := by
    rw [length_drop]
    omega
  have hblocks : ∀ b ∈ pieces (input.length / 16) 16 input, b.length = 16 := by
    intro b hb
    exact length_of_mem_pieces (by omega) hb
  rw [masks, maskPositions_blocks hblocks htail, pieces_flatten, take_append_drop, zero_mul]

/-- The exceptions of all masks. -/
theorem writeMasks_eq {ms : List Word} (hlt : ∀ p ∈ maskPositions block ms, p < input.length) :
    writeMasks input block ms w =
      .ok (w.record input (stops 0xFF w.previousExceptionIndex (maskPositions block ms))) := by
  induction ms generalizing block w with
  | nil => rw [writeMasks, maskPositions, stops, Writing.record_nil]
  | cons mask ms ih =>
    rw [maskPositions] at hlt
    have hmask : writeMask input block 64 mask w = _ :=
      writeMask_eq (countOnes_le mask) fun p hp =>
        hlt _ (mem_append_left _ (mem_map_of_mem hp))
    rw [writeMasks, hmask, ok_bind, ih fun p hp => hlt p (mem_append_right _ hp), maskPositions,
      stops_append, Writing.record_append, Writing.record_previous]

/-! ## Packing and restoring -/

/-- A byte whose two high bits are free. -/
def SixBits (b : UInt8) : Prop :=
  b.toNat < 64

theorem toSixBits_sixBits (b : UInt8) : SixBits (toSixBits b) :=
  forall_byte (P := fun b => (toSixBits b).toNat < 64) (by decide +kernel) b

theorem and_low_of_sixBits (h : SixBits x) : x &&& 0x3F = x := by
  apply UInt8.toNat_inj.mp
  rw [UInt8.toNat_and]
  exact and_two_pow_sub_one_of_lt_two_pow (n := 6) h

theorem and_high_of_sixBits (h : SixBits x) : x &&& 0xC0 = 0 := by
  rw [← and_low_of_sixBits h, UInt8.and_assoc]
  exact UInt8.and_zero

/-- A mask on the packed byte splits, so that the two bytes in it can be looked at apart. -/
theorem borrow_and (mask shift dest source m : UInt8) :
    borrow mask shift dest source &&& m = (dest &&& m) ||| (((source &&& mask) <<< shift) &&& m) :=
  UInt8.toBitVec_inj.mp BitVec.and_or_distrib_right

section

variable (hcase : (mask, shift) ∈ [(0x30, 2), (0x0C, 4), (0x03, 6)])
include hcase

/-- Two bits of a source go to the two high bits, and come back from there. -/
theorem moved_bits (source : UInt8) :
    ((source &&& mask) <<< shift) &&& 0x3F = 0 ∧
      (((source &&& mask) <<< shift) &&& 0xC0) >>> shift = source &&& mask := by
  have hall := forall_byte (P := fun b =>
    (((b &&& 0x30) <<< 2) &&& 0x3F = 0 ∧ (((b &&& 0x30) <<< 2) &&& 0xC0) >>> 2 = b &&& 0x30) ∧
    (((b &&& 0x0C) <<< 4) &&& 0x3F = 0 ∧ (((b &&& 0x0C) <<< 4) &&& 0xC0) >>> 4 = b &&& 0x0C) ∧
    (((b &&& 0x03) <<< 6) &&& 0x3F = 0 ∧ (((b &&& 0x03) <<< 6) &&& 0xC0) >>> 6 = b &&& 0x03))
    (by decide +kernel)
  obtain ⟨h4, h2, h0⟩ := hall source
  simp only [mem_cons, Prod.mk.injEq, not_mem_nil, or_false] at hcase
  rcases hcase with ⟨rfl, rfl⟩ | ⟨rfl, rfl⟩ | ⟨rfl, rfl⟩
  · exact h4
  · exact h2
  · exact h0

/-- The low six bits survive the packing. -/
theorem borrow_low (hd : SixBits dest) (source : UInt8) :
    borrow mask shift dest source &&& 0x3F = dest := by
  rw [borrow_and, and_low_of_sixBits hd, (moved_bits hcase source).1, UInt8.or_zero]

/-- The bits put into a byte are its two high ones. -/
theorem borrow_high (hd : SixBits dest) (source : UInt8) :
    (borrow mask shift dest source &&& 0xC0) >>> shift = source &&& mask := by
  rw [borrow_and, and_high_of_sixBits hd, UInt8.zero_or, (moved_bits hcase source).2]

theorem map_low_borrow {a tail : Bytes} (hlen : a.length = tail.length) (ha : ∀ x ∈ a, SixBits x) :
    (zipWith (borrow mask shift) a tail).map (· &&& 0x3F) = a := by
  induction a generalizing tail with
  | nil => rfl
  | cons x a ih =>
    cases tail with
    | nil => cases hlen
    | cons t tail =>
      rw [zipWith_cons_cons, map_cons, borrow_low hcase (ha x mem_cons_self),
        ih (Nat.succ.inj hlen) (forall_mem_cons.mp ha).2]

end

/-- The bits that three bytes borrow give the fourth. -/
theorem restore_borrow {a c source : UInt8} (ha : SixBits a) (hb : SixBits b) (hc : SixBits c)
    (hs : SixBits source) :
    restore (borrow 0x30 2 a source) (borrow 0x0C 4 b source) (borrow 0x03 6 c source) =
      source := by
  have hmasks : (source &&& 0x30) ||| (source &&& 0x0C) ||| (source &&& 0x03) =
      source &&& 0x3F := by
    apply UInt8.toBitVec_inj.mp
    simp only [UInt8.toBitVec_or, UInt8.toBitVec_and, ← BitVec.and_or_distrib_left]
    rfl
  rw [restore, borrow_high (by decide) ha, borrow_high (by decide) hb, borrow_high (by decide) hc,
    hmasks, and_low_of_sixBits hs]

/-- Only the low six bits are moved back to eight. -/
theorem toEightBits_low (b : UInt8) : toEightBits (b &&& 0x3F) = toEightBits b :=
  forall_byte (P := fun b => toEightBits (b &&& 0x3F) = toEightBits b) (by decide +kernel) b

/-- A compressible byte comes back. -/
theorem toEightBits_toSixBits (h : isCompressible b.toNat = true) : toEightBits (toSixBits b) = b :=
  forall_byte (P := fun b => isCompressible b.toNat = true → toEightBits (toSixBits b) = b)
    (by decide +kernel) b h

section

variable {a b c tail : Bytes}

/-- The last quarter comes back. -/
theorem restoreAll_borrow (ha : a.length = tail.length) (hb : b.length = tail.length)
    (hc : c.length = tail.length) (hsix : ∀ x ∈ a ++ b ++ c ++ tail, SixBits x) :
    restoreAll (zipWith (borrow 0x30 2) a tail) (zipWith (borrow 0x0C 4) b tail)
      (zipWith (borrow 0x03 6) c tail) = tail := by
  induction tail generalizing a b c with
  | nil =>
    rw [length_nil, length_eq_zero_iff] at ha
    rw [ha]
    rfl
  | cons t tail ih =>
    obtain ⟨x, a, rfl⟩ := exists_cons_of_length_eq_add_one ha
    obtain ⟨y, b, rfl⟩ := exists_cons_of_length_eq_add_one hb
    obtain ⟨z, c, rfl⟩ := exists_cons_of_length_eq_add_one hc
    simp only [mem_append, mem_cons] at hsix
    have hhead := restore_borrow (hsix x (by simp)) (hsix y (by simp)) (hsix z (by simp))
      (hsix t (by simp))
    have hrest := ih (Nat.succ.inj ha) (Nat.succ.inj hb) (Nat.succ.inj hc) (by
      intro u hu
      simp only [mem_append] at hu
      exact hsix u (by tauto))
    simp only [restoreAll] at hrest ⊢
    simp only [zipWith_cons_cons, zip_cons_cons, hhead, hrest]

/-- Sixteen lanes at a time or one by one is the same. -/
theorem restoreAll_split (k : Nat) :
    restoreAll (a.take k) (b.take k) (c.take k) ++ restoreAll (a.drop k) (b.drop k) (c.drop k) =
      restoreAll a b c := by
  simp only [restoreAll, List.zip, ← take_zipWith, ← drop_zipWith, take_append_drop]

end

/-- The six-bit values of a text. -/
def sixBitsOf (text : Bytes) : Bytes :=
  text.map toSixBits

/-- The first three of the parts of a quarter each. -/
def part (text : Bytes) (k : Nat) : Bytes :=
  ((sixBitsOf text).drop (k * (text.length / 4))).take (text.length / 4)

/-- The part that is spread over the others. -/
def lastPart (text : Bytes) : Bytes :=
  (sixBitsOf text).drop (text.length - text.length / 4)

/-- What lies between the third part and the last, up to three values. -/
def between (text : Bytes) : Bytes :=
  ((sixBitsOf text).take (text.length - text.length / 4)).drop (3 * (text.length / 4))

/-- The bytes that the six-bit values are packed in. -/
def packedBytes (text : Bytes) : Bytes :=
  zipWith (borrow 0x30 2) (part text 0) (lastPart text) ++
    zipWith (borrow 0x0C 4) (part text 1) (lastPart text) ++
    zipWith (borrow 0x03 6) (part text 2) (lastPart text) ++ between text

section

variable (text : Bytes)

@[simp] theorem sixBitsOf_length : (sixBitsOf text).length = text.length :=
  length_map _

theorem sixBits_of_mem (h : x ∈ sixBitsOf text) : SixBits x := by
  obtain ⟨b, -, rfl⟩ := mem_map.mp h
  exact toSixBits_sixBits b

theorem sixBits_of_mem_part (h : x ∈ part text k) : SixBits x :=
  sixBits_of_mem text (mem_of_mem_drop (mem_of_mem_take h))

theorem sixBits_of_mem_lastPart (h : x ∈ lastPart text) : SixBits x :=
  sixBits_of_mem text (mem_of_mem_drop h)

theorem lastPart_length : (lastPart text).length = text.length / 4 := by
  rw [lastPart, length_drop, sixBitsOf_length]
  omega

theorem part_length (hk : k < 3) : (part text k).length = text.length / 4 := by
  have hle : (k + 1) * (text.length / 4) ≤ 4 * (text.length / 4) :=
    Nat.mul_le_mul_right _ (by omega)
  rw [succ_mul] at hle
  rw [part, length_take, length_drop, sixBitsOf_length]
  omega

theorem zip_length (hk : k < 3) (mask shift : UInt8) :
    (zipWith (borrow mask shift) (part text k) (lastPart text)).length = text.length / 4 := by
  rw [length_zipWith, part_length text hk, lastPart_length, Nat.min_self]

theorem parts_append :
    part text 0 ++ part text 1 ++ part text 2 ++ between text =
      (sixBitsOf text).take (text.length - text.length / 4) := by
  obtain ⟨q, hq⟩ : ∃ q, q = text.length / 4 := ⟨_, rfl⟩
  have hcut (k : Nat) :
      (sixBitsOf text).take (k * q) ++ part text k = (sixBitsOf text).take ((k + 1) * q) := by
    rw [part, ← hq, succ_mul, take_add]
  have h0 := hcut 0
  have h1 := hcut 1
  have h2 := hcut 2
  rw [zero_mul, take_zero, nil_append] at h0
  have hthree : (sixBitsOf text).take (3 * q) =
      ((sixBitsOf text).take (text.length - q)).take (3 * q) := by
    rw [take_take, min_eq_left (by omega)]
  rw [h0, h1, h2, between, ← hq, hthree, take_append_drop]

/-- What is packed. -/
theorem pack_eq : pack (sixBitsOf text) (text.length / 4) = packedBytes text ++ lastPart text := by
  obtain ⟨q, hq⟩ : ∃ q, q = text.length / 4 := ⟨_, rfl⟩
  have hpart (k : Nat) (hk : (k + 1) * q ≤ text.length - q) :
      (((sixBitsOf text).take (text.length - q)).drop (k * q)).take q = part text k := by
    rw [succ_mul] at hk
    rw [part, ← hq, drop_take, take_take, min_eq_left (by omega)]
  have h0 := hpart 0 (by omega)
  have h1 := hpart 1 (by omega)
  have h2 := hpart 2 (by omega)
  rw [zero_mul, drop_zero] at h0
  rw [Nat.one_mul] at h1
  simp only [pack, packedBytes, sixBitsOf_length, ← hq, h0, h1, h2, lastPart, between]

/-- Three quarters of the text. -/
theorem packedBytes_length : (packedBytes text).length = text.length - text.length / 4 := by
  simp only [packedBytes, length_append, zip_length text (show 0 < 3 by omega),
    zip_length text (show 1 < 3 by omega), zip_length text (show 2 < 3 by omega),
    between, length_drop, length_take, sixBitsOf_length]
  omega

/-- The low bits of what is packed. -/
theorem packedBytes_low :
    (packedBytes text).map (· &&& 0x3F) =
      (sixBitsOf text).take (text.length - text.length / 4) := by
  have hzip {k : Nat} (hk : k < 3) {mask shift : UInt8}
      (hcase : (mask, shift) ∈ [((0x30 : UInt8), (2 : UInt8)), (0x0C, 4), (0x03, 6)]) :
      (zipWith (borrow mask shift) (part text k) (lastPart text)).map (· &&& 0x3F) = part text k :=
    map_low_borrow hcase (by rw [part_length text hk, lastPart_length])
      fun x => sixBits_of_mem_part text
  have hbetween : (between text).map (· &&& 0x3F) = between text := by
    conv_rhs => rw [← map_id (between text)]
    exact map_congr_left fun x hx => and_low_of_sixBits
      (sixBits_of_mem text (mem_of_mem_take (mem_of_mem_drop hx)))
  rw [packedBytes, map_append, map_append, map_append, hzip (by omega) (by simp),
    hzip (by omega) (by simp), hzip (by omega) (by simp), hbetween, parts_append]

/-- The last quarter comes back from the packed bytes. -/
theorem restoreAll_parts :
    restoreAll (zipWith (borrow 0x30 2) (part text 0) (lastPart text))
      (zipWith (borrow 0x0C 4) (part text 1) (lastPart text))
      (zipWith (borrow 0x03 6) (part text 2) (lastPart text)) = lastPart text := by
  have hlen {k : Nat} (hk : k < 3) : (part text k).length = (lastPart text).length := by
    rw [part_length text hk, lastPart_length]
  refine restoreAll_borrow (hlen (by omega)) (hlen (by omega)) (hlen (by omega)) fun x hx => ?_
  simp only [mem_append] at hx
  rcases hx with ((hx | hx) | hx) | hx
  · exact sixBits_of_mem_part text hx
  · exact sixBits_of_mem_part text hx
  · exact sixBits_of_mem_part text hx
  · exact sixBits_of_mem_lastPart text hx

/-- Decompression finds the last quarter again. -/
theorem restoreTail_packedBytes (rest : Bytes) :
    restoreTail (packedBytes text ++ rest) (text.length / 4) (text.length - text.length / 4) =
      packedBytes text ++ lastPart text ++ rest.drop (text.length / 4) := by
  have h0 := zip_length text (show 0 < 3 by omega) 0x30 2
  have h1 := zip_length text (show 1 < 3 by omega) 0x0C 4
  have h2 := zip_length text (show 2 < 3 by omega) 0x03 6
  have htake : (packedBytes text ++ rest).take (text.length - text.length / 4) = packedBytes text :=
    take_left' (packedBytes_length text)
  have hdrop : (packedBytes text ++ rest).drop (text.length - text.length / 4 + text.length / 4) =
      rest.drop (text.length / 4) := by
    rw [← packedBytes_length, drop_append, Nat.add_sub_cancel_left, drop_eq_nil_of_le (by omega),
      nil_append]
  rw [restoreTail, append_assoc (List.take _ _), restoreAll_split, htake, hdrop]
  simp only [packedBytes, append_assoc]
  rw [Nat.two_mul, ← drop_drop, take_left' h0, drop_left' h0, take_left' h1, drop_left' h1,
    take_left' h2, restoreAll_parts]

end

/-! ## The recorded bytes -/

/-- Put bytes at positions. -/
def putAll (f : Nat → UInt8) (positions : List Nat) (out : Bytes) : Bytes :=
  positions.foldl (fun out p => out.set p (f p)) out

@[simp] theorem putAll_length (f : Nat → UInt8) (positions : List Nat) (out : Bytes) :
    (putAll f positions out).length = out.length := by
  induction positions generalizing out with
  | nil => rfl
  | cons p positions ih => rw [putAll, foldl_cons, ← putAll, ih, length_set]

/-- A byte after the exceptions are put back. -/
theorem putAll_getElem (f : Nat → UInt8) (positions : List Nat) (out : Bytes)
    (hp : p < out.length) : (putAll f positions out)[p]? = if p ∈ positions then some
    (f p) else out[p]? := by
  induction positions generalizing out with
  | nil => rfl
  | cons q positions ih =>
    rw [putAll, foldl_cons, ← putAll, ih _ (by rwa [length_set]), getElem?_set]
    by_cases hq : q = p
    · subst hq
      simp [hp]
    · simp [hq, Ne.symm hq]

/-- Reading recorded stops puts their bytes back. -/
theorem restoreExceptions_eq {f : Nat → UInt8} {prev : Nat} {positions : List Nat}
    {input : IndexInput} (hat : At input.bytes input.pos (gapBytes f prev positions))
    (hwithin : GapsWithin 0xFF prev positions) (hlt : ∀ p ∈ positions, p < out.length) :
    restoreExceptions positions.length prev out input =
      .ok (putAll f positions out, input.skip (2 * positions.length)) := by
  induction positions generalizing prev out input with
  | nil => rfl
  | cons i positions ih =>
    obtain ⟨hle, hgap, hwithin⟩ := hwithin
    have hdelta : (UInt8.ofNat (i - prev)).toNat = i - prev := by
      rw [UInt8.toNat_ofNat']
      omega
    have hi := hlt i mem_cons_self
    have hat1 := IndexInput.at_skip_one hat
    have hat2 := IndexInput.at_skip_one hat1
    rw [length_cons, restoreExceptions, IndexInput.readByte_at hat]
    simp only [ok_bind, IndexInput.readByte_at hat1, hdelta]
    rw [Nat.add_sub_cancel' hle, if_pos hi, ih hat2 hwithin fun p hp => by
      rw [length_set]
      exact hlt p (mem_cons_of_mem _ hp)]
    simp only [IndexInput.skip_skip, putAll, foldl_cons, Nat.mul_add, Nat.mul_one]
    rw [show 1 + 1 + 2 * positions.length = 2 * positions.length + 2 by omega]

/-- Every restored exception takes two bytes. -/
theorem restoreExceptions_pos {out' : Bytes} {input input' : IndexInput}
    (h : restoreExceptions n i out input = .ok (out', input')) :
    input'.pos = input.pos + 2 * n := by
  induction n generalizing i out input with
  | zero =>
    cases h
    rfl
  | succ n ih =>
    have hread {a : IndexInput} {x : UInt8 × IndexInput} (hx : a.readByte = .ok x) :
        x.2 = a.skip 1 := by
      unfold IndexInput.readByte at hx
      split at hx
      · cases hx
        rfl
      · cases hx
    rw [restoreExceptions, bind_eq_ok] at h
    obtain ⟨x, hx, h⟩ := h
    rw [bind_eq_ok] at h
    obtain ⟨y, hy, h⟩ := h
    simp only at hy h
    split at h
    · have hpos := ih h
      rw [hread hy, hread hx, IndexInput.skip_pos, IndexInput.skip_pos] at hpos
      omega
    · cases h

/-! ## Compression and decompression -/

/-- The bytes that a compression of the text writes. -/
def encoding (text : Bytes) : Bytes :=
  packedBytes text ++ vIntBytes (asI 32 (recorded text).length) ++
    gapBytes (byteAt text) 0 (recorded text)

/-- The second pass records the stops. -/
theorem writeMasks_recorded (text out : Bytes) :
    writeMasks text 0 (masks text) ⟨out, 0, 0⟩ =
      .ok (Writing.record text ⟨out, 0, 0⟩ (recorded text)) := by
  rw [writeMasks_eq, maskPositions_masks, recorded]
  intro p hp
  rw [maskPositions_masks] at hp
  have hlt := lt_of_mem_exceptionsFrom hp
  omega

/-- The first pass counts the stops. -/
theorem countBlocks_recorded (hlen : len ≤ input.length) (maxExceptions : Nat) :
    countBlocks input len maxExceptions len 0 ⟨0, 0⟩ =
      .ok (limited maxExceptions
        ⟨lastFrom 0 (exceptionsFrom 0 (input.take len)), (recorded (input.take len)).length⟩) := by
  rw [countBlocks_eq hlen (by omega) (zero_le _), drop_zero, Count.after, recorded, zero_add]

/-- What a compression does when the buffers are large enough. -/
theorem compress_eq {input tmp : Bytes} {len : Nat} (out : Bytes) (hlen : 8 ≤ len)
    (hinput : len ≤ input.length) (htmp : len ≤ tmp.length) :
    compress input len tmp out =
      if (recorded (input.take len)).length ≤ len >>> 5 then
        .ok (true, packedBytes (input.take len) ++ lastPart (input.take len) ++ tmp.drop len,
          out ++ encoding (input.take len))
      else .ok (false, tmp, out) := by
  have htext : (input.take len).length = len := by
    rw [length_take]
    omega
  have hpack := pack_eq (input.take len)
  have hlength := packedBytes_length (input.take len)
  rw [htext] at hpack hlength
  have hquarter : len >>> 2 = len / 4 := shiftRight_eq_div_pow len 2
  rw [compress, if_neg (by omega)]
  simp only [countBlocks_recorded hinput, ok_bind, limited]
  by_cases hcount : (recorded (input.take len)).length ≤ len >>> 5
  · simp only [hcount, if_true, show ¬ (input.length < len ∨ tmp.length < len) by omega, if_false,
      hquarter]
    rw [show (input.take len).map toSixBits = sixBitsOf (input.take len) from rfl,
      hpack, append_assoc, take_left' hlength, writeMasks_recorded]
    simp only [ok_bind, Writing.record, zero_add, if_true]
    split
    · simp only [writeBytes, writeVInt, encoding, append_assoc, pure_eq_ok]
    · rename_i hzero
      have hnil := length_eq_zero_iff.mp (le_zero.mp (Nat.not_lt.mp hzero))
      simp only [writeBytes, writeVInt, encoding, hnil, gapBytes, append_assoc,
        append_nil, pure_eq_ok]
  · simp only [hcount, if_false, pure_eq_ok]

/-- Decompression undoes the packing; what is not moved to six bits comes back from the records. -/
theorem putAll_recorded (text : Bytes) (rest : Bytes) :
    putAll (byteAt text) (recorded text)
        ((packedBytes text ++ lastPart text).map toEightBits ++ rest) = text ++ rest := by
  have hlow : (packedBytes text ++ lastPart text).map toEightBits =
      (sixBitsOf text).map toEightBits := by
    have hcomp : toEightBits ∘ (fun x : UInt8 => x &&& 0x3F) = toEightBits :=
      funext toEightBits_low
    have hpacked := congrArg (List.map toEightBits) (packedBytes_low text)
    rw [map_map, hcomp] at hpacked
    rw [map_append, hpacked, lastPart, ← map_append, take_append_drop]
  rw [hlow, sixBitsOf, map_map]
  apply ext_getElem?
  intro p
  by_cases hp : p < text.length
  · rw [putAll_getElem _ _ _ (by
      rw [length_append, length_map]
      omega), getElem?_append_left (by rwa [length_map]),
      getElem?_append_left hp, getElem?_map, getElem?_eq_getElem hp]
    split
    · rw [byteAt, getElem?_eq_getElem hp, Option.getD_some]
    · rename_i hstop
      have hcompressible : isCompressible text[p].toNat = true := by
        by_contra hbad
        refine hstop (mem_stops (mem_exceptionsFrom.mpr ⟨zero_le _, text[p], ?_, ?_⟩))
        · rw [Nat.sub_zero, getElem?_eq_getElem hp]
        · simpa using hbad
      rw [Option.map_some, Function.comp, toEightBits_toSixBits hcompressible]
  · by_cases hq : p < text.length + rest.length
    · have hstop : p ∉ recorded text := fun h => hp (lt_of_mem_recorded h)
      rw [putAll_getElem _ _ _ (by
        rw [length_append, length_map]
        omega), if_neg hstop, getElem?_append_right (by rw [length_map]; omega),
        getElem?_append_right (by omega), length_map]
    · rw [getElem?_eq_none (by
        rw [putAll_length, length_append, length_map]
        omega), getElem?_eq_none (by
        rw [length_append]
        omega)]

/-- What decompression does on the bytes of a compression, up to the exceptions. -/
theorem decompress_eq {text dest file : Bytes} (hat : At file pos (encoding text))
    (hpos : pos ≤ file.length) (hdest : text.length ≤ dest.length) :
    decompress ⟨file, pos⟩ dest text.length =
      restoreExceptions (asI 32 (recorded text).length).toNat 0
        ((packedBytes text ++ lastPart text).map toEightBits ++ dest.drop text.length)
        ⟨file, pos + (text.length - text.length / 4) +
          (vIntBytes (asI 32 (recorded text).length)).length⟩ := by
  have hquarter : text.length >>> 2 = text.length / 4 := shiftRight_eq_div_pow _ 2
  have hlength := packedBytes_length text
  rw [encoding, at_append_iff, at_append_iff, hlength] at hat
  obtain ⟨⟨hpacked, hvint⟩, -⟩ := hat
  have hread : (IndexInput.mk file pos).readBytes _ = _ := IndexInput.readBytes_at hpacked hpos
  rw [hlength] at hread
  have hbound : ¬ dest.length < text.length - text.length / 4 := by omega
  have hfits : text.length ≤
      (packedBytes text ++ dest.drop (text.length - text.length / 4)).length := by
    rw [length_append, length_drop, hlength]
    omega
  have hdrop : (dest.drop (text.length - text.length / 4)).drop (text.length / 4) =
      dest.drop text.length := by
    rw [drop_drop]
    congr 1
    omega
  have hwhole : (packedBytes text ++ lastPart text).length = text.length := by
    rw [length_append, hlength, lastPart_length]
    omega
  have hcount := IndexInput.readVInt_mk hvint
  simp only [decompress, hquarter, hbound, if_false, hread, ok_bind, hfits, if_true,
    restoreTail_packedBytes, hdrop, take_left' hwhole, drop_left' hwhole]
  rw [show IndexInput.skip ⟨file, pos⟩ (text.length - text.length / 4) =
    ⟨file, pos + (text.length - text.length / 4)⟩ from rfl, hcount, ok_bind]
  simp only [asI_asI]

/-- The bytes of the compressed text. -/
theorem encoding_length (text : Bytes) :
    (encoding text).length = text.length - text.length / 4 +
      (vIntBytes (asI 32 (recorded text).length)).length + 2 * (recorded text).length := by
  rw [encoding, length_append, length_append, packedBytes_length, gapBytes_length]

/-- Decompression restores the text as long as the number of exceptions is an `i32`. -/
theorem decompress_encoding {text dest file : Bytes} (hat : At file pos (encoding text))
    (hpos : pos ≤ file.length) (hdest : text.length ≤ dest.length)
    (hcount : (recorded text).length < 2 ^ 31) :
    decompress ⟨file, pos⟩ dest text.length =
      .ok (text ++ dest.drop text.length, ⟨file, pos + (encoding text).length⟩) := by
  have hsigned : (asI 32 (recorded text).length).toNat = (recorded text).length := by
    rw [asI_of_range (by omega) (by omega) (by norm_num at hcount ⊢; omega), Int.toNat_natCast]
  rw [decompress_eq hat hpos hdest, hsigned]
  rw [encoding, at_append_iff, length_append, packedBytes_length, ← add_assoc] at hat
  have hfits : ∀ p ∈ recorded text, p <
      ((packedBytes text ++ lastPart text).map toEightBits ++ dest.drop text.length).length := by
    intro p hp
    have hlt := lt_of_mem_recorded hp
    rw [length_append, length_map, length_append, packedBytes_length, lastPart_length]
    omega
  have hrestored : restoreExceptions _ 0 _ (IndexInput.mk file (pos +
      (text.length - text.length / 4) + (vIntBytes (asI 32 (recorded text).length)).length)) = _ :=
    restoreExceptions_eq hat.2 (recorded_within text) hfits
  rw [hrestored, putAll_recorded, encoding_length]
  simp only [IndexInput.skip, add_assoc]

/-- A compression that is accepted saves at least a byte. -/
theorem encoding_length_lt {text : Bytes} (hlen : 8 ≤ text.length)
    (hcount : (recorded text).length ≤ text.length >>> 5) :
    (encoding text).length < text.length := by
  have hvint : (vIntBytes (asI 32 (recorded text).length)).length ≤ 5 := vBytes_length_le 4 _
  have hzero : (recorded text).length = 0 →
      (vIntBytes (asI 32 (recorded text).length)).length = 1 := by
    intro h
    rw [h]
    rfl
  rw [encoding_length]
  rcases Nat.eq_zero_or_pos (recorded text).length with h | h
  · omega
  · omega

/-! ## Failures -/

theorem countBytes_error (h : countBytes input maxExceptions n i count = .error e) :
    e = .indexOutOfBounds := by
  induction n generalizing i count with
  | zero => cases h
  | succ n ih =>
    rw [countBytes, countByte] at h
    split at h
    · cases h
      rfl
    · split at h
      · exact ih h
      · simp only at h
        split at h
        · cases h
        · exact ih h

/-- Counting fails only where it reads behind the input. -/
theorem countBlocks_error
    (h : countBlocks input len maxExceptions fuel blockStart count = .error e) :
    e = .indexOutOfBounds := by
  induction fuel generalizing blockStart count with
  | zero => cases h
  | succ fuel ih =>
    rw [countBlocks] at h
    split at h
    · simp only at h
      split at h
      · exact ih h
      · cases hbytes : countBytes input maxExceptions
            (blockStart + min 16 (len - blockStart) - blockStart) blockStart count with
        | error e' =>
          rw [hbytes] at h
          cases h
          exact countBytes_error hbytes
        | ok result =>
          rw [hbytes] at h
          cases result with
          | none => cases h
          | some count' => exact ih h
    · cases h

/-- A compression reports success only for a text that lies in the input and fits the buffer. -/
theorem compress_cases (input tmp out : Bytes) (len : Nat) :
    (8 ≤ len ∧ len ≤ input.length ∧ len ≤ tmp.length) ∨
      compress input len tmp out = .ok (false, tmp, out) ∨
      compress input len tmp out = .error .indexOutOfBounds := by
  by_cases hfits : 8 ≤ len ∧ len ≤ input.length ∧ len ≤ tmp.length
  · exact .inl hfits
  · right
    rw [compress]
    split
    · exact .inl rfl
    · cases hcount : countBlocks input len (len >>> 5) len 0 ⟨0, 0⟩ with
      | error e =>
        right
        simp only [hcount, error_bind, countBlocks_error hcount]
      | ok result =>
        cases result with
        | none =>
          left
          simp only [hcount, ok_bind, pure_eq_ok]
        | some count =>
          right
          have hshort : input.length < len ∨ tmp.length < len := by omega
          simp only [hcount, ok_bind, hshort, if_true]

/-! ## Main result -/

/-- The bytes restore the text wherever they stand in a file, into every target that has room. -/
def Restores (written text : Bytes) : Prop :=
  ∀ (file : Bytes) (pos : Nat) (dest : Bytes), pos ≤ file.length → At file pos written →
    text.length ≤ dest.length →
      decompress ⟨file, pos⟩ dest text.length =
        .ok (text ++ dest.drop text.length, ⟨file, pos + written.length⟩)

/-- A compression that reports success wrote fewer bytes than the text has, and they restore it,
provided the number of recorded exceptions is an `i32`; the two passes always find the same number
of exceptions; and a compression that gives up wrote nothing. -/
theorem compress_restores (input : Bytes) (len : Nat) (tmp out : Bytes) :
    (∀ tmp' out', compress input len tmp out = .ok (true, tmp', out') →
      ∃ written, out' = out ++ written ∧ written.length < len ∧ (input.take len).length = len ∧
        ((recorded (input.take len)).length < 2 ^ 31 → Restores written (input.take len))) ∧
    (∀ tmp' out', compress input len tmp out = .ok (false, tmp', out') → out' = out) ∧
    (∀ count w, len ≤ input.length →
      countBlocks input len (len >>> 5) len 0 ⟨0, 0⟩ = .ok (some count) →
      writeMasks (input.take len) 0 (masks (input.take len)) ⟨out, 0, 0⟩ = .ok w →
      count.numExceptions = w.numExceptions2) ∧
    ∀ message, compress input len tmp out ≠ .error (.illegalState message) := by
  have hpasses : ∀ count w, len ≤ input.length →
      countBlocks input len (len >>> 5) len 0 ⟨0, 0⟩ = .ok (some count) →
      writeMasks (input.take len) 0 (masks (input.take len)) ⟨out, 0, 0⟩ = .ok w →
      count.numExceptions = w.numExceptions2 := by
    intro count w hinput hcounted hwritten
    rw [countBlocks_recorded hinput] at hcounted
    rw [writeMasks_recorded] at hwritten
    cases hwritten
    obtain ⟨rfl, -⟩ := limited_eq_some.mp (Except.ok.inj hcounted)
    simp only [Writing.record, zero_add]
  rcases compress_cases input tmp out len with ⟨hlen, hinput, htmp⟩ | hfalse | herror
  · have htext : (input.take len).length = len := by
      rw [length_take]
      omega
    rw [compress_eq out hlen hinput htmp]
    split
    · refine ⟨?_, nofun, hpasses, nofun⟩
      rintro tmp' out' ⟨⟩
      have hlt := @encoding_length_lt (input.take len) (by omega) (by rwa [htext])
      refine ⟨encoding (input.take len), rfl, by omega, htext, ?_⟩
      intro hcount file pos dest hpos hat hdest
      exact decompress_encoding hat hpos hdest hcount
    · refine ⟨nofun, ?_, hpasses, nofun⟩
      rintro tmp' out' ⟨⟩
      rfl
  · rw [hfalse]
    refine ⟨nofun, ?_, hpasses, nofun⟩
    rintro tmp' out' ⟨⟩
    rfl
  · rw [herror]
    exact ⟨nofun, nofun, hpasses, nofun⟩

/-- A text with one exception. -/
def sampleText : Bytes :=
  [108, 117, 99, 101, 110, 101, 45, 115, 101, 97, 114, 99, 104, 45, 105, 110, 100, 101, 120, 45,
    119, 105, 116, 104, 45, 111, 110, 101, 45, 85, 112, 112, 101, 114]

/-- A text with exceptions. -/
theorem compress_restores_sample :
    ∃ tmp' out', compress sampleText 34 (replicate 40 0) [] = .ok (true, tmp', out') ∧
      out'.length < 34 ∧ Restores out' (sampleText.take 34) := by
  have htrue : ∃ tmp' out',
      compress sampleText 34 (replicate 40 0) [] = .ok (true, tmp', out') := by
    refine ⟨_, _, (compress_eq [] (by decide) (by decide) (by decide)).trans (if_pos ?_)⟩
    decide +kernel
  obtain ⟨tmp', out', h⟩ := htrue
  obtain ⟨written, hout, hlt, -, hrestores⟩ :=
    (compress_restores sampleText 34 (replicate 40 0) []).1 tmp' out' h
  rw [hout] at h
  exact ⟨tmp', written, h, hlt, hrestores (by decide +kernel)⟩

/-! ## Too many exceptions for the count -/

/-- Blocks of 32 bytes, each of which begins with an exception. -/
def spaced (n : Nat) : Bytes :=
  (replicate n ((0 : UInt8) :: replicate 31 97)).flatten

theorem spaced_length (n : Nat) : (spaced n).length = 32 * n := by
  simp [spaced, Nat.mul_comm]

/-- The exceptions of the blocks are near enough to each other to need no stops in between. -/
theorem stops_spaced_length (n prev base : Nat) (h : base - prev ≤ 0xFF) :
    (stops 0xFF prev (exceptionsFrom base (spaced n))).length = n := by
  induction n generalizing prev base with
  | zero => rfl
  | succ n ih =>
    have hblock : exceptionsFrom base ((0 : UInt8) :: replicate 31 97) = [base] := by
      rfl
    have hstop : stopsTo 0xFF base prev base = [base] := by
      cases base with
      | zero => rfl
      | succ b => rw [stopsTo, if_neg (by omega)]
    have hsplit : spaced (n + 1) = ((0 : UInt8) :: replicate 31 97) ++ spaced n := by
      rw [spaced, replicate_succ, flatten_cons, ← spaced]
    rw [hsplit, exceptionsFrom_append, hblock, singleton_append, stops, hstop,
      length_append, length_singleton, ih _ _ (by
        simp only [length_cons, length_replicate]
        omega), add_comm]

/-- With as many exceptions as an `i32` cannot count, the compression reports success, but
decompression does not read back what was written. -/
theorem compress_spaced_not_restores :
    ∃ tmp' out', compress (spaced (2 ^ 31)) (2 ^ 36) (spaced (2 ^ 31)) [] = .ok (true, tmp', out') ∧
      ¬ Restores out' (spaced (2 ^ 31)) := by
  obtain ⟨text, htext⟩ : ∃ text, text = spaced (2 ^ 31) := ⟨_, rfl⟩
  have hlength : text.length = 2 ^ 36 := by
    rw [htext, spaced_length]
    norm_num
  have hcount : (recorded text).length = 2 ^ 31 := by
    rw [htext]
    exact stops_spaced_length _ 0 0 (by omega)
  have htake : text.take (2 ^ 36) = text := by rw [← hlength, take_length]
  have hcompress := @compress_eq text text (2 ^ 36) [] (by norm_num) hlength.ge hlength.ge
  rw [htake, hcount, shiftRight_eq_div_pow, if_pos (by norm_num), nil_append] at hcompress
  rw [← htext]
  refine ⟨_, _, hcompress, fun hrestores => ?_⟩
  have hat : At (encoding text) 0 (encoding text) := prefix_rfl
  have hread := hrestores (encoding text) 0 text (zero_le _) hat le_rfl
  rw [decompress_eq hat (zero_le _) le_rfl] at hread
  -- the count is read back as a negative number, so no exception is read at all
  have hpos := restoreExceptions_pos hread
  have hnegative : (asI 32 (recorded text).length).toNat = 0 := by
    rw [hcount]
    rfl
  rw [hnegative, encoding_length, hcount] at hpos
  simp only at hpos
  omega

end RLucene.Util.LowercaseAsciiCompression
