import RLucene.Util.Packed.DirectReader
import RLucene.Util.CoreHelper

/-!
# Direct monotonic sequences

`DirectMonotonicWriter` splits a non-decreasing sequence into blocks of `2 ^ blockShift` values. Of
each block it stores the smallest residual against a line through the first and the last value, the
slope of the line, and the packed differences to the smallest residual. `DirectMonotonicReader` adds
the three up again. The slope is a single-precision number; nothing depends on how it is rounded, as
writer and reader compute the same expected value from the same bits, so the arithmetic is a
parameter. All sums wrap around at 64 bits.
-/

namespace RLucene.Util.Packed

open Nat List Lib Store

/-- The floating-point computations that writer and reader share. -/
structure FloatOps where
  /-- The bits of `(numerator as f64 / denominator as f64) as f32`. -/
  avgInc : (numerator : Int) → (denominator : Nat) → Nat
  /-- The value of `(avg * (index as f32)) as i64`, for the bits of `avg`. -/
  expected : (avgBits index : Nat) → Int
  avgInc_lt : ∀ numerator denominator, avgInc numerator denominator < 2 ^ 32
  expected_zero : ∀ index, expected 0 index = 0

/-- Slopes are rounded to whole numbers. -/
def wholeOps : FloatOps where
  avgInc numerator denominator := (numerator / denominator).toNat % 2 ^ 32
  expected avgBits index := avgBits * index
  avgInc_lt _ _ := Nat.mod_lt _ (by decide)
  expected_zero _ := Int.zero_mul _

variable (ops : FloatOps) {n shift pos offset j : Nat} {values : List Int} {v : Int} {bytes : Bytes}

/-! ## One block -/

/-- The bits of the slope of a block. -/
def blockSlope (values : List Int) : Nat :=
  ops.avgInc (asI 64 (values.getLastD 0 - values.headD 0)) (max 1 (values.length - 1))

/-- What is left of each value after the expected value is subtracted. -/
def residuals (values : List Int) : List Int :=
  values.mapIdx fun i v => asI 64 (v - ops.expected (blockSlope ops values) i)

/-- The least distance to the slope. -/
def minResidual (values : List Int) : Int :=
  (residuals ops values).foldl min (2 ^ 63 - 1)

/-- What is packed: the distances to the slope, from the least one. -/
def blockDeltas (values : List Int) : List Int :=
  (residuals ops values).map fun v => asI 64 (v - minResidual ops values)

/-- All bits that occur in a difference. -/
def maxDelta (values : List Int) : Nat :=
  (blockDeltas ops values).foldl (fun bits v => bits ||| asU 64 v) 0

/-! ## The writer -/

/-- The least exponent of a block size. -/
def minBlockShift : Int := 2

/-- The greatest exponent of a block size. -/
def maxBlockShift : Int := 22

/-- The limit of `ArrayUtil`. -/
def maxArrayLength : Int := 2 ^ 31 - 1

/-- A writer of a sequence that does not decrease. -/
structure DirectMonotonicWriter where
  metaOut : Bytes
  dataOut : Bytes
  numValues : Int
  baseDataPointer : Nat
  buffer : List Int
  bufferLimit : Nat
  count : Int
  finished : Bool
  previous : Int

namespace DirectMonotonicWriter

/-- A new writer, if a block may have this size. -/
def getInstance (metaOut dataOut : Bytes) (numValues blockShift : Int) :
    Result DirectMonotonicWriter :=
  if ¬ (minBlockShift ≤ blockShift ∧ blockShift ≤ maxBlockShift) then
    .error (.illegalArgument
      s!"blockShift must be in [{minBlockShift}-{maxBlockShift}], got {blockShift}")
  else if numValues < 0 then
    .error (.illegalArgument s!"numValues can't be negative, got {numValues}")
  else
    let numBlocks := if numValues = 0 then 0 else (numValues - 1) / 2 ^ blockShift.toNat + 1
    if maxArrayLength < numBlocks then
      .error (.illegalArgument
        (s!"blockShift is too low for the provided number of values: blockShift={blockShift}, " ++
          s!"numValues={numValues}, MAX_ARRAY_LENGTH={maxArrayLength}"))
    else .ok
      { metaOut, dataOut, numValues
        baseDataPointer := dataOut.length
        buffer := []
        bufferLimit := (min numValues (2 ^ blockShift.toNat)).toNat
        count := 0
        finished := false
        previous := -2 ^ 63 }

/-- Write the buffered block. -/
def flush (w : DirectMonotonicWriter) : Result DirectMonotonicWriter :=
  let metaOut := writeLong w.metaOut (minResidual ops w.buffer)
  let metaOut := writeInt metaOut (asI 32 (blockSlope ops w.buffer))
  let metaOut := writeLong metaOut ((w.dataOut.length - w.baseDataPointer : Nat) : Int)
  if maxDelta ops w.buffer = 0 then
    .ok { w with metaOut := writeByte metaOut 0, buffer := [] }
  else do
    let bits := unsignedBitsRequired (maxDelta ops w.buffer)
    let dataOut ← DirectWriter.writeAll w.dataOut bits (blockDeltas ops w.buffer)
    return { w with
      metaOut := writeByte metaOut (UInt8.ofNat bits)
      dataOut := dataOut
      buffer := [] }

/-- Add the next value; one that decreases is refused. -/
def add (w : DirectMonotonicWriter) (v : Int) : Result DirectMonotonicWriter :=
  if v < w.previous then
    .error (.illegalArgument s!"Values do not come in order: {w.previous}, {v}")
  else do
    let w ← (if w.buffer.length = w.bufferLimit then flush ops w else .ok w)
    return { w with buffer := w.buffer ++ [v], previous := v, count := w.count + 1 }

/-- Write what is left. -/
def finish (w : DirectMonotonicWriter) : Result DirectMonotonicWriter :=
  if w.count ≠ w.numValues then
    .error (.illegalState s!"Wrong number of values added, expected: {w.numValues}, got: {w.count}")
  else if w.finished then .error (.illegalState "#finish has been called already")
  else do
    let w ← (if w.buffer ≠ [] then flush ops w else .ok w)
    return { w with finished := true }

end DirectMonotonicWriter

/-! ## The reader -/

/-- The metadata of one block: `mins`, `avgs`, `bpvs` and `offsets` at its index. -/
structure MetaBlock where
  min : Int
  avgBits : Nat
  bpv : Nat
  offset : Nat
  deriving DecidableEq, Repr

/-- The metadata of a sequence. -/
structure Meta where
  blockShift : Nat
  blocks : List MetaBlock
  deriving DecidableEq, Repr

namespace Meta

/-- How many blocks the values take. -/
def blockCount (numValues blockShift : Nat) : Nat :=
  let numBlocks := numValues >>> blockShift
  if numBlocks <<< blockShift < numValues then numBlocks + 1 else numBlocks

/-- What remains of the metadata when all values are zero. -/
def singleZeroBlock : Meta :=
  ⟨63, [⟨0, 0, 0, 0⟩]⟩

end Meta

/-- Read the metadata of a block. -/
def readMetaBlock (metaIn : IndexInput) : Result (MetaBlock × IndexInput) := do
  let (min, metaIn) ← metaIn.readLong
  let (avgInt, metaIn) ← metaIn.readInt
  let (offset, metaIn) ← metaIn.readLong
  let offset ← tryConvert .usize offset
  let (bpv, metaIn) ← metaIn.readByte
  return (⟨min, asU 32 avgInt, bpv.toNat, offset.toNat⟩, metaIn)

/-- Read the metadata of several blocks. -/
def readMetaBlocks : Nat → IndexInput → Result (List MetaBlock × IndexInput)
  | 0, metaIn => .ok ([], metaIn)
  | n + 1, metaIn => do
    let (block, metaIn) ← readMetaBlock metaIn
    let (blocks, metaIn) ← readMetaBlocks n metaIn
    return (block :: blocks, metaIn)

/-- Read the metadata of a sequence. -/
def loadMeta (metaIn : IndexInput) (numValues blockShift : Nat) : Result (Meta × IndexInput) := do
  let (blocks, metaIn) ← readMetaBlocks (Meta.blockCount numValues blockShift) metaIn
  let allValuesZero := blocks.all fun block => block.min = 0 ∧ block.avgBits = 0 ∧ block.bpv = 0
  -- a single block is kept with a cleared offset, which is the same as the zero block
  if allValuesZero then return (Meta.singleZeroBlock, metaIn)
  else return (⟨blockShift, blocks⟩, metaIn)

/-- A reader of a sequence, with one reader for each block. -/
structure DirectMonotonicReader where
  blockShift : Nat
  readers : List DirectPackedEnum
  metadata : List MetaBlock
  slice : RandomAccessInput

namespace DirectMonotonicReader

/-- The reader of one block; the number of values of the last block is not known. -/
def openBlock (info : Meta) (merging : Bool) (i : Nat) (block : MetaBlock) :
    Result DirectPackedEnum :=
  if block.bpv = 0 then .ok .zeroes
  else if merging ∧ i < info.blocks.length - 1 ∧ mergeBufferShift ≤ info.blockShift then
    .ok (.getMergeInstanceWithBaseOffset none block.bpv block.offset (1 <<< info.blockShift))
  else DirectPackedEnum.getInstanceWithOffset none block.bpv block.offset

/-- The readers of the blocks. -/
def openBlocks (info : Meta) (merging : Bool) : Nat → List MetaBlock →
    Result (List DirectPackedEnum)
  | _, [] => .ok []
  | i, block :: blocks => do
    let reader ← openBlock info merging i block
    let readers ← openBlocks info merging (i + 1) blocks
    return reader :: readers

/-- A reader of the sequence. -/
def getInstanceWithMerging (info : Meta) (data : RandomAccessInput) (merging : Bool) :
    Result DirectMonotonicReader := do
  let readers ← openBlocks info merging 0 info.blocks
  return ⟨info.blockShift, readers, info.blocks, data⟩

/-- Read a value. -/
def getMut (r : DirectMonotonicReader) (index : Nat) : Result (Int × DirectMonotonicReader) :=
  let block := index >>> r.blockShift
  let blockIndex := index &&& (1 <<< r.blockShift - 1)
  match r.readers[block]?, r.metadata[block]? with
  | some reader, some info => do
    let (delta, reader) ← reader.readFromSlice blockIndex (some r.slice)
    return (asI 64 (info.min + ops.expected info.avgBits blockIndex + delta),
      { r with readers := r.readers.set block reader })
  | _, _ => .error .indexOutOfBounds

end DirectMonotonicReader

/-! ## What is written -/

/-- There is a width for any number of bits. -/
theorem roundBits_spec (h : n ≤ 64) : roundBits n ∈ supportedBitsPerValue ∧ n ≤ roundBits n := by
  have hfound : (supportedBitsPerValue.find? (n ≤ ·)).isSome := by
    rw [find?_isSome]
    exact ⟨64, by decide, by simpa using h⟩
  obtain ⟨b, hb⟩ := Option.isSome_iff_exists.mp hfound
  have hle := find?_some hb
  rw [roundBits, hb]
  exact ⟨mem_of_find?_eq_some hb, by simpa using hle⟩

/-- Everything up to the largest value fits the width that is computed for it. -/
theorem unsignedBitsRequired_spec (v : Int) :
    unsignedBitsRequired v ∈ supportedBitsPerValue ∧ asU 64 v < 2 ^ unsignedBitsRequired v := by
  have hsize : Nat.size (asU 64 v) ≤ 64 := Nat.size_le.mpr (asU_lt 64 v)
  obtain ⟨hmem, hle⟩ := roundBits_spec (n := max 1 (Nat.size (asU 64 v))) (by omega)
  refine ⟨hmem, (lt_size_self _).trans_le (Nat.pow_le_pow_right (by decide) ?_)⟩
  exact le_trans (le_max_right _ _) hle

/-- The widest distance. -/
theorem le_maxDelta (hv : v ∈ blockDeltas ops values) : asU 64 v ≤ maxDelta ops values :=
  (le_foldl_or _ _ 0).2 v hv

theorem maxDelta_lt (values : List Int) : maxDelta ops values < 2 ^ 64 :=
  foldl_or_lt _ (by decide) fun v _ => asU_lt 64 v

/-- The width of a block; no bits are written for a block without differences. -/
def blockBits (values : List Int) : Nat :=
  if maxDelta ops values = 0 then 0 else unsignedBitsRequired (maxDelta ops values)

/-- The packed bytes of a block. -/
def blockData (values : List Int) : Bytes :=
  if maxDelta ops values = 0 then []
  else directBytes (blockBits ops values) (blockDeltas ops values)

/-- The metadata bytes of a block. -/
def blockMeta (offset : Nat) (values : List Int) : Bytes :=
  intLE 8 (minResidual ops values) ++ intLE 4 (blockSlope ops values) ++ intLE 8 offset ++
    [UInt8.ofNat (blockBits ops values)]

/-- The metadata of consecutive blocks whose data begins at the offset. -/
def metaBytes : (offset : Nat) → List (List Int) → Bytes
  | _, [] => []
  | offset, values :: groups =>
    blockMeta ops offset values ++ metaBytes (offset + (blockData ops values).length) groups

/-- The packed bytes of all blocks. -/
def dataBytes (groups : List (List Int)) : Bytes :=
  groups.flatMap (blockData ops)

theorem metaBytes_append (offset : Nat) (a b : List (List Int)) :
    metaBytes ops offset (a ++ b) =
      metaBytes ops offset a ++ metaBytes ops (offset + (dataBytes ops a).length) b := by
  induction a generalizing offset with
  | nil => simp [metaBytes, dataBytes]
  | cons values a ih =>
    simp only [cons_append, metaBytes, ih, append_assoc, dataBytes, flatMap_cons, length_append,
      add_assoc]

/-- The deltas of a block with differences fit its width. -/
theorem blockBits_spec (h : maxDelta ops values ≠ 0) :
    blockBits ops values ∈ supportedBitsPerValue ∧
      Fits (blockBits ops values) (unsigned (blockDeltas ops values)) := by
  obtain ⟨hmem, hlt⟩ := unsignedBitsRequired_spec (maxDelta ops values)
  rw [blockBits, if_neg h]
  refine ⟨hmem, fun u hu => ?_⟩
  obtain ⟨v, hv, rfl⟩ := mem_map.mp hu
  rw [asU_of_lt (maxDelta_lt ops values)] at hlt
  exact (le_maxDelta ops hv).trans_lt hlt

namespace DirectMonotonicWriter

variable {w : DirectMonotonicWriter}

/-- Flushing appends the data and the metadata of the block in the buffer. -/
theorem flush_eq (w : DirectMonotonicWriter) : flush ops w = .ok { w with
    metaOut := w.metaOut ++ blockMeta ops (w.dataOut.length - w.baseDataPointer) w.buffer
    dataOut := w.dataOut ++ blockData ops w.buffer
    buffer := [] } := by
  unfold flush
  simp only [writeLong_eq, writeInt_eq, intLE_asI 4, writeByte]
  by_cases hzero : maxDelta ops w.buffer = 0
  · simp [blockMeta, blockData, blockBits, hzero]
  · obtain ⟨hbits, hfit⟩ := blockBits_spec ops hzero
    have hsame : unsignedBitsRequired (maxDelta ops w.buffer) = blockBits ops w.buffer := by
      rw [blockBits, if_neg hzero]
    rw [if_neg hzero, hsame, DirectWriter.writeAll_eq hbits hfit, ok_bind, pure_eq_ok]
    simp [blockMeta, blockData, hzero]

/-- Blocks that have been flushed, all of the same size, and a buffer that is not larger. -/
structure Holds (metaOut dataOut : Bytes) (numValues : Int) (limit : Nat)
    (groups : List (List Int)) (w : DirectMonotonicWriter) : Prop where
  meta_eq : w.metaOut = metaOut ++ metaBytes ops 0 groups
  data_eq : w.dataOut = dataOut ++ dataBytes ops groups
  base_eq : w.baseDataPointer = dataOut.length
  num_eq : w.numValues = numValues
  count_eq : w.count = ((groups.flatten ++ w.buffer).length : Nat)
  limit_eq : w.bufferLimit = limit
  full : ∀ g ∈ groups, g.length = limit
  buffer_le : w.buffer.length ≤ limit
  finished_eq : w.finished = false

variable {metaOut dataOut : Bytes} {numValues : Int} {limit : Nat} {groups : List (List Int)}

/-- The state after the buffer has been flushed as one more block. -/
theorem flush_holds (h : Holds ops metaOut dataOut numValues limit groups w) :
    ∃ w', flush ops w = .ok w' ∧ w'.metaOut = metaOut ++ metaBytes ops 0 (groups ++ [w.buffer]) ∧
      w'.dataOut = dataOut ++ dataBytes ops (groups ++ [w.buffer]) ∧ w'.buffer = [] ∧
      w'.baseDataPointer = dataOut.length ∧ w'.numValues = numValues ∧ w'.count = w.count ∧
      w'.bufferLimit = limit ∧ w'.finished = false ∧ w'.previous = w.previous := by
  refine ⟨_, flush_eq ops w, ?_, ?_, rfl, h.base_eq, h.num_eq, rfl, h.limit_eq, h.finished_eq, rfl⟩
  · rw [h.meta_eq, h.data_eq, h.base_eq, length_append, Nat.add_sub_cancel_left, metaBytes_append,
      append_assoc, zero_add]
    simp [metaBytes]
  · rw [h.data_eq, dataBytes, dataBytes, flatMap_append, flatMap_singleton, append_assoc]

/-- Adding the next value of a non-decreasing sequence. -/
theorem add_holds (h : Holds ops metaOut dataOut numValues limit groups w) (hlimit : 0 < limit)
    (hv : w.previous ≤ v) :
    ∃ w' groups', add ops w v = .ok w' ∧ Holds ops metaOut dataOut numValues limit groups' w' ∧
      groups'.flatten ++ w'.buffer = groups.flatten ++ w.buffer ++ [v] ∧ w'.previous = v ∧
      w'.buffer ≠ [] := by
  rw [add, if_neg (by omega)]
  by_cases hfull : w.buffer.length = w.bufferLimit
  · obtain ⟨w', hflush, hmeta, hdata, hbuffer, hbase, hnum, hcount, hlim, hfin, -⟩ :=
      flush_holds ops h
    rw [if_pos hfull, hflush]
    refine ⟨_, groups ++ [w.buffer], rfl, ⟨hmeta, hdata, hbase, hnum, ?_, hlim, ?_, ?_, hfin⟩,
      ?_, rfl, ?_⟩
    · rw [hcount, h.count_eq, hbuffer]
      simp [add_assoc]
    · exact forall_mem_append.mpr ⟨h.full, forall_mem_singleton.mpr (hfull.trans h.limit_eq)⟩
    · rw [hbuffer]
      exact hlimit
    · rw [hbuffer]
      simp
    · simp
  · rw [if_neg hfull]
    have hroom := h.buffer_le
    rw [h.limit_eq] at hfull
    refine ⟨_, groups, rfl, ⟨h.meta_eq, h.data_eq, h.base_eq, h.num_eq, ?_, h.limit_eq, h.full, ?_,
      h.finished_eq⟩, ?_, rfl, ?_⟩
    · rw [h.count_eq]
      simp [add_assoc]
    · rw [length_append, length_singleton]
      omega
    · exact (append_assoc _ _ _).symm
    · simp

/-- Adding all values of a non-decreasing sequence. -/
def addAll (w : DirectMonotonicWriter) (values : List Int) : Result DirectMonotonicWriter :=
  values.foldlM (add ops) w

/-- All values. -/
theorem addAll_holds (h : Holds ops metaOut dataOut numValues limit groups w) (hlimit : 0 < limit)
    (values : List Int) (hsorted : values.Pairwise (· ≤ ·)) (hprev : ∀ v ∈ values, w.previous ≤ v)
    (hne : values ≠ [] ∨ w.buffer ≠ []) :
    ∃ w' groups', addAll ops w values = .ok w' ∧
      Holds ops metaOut dataOut numValues limit groups' w' ∧
      groups'.flatten ++ w'.buffer = groups.flatten ++ w.buffer ++ values ∧ w'.buffer ≠ [] := by
  induction values generalizing w groups with
  | nil => exact ⟨w, groups, rfl, h, by simp, hne.resolve_left (by simp)⟩
  | cons v values ih =>
    obtain ⟨hfirst, hrest⟩ := pairwise_cons.mp hsorted
    obtain ⟨w', groups', hadd, hnext, hall, hlast, hbuffer⟩ :=
      add_holds ops h hlimit (hprev v mem_cons_self)
    obtain ⟨w'', groups'', hmore, hend, hall', hbuffer'⟩ := ih hnext hrest
      (by rw [hlast]; exact hfirst) (.inr hbuffer)
    refine ⟨w'', groups'', ?_, hend, ?_, hbuffer'⟩
    · rw [addAll, foldlM_cons, hadd]
      exact hmore
    · rw [hall', hall, append_assoc]
      rfl

/-- Opening a writer, adding the values and finishing it. -/
def writeAll (metaOut dataOut : Bytes) (blockShift : Int) (values : List Int) :
    Result (Bytes × Bytes) := do
  let w ← getInstance metaOut dataOut values.length blockShift
  let w ← addAll ops w values
  let w ← finish ops w
  return (w.metaOut, w.dataOut)

/-- A new writer. -/
theorem getInstance_holds (metaOut dataOut : Bytes) (hlo : 2 ≤ shift) (hhi : shift ≤ 22)
    (hblocks : n ≤ (2 ^ 31 - 1) * 2 ^ shift) :
    ∃ w, getInstance metaOut dataOut n shift = .ok w ∧
      Holds ops metaOut dataOut n (min n (2 ^ shift)) [] w ∧ w.buffer = [] ∧
      w.previous = -2 ^ 63 := by
  have hcount : ¬ maxArrayLength < if (n : Int) = 0 then 0
      else ((n : Int) - 1) / 2 ^ (shift : Int).toNat + 1 := by
    split
    · decide
    · have hlt : (n : Int) - 1 < (2 ^ 31 - 1) * 2 ^ shift := by
        have := Int.ofNat_le.mpr hblocks
        push_cast at this
        omega
      have hdiv := Int.ediv_lt_of_lt_mul (by positivity) hlt
      rw [Int.toNat_natCast, maxArrayLength]
      omega
  have hlimit : (min (n : Int) (2 ^ (shift : Int).toNat)).toNat = min n (2 ^ shift) := by
    exact_mod_cast Int.toNat_natCast (min n (2 ^ shift))
  unfold getInstance minBlockShift maxBlockShift
  rw [if_neg (by omega), if_neg (by omega)]
  simp only [if_neg hcount]
  refine ⟨_, rfl, ⟨?_, ?_, rfl, rfl, rfl, hlimit, by simp, zero_le _, rfl⟩, rfl, rfl⟩
  · exact (append_nil _).symm
  · exact (append_nil _).symm

/-- What is written for a sequence. -/
theorem writeAll_eq (metaOut dataOut : Bytes) (hlo : 2 ≤ shift) (hhi : shift ≤ 22)
    (hsorted : values.Pairwise (· ≤ ·)) (hmin : ∀ v ∈ values, -2 ^ 63 ≤ v)
    (hblocks : values.length ≤ (2 ^ 31 - 1) * 2 ^ shift) :
    writeAll ops metaOut dataOut shift values =
      .ok (metaOut ++ metaBytes ops 0 (chunks (2 ^ shift) values),
        dataOut ++ dataBytes ops (chunks (2 ^ shift) values)) := by
  obtain ⟨w₀, hopen, hinit, hempty, hprev⟩ := getInstance_holds ops metaOut dataOut hlo hhi hblocks
  rw [writeAll, hopen, ok_bind]
  by_cases hne : values = []
  · subst hne
    have hcount : ¬ w₀.count ≠ w₀.numValues := by
      rw [hinit.count_eq, hinit.num_eq, hempty]
      simp
    simp only [addAll, foldlM_nil, pure_eq_ok, ok_bind, finish, if_neg hcount, hinit.finished_eq,
      hempty, ne_eq, not_true_eq_false, if_false, hinit.meta_eq, hinit.data_eq, chunks_nil]
    simp
  · have hpos := length_pos_iff.mpr hne
    obtain ⟨w, groups, hadd, hw, hall, hbuffer⟩ := addAll_holds ops hinit (by omega) values hsorted
      (by rw [hprev]; exact hmin) (.inl hne)
    obtain ⟨w', hflush, hmeta, hdata, -⟩ := flush_holds ops hw
    have hcount : ¬ w.count ≠ w.numValues := by
      rw [hw.count_eq, hw.num_eq, hall, hempty]
      simp
    -- a sequence shorter than a block is one block either way
    have hchunks : chunks (2 ^ shift) values = groups ++ [w.buffer] := by
      rw [hempty, flatten_nil, append_nil, nil_append] at hall
      have hlimit := chunks_flatten_append (by omega) hw.full w.buffer
      rw [hall, chunks_of_length_le hbuffer hw.buffer_le] at hlimit
      rcases le_total values.length (2 ^ shift) with hshort | hlong
      · rw [min_eq_left hshort, chunks_of_length_le hne le_rfl] at hlimit
        rw [← hlimit, chunks_of_length_le hne hshort]
      · rwa [min_eq_right hlong] at hlimit
    rw [hadd, ok_bind, finish, if_neg hcount, hw.finished_eq, if_neg (by simp), hchunks]
    simp only [if_pos hbuffer, hflush, ok_bind, pure_eq_ok, hmeta, hdata]

end DirectMonotonicWriter

/-! ## Reading the metadata -/

/-- The metadata of a block as it is read back. -/
def metaBlockOf (offset : Nat) (values : List Int) : MetaBlock :=
  ⟨asI 64 (minResidual ops values), blockSlope ops values, blockBits ops values, offset⟩

/-- The metadata of all blocks. -/
def metaBlocksOf : (offset : Nat) → List (List Int) → List MetaBlock
  | _, [] => []
  | offset, values :: groups =>
    metaBlockOf ops offset values :: metaBlocksOf (offset + (blockData ops values).length) groups

/-- The width of a block. -/
theorem blockBits_le (values : List Int) : blockBits ops values ≤ 64 := by
  unfold blockBits
  split
  · decide
  · have hmem := (unsignedBitsRequired_spec (maxDelta ops values)).1
    have hall : ∀ b ∈ supportedBitsPerValue, b ≤ 64 := by decide
    exact hall _ hmem

@[simp] theorem blockMeta_length (offset : Nat) (values : List Int) :
    (blockMeta ops offset values).length = 21 := by
  simp [blockMeta]

/-- The metadata of a block is read back. -/
theorem readMetaBlock_at (h : At bytes pos (blockMeta ops offset values))
    (hoffset : offset < 2 ^ 63) :
    readMetaBlock ⟨bytes, pos⟩ = .ok (metaBlockOf ops offset values, ⟨bytes, pos + 21⟩) := by
  rw [blockMeta, at_append_iff, at_append_iff, at_append_iff] at h
  obtain ⟨⟨⟨hmin, havg⟩, hoff⟩, hbpv⟩ := h
  simp only [length_append, intLE_length, Nat.reduceAdd] at havg hoff hbpv
  have hslope : asU 32 (asI 32 (blockSlope ops values)) = blockSlope ops values := by
    rw [asU_asI, asU_of_lt (n := blockSlope ops values) (ops.avgInc_lt _ _)]
  have hoffset' : asI 64 (offset : Int) = offset :=
    asI_64 (by omega) (by exact_mod_cast hoffset)
  have hbits : (UInt8.ofNat (blockBits ops values)).toNat = blockBits ops values := by
    have hle := blockBits_le ops values
    rw [UInt8.toNat_ofNat']
    omega
  have hconv : tryConvert .usize (offset : Int) = .ok (offset : Int) :=
    tryConvert_ok (usize_holds hoffset)
  simp only [readMetaBlock, IndexInput.readLong_mk hmin, IndexInput.readInt_mk havg,
    IndexInput.readLong_mk hoff, ok_bind, add_assoc, Nat.reduceAdd, hoffset']
  rw [hconv]
  simp only [ok_bind, IndexInput.readByte_mk hbpv, hslope, hbits, pure_eq_ok]
  rfl

/-- The metadata of some blocks is read back. -/
theorem readMetaBlocks_at {groups : List (List Int)}
    (h : At bytes pos (metaBytes ops offset groups))
    (hoffset : offset + (dataBytes ops groups).length < 2 ^ 63) :
    readMetaBlocks groups.length ⟨bytes, pos⟩ =
      .ok (metaBlocksOf ops offset groups,
        ⟨bytes, pos + (metaBytes ops offset groups).length⟩) := by
  induction groups generalizing pos offset with
  | nil => rfl
  | cons values groups ih =>
    rw [metaBytes, at_append_iff, blockMeta_length] at h
    rw [dataBytes, flatMap_cons, length_append] at hoffset
    have hrest := ih h.2 (by rw [dataBytes]; omega)
    rw [length_cons, readMetaBlocks, readMetaBlock_at ops h.1 (by omega)]
    simp only [ok_bind, hrest, pure_eq_ok]
    rw [metaBlocksOf, metaBytes, length_append, blockMeta_length, add_assoc]

/-- As many blocks as are needed. -/
theorem blockCount_eq (n shift : Nat) :
    Meta.blockCount n shift = (n + 2 ^ shift - 1) / 2 ^ shift := by
  have hpos := Nat.two_pow_pos shift
  rw [Meta.blockCount, shiftRight_eq_div_pow, shiftLeft_eq, mul_comm]
  generalize 2 ^ shift = k at hpos
  have hsum := div_add_mod n k
  have hmod := mod_lt n hpos
  have hround : (n + k - 1) / k = n / k + (n % k + k - 1) / k := by
    rw [← mul_add_div hpos]
    congr 1
    omega
  rw [hround]
  split
  · rw [show n % k + k - 1 = n % k - 1 + k by omega, add_div_right _ hpos,
      div_eq_of_lt (by omega : n % k - 1 < k)]
  · rw [div_eq_of_lt (by omega : n % k + k - 1 < k), add_zero]

/-- The metadata that is loaded for a written sequence. -/
def metaOf (shift : Nat) (values : List Int) : Meta :=
  let blocks := metaBlocksOf ops 0 (chunks (2 ^ shift) values)
  if blocks.all fun block => block.min = 0 ∧ block.avgBits = 0 ∧ block.bpv = 0 then
    Meta.singleZeroBlock
  else ⟨shift, blocks⟩

/-- The metadata of a sequence is read back. -/
theorem loadMeta_at (h : At bytes pos (metaBytes ops 0 (chunks (2 ^ shift) values)))
    (hsize : (dataBytes ops (chunks (2 ^ shift) values)).length < 2 ^ 63) :
    loadMeta ⟨bytes, pos⟩ values.length shift = .ok (metaOf ops shift values,
      ⟨bytes, pos + (metaBytes ops 0 (chunks (2 ^ shift) values)).length⟩) := by
  have hread := readMetaBlocks_at ops h (by omega)
  rw [chunks_length] at hread
  rw [loadMeta, blockCount_eq, hread, ok_bind, metaOf]
  dsimp only
  split <;> rfl

namespace DirectMonotonicReader

variable {slice : RandomAccessInput}

/-- A block's reader over the slice stands for the differences of the block. -/
def BlockReads (slice : RandomAccessInput) (reader : DirectPackedEnum) (values : List Int) : Prop :=
  reader.ReadsFrom slice (unsigned (blockDeltas ops values)) ∧ reader.input = none

@[simp] theorem blockDeltas_length (values : List Int) :
    (blockDeltas ops values).length = values.length := by
  simp [blockDeltas, residuals]

/-- The space of a block. -/
theorem blockData_length_le (values : List Int) :
    (blockData ops values).length ≤ 11 * values.length := by
  rw [blockData]
  split
  · exact Nat.zero_le _
  · rename_i hne
    have hpos : 0 < values.length := length_pos_iff.mpr fun hnil => hne (by rw [hnil]; rfl)
    have hle := directBytes_length_le (blockBits_spec ops hne).1 (blockDeltas ops values)
    rw [blockDeltas_length] at hle
    omega

/-- A value takes at most eleven bytes of the data. -/
theorem dataBytes_length_le (groups : List (List Int)) :
    (dataBytes ops groups).length ≤ 11 * groups.flatten.length := by
  induction groups with
  | nil => exact Nat.zero_le _
  | cons values groups ih =>
    have hfirst := blockData_length_le ops values
    rw [dataBytes] at ih ⊢
    rw [flatMap_cons, length_append, flatten_cons, length_append]
    omega

/-- Opening a block whose data stands at its offset. All blocks before the last one are full. -/
theorem openBlock_reads {info : Meta} {merging : Bool} {i offset : Nat} {values : List Int}
    (h : At slice.bytes offset (blockData ops values))
    (hfull : i < info.blocks.length - 1 → values.length = 2 ^ info.blockShift) :
    ∃ reader, openBlock info merging i (metaBlockOf ops offset values) = .ok reader ∧
      BlockReads ops slice reader values := by
  rw [openBlock, metaBlockOf]
  by_cases hzero : maxDelta ops values = 0
  · refine ⟨.zeroes, if_pos (by rw [blockBits, if_pos hzero]), ?_, rfl⟩
    intro u hu
    obtain ⟨v, hv, rfl⟩ := mem_map.mp hu
    have hle := le_maxDelta ops hv
    omega
  · obtain ⟨hbits, hfit⟩ := blockBits_spec ops hzero
    rw [blockData, if_neg hzero] at h
    have hpacked := packedAt_directBytes hbits hfit h
    have hpos : blockBits ops values ≠ 0 := by
      intro heq
      rw [heq] at hbits
      exact absurd hbits (by decide)
    rw [if_neg hpos]
    split
    · rename_i hmerge
      have hlen : 1 <<< info.blockShift = (unsigned (blockDeltas ops values)).length := by
        rw [length_map, blockDeltas_length, hfull hmerge.2.1, shiftLeft_eq, one_mul]
      rw [hlen]
      exact ⟨_, rfl, DirectPackedEnum.getMergeInstance_reads hpacked, rfl⟩
    · exact DirectPackedEnum.getInstanceWithOffset_reads hpacked

/-- The readers of the blocks. -/
theorem openBlocks_reads {info : Meta} {merging : Bool} {groups : List (List Int)} {i offset : Nat}
    (h : At slice.bytes offset (dataBytes ops groups))
    (hcount : info.blocks.length = i + groups.length)
    (hfull : ∀ (j : Nat) (hj : j < groups.length), i + j < info.blocks.length - 1 →
      groups[j].length = 2 ^ info.blockShift) :
    ∃ readers, openBlocks info merging i (metaBlocksOf ops offset groups) = .ok readers ∧
      List.Forall₂ (BlockReads ops slice) readers groups := by
  induction groups generalizing i offset with
  | nil => exact ⟨[], rfl, .nil⟩
  | cons values groups ih =>
    rw [dataBytes, flatMap_cons, at_append_iff] at h
    obtain ⟨reader, hopen, hreads⟩ := @openBlock_reads ops slice info merging _ _ _ h.1
      (hfull 0 (by simp))
    obtain ⟨readers, hrest, hall⟩ := ih h.2 (i := i + 1)
      (by rw [hcount, length_cons]; omega)
      (fun j hj hlast => hfull (j + 1) (by simpa using hj) (by omega))
    refine ⟨reader :: readers, ?_, .cons hreads hall⟩
    rw [add_zero] at hopen
    rw [metaBlocksOf, openBlocks, hopen]
    simp only [ok_bind, hrest, pure_eq_ok]

/-- The three parts of a value add up. -/
theorem block_value (hj : j < values.length) :
    asI 64 (asI 64 (minResidual ops values) + ops.expected (blockSlope ops values) j +
      signedAt (unsigned (blockDeltas ops values)) j) = asI 64 values[j] := by
  have hdelta : (unsigned (blockDeltas ops values)).getD j 0 =
      asU 64 (asI 64 (values[j] - ops.expected (blockSlope ops values) j) -
        minResidual ops values) := by
    simp [blockDeltas, residuals, hj]
  rw [signedAt, hdelta, asI_asU]
  obtain ⟨a, ha⟩ := asI_eq_add 64 (minResidual ops values)
  obtain ⟨b, hb⟩ := asI_eq_add 64 (values[j] - ops.expected (blockSlope ops values) j)
  obtain ⟨c, hc⟩ := asI_eq_add 64 (asI 64 (values[j] - ops.expected (blockSlope ops values) j) -
    minResidual ops values)
  rw [hc, hb, ha, ← asI_add_mul 64 values[j] (a + b + c)]
  congr 1
  ring

/-- For every index the reader of its block stands for differences that add up to the value. -/
structure Holds (deltas : List (List Nat)) (values : List Int) (r : DirectMonotonicReader) :
    Prop where
  reads : ∀ (b : Nat) (ds : List Nat), deltas[b]? = some ds →
    ∃ reader : DirectPackedEnum, r.readers[b]? = some reader ∧ reader.ReadsFrom r.slice ds
  value : ∀ (i : Nat) (hi : i < values.length), ∃ ds info,
    deltas[i / 2 ^ r.blockShift]? = some ds ∧ r.metadata[i / 2 ^ r.blockShift]? = some info ∧
      i % 2 ^ r.blockShift < ds.length ∧
      asI 64 (info.min + ops.expected info.avgBits (i % 2 ^ r.blockShift) +
        signedAt ds (i % 2 ^ r.blockShift)) = asI 64 values[i]

/-- The widths of the metadata are those of the differences. -/
def WidthsHold (deltas : List (List Nat)) (r : DirectMonotonicReader) : Prop :=
  ∀ (b : Nat) (ds : List Nat) (info : MetaBlock), deltas[b]? = some ds →
    r.metadata[b]? = some info → info.bpv ≤ 64 ∧ Fits info.bpv ds

theorem and_blockMask (i shift : Nat) : i &&& (1 <<< shift - 1) = i % 2 ^ shift := by
  rw [shiftLeft_eq, one_mul, and_two_pow_sub_one_eq_mod]

/-- Every read returns the value at its index, in any order of indices. -/
theorem getMut_spec {deltas : List (List Nat)} {r : DirectMonotonicReader}
    (h : Holds ops deltas values r) {i : Nat} (hi : i < values.length) :
    ∃ r', getMut ops r i = .ok (asI 64 values[i], r') ∧ Holds ops deltas values r' := by
  obtain ⟨ds, info, hds, hinfo, hin, hvalue⟩ := h.value i hi
  obtain ⟨reader, hreader, hreads⟩ := h.reads _ ds hds
  obtain ⟨reader', hread, hnext, -⟩ := DirectPackedEnum.readFromSlice_spec hreads _ (.inl rfl) hin
  refine ⟨{ r with readers := r.readers.set (i / 2 ^ r.blockShift) reader' }, ?_, ?_, h.value⟩
  · rw [getMut]
    simp only [and_blockMask, shiftRight_eq_div_pow, hreader, hinfo, hread,
      ok_bind, hvalue, pure_eq_ok]
  · intro b ds' hds'
    obtain ⟨other, hother, hreads'⟩ := h.reads b ds' hds'
    by_cases hb : i / 2 ^ r.blockShift = b
    · subst hb
      obtain rfl : ds = ds' := Option.some.inj (hds.symm.trans hds')
      obtain ⟨hlt, -⟩ := List.getElem_of_getElem? hreader
      exact ⟨reader', by simp [hlt], hnext⟩
    · exact ⟨other, by rw [getElem?_set_ne hb, hother], hreads'⟩

/-- The metadata of a block. -/
theorem metaBlocksOf_get {groups : List (List Int)} {b : Nat} {g : List Int}
    (h : groups[b]? = some g) (offset : Nat) :
    ∃ o, (metaBlocksOf ops offset groups)[b]? = some (metaBlockOf ops o g) := by
  induction groups generalizing b offset with
  | nil => simp at h
  | cons values groups ih =>
    cases b with
    | zero =>
      cases h
      exact ⟨offset, rfl⟩
    | succ b => exact ih h _

theorem metaBlocksOf_length (offset : Nat) (groups : List (List Int)) :
    (metaBlocksOf ops offset groups).length = groups.length := by
  induction groups generalizing offset with
  | nil => rfl
  | cons values groups ih => rw [metaBlocksOf, length_cons, ih, length_cons]

/-- A block without slope, smallest residual and differences has only zero values. -/
theorem zero_of_metaBlock {o : Nat} (hj : j < values.length)
    (hmin : (metaBlockOf ops o values).min = 0) (hslope : (metaBlockOf ops o values).avgBits = 0)
    (hbits : (metaBlockOf ops o values).bpv = 0) : asI 64 values[j] = 0 := by
  have hzero : maxDelta ops values = 0 := by
    by_contra hne
    have hmem := (blockBits_spec ops hne).1
    rw [show blockBits ops values = 0 from hbits] at hmem
    exact absurd hmem (by decide)
  have hdelta : signedAt (unsigned (blockDeltas ops values)) j = 0 := by
    have hlen : j < (blockDeltas ops values).length := by simpa using hj
    have hle := le_maxDelta ops (getElem_mem hlen)
    rw [signedAt_unsigned hlen, ← asI_asU, show asU 64 (blockDeltas ops values)[j] = 0 by omega]
    rfl
  rw [← block_value ops hj, hdelta, show asI 64 (minResidual ops values) = 0 from hmin,
    show blockSlope ops values = 0 from hslope, ops.expected_zero]
  rfl

/-- The distances fit the width. -/
theorem blockDeltas_fits (values : List Int) :
    Fits (blockBits ops values) (unsigned (blockDeltas ops values)) := by
  by_cases hzero : maxDelta ops values = 0
  · intro u hu
    obtain ⟨v, hv, rfl⟩ := mem_map.mp hu
    have hle := le_maxDelta ops hv
    exact (show asU 64 v = 0 by omega) ▸ Nat.two_pow_pos _
  · exact (blockBits_spec ops hzero).2

/-- A reader over the data of a written sequence, with the metadata that is loaded for it. -/
theorem getInstance_widthsHold {shift : Nat} {values : List Int} (merging : Bool)
    (h : At slice.bytes 0 (dataBytes ops (chunks (2 ^ shift) values)))
    (hlen : values.length ≤ 2 ^ 63) :
    ∃ r deltas, getInstanceWithMerging (metaOf ops shift values) slice merging = .ok r ∧
      Holds ops deltas values r ∧ WidthsHold deltas r := by
  have hpow := Nat.two_pow_pos shift
  unfold metaOf
  dsimp only
  split
  · -- every block is zero: one reader for all of them
    rename_i hzero
    rw [all_eq_true] at hzero
    refine ⟨⟨63, [.zeroes], [⟨0, 0, 0, 0⟩], slice⟩, [replicate values.length 0], rfl, ⟨?_, ?_⟩, ?_⟩
    · intro b ds hds
      cases b with
      | zero =>
        cases hds
        exact ⟨.zeroes, rfl, fun v hv => eq_of_mem_replicate hv⟩
      | succ b => simp at hds
    · intro i hi
      obtain ⟨g, hg, hin, hvalue⟩ := exists_chunk hpow hi
      obtain ⟨o, ho⟩ := metaBlocksOf_get ops hg 0
      have hblock := hzero _ (mem_of_getElem? ho)
      rw [decide_eq_true_eq] at hblock
      have hvalue' := zero_of_metaBlock ops hin hblock.1 hblock.2.1 hblock.2.2
      rw [hvalue] at hvalue'
      have hfirst : i / 2 ^ 63 = 0 := div_eq_of_lt (by omega)
      have hrest : i % 2 ^ 63 = i := mod_eq_of_lt (by omega)
      refine ⟨replicate values.length 0, ⟨0, 0, 0, 0⟩, by rw [hfirst]; rfl,
        by rw [hfirst]; rfl, by rw [hrest, length_replicate]; exact hi, ?_⟩
      rw [hrest, ops.expected_zero, hvalue', signedAt]
      simp [hi, asI]
    · intro b ds info hds hinfo
      cases b with
      | zero =>
        cases hds
        cases hinfo
        exact ⟨zero_le _, fun v hv => by simp [eq_of_mem_replicate hv]⟩
      | succ b => simp at hds
  · obtain ⟨readers, hopen, hreads⟩ := @openBlocks_reads ops slice
      ⟨shift, metaBlocksOf ops 0 (chunks (2 ^ shift) values)⟩ merging (chunks (2 ^ shift) values)
      0 0 h (by rw [metaBlocksOf_length, zero_add]) (by
        intro j hj hlast
        rw [metaBlocksOf_length] at hlast
        exact length_chunk hpow (by omega))
    refine ⟨⟨shift, readers, metaBlocksOf ops 0 (chunks (2 ^ shift) values), slice⟩,
      (chunks (2 ^ shift) values).map fun g => unsigned (blockDeltas ops g), ?_, ⟨?_, ?_⟩, ?_⟩
    · rw [getInstanceWithMerging, hopen]
      rfl
    · intro b ds hds
      rw [getElem?_map, Option.map_eq_some_iff] at hds
      obtain ⟨g, hg, rfl⟩ := hds
      obtain ⟨hb, rfl⟩ := List.getElem_of_getElem? hg
      have hb' : b < readers.length := by rw [hreads.length_eq]; exact hb
      exact ⟨readers[b], getElem?_eq_getElem hb', (hreads.get hb' hb).1⟩
    · intro i hi
      obtain ⟨g, hg, hin, hvalue⟩ := exists_chunk hpow hi
      obtain ⟨o, ho⟩ := metaBlocksOf_get ops hg 0
      refine ⟨unsigned (blockDeltas ops g), metaBlockOf ops o g, ?_, ho, ?_, ?_⟩
      · rw [getElem?_map, hg]
        rfl
      · rw [length_map, blockDeltas_length]
        exact hin
      · rw [← hvalue]
        exact block_value ops hin
    · intro b ds info hds hinfo
      rw [getElem?_map, Option.map_eq_some_iff] at hds
      obtain ⟨g, hg, rfl⟩ := hds
      obtain ⟨o, ho⟩ := metaBlocksOf_get ops hg 0
      obtain rfl := Option.some.inj (hinfo.symm.trans ho)
      exact ⟨blockBits_le ops g, blockDeltas_fits ops g⟩

end DirectMonotonicReader

end RLucene.Util.Packed
