import RLucene.Util.Packed.BulkOperationPacked

/-!
# Specialised decoders

For widths up to 24 the decoding loop is unrolled: the blocks of one group are read, and each value
of the group is an expression of shifts and masks of some of them. What is specific to a width is a
table with the expressions of one group, in their order; how a group is decoded, and how the groups
follow each other, is the same for all of them.
-/

namespace RLucene.Util.Packed

open List Lib Store

/-! ## Groups of values -/

/-- The bits that a block gives to a value: `((block >> shr) & mask) << shl`, or without the
mask. -/
structure BlockPart where
  block : Nat
  shr : Nat
  mask : Option Nat
  shl : Nat
  deriving Repr, DecidableEq

namespace BlockPart

/-- `block >> r`. -/
def hi (block r : Nat) : BlockPart :=
  ⟨block, r, none, 0⟩

/-- `block << l`. -/
def all (block l : Nat) : BlockPart :=
  ⟨block, 0, none, l⟩

/-- `(block & mask) << l`. -/
def lo (block mask l : Nat) : BlockPart :=
  ⟨block, 0, some mask, l⟩

variable {n : Nat}

/-- What the part gives, for the words of a group. -/
def read (piece : BlockPart) (words : List (BitVec n)) : BitVec n :=
  let word : BitVec n := words.getD piece.block 0 >>> piece.shr
  let bits : BitVec n := match piece.mask with
    | some mask => word &&& BitVec.ofNat n mask
    | none => word
  bits <<< piece.shl

end BlockPart

/-- Values within one block: `(block >> shift) & mask` for each of the shifts. -/
def fields (block mask : Nat) (shifts : List Nat) : List (List BlockPart) :=
  shifts.map fun shift => [⟨block, shift, some mask, 0⟩]

/-- The value `block >> r`. -/
def high (block r : Nat) : List (List BlockPart) :=
  [[.hi block r]]

/-- A value that begins in one block and ends in the next: `((block & mask) << l) | (next >> r)`. -/
def split (block mask l next r : Nat) : List (List BlockPart) :=
  [[.lo block mask l, .hi next r]]

/-- A value with bits of several blocks. -/
def joined (pieces : List BlockPart) : List (List BlockPart) :=
  [pieces]

/-- A value is the disjunction of its pieces. -/
def readValue {n : Nat} (words : List (BitVec n)) (pieces : List BlockPart) : BitVec n :=
  pieces.foldr (fun piece value => piece.read words ||| value) 0

/-- The values of a group. -/
def readGroup {n : Nat} (m : Nat) (group : List (List BlockPart)) (words : List (BitVec n)) :
    List (BitVec m) :=
  group.map fun pieces => (readValue words pieces).setWidth m

/-- Whether the groups are taken as chunks when both ranges are complete, and from how many groups
on. -/
inductive Complete where
  | never
  | atLeast (iterations : Nat)
  /-- From two groups on, and the seven bytes of a group are put into one word first. -/
  | packed14
  deriving Repr, DecidableEq

/-- A decoder with a loop of its own. -/
structure Unrolled where
  blockCount : Nat
  group : List (List BlockPart)
  complete : Complete
  deriving Repr, DecidableEq

namespace Unrolled

variable {α : Type} {n m : Nat}

/-- How many values a group has. -/
def valueCount (decoder : Unrolled) : Nat :=
  decoder.group.length

/-- One group; `widen` makes a block the word that the shifts are made on. -/
def decodeGroup (decoder : Unrolled) (widen : α → BitVec n) (blocks : List α) (blocksOffset : Nat)
    (values : List (BitVec m)) (valuesOffset : Nat) : Result (List (BitVec m)) := do
  let input ← getRange blocks blocksOffset decoder.blockCount
  setRange values valuesOffset (readGroup m decoder.group (input.map widen))

/-- Group by group, with the offsets moving on. -/
def decodeGroups (decoder : Unrolled) (widen : α → BitVec n) (blocks : List α) (blocksOffset : Nat)
    (values : List (BitVec m)) (valuesOffset iterations : Nat) : Result (List (BitVec m)) :=
  (List.range iterations).foldlM (fun values k =>
    decodeGroup decoder widen blocks (blocksOffset + decoder.blockCount * k) values
      (valuesOffset + decoder.valueCount * k)) values

/-- The chunks of both ranges side by side. -/
def decodeChunks (decoder : Unrolled) (widen : α → BitVec n) (blocks : List α)
    (values : List (BitVec m)) : Result (List (BitVec m)) := do
  let chunks ← ((chunksExact decoder.blockCount blocks).zip
    (chunksExact decoder.valueCount values)).mapM fun (blocks, values) =>
      decodeGroup decoder widen blocks 0 values 0
  return chunks.flatten

/-- The four values of seven bytes, which are put into one word. -/
def decodeWord14 (widen : α → BitVec n) (blocks : List α) : List (BitVec m) :=
  let bits : BitVec 64 := blocks.foldl (fun bits block => bits <<< 8 |||
    (widen block).setWidth 64) 0
  [42, 28, 14, 0].map fun shift => (bits >>> shift &&& 16383).setWidth m

/-- Chunks if both ranges are there. -/
def decode (decoder : Unrolled) (widen : α → BitVec n) (blocks : List α) (blocksOffset : Nat)
    (values : List (BitVec m)) (valuesOffset iterations : Nat) : Result (List (BitVec m)) := do
  let blocksEnd := blocksOffset + iterations * decoder.blockCount
  let valuesEnd := valuesOffset + iterations * decoder.valueCount
  let whole := blocksEnd ≤ blocks.length ∧ valuesEnd ≤ values.length
  let input := (blocks.drop blocksOffset).take (iterations * decoder.blockCount)
  let output := (values.drop valuesOffset).take (iterations * decoder.valueCount)
  match decoder.complete with
  | .never => decodeGroups decoder widen blocks blocksOffset values valuesOffset iterations
  | .atLeast least =>
    if iterations ≥ least ∧ whole then
      return splice values valuesOffset (← decodeChunks decoder widen input output)
    else decodeGroups decoder widen blocks blocksOffset values valuesOffset iterations
  | .packed14 =>
    if iterations ≥ 2 ∧ whole then
      return splice values valuesOffset ((chunksExact 7 input).flatMap (decodeWord14 widen))
    else decodeGroups decoder widen blocks blocksOffset values valuesOffset iterations

end Unrolled

/-! ## The tables -/

section

open BlockPart

/-- Words of width 1. -/
def packed1Longs : List (List BlockPart) :=
  fields 0 1 (List.range 64).reverse

/-- Bytes of width 1. -/
def packed1Bytes : List (List BlockPart) :=
  fields 0 1 [7, 6, 5, 4, 3, 2, 1, 0]

/-- Words of width 2. -/
def packed2Longs : List (List BlockPart) :=
  fields 0 3 [62, 60, 58, 56, 54, 52, 50, 48, 46, 44, 42, 40, 38, 36, 34, 32,
    30, 28, 26, 24, 22, 20, 18, 16, 14, 12, 10, 8, 6, 4, 2, 0]

/-- Bytes of width 2. -/
def packed2Bytes : List (List BlockPart) :=
  fields 0 3 [6, 4, 2, 0]

/-- Words of width 3. -/
def packed3Longs : List (List BlockPart) := flatten
  [fields 0 7 [61, 58, 55, 52, 49, 46, 43, 40, 37, 34, 31, 28, 25, 22, 19, 16, 13, 10, 7, 4, 1],
   split 0 1 2 1 62,
   fields 1 7 [59, 56, 53, 50, 47, 44, 41, 38, 35, 32, 29, 26, 23, 20, 17, 14, 11, 8, 5, 2],
   split 1 3 1 2 63,
   fields 2 7 [60, 57, 54, 51, 48, 45, 42, 39, 36, 33, 30, 27, 24, 21, 18, 15, 12, 9, 6, 3, 0]]

/-- The first value comes without a mask. -/
def packed3LongsInt : List (List BlockPart) :=
  [hi 0 61] :: packed3Longs.tail

/-- Bytes of width 3. -/
def packed3Bytes : List (List BlockPart) := flatten
  [high 0 5, fields 0 7 [2], split 0 3 1 1 7, fields 1 7 [4, 1], split 1 1 2 2 6, fields 2 7 [3, 0]]

/-- Words of width 4. -/
def packed4Longs : List (List BlockPart) :=
  fields 0 15 [60, 56, 52, 48, 44, 40, 36, 32, 28, 24, 20, 16, 12, 8, 4, 0]

/-- Bytes of width 4. -/
def packed4Bytes : List (List BlockPart) :=
  fields 0 15 [4, 0]

/-- Words of width 5. -/
def packed5Longs : List (List BlockPart) := flatten
  [high 0 59, fields 0 31 [54, 49, 44, 39, 34, 29, 24, 19, 14, 9, 4], split 0 15 1 1 63,
   fields 1 31 [58, 53, 48, 43, 38, 33, 28, 23, 18, 13, 8, 3], split 1 7 2 2 62,
   fields 2 31 [57, 52, 47, 42, 37, 32, 27, 22, 17, 12, 7, 2], split 2 3 3 3 61,
   fields 3 31 [56, 51, 46, 41, 36, 31, 26, 21, 16, 11, 6, 1], split 3 1 4 4 60,
   fields 4 31 [55, 50, 45, 40, 35, 30, 25, 20, 15, 10, 5, 0]]

/-- Bytes of width 5. -/
def packed5Bytes : List (List BlockPart) := flatten
  [high 0 3, split 0 7 2 1 6, fields 1 31 [1], split 1 1 4 2 4, split 2 15 1 3 7, fields 3 31 [2],
   split 3 3 3 4 5, fields 4 31 [0]]

/-- Words of width 6. -/
def packed6Longs : List (List BlockPart) := flatten
  [high 0 58, fields 0 63 [52, 46, 40, 34, 28, 22, 16, 10, 4], split 0 15 2 1 62,
   fields 1 63 [56, 50, 44, 38, 32, 26, 20, 14, 8, 2], split 1 3 4 2 60,
   fields 2 63 [54, 48, 42, 36, 30, 24, 18, 12, 6, 0]]

/-- Bytes of width 6. -/
def packed6Bytes : List (List BlockPart) := flatten
  [high 0 2, split 0 3 4 1 4, split 1 15 2 2 6, fields 2 63 [0]]

/-- Words of width 7. -/
def packed7Longs : List (List BlockPart) := flatten
  [high 0 57, fields 0 127 [50, 43, 36, 29, 22, 15, 8, 1], split 0 1 6 1 58,
   fields 1 127 [51, 44, 37, 30, 23, 16, 9, 2], split 1 3 5 2 59,
   fields 2 127 [52, 45, 38, 31, 24, 17, 10, 3], split 2 7 4 3 60,
   fields 3 127 [53, 46, 39, 32, 25, 18, 11, 4], split 3 15 3 4 61,
   fields 4 127 [54, 47, 40, 33, 26, 19, 12, 5], split 4 31 2 5 62,
   fields 5 127 [55, 48, 41, 34, 27, 20, 13, 6], split 5 63 1 6 63,
   fields 6 127 [56, 49, 42, 35, 28, 21, 14, 7, 0]]

/-- Bytes of width 7. -/
def packed7Bytes : List (List BlockPart) := flatten
  [high 0 1, split 0 1 6 1 2, split 1 3 5 2 3, split 2 7 4 3 4, split 3 15 3 4 5, split 4 31 2 5 6,
   split 5 63 1 6 7, fields 6 127 [0]]

/-- Words of width 8. -/
def packed8Longs : List (List BlockPart) :=
  fields 0 255 ((List.range 8).map (56 - · * 8))

/-- Bytes of width 8. -/
def packed8Bytes : List (List BlockPart) :=
  fields 0 255 [0]

/-- The value comes without a mask. -/
def packed8BytesInt : List (List BlockPart) :=
  high 0 0

/-- Words of width 9. -/
def packed9Longs : List (List BlockPart) := flatten
  [high 0 55, fields 0 511 [46, 37, 28, 19, 10, 1], split 0 1 8 1 56,
   fields 1 511 [47, 38, 29, 20, 11, 2], split 1 3 7 2 57, fields 2 511 [48, 39, 30, 21, 12, 3],
   split 2 7 6 3 58, fields 3 511 [49, 40, 31, 22, 13, 4], split 3 15 5 4 59,
   fields 4 511 [50, 41, 32, 23, 14, 5], split 4 31 4 5 60, fields 5 511 [51, 42, 33, 24, 15, 6],
   split 5 63 3 6 61, fields 6 511 [52, 43, 34, 25, 16, 7], split 6 127 2 7 62,
   fields 7 511 [53, 44, 35, 26, 17, 8], split 7 255 1 8 63,
   fields 8 511 [54, 45, 36, 27, 18, 9, 0]]

/-- Bytes of width 9. -/
def packed9Bytes : List (List BlockPart) := flatten
  [joined [all 0 1, hi 1 7], split 1 127 2 2 6, split 2 63 3 3 5, split 3 31 4 4 4,
    split 4 15 5 5 3,
   split 5 7 6 6 2, split 6 3 7 7 1, split 7 1 8 8 0]

/-- Words of width 10. -/
def packed10Longs : List (List BlockPart) := flatten
  [high 0 54, fields 0 1023 [44, 34, 24, 14, 4], split 0 15 6 1 58,
    fields 1 1023 [48, 38, 28, 18, 8],
   split 1 255 2 2 62, fields 2 1023 [52, 42, 32, 22, 12, 2], split 2 3 8 3 56,
   fields 3 1023 [46, 36, 26, 16, 6], split 3 63 4 4 60, fields 4 1023 [50, 40, 30, 20, 10, 0]]

/-- Bytes of width 10. -/
def packed10Bytes : List (List BlockPart) := flatten
  [joined [all 0 2, hi 1 6], split 1 63 4 2 4, split 2 15 6 3 2, split 3 3 8 4 0]

/-- Words of width 11. -/
def packed11Longs : List (List BlockPart) := flatten
  [high 0 53, fields 0 2047 [42, 31, 20, 9], split 0 511 2 1 62, fields 1 2047 [51, 40, 29, 18, 7],
   split 1 127 4 2 60, fields 2 2047 [49, 38, 27, 16, 5], split 2 31 6 3 58,
   fields 3 2047 [47, 36, 25, 14, 3], split 3 7 8 4 56, fields 4 2047 [45, 34, 23, 12, 1],
   split 4 1 10 5 54, fields 5 2047 [43, 32, 21, 10], split 5 1023 1 6 63,
   fields 6 2047 [52, 41, 30, 19, 8], split 6 255 3 7 61, fields 7 2047 [50, 39, 28, 17, 6],
   split 7 63 5 8 59, fields 8 2047 [48, 37, 26, 15, 4], split 8 15 7 9 57,
   fields 9 2047 [46, 35, 24, 13, 2], split 9 3 9 10 55, fields 10 2047 [44, 33, 22, 11, 0]]

/-- Bytes of width 11. -/
def packed11Bytes : List (List BlockPart) := flatten
  [joined [all 0 3, hi 1 5], split 1 31 6 2 2, joined [lo 2 3 9, all 3 1, hi 4 7],
    split 4 127 4 5 4,
   split 5 15 7 6 1, joined [lo 6 1 10, all 7 2, hi 8 6], split 8 63 5 9 3, split 9 7 8 10 0]

/-- Words of width 12. -/
def packed12Longs : List (List BlockPart) := flatten
  [high 0 52, fields 0 4095 [40, 28, 16, 4], split 0 15 8 1 56, fields 1 4095 [44, 32, 20, 8],
   split 1 255 4 2 60, fields 2 4095 [48, 36, 24, 12, 0]]

/-- Bytes of width 12. -/
def packed12Bytes : List (List BlockPart) := flatten
  [joined [all 0 4, hi 1 4], split 1 15 8 2 0]

/-- Words of width 13. -/
def packed13Longs : List (List BlockPart) := flatten
  [high 0 51, fields 0 8191 [38, 25, 12], split 0 4095 1 1 63, fields 1 8191 [50, 37, 24, 11],
   split 1 2047 2 2 62, fields 2 8191 [49, 36, 23, 10], split 2 1023 3 3 61,
   fields 3 8191 [48, 35, 22, 9], split 3 511 4 4 60, fields 4 8191 [47, 34, 21, 8],
   split 4 255 5 5 59, fields 5 8191 [46, 33, 20, 7], split 5 127 6 6 58,
   fields 6 8191 [45, 32, 19, 6], split 6 63 7 7 57, fields 7 8191 [44, 31, 18, 5],
   split 7 31 8 8 56, fields 8 8191 [43, 30, 17, 4], split 8 15 9 9 55,
   fields 9 8191 [42, 29, 16, 3],
   split 9 7 10 10 54, fields 10 8191 [41, 28, 15, 2], split 10 3 11 11 53,
   fields 11 8191 [40, 27, 14, 1], split 11 1 12 12 52, fields 12 8191 [39, 26, 13, 0]]

/-- Bytes of width 13. -/
def packed13Bytes : List (List BlockPart) := flatten
  [joined [all 0 5, hi 1 3], joined [lo 1 7 10, all 2 2, hi 3 6], split 3 63 7 4 1,
   joined [lo 4 1 12, all 5 4, hi 6 4], joined [lo 6 15 9, all 7 1, hi 8 7], split 8 127 6 9 2,
   joined [lo 9 3 11, all 10 3, hi 11 5], split 11 31 8 12 0]

/-- Words of width 14. -/
def packed14Longs : List (List BlockPart) := flatten
  [high 0 50, fields 0 16383 [36, 22, 8], split 0 255 6 1 58, fields 1 16383 [44, 30, 16, 2],
   split 1 3 12 2 52, fields 2 16383 [38, 24, 10], split 2 1023 4 3 60,
   fields 3 16383 [46, 32, 18, 4], split 3 15 10 4 54, fields 4 16383 [40, 26, 12],
   split 4 4095 2 5 62, fields 5 16383 [48, 34, 20, 6], split 5 63 8 6 56,
   fields 6 16383 [42, 28, 14, 0]]

/-- Bytes of width 14. -/
def packed14Bytes : List (List BlockPart) := flatten
  [joined [all 0 6, hi 1 2], joined [lo 1 3 12, all 2 4, hi 3 4],
   joined [lo 3 15 10, all 4 2, hi 5 6], split 5 63 8 6 0]

/-- Words of width 15. -/
def packed15Longs : List (List BlockPart) := flatten
  [high 0 49, fields 0 32767 [34, 19, 4], split 0 15 11 1 53, fields 1 32767 [38, 23, 8],
   split 1 255 7 2 57, fields 2 32767 [42, 27, 12], split 2 4095 3 3 61,
   fields 3 32767 [46, 31, 16, 1], split 3 1 14 4 50, fields 4 32767 [35, 20, 5],
   split 4 31 10 5 54, fields 5 32767 [39, 24, 9], split 5 511 6 6 58, fields 6 32767 [43, 28, 13],
   split 6 8191 2 7 62, fields 7 32767 [47, 32, 17, 2], split 7 3 13 8 51,
   fields 8 32767 [36, 21, 6], split 8 63 9 9 55, fields 9 32767 [40, 25, 10], split 9 1023 5 10 59,
   fields 10 32767 [44, 29, 14],
   split 10 16383 1 11 63, fields 11 32767 [48, 33, 18, 3], split 11 7 12 12 52,
   fields 12 32767 [37, 22, 7], split 12 127 8 13 56, fields 13 32767 [41, 26, 11],
   split 13 2047 4 14 60, fields 14 32767 [45, 30, 15, 0]]

/-- Bytes of width 15. -/
def packed15Bytes : List (List BlockPart) := flatten
  [joined [all 0 7, hi 1 1], joined [lo 1 1 14, all 2 6, hi 3 2],
    joined [lo 3 3 13, all 4 5, hi 5 3],
   joined [lo 5 7 12, all 6 4, hi 7 4], joined [lo 7 15 11, all 8 3, hi 9 5],
   joined [lo 9 31 10, all 10 2, hi 11 6], joined [lo 11 63 9, all 12 1, hi 13 7],
   split 13 127 8 14 0]

/-- Words of width 16. -/
def packed16Longs : List (List BlockPart) :=
  fields 0 0xFFFF ((List.range 4).map (48 - · * 16))

/-- Bytes of width 16. -/
def packed16Bytes : List (List BlockPart) :=
  joined [all 0 8, hi 1 0]

/-- Words of width 17. -/
def packed17Longs : List (List BlockPart) := flatten
  [high 0 47, fields 0 131071 [30, 13], split 0 8191 4 1 60, fields 1 131071 [43, 26, 9],
   split 1 511 8 2 56, fields 2 131071 [39, 22, 5], split 2 31 12 3 52, fields 3 131071 [35, 18, 1],
   split 3 1 16 4 48, fields 4 131071 [31, 14], split 4 16383 3 5 61, fields 5 131071 [44, 27, 10],
   split 5 1023 7 6 57, fields 6 131071 [40, 23, 6], split 6 63 11 7 53,
   fields 7 131071 [36, 19, 2],
   split 7 3 15 8 49, fields 8 131071 [32, 15], split 8 32767 2 9 62, fields 9 131071 [45, 28, 11],
   split 9 2047 6 10 58, fields 10 131071 [41, 24, 7], split 10 127 10 11 54,
   fields 11 131071 [37, 20, 3], split 11 7 14 12 50, fields 12 131071 [33, 16],
   split 12 65535 1 13 63, fields 13 131071 [46, 29, 12], split 13 4095 5 14 59,
   fields 14 131071 [42, 25, 8], split 14 255 9 15 55, fields 15 131071 [38, 21, 4],
   split 15 15 13 16 51, fields 16 131071 [34, 17, 0]]

/-- Bytes of width 17. -/
def packed17Bytes : List (List BlockPart) := flatten
  [joined [all 0 9, all 1 1, hi 2 7], joined [lo 2 127 10, all 3 2, hi 4 6],
   joined [lo 4 63 11, all 5 3, hi 6 5], joined [lo 6 31 12, all 7 4, hi 8 4],
   joined [lo 8 15 13, all 9 5, hi 10 3], joined [lo 10 7 14, all 11 6, hi 12 2],
   joined [lo 12 3 15, all 13 7, hi 14 1], joined [lo 14 1 16, all 15 8, hi 16 0]]

/-- Words of width 18. -/
def packed18Longs : List (List BlockPart) := flatten
  [high 0 46, fields 0 262143 [28, 10], split 0 1023 8 1 56, fields 1 262143 [38, 20, 2],
   split 1 3 16 2 48, fields 2 262143 [30, 12], split 2 4095 6 3 58, fields 3 262143 [40, 22, 4],
   split 3 15 14 4 50, fields 4 262143 [32, 14], split 4 16383 4 5 60, fields 5 262143 [42, 24, 6],
   split 5 63 12 6 52, fields 6 262143 [34, 16], split 6 65535 2 7 62, fields 7 262143 [44, 26, 8],
   split 7 255 10 8 54, fields 8 262143 [36, 18, 0]]

/-- Bytes of width 18. -/
def packed18Bytes : List (List BlockPart) := flatten
  [joined [all 0 10, all 1 2, hi 2 6], joined [lo 2 63 12, all 3 4, hi 4 4],
   joined [lo 4 15 14, all 5 6, hi 6 2], joined [lo 6 3 16, all 7 8, hi 8 0]]

/-- Words of width 19. -/
def packed19Longs : List (List BlockPart) := flatten
  [high 0 45, fields 0 524287 [26, 7], split 0 127 12 1 52, fields 1 524287 [33, 14],
   split 1 16383 5 2 59, fields 2 524287 [40, 21, 2], split 2 3 17 3 47, fields 3 524287 [28, 9],
   split 3 511 10 4 54, fields 4 524287 [35, 16], split 4 65535 3 5 61, fields 5 524287 [42, 23, 4],
   split 5 15 15 6 49, fields 6 524287 [30, 11], split 6 2047 8 7 56, fields 7 524287 [37, 18],
   split 7 262143 1 8 63, fields 8 524287 [44, 25, 6], split 8 63 13 9 51, fields 9 524287 [32, 13],
   split 9 8191 6 10 58, fields 10 524287 [39, 20, 1], split 10 1 18 11 46,
   fields 11 524287 [27, 8],
   split 11 255 11 12 53, fields 12 524287 [34, 15], split 12 32767 4 13 60,
   fields 13 524287 [41, 22, 3], split 13 7 16 14 48, fields 14 524287 [29, 10],
   split 14 1023 9 15 55, fields 15 524287 [36, 17], split 15 131071 2 16 62,
   fields 16 524287 [43, 24, 5], split 16 31 14 17 50, fields 17 524287 [31, 12],
   split 17 4095 7 18 57, fields 18 524287 [38, 19, 0]]

/-- Bytes of width 19. -/
def packed19Bytes : List (List BlockPart) := flatten
  [joined [all 0 11, all 1 3, hi 2 5], joined [lo 2 31 14, all 3 6, hi 4 2],
   joined [lo 4 3 17, all 5 9, all 6 1, hi 7 7], joined [lo 7 127 12, all 8 4, hi 9 4],
   joined [lo 9 15 15, all 10 7, hi 11 1], joined [lo 11 1 18, all 12 10, all 13 2, hi 14 6],
   joined [lo 14 63 13, all 15 5, hi 16 3], joined [lo 16 7 16, all 17 8, hi 18 0]]

/-- Words of width 20. -/
def packed20Longs : List (List BlockPart) := flatten
  [high 0 44, fields 0 1048575 [24, 4], split 0 15 16 1 48, fields 1 1048575 [28, 8],
   split 1 255 12 2 52, fields 2 1048575 [32, 12], split 2 4095 8 3 56, fields 3 1048575 [36, 16],
   split 3 65535 4 4 60, fields 4 1048575 [40, 20, 0]]

/-- Bytes of width 20. -/
def packed20Bytes : List (List BlockPart) := flatten
  [joined [all 0 12, all 1 4, hi 2 4], joined [lo 2 15 16, all 3 8, hi 4 0]]

/-- Words of width 21. -/
def packed21Longs : List (List BlockPart) := flatten
  [high 0 43, fields 0 2097151 [22, 1], split 0 1 20 1 44, fields 1 2097151 [23, 2],
   split 1 3 19 2 45, fields 2 2097151 [24, 3], split 2 7 18 3 46, fields 3 2097151 [25, 4],
   split 3 15 17 4 47, fields 4 2097151 [26, 5], split 4 31 16 5 48, fields 5 2097151 [27, 6],
   split 5 63 15 6 49, fields 6 2097151 [28, 7], split 6 127 14 7 50, fields 7 2097151 [29, 8],
   split 7 255 13 8 51, fields 8 2097151 [30, 9], split 8 511 12 9 52, fields 9 2097151 [31, 10],
   split 9 1023 11 10 53, fields 10 2097151 [32, 11], split 10 2047 10 11 54,
   fields 11 2097151 [33, 12], split 11 4095 9 12 55, fields 12 2097151 [34, 13],
   split 12 8191 8 13 56, fields 13 2097151 [35, 14], split 13 16383 7 14 57,
   fields 14 2097151 [36, 15], split 14 32767 6 15 58, fields 15 2097151 [37, 16],
   split 15 65535 5 16 59, fields 16 2097151 [38, 17], split 16 131071 4 17 60,
   fields 17 2097151 [39, 18], split 17 262143 3 18 61, fields 18 2097151 [40, 19],
   split 18 524287 2 19 62, fields 19 2097151 [41, 20], split 19 1048575 1 20 63,
   fields 20 2097151 [42, 21, 0]]

/-- Bytes of width 21. -/
def packed21Bytes : List (List BlockPart) := flatten
  [joined [all 0 13, all 1 5, hi 2 3], joined [lo 2 7 18, all 3 10, all 4 2, hi 5 6],
   joined [lo 5 63 15, all 6 7, hi 7 1], joined [lo 7 1 20, all 8 12, all 9 4, hi 10 4],
   joined [lo 10 15 17, all 11 9, all 12 1, hi 13 7], joined [lo 13 127 14, all 14 6, hi 15 2],
   joined [lo 15 3 19, all 16 11, all 17 3, hi 18 5], joined [lo 18 31 16, all 19 8, hi 20 0]]

/-- Words of width 22. -/
def packed22Longs : List (List BlockPart) := flatten
  [high 0 42, fields 0 4194303 [20], split 0 1048575 2 1 62, fields 1 4194303 [40, 18],
   split 1 262143 4 2 60, fields 2 4194303 [38, 16], split 2 65535 6 3 58,
   fields 3 4194303 [36, 14],
   split 3 16383 8 4 56, fields 4 4194303 [34, 12], split 4 4095 10 5 54, fields 5 4194303 [32, 10],
   split 5 1023 12 6 52, fields 6 4194303 [30, 8], split 6 255 14 7 50, fields 7 4194303 [28, 6],
   split 7 63 16 8 48, fields 8 4194303 [26, 4], split 8 15 18 9 46, fields 9 4194303 [24, 2],
   split 9 3 20 10 44, fields 10 4194303 [22, 0]]

/-- Bytes of width 22. -/
def packed22Bytes : List (List BlockPart) := flatten
  [joined [all 0 14, all 1 6, hi 2 2], joined [lo 2 3 20, all 3 12, all 4 4, hi 5 4],
   joined [lo 5 15 18, all 6 10, all 7 2, hi 8 6], joined [lo 8 63 16, all 9 8, hi 10 0]]

/-- Words of width 23. -/
def packed23Longs : List (List BlockPart) := flatten
  [high 0 41, fields 0 8388607 [18], split 0 262143 5 1 59, fields 1 8388607 [36, 13],
   split 1 8191 10 2 54, fields 2 8388607 [31, 8], split 2 255 15 3 49, fields 3 8388607 [26, 3],
   split 3 7 20 4 44, fields 4 8388607 [21], split 4 2097151 2 5 62, fields 5 8388607 [39, 16],
   split 5 65535 7 6 57, fields 6 8388607 [34, 11], split 6 2047 12 7 52, fields 7 8388607 [29, 6],
   split 7 63 17 8 47, fields 8 8388607 [24, 1], split 8 1 22 9 42, fields 9 8388607 [19],
   split 9 524287 4 10 60, fields 10 8388607 [37, 14], split 10 16383 9 11 55,
   fields 11 8388607 [32, 9], split 11 511 14 12 50, fields 12 8388607 [27, 4],
   split 12 15 19 13 45, fields 13 8388607 [22], split 13 4194303 1 14 63,
   fields 14 8388607 [40, 17],
   split 14 131071 6 15 58, fields 15 8388607 [35, 12], split 15 4095 11 16 53,
   fields 16 8388607 [30, 7], split 16 127 16 17 48, fields 17 8388607 [25, 2], split 17 3 21 18 43,
   fields 18 8388607 [20], split 18 1048575 3 19 61, fields 19 8388607 [38, 15],
   split 19 32767 8 20 56, fields 20 8388607 [33, 10], split 20 1023 13 21 51,
   fields 21 8388607 [28, 5], split 21 31 18 22 46, fields 22 8388607 [23, 0]]

/-- Bytes of width 23. -/
def packed23Bytes : List (List BlockPart) := flatten
  [joined [all 0 15, all 1 7, hi 2 1], joined [lo 2 1 22, all 3 14, all 4 6, hi 5 2],
   joined [lo 5 3 21, all 6 13, all 7 5, hi 8 3], joined [lo 8 7 20, all 9 12, all 10 4, hi 11 4],
   joined [lo 11 15 19, all 12 11, all 13 3, hi 14 5],
   joined [lo 14 31 18, all 15 10, all 16 2, hi 17 6],
   joined [lo 17 63 17, all 18 9, all 19 1, hi 20 7], joined [lo 20 127 16, all 21 8, hi 22 0]]

/-- Words of width 24. -/
def packed24Longs : List (List BlockPart) := flatten
  [high 0 40, fields 0 16777215 [16], split 0 65535 8 1 56, fields 1 16777215 [32, 8],
   split 1 255 16 2 48, fields 2 16777215 [24, 0]]

/-- Bytes of width 24. -/
def packed24Bytes : List (List BlockPart) :=
  joined [all 0 16, all 1 8, hi 2 0]

end

/-- The decoders of one width. -/
structure Specialised where
  u64ToI64 : Unrolled
  u8ToI64 : Unrolled
  u64ToI32 : Unrolled
  u8ToI32 : Unrolled
  deriving Repr, DecidableEq

/-- Decoders that are the same for both types of values. -/
def Specialised.same (longs bytes : Unrolled) : Specialised :=
  ⟨longs, bytes, longs, bytes⟩

/-- The widths that have decoders of their own. -/
def specialised : Nat → Option Specialised
  | 1 => some ⟨⟨1, packed1Longs, .never⟩, ⟨1, packed1Bytes, .atLeast 2⟩,
      ⟨1, packed1Longs, .never⟩, ⟨1, packed1Bytes, .atLeast 0⟩⟩
  | 2 => some (.same ⟨1, packed2Longs, .never⟩ ⟨1, packed2Bytes, .never⟩)
  | 3 => some ⟨⟨3, packed3Longs, .atLeast 0⟩, ⟨3, packed3Bytes, .never⟩,
      ⟨3, packed3LongsInt, .atLeast 0⟩, ⟨3, packed3Bytes, .never⟩⟩
  | 4 => some (.same ⟨1, packed4Longs, .never⟩ ⟨1, packed4Bytes, .never⟩)
  | 5 => some (.same ⟨5, packed5Longs, .atLeast 0⟩ ⟨5, packed5Bytes, .atLeast 0⟩)
  | 6 => some (.same ⟨3, packed6Longs, .atLeast 0⟩ ⟨3, packed6Bytes, .never⟩)
  | 7 => some (.same ⟨7, packed7Longs, .atLeast 0⟩ ⟨7, packed7Bytes, .atLeast 0⟩)
  | 8 => some ⟨⟨1, packed8Longs, .never⟩, ⟨1, packed8Bytes, .never⟩,
      ⟨1, packed8Longs, .never⟩, ⟨1, packed8BytesInt, .never⟩⟩
  | 9 => some (.same ⟨9, packed9Longs, .atLeast 0⟩ ⟨9, packed9Bytes, .atLeast 0⟩)
  | 10 => some (.same ⟨5, packed10Longs, .atLeast 0⟩ ⟨5, packed10Bytes, .never⟩)
  | 11 => some (.same ⟨11, packed11Longs, .atLeast 0⟩ ⟨11, packed11Bytes, .atLeast 0⟩)
  | 12 => some (.same ⟨3, packed12Longs, .atLeast 0⟩ ⟨3, packed12Bytes, .never⟩)
  | 13 => some (.same ⟨13, packed13Longs, .atLeast 0⟩ ⟨13, packed13Bytes, .atLeast 0⟩)
  | 14 => some ⟨⟨7, packed14Longs, .atLeast 0⟩, ⟨7, packed14Bytes, .packed14⟩,
      ⟨7, packed14Longs, .atLeast 0⟩, ⟨7, packed14Bytes, .never⟩⟩
  | 15 => some (.same ⟨15, packed15Longs, .atLeast 0⟩ ⟨15, packed15Bytes, .atLeast 0⟩)
  | 16 => some (.same ⟨1, packed16Longs, .never⟩ ⟨2, packed16Bytes, .never⟩)
  | 17 => some (.same ⟨17, packed17Longs, .atLeast 0⟩ ⟨17, packed17Bytes, .atLeast 0⟩)
  | 18 => some ⟨⟨9, packed18Longs, .atLeast 0⟩, ⟨9, packed18Bytes, .atLeast 0⟩,
      ⟨9, packed18Longs, .atLeast 0⟩, ⟨9, packed18Bytes, .never⟩⟩
  | 19 => some (.same ⟨19, packed19Longs, .atLeast 0⟩ ⟨19, packed19Bytes, .atLeast 0⟩)
  | 20 => some (.same ⟨5, packed20Longs, .atLeast 0⟩ ⟨5, packed20Bytes, .never⟩)
  | 21 => some (.same ⟨21, packed21Longs, .atLeast 0⟩ ⟨21, packed21Bytes, .atLeast 0⟩)
  | 22 => some (.same ⟨11, packed22Longs, .atLeast 0⟩ ⟨11, packed22Bytes, .atLeast 0⟩)
  | 23 => some (.same ⟨23, packed23Longs, .atLeast 0⟩ ⟨23, packed23Bytes, .atLeast 0⟩)
  | 24 => some (.same ⟨3, packed24Longs, .never⟩ ⟨3, packed24Bytes, .never⟩)
  | _ => none

end RLucene.Util.Packed
