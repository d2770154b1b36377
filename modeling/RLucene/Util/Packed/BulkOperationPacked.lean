import RLucene.Lib.Stream
import RLucene.Util.Slices

/-!
# Bulk operations on packed values

Values of a width between 1 and 64 bits follow each other without gaps, from the high bits of a
block to its low bits. Blocks are words of 64 bits or bytes. The operations for values of 64 and of
32 bits are the same, with the width of the values as a parameter; each keeps the wrapping shifts of
the source.

`BulkOperationPackedCorrect` has what they do: `encodeU64_spec`, `encodeU8_spec`, `decodeU64_spec`
and `decodeU8_spec`.
-/

namespace RLucene.Util.Packed

open Lib Store

/-- `wrapping_shl` and `wrapping_shr`: only the low bits of the amount count. -/
def wrappingShl {m : Nat} (x : BitVec m) (n : Nat) : BitVec m :=
  x <<< (n % m)

@[inherit_doc wrappingShl]
def wrappingShr {m : Nat} (x : BitVec m) (n : Nat) : BitVec m :=
  x >>> (n % m)

/-- The operations of a width, and how many blocks and values a group has. -/
structure BulkOperationPacked where
  bitsPerValue : Nat
  longBlockCount : Nat
  longValueCount : Nat
  byteBlockCount : Nat
  byteValueCount : Nat
  mask : BitVec 64
  intMask : BitVec 32
  deriving Repr, DecidableEq

namespace BulkOperationPacked

/-- Halve a number while it is even. -/
def halve : (fuel blocks : Nat) → Nat
  | 0, blocks => blocks
  | fuel + 1, blocks => if blocks &&& 1 = 0 then halve fuel (blocks >>> 1) else blocks

/-- Halve two numbers while both are even. -/
def halveBoth : (fuel blocks values : Nat) → Nat × Nat
  | 0, blocks, values => (blocks, values)
  | fuel + 1, blocks, values =>
    if blocks &&& 1 = 0 ∧ values &&& 1 = 0 then halveBoth fuel (blocks >>> 1) (values >>> 1)
    else (blocks, values)

/-- The fewest blocks that a number of values fills. A width has at most 64 bits, so that six
halvings are enough for the first loop and nine for the second. -/
def new (bitsPerValue : Nat) : BulkOperationPacked :=
  let longBlockCount := halve 6 bitsPerValue
  let longValueCount := 64 * longBlockCount / bitsPerValue
  let (byteBlockCount, byteValueCount) := halveBoth 9 (8 * longBlockCount) longValueCount
  let mask : BitVec 64 := if bitsPerValue = 64 then BitVec.allOnes 64
    else (1 : BitVec 64) <<< bitsPerValue - 1
  { bitsPerValue, longBlockCount, longValueCount, byteBlockCount, byteValueCount, mask,
    intMask := mask.setWidth 32 }

variable {m : Nat}

/-! ## Decoding -/

/-- One value. It may begin in one block and end in the next. -/
def decodeLong (op : BulkOperationPacked) (blocks : List (BitVec 64))
    (state : Int × Nat × List (BitVec m) × Nat) : Result (Int × Nat × List (BitVec m) × Nat) := do
  let (bitsLeft, blocksOffset, values, valuesOffset) := state
  let bitsLeft := bitsLeft - op.bitsPerValue
  if bitsLeft < 0 then
    let block ← getAt blocks blocksOffset
    let lowerPart := wrappingShl (block &&& (wrappingShl 1 (op.bitsPerValue + bitsLeft).toNat - 1))
      (-bitsLeft).toNat
    let next ← getAt blocks (blocksOffset + 1)
    let upperPart := wrappingShr next (64 + bitsLeft).toNat
    let values ← setAt values valuesOffset ((lowerPart ||| upperPart).setWidth m)
    return (bitsLeft + 64, blocksOffset + 1, values, valuesOffset + 1)
  else
    let block ← getAt blocks blocksOffset
    let values ← setAt values valuesOffset ((block >>> bitsLeft.toNat &&& op.mask).setWidth m)
    return (bitsLeft, blocksOffset, values, valuesOffset + 1)

/-- Decode words. -/
def decodeLongs (op : BulkOperationPacked) (blocks : List (BitVec 64)) (blocksOffset : Nat)
    (values : List (BitVec m)) (valuesOffset iterations : Nat) : Result (List (BitVec m)) := do
  let (_, _, values, _) ← (List.range (op.longValueCount * iterations)).foldlM
    (fun state _ => decodeLong op blocks state) ((64 : Int), blocksOffset, values, valuesOffset)
  return values

/-- Words to values of 64 bits. -/
def decodeU64ToI64 (op : BulkOperationPacked) (blocks : List (BitVec 64)) (blocksOffset : Nat)
    (values : List (BitVec 64)) (valuesOffset iterations : Nat) : Result (List (BitVec 64)) :=
  decodeLongs op blocks blocksOffset values valuesOffset iterations

/-- Words to values of 32 bits, if the width fits. -/
def decodeU64ToI32 (op : BulkOperationPacked) (blocks : List (BitVec 64)) (blocksOffset : Nat)
    (values : List (BitVec 32)) (valuesOffset iterations : Nat) : Result (List (BitVec 32)) :=
  if op.bitsPerValue > 32 then
    .error (.unsupportedOperation s!"Cannot decode {op.bitsPerValue}-bits values into an i32 slice")
  else decodeLongs op blocks blocksOffset values valuesOffset iterations

/-- The values that lie within one byte, while there are enough bits for one. -/
def decodeWithin (op : BulkOperationPacked) (mask byte : BitVec m) :
    (fuel bits : Nat) → List (BitVec m) → Nat → Result (Nat × List (BitVec m) × Nat)
  | 0, bits, values, valuesOffset => .ok (bits, values, valuesOffset)
  | fuel + 1, bits, values, valuesOffset =>
    if op.bitsPerValue ≤ bits then do
      let bits := bits - op.bitsPerValue
      let values ← setAt values valuesOffset (byte >>> bits &&& mask)
      decodeWithin op mask byte fuel bits values (valuesOffset + 1)
    else .ok (bits, values, valuesOffset)

/-- One byte: it is kept if the value goes on behind it. Otherwise the value ends in it, there may
be others in it, and what is left begins the next one. -/
def decodeByte (op : BulkOperationPacked) (mask : BitVec m)
    (state : BitVec m × Nat × List (BitVec m) × Nat) (block : UInt8) :
    Result (BitVec m × Nat × List (BitVec m) × Nat) := do
  let (nextValue, bitsLeft, values, valuesOffset) := state
  let byte := block.toBitVec.setWidth m
  if bitsLeft > 8 then
    return (nextValue ||| wrappingShl byte (bitsLeft - 8), bitsLeft - 8, values, valuesOffset)
  else
    let bits := 8 - bitsLeft
    let values ← setAt values valuesOffset (nextValue ||| byte >>> bits)
    let (bits, values, valuesOffset) ← decodeWithin op mask byte 8 bits values (valuesOffset + 1)
    let bitsLeft := op.bitsPerValue - bits
    return (wrappingShl (byte &&& ((1 : BitVec m) <<< bits - 1)) bitsLeft,
      bitsLeft, values, valuesOffset)

/-- Decode bytes. -/
def decodeBytes (op : BulkOperationPacked) (mask : BitVec m) (blocks : Bytes) (blocksOffset : Nat)
    (values : List (BitVec m)) (valuesOffset iterations : Nat) : Result (List (BitVec m)) := do
  let (_, _, values, _) ← (List.range (iterations * op.byteBlockCount)).foldlM
    (fun state k => do decodeByte op mask state (← getAt blocks (blocksOffset + k)))
    ((0 : BitVec m), op.bitsPerValue, values, valuesOffset)
  return values

/-- Bytes to values of 64 bits. -/
def decodeU8ToI64 (op : BulkOperationPacked) (blocks : Bytes) (blocksOffset : Nat)
    (values : List (BitVec 64)) (valuesOffset iterations : Nat) : Result (List (BitVec 64)) :=
  decodeBytes op op.mask blocks blocksOffset values valuesOffset iterations

/-- Bytes to values of 32 bits. -/
def decodeU8ToI32 (op : BulkOperationPacked) (blocks : Bytes) (blocksOffset : Nat)
    (values : List (BitVec 32)) (valuesOffset iterations : Nat) : Result (List (BitVec 32)) :=
  decodeBytes op op.intMask blocks blocksOffset values valuesOffset iterations

/-! ## Encoding -/

/-- One value. The bits that go to the current block are taken from `value`, those that go to the
next one from `rest`. -/
def encodeLong (op : BulkOperationPacked) (value rest : BitVec 64)
    (state : BitVec 64 × Int × List (BitVec 64) × Nat) :
    Result (BitVec 64 × Int × List (BitVec 64) × Nat) := do
  let (nextBlock, bitsLeft, blocks, blocksOffset) := state
  let bitsLeft := bitsLeft - op.bitsPerValue
  if bitsLeft = 0 then
    let blocks ← setAt blocks blocksOffset (nextBlock ||| value)
    return (0, 64, blocks, blocksOffset + 1)
  else if 0 < bitsLeft then
    return (nextBlock ||| value <<< bitsLeft.toNat, bitsLeft, blocks, blocksOffset)
  else
    let blocks ← setAt blocks blocksOffset (nextBlock ||| wrappingShr value (-bitsLeft).toNat)
    let nextBlock := wrappingShl (rest &&& (wrappingShl 1 (-bitsLeft).toNat - 1))
      (64 + bitsLeft).toNat
    return (nextBlock, bitsLeft + 64, blocks, blocksOffset + 1)

/-- The values one after the other; `wide` has both forms of a value in 64 bits. -/
def encodeLongs (op : BulkOperationPacked) (wide : BitVec m → BitVec 64 × BitVec 64)
    (values : List (BitVec m)) (valuesOffset : Nat) (blocks : List (BitVec 64))
    (blocksOffset count : Nat) : Result (List (BitVec 64)) := do
  let (_, _, blocks, _) ← (List.range count).foldlM
    (fun state k => do
      let (value, rest) := wide (← getAt values (valuesOffset + k))
      encodeLong op value rest state)
    ((0 : BitVec 64), (64 : Int), blocks, blocksOffset)
  return blocks

/-- Two blocks at once, from four values of sixteen bits each. -/
def encodePair16 : List (BitVec 64) → List (BitVec 64)
  | [a, b, c, d, e, f, g, h] =>
    [a <<< 48 ||| b <<< 32 ||| c <<< 16 ||| d, e <<< 48 ||| f <<< 32 ||| g <<< 16 ||| h]
  | _ => []

/-- Two blocks at once, from two values of thirty-two bits each. -/
def encodePair32 : List (BitVec 64) → List (BitVec 64)
  | [a, b, c, d] => [a <<< 32 ||| b, c <<< 32 ||| d]
  | _ => []

/-- Values of 16 and 32 bits go two blocks at a time, if all the blocks are there. -/
def encodeI64ToU64 (op : BulkOperationPacked) (values : List (BitVec 64)) (valuesOffset : Nat)
    (blocks : List (BitVec 64)) (blocksOffset iterations : Nat) : Result (List (BitVec 64)) :=
  let remainingValues := op.longValueCount * iterations
  if iterations ≥ 2 ∧ (op.bitsPerValue = 16 ∨ op.bitsPerValue = 32) ∧
      valuesOffset + remainingValues ≤ values.length ∧
        blocksOffset + iterations ≤ blocks.length then
    let input := (values.drop valuesOffset).take remainingValues
    let pairs := if op.bitsPerValue = 16 then (chunksExact 8 input).flatMap encodePair16
      else (chunksExact 4 input).flatMap encodePair32
    let written := iterations / 2 * 2
    let consumed := written * op.longValueCount
    encodeLongs op (fun v => (v, v)) values (valuesOffset + consumed)
      (splice blocks blocksOffset (pairs.take written)) (blocksOffset + written)
      (remainingValues - consumed)
  else encodeLongs op (fun v => (v, v)) values valuesOffset blocks blocksOffset remainingValues

/-- A value is extended by its sign, and the sign is masked off only for the current block. -/
def encodeI32ToU64 (op : BulkOperationPacked) (values : List (BitVec 32)) (valuesOffset : Nat)
    (blocks : List (BitVec 64)) (blocksOffset iterations : Nat) : Result (List (BitVec 64)) :=
  encodeLongs op (fun v => (v.signExtend 64 &&& 0xFFFFFFFF, v.signExtend 64))
    values valuesOffset blocks
    blocksOffset (op.longValueCount * iterations)

/-- The bytes that lie within one value, while there are enough bits for one. -/
def encodeWithin (value : BitVec m) :
    (fuel bits : Nat) → Bytes → Nat → Result (Nat × Bytes × Nat)
  | 0, bits, blocks, blocksOffset => .ok (bits, blocks, blocksOffset)
  | fuel + 1, bits, blocks, blocksOffset =>
    if 8 ≤ bits then do
      let bits := bits - 8
      let blocks ← setAt blocks blocksOffset (UInt8.ofBitVec ((wrappingShr value bits).setWidth 8))
      encodeWithin value fuel bits blocks (blocksOffset + 1)
    else .ok (bits, blocks, blocksOffset)

/-- One value: it is kept if its bits do not fill the byte. -/
def encodeValue (op : BulkOperationPacked) (state : BitVec 32 × Nat × Bytes × Nat)
    (value : BitVec m) : Result (BitVec 32 × Nat × Bytes × Nat) := do
  let (nextBlock, bitsLeft, blocks, blocksOffset) := state
  if op.bitsPerValue < bitsLeft then
    let nextBlock := nextBlock ||| (value <<< (bitsLeft - op.bitsPerValue)).setWidth 32
    return (nextBlock, bitsLeft - op.bitsPerValue, blocks, blocksOffset)
  else
    let bits := op.bitsPerValue - bitsLeft
    let blocks ← setAt blocks blocksOffset
      (UInt8.ofBitVec ((nextBlock.signExtend m ||| wrappingShr value bits).setWidth 8))
    let (bits, blocks, blocksOffset) ← encodeWithin value 8 bits blocks (blocksOffset + 1)
    let bitsLeft := 8 - bits
    let nextBlock := ((value &&& ((1 : BitVec m) <<< bits - 1)) <<< bitsLeft).setWidth 32
    return (nextBlock, bitsLeft, blocks, blocksOffset)

/-- Encode to bytes. -/
def encodeValues (op : BulkOperationPacked) (values : List (BitVec m)) (valuesOffset : Nat)
    (blocks : Bytes) (blocksOffset iterations : Nat) : Result Bytes := do
  let (_, _, blocks, _) ← (List.range (op.byteValueCount * iterations)).foldlM
    (fun state k => do encodeValue op state (← getAt values (valuesOffset + k)))
    ((0 : BitVec 32), 8, blocks, blocksOffset)
  return blocks

/-- Values of 64 bits to bytes. -/
def encodeI64ToU8 (op : BulkOperationPacked) (values : List (BitVec 64)) (valuesOffset : Nat)
    (blocks : Bytes) (blocksOffset iterations : Nat) : Result Bytes :=
  encodeValues op values valuesOffset blocks blocksOffset iterations

/-- Values of 32 bits to bytes. -/
def encodeI32ToU8 (op : BulkOperationPacked) (values : List (BitVec 32)) (valuesOffset : Nat)
    (blocks : Bytes) (blocksOffset iterations : Nat) : Result Bytes :=
  encodeValues op values valuesOffset blocks blocksOffset iterations

end BulkOperationPacked

end RLucene.Util.Packed
