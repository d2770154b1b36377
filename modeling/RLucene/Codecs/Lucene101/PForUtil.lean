import RLucene.Codecs.Lucene101.ForUtil
import RLucene.Lib.Lists
import RLucene.Util.LongHeap
import RLucene.Util.Packed.DirectWriter

/-!
# Patched frame of reference

A block of 128 integers is packed in a width that up to seven of them may exceed. Of those, the
exceptions, the high bits are cut off and stored behind the block as patches, each with the index it
belongs to. The width follows from the eight greatest integers, which a heap collects.
-/

namespace RLucene.Codecs.Lucene101

open List Lib Store Util Util.Packed Internal.Vectorization

namespace PForUtil

open ForUtil

/-- The number of integers of a block that may be patched. -/
def maxExceptions : Nat := 7

/-! ## Equal integers -/

/-- The integers from `i` on that are not the first one. -/
def allEqualFrom (arr : List I32) (first : I32) : (count i : Nat) → Result Bool
  | 0, _ => .ok true
  | count + 1, i => do
    if (← getInt arr i) != first then return false else allEqualFrom arr first count (i + 1)

/-- Whether all integers of a block are equal. -/
def allEqual (arr : List I32) : Result Bool := do
  let first ← getInt arr 0
  let equal := fun (v : List I32) => v.all (· == first)
  if arr.length ≥ blockSize then
    return equal (arr.take 8) &&
      (List.range 7).all (fun k => equal ((arr.drop (8 + 16 * k)).take 16)) &&
      equal ((arr.drop 120).take 8)
  else allEqualFrom arr first (blockSize - 1) 1

/-! ## The eight greatest integers -/

/-- Put a value into the heap in place of its least one, if it is greater. The least value is kept
beside the heap. -/
def offer (state : LongHeap × Int) (v : I32) : LongHeap × Int :=
  if v.toInt > state.2 then
    let top := state.1.updateTop v.toInt
    (top, top.top)
  else state

/-- A vector of integers is gone through only if one of them is greater than the least value. -/
def offerChunk (state : LongHeap × Int) (chunk : List I32) : LongHeap × Int :=
  if chunk.any fun v => (BitVec.ofInt 32 state.2).slt v then chunk.foldl offer state else state

/-- The heap of the eight greatest integers, and the least of them. -/
def collectTop (top : LongHeap) (ints : List I32) : Result (LongHeap × Int) := do
  let first ← sliceInts ints 0 (maxExceptions + 1)
  let top := first.foldl (fun (top : LongHeap) v => top.push v.toInt) top.clear
  let rest ← sliceInts ints (maxExceptions + 1) (blockSize - (maxExceptions + 1))
  return (chunksExact 8 rest).foldl offerChunk (top, top.top)

/-! ## Widths -/

/-- What the encoder finds out about a block. -/
structure Plan where
  top : LongHeap
  maxBitsRequired : Nat
  patchedBitsRequired : Nat
  numExceptions : Nat

/-- The greatest value that needs no patch. -/
def Plan.maxUnpatchedValue (p : Plan) : Int :=
  2 ^ p.patchedBitsRequired - 1

/-- How many bits to keep, and how many exceptions that leaves. -/
def plan (top : LongHeap) (ints : List I32) : Result Plan := do
  let (top, topValue) ← collectTop top ints
  let max := (range' 1 top.size).foldl (fun m i => Max.max m (top.get i)) 0
  let maxBitsRequired ← PackedInts.bitsRequired max
  -- the patch is stored in a byte, so the width cannot decrease by more than eight
  let patchedBitsRequired := Max.max (← PackedInts.bitsRequired topValue) (maxBitsRequired - 8)
  let numExceptions := (range' 2 (top.size - 1)).countP
    fun i => decide (top.get i > 2 ^ patchedBitsRequired - 1)
  return ⟨top, maxBitsRequired, patchedBitsRequired, numExceptions⟩

/-! ## Patches -/

/-- A block in which exceptions are being replaced, and the patches so far, in the array of the
source. -/
structure Patching where
  ints : List I32
  exceptions : Bytes
  exceptionCount : Nat

/-- Set a byte. -/
def setByte (bytes : Bytes) (i : Nat) (b : UInt8) : Result Bytes :=
  if i < bytes.length then .ok (bytes.set i b) else .error .indexOutOfBounds

/-- The high bits of an exception. -/
def patchOf (patchedBitsRequired : Nat) (v : I32) : UInt8 :=
  UInt8.ofNat (asU 64 v.toInt >>> patchedBitsRequired)

/-- Cut an exception off. -/
def patchInt (p : Plan) (isException : I32 → Bool) (s : Patching) (i : Nat) : Result Patching := do
  let v ← getInt s.ints i
  if isException v then
    let exceptions ← setByte s.exceptions (s.exceptionCount * 2) (UInt8.ofNat i)
    let exceptions ← setByte exceptions (s.exceptionCount * 2 + 1) (patchOf p.patchedBitsRequired v)
    let ints ← setInt s.ints i (v &&& BitVec.ofInt 32 p.maxUnpatchedValue)
    return ⟨ints, exceptions, s.exceptionCount + 1⟩
  else return s

/-- Cut off all exceptions. They are found in vectors of four, with the bound as an `i32`, if it is
one. -/
def patchInts (p : Plan) (ints : List I32) : Result Patching :=
  let start : Patching := ⟨ints, replicate (maxExceptions * 2) 0, 0⟩
  if p.numExceptions > 0 then
    if p.maxUnpatchedValue ≤ 2 ^ 31 - 1 then
      (List.range blockSize).foldlM
        (patchInt p fun v => (BitVec.ofInt 32 p.maxUnpatchedValue).slt v) start
    else
      (List.range blockSize).foldlM
        (patchInt p fun v => decide (v.toInt > p.maxUnpatchedValue)) start
  else .ok start

/-- Patches of a block whose width is zero hold the high bits where they belong. -/
def shiftPatches (patchedBitsRequired numExceptions : Nat) (exceptions : Bytes) : Result Bytes :=
  (List.range numExceptions).foldlM (fun exceptions i =>
    match exceptions[2 * i + 1]? with
    | some b => setByte exceptions (2 * i + 1) (UInt8.ofNat (b.toNat <<< patchedBitsRequired))
    | none => .error .indexOutOfBounds) exceptions

/-! ## Encoding and decoding -/

/-- Write a block whose exceptions have been cut off. -/
def writePatched (p : Plan) (s : Patching) (tmp : List I32) (out : Bytes) : Result Bytes := do
  if (← allEqual s.ints) && p.maxBitsRequired ≤ 8 then
    let exceptions ← shiftPatches p.patchedBitsRequired p.numExceptions s.exceptions
    let out := writeByte out (UInt8.ofNat (p.numExceptions <<< 5))
    let out := writeVInt out (← getInt s.ints 0).toInt
    return writeBytes out (exceptions.take (p.numExceptions * 2))
  else
    let out := writeByte out (UInt8.ofNat (p.numExceptions <<< 5 ||| p.patchedBitsRequired))
    let out ← ForUtil.encode s.ints p.patchedBitsRequired tmp out
    return writeBytes out (s.exceptions.take (p.numExceptions * 2))

/-- Encode a block. The heap may hold anything from earlier blocks; it is returned for later ones,
with the block as the encoder leaves it. -/
def encode (top : Option LongHeap) (ints tmp : List I32) (out : Bytes) :
    Result (Bytes × Option LongHeap × List I32) := do
  let first ← getInt ints 0
  if decide (ints.length ≥ blockSize) && decide (0 ≤ first.toInt ∧ first.toInt ≤ 255) &&
      (← allEqual ints) then
    return (writeVInt (writeByte out 0) first.toInt, top, ints)
  else
    let p ← plan (top.getD (LongHeap.new (maxExceptions + 1))) ints
    let s ← patchInts p ints
    return (← writePatched p s tmp out, some p.top, s.ints)

/-- Apply a patch that is read. -/
def applyPatch (bitsPerValue : Nat) : List I32 × IndexInput → Result (List I32 × IndexInput)
  | (ints, input) => do
    let (index, input) ← input.readByte
    let (patch, input) ← input.readByte
    let value ← getInt ints index.toNat
    let ints ← setInt ints index.toNat (value ||| BitVec.ofNat 32 patch.toNat <<< bitsPerValue)
    return (ints, input)

/-- Read a block. -/
def decode (input : IndexInput) (tmp ints : List I32) : Result (List I32 × IndexInput) := do
  let (token, input) ← input.readByte
  let bitsPerValue := (token &&& 0x1f).toNat
  let decoded ←
    if bitsPerValue = 0 then do
      let (value, input) ← input.readVInt
      if ints.length < blockSize then .error .indexOutOfBounds
      else pure (replicate blockSize (BitVec.ofInt 32 value) ++ ints.drop blockSize, input)
    else ForUtil.decode bitsPerValue input tmp ints
  (List.range (token >>> 5).toNat).foldlM (fun state _ => applyPatch bitsPerValue state) decoded

/-- Pass over a block. -/
def skip (input : IndexInput) : Result IndexInput := do
  let (token, input) ← input.readByte
  let bitsPerValue := (token &&& 0x1f).toNat
  let numExceptions := (token >>> 5).toNat
  if bitsPerValue = 0 then
    let (_, input) ← input.readVLong
    input.skipBytes ((numExceptions <<< 1 : Nat) : Int)
  else input.skipBytes ((ForUtil.numBytes bitsPerValue + numExceptions <<< 1 : Nat) : Int)

end PForUtil

end RLucene.Codecs.Lucene101
