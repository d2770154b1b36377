import RLucene.Codecs.Lucene101.PForUtil

/-!
# Frame of reference for deltas

Blocks of 128 deltas are packed as other blocks are, but into wider lanes: up to three bits into
lanes of eight, up to ten into lanes of sixteen. The decoder sums up the deltas in the packed lanes,
four or two at once, before it expands them. The sums are of machine integers and wrap.
-/

namespace RLucene.Codecs.Lucene101

open List Lib Store Util.Packed Internal.Vectorization

namespace ForDeltaUtil

open ForUtil ForUtil.Piece

/-! ## Sums -/

/-- Add to the integer at an index. -/
def addInt (arr : List I32) (i : Nat) (l : I32) : Result (List I32) := do
  setInt arr i ((← getInt arr i) + l)

/-- The sum of two vectors. -/
def addV (v w : List I32) : List I32 :=
  zipWith (· + ·) v w

/-- The sums of the first lanes of a vector of four, in two steps, on top of the carry. -/
def sumVector (value : List I32) (carry : I32) : Result (List I32 × I32) := do
  let value := addV value [0, 0, ← getInt value 0, ← getInt value 1]
  let value := addV value [0, ← getInt value 0, ← getInt value 1, ← getInt value 2]
  let value := addV value (replicate 4 carry)
  return (value, ← getInt value 3)

/-- The running sums of the first `count` integers. -/
def innerPrefixSum (count : Nat) (arr : List I32) : Result (List I32) :=
  if arr.length ≥ count then do
    let (arr, _) ← (List.range (count / 4)).foldlM (fun (arr, carry) k => do
      let (value, carry) ← sumVector (← sliceInts arr (4 * k) 4) carry
      return (← copyInts arr (4 * k) value, carry)) (arr, (0 : I32))
    return arr
  else
    (range' 1 (count - 1)).foldlM (fun arr i => do addInt arr i (← getInt arr (i - 1))) arr

/-- The running sums of four lanes at once. -/
def innerPrefixSum8 : List I32 → Result (List I32) :=
  innerPrefixSum 32

/-- The running sums of two lanes at once. -/
def innerPrefixSum16 : List I32 → Result (List I32) :=
  innerPrefixSum 64

/-- The running sums of a block of ones. -/
def prefixSumOfOnes (arr : List I32) (base : I32) : Result (List I32) :=
  if arr.length ≥ blockSize then
    .ok ((List.range blockSize).map (fun i => base + BitVec.ofNat 32 (i + 1)) ++ arr.drop blockSize)
  else .error .indexOutOfBounds

/-- The running sums of lanes of eight bits. -/
def prefixSum8 (arr : List I32) (base : I32) : Result (List I32) := do
  if arr.length ≥ blockSize then
    let arr ← innerPrefixSum8 arr
    let last ← getInt arr 31
    let l0 := base
    let l1 := l0 + (last >>> 24 &&& 255)
    let l2 := l1 + (last >>> 16 &&& 255)
    let l3 := l2 + (last >>> 8 &&& 255)
    (List.range 32).foldlM (fun arr i => do
      let value ← getInt arr i
      let arr ← setInt arr i ((value >>> 24 &&& 255) + l0)
      let arr ← setInt arr (32 + i) ((value >>> 16 &&& 255) + l1)
      let arr ← setInt arr (64 + i) ((value >>> 8 &&& 255) + l2)
      setInt arr (96 + i) ((value &&& 255) + l3)) arr
  else
    let arr ← innerPrefixSum8 arr
    let arr ← expand8 arr
    let l0 := base
    let l1 := l0 + (← getInt arr 31)
    let l2 := l1 + (← getInt arr 63)
    let l3 := l2 + (← getInt arr 95)
    (List.range 32).foldlM (fun arr i => do
      let arr ← addInt arr i l0
      let arr ← addInt arr (32 + i) l1
      let arr ← addInt arr (64 + i) l2
      addInt arr (96 + i) l3) arr

/-- The running sums of lanes of sixteen bits. -/
def prefixSum16 (arr : List I32) (base : I32) : Result (List I32) := do
  if arr.length ≥ blockSize then
    let arr ← innerPrefixSum16 arr
    let last ← getInt arr 63
    let l0 := base
    let l1 := l0 + (last >>> 16 &&& 65535)
    (List.range 64).foldlM (fun arr i => do
      let value ← getInt arr i
      let arr ← setInt arr i ((value >>> 16 &&& 65535) + l0)
      setInt arr (64 + i) ((value &&& 65535) + l1)) arr
  else
    let arr ← innerPrefixSum16 arr
    let arr ← expand16 arr
    let l0 := base
    let l1 := l0 + (← getInt arr 63)
    (List.range 64).foldlM (fun arr i => do
      let arr ← addInt arr i l0
      addInt arr (64 + i) l1) arr

/-- Add the carry to an integer, and carry the sum. -/
def carryInt (state : List I32 × I32) (i : Nat) : Result (List I32 × I32) := do
  let carry := (← getInt state.1 i) + state.2
  return (← setInt state.1 i carry, carry)

/-- The running sums of whole integers. -/
def prefixSum32 (arr : List I32) (base : I32) : Result (List I32) := do
  if arr.length ≥ 128 then
    let (arr, _) ← (List.range 32).foldlM (fun state k => do
      let state ← carryInt state (4 * k)
      let state ← carryInt state (4 * k + 1)
      let state ← carryInt state (4 * k + 2)
      carryInt state (4 * k + 3)) (arr, base)
    return arr
  else
    let arr ← addInt arr 0 base
    (range' 1 (blockSize - 1)).foldlM (fun arr i => do addInt arr i (← getInt arr (i - 1))) arr

/-! ## Encoding -/

/-- The size of the lanes for a width. -/
def primitiveFor (bitsPerValue : Nat) : Nat :=
  if bitsPerValue ≤ 3 then 8 else if bitsPerValue ≤ 10 then 16 else 32

/-- The bits that the deltas need, all deltas together. -/
def bitsFor (ints : List I32) : Result Nat :=
  PackedInts.bitsRequired (ints.foldl (· ||| ·) (0 : I32)).toInt

/-- The width, and the packed deltas. -/
def encodePacked (ints tmp : List I32) (out : Bytes) : Result Bytes := do
  let bitsPerValue ← bitsFor ints
  let out := writeByte out (UInt8.ofNat bitsPerValue)
  let ints ← collapse (primitiveFor bitsPerValue) ints
  let words ← encodeWithTmp ints bitsPerValue (primitiveFor bitsPerValue) tmp
  return writeInts out words

/-- Deltas that are all one take a byte. -/
def encodeDeltas (ints tmp : List I32) (out : Bytes) : Result Bytes := do
  if (← getInt ints 0) = 1 then
    if ← PForUtil.allEqual ints then return writeByte out 0
    else encodePacked ints tmp out
  else encodePacked ints tmp out

/-! ## Decoding -/

section

variable {I : Type} [IntInput I]

/-- Deltas of four bits, to lanes of sixteen. -/
def decode4To16 (input : I) (ints : List I32) : Result (List I32 × I) :=
  splitIntsSame input 16 ints 12 4 (mask16 4) 48 (mask16 4)

/-- Deltas of five bits, to lanes of sixteen. -/
def decode5To16 : I → (tmp ints : List I32) → Result (List I32 × I) :=
  decodeDiff masks16 20 11 5 5 1 4 5 60 [[whole 0 4, whole 1 3, whole 2 2, whole 3 1, whole 4 0]]

/-- Deltas of six bits, to lanes of sixteen. -/
def decode6To16 : I → (tmp ints : List I32) → Result (List I32 × I) :=
  decodeDiff masks16 24 10 6 6 4 8 3 48 [
    [whole 0 2, highLong 1 2 2],
    [low 1 2 4, whole 2 0]]

/-- Deltas of seven bits, to lanes of sixteen. -/
def decode7To16 : I → (tmp ints : List I32) → Result (List I32 × I) :=
  decodeDiff masks16 28 9 7 7 2 4 7 56 [
    [whole 0 5, whole 1 3, whole 2 1, highLong 3 1 1],
    [low 3 1 6, whole 4 4, whole 5 2, whole 6 0]]

/-- Deltas of eight bits, to lanes of sixteen. -/
def decode8To16 (input : I) (ints : List I32) : Result (List I32 × I) :=
  splitIntsSame input 32 ints 8 8 (mask16 8) 32 (mask16 8)

/-- Deltas of eleven bits, to whole integers. -/
def decode11To32 : I → (tmp ints : List I32) → Result (List I32 × I) :=
  decodeDiff masks32 44 21 11 11 10 4 11 88 [
    [whole 0 1, high 1 9 1],
    [low 1 9 2, high 2 8 2],
    [low 2 8 3, high 3 7 3],
    [low 3 7 4, high 4 6 4],
    [low 4 6 5, high 5 5 5],
    [low 5 5 6, high 6 4 6],
    [low 6 4 7, high 7 3 7],
    [low 7 3 8, high 8 2 8],
    [low 8 2 9, high 9 1 9],
    [low 9 1 10, whole 10 0]]

/-- Deltas of twelve bits, to whole integers. -/
def decode12To32 : I → (tmp ints : List I32) → Result (List I32 × I) :=
  decodeDiff masks32 48 20 12 12 8 16 3 96 [
    [whole 0 4, highLong 1 4 4],
    [low 1 4 8, whole 2 0]]

/-- Deltas of thirteen bits, to whole integers. -/
def decode13To32 : I → (tmp ints : List I32) → Result (List I32 × I) :=
  decodeDiff masks32 52 19 13 13 6 4 13 104 [
    [whole 0 7, whole 1 1, highLong 2 5 1],
    [low 2 5 8, whole 3 2, highLong 4 4 2],
    [low 4 4 9, whole 5 3, highLong 6 3 3],
    [low 6 3 10, whole 7 4, highLong 8 2 4],
    [low 8 2 11, whole 9 5, highLong 10 1 5],
    [low 10 1 12, whole 11 6, whole 12 0]]

/-- Deltas of fourteen bits, to whole integers. -/
def decode14To32 : I → (tmp ints : List I32) → Result (List I32 × I) :=
  decodeDiff masks32 56 18 14 14 4 8 7 112 [
    [whole 0 10, whole 1 6, whole 2 2, highLong 3 2 2],
    [low 3 2 12, whole 4 8, whole 5 4, whole 6 0]]

/-- Deltas of fifteen bits, to whole integers. -/
def decode15To32 : I → (tmp ints : List I32) → Result (List I32 × I) :=
  decodeDiff masks32 60 17 15 15 2 4 15 120 [
    [whole 0 13, whole 1 11, whole 2 9, whole 3 7, whole 4 5, whole 5 3, whole 6 1, highLong 7 1 1],
    [low 7 1 14, whole 8 12, whole 9 10, whole 10 8, whole 11 6, whole 12 4,
      whole 13 2, whole 14 0]]

/-- Deltas of sixteen bits, to whole integers. -/
def decode16To32 (input : I) (ints : List I32) : Result (List I32 × I) :=
  splitIntsSame input 64 ints 16 16 (mask32 16) 64 (mask32 16)

/-- The packed deltas, in their lanes. -/
def decodeLanes (bitsPerValue : Nat) (input : I) (tmp ints : List I32) : Result (List I32 × I) :=
  match bitsPerValue with
  | 1 => decode1 input ints
  | 2 => decode2 input ints
  | 3 => decode3 input tmp ints
  | 4 => decode4To16 input ints
  | 5 => decode5To16 input tmp ints
  | 6 => decode6To16 input tmp ints
  | 7 => decode7To16 input tmp ints
  | 8 => decode8To16 input ints
  | 9 => decode9 input tmp ints
  | 10 => decode10 input tmp ints
  | 11 => decode11To32 input tmp ints
  | 12 => decode12To32 input tmp ints
  | 13 => decode13To32 input tmp ints
  | 14 => decode14To32 input tmp ints
  | 15 => decode15To32 input tmp ints
  | 16 => decode16To32 input ints
  | _ => decodeSlow bitsPerValue input tmp ints

/-- The sums of packed deltas. -/
def prefixSum (bitsPerValue : Nat) (arr : List I32) (base : I32) : Result (List I32) :=
  if bitsPerValue ≤ 3 then prefixSum8 arr base
  else if bitsPerValue ≤ 10 then prefixSum16 arr base
  else prefixSum32 arr base

/-- Deltas of a width, and their running sums. -/
def decodeAndPrefixSumWithBits (bitsPerValue : Nat) (input : I) (base : I32) (tmp ints : List I32) :
    Result (List I32 × I) := do
  let (ints, input) ← decodeLanes bitsPerValue input tmp ints
  return (← prefixSum bitsPerValue ints base, input)

end

/-- Read a block and sum it up. -/
def decodeAndPrefixSum (input : IndexInput) (base : I32) (tmp ints : List I32) :
    Result (List I32 × IndexInput) := do
  let (bitsPerValue, input) ← input.readByte
  if bitsPerValue = 0 then return (← prefixSumOfOnes ints base, input)
  else decodeAndPrefixSumWithBits bitsPerValue.toNat input base tmp ints

end ForDeltaUtil

end RLucene.Codecs.Lucene101
