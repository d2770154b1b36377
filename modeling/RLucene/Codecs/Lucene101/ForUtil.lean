import RLucene.Internal.Vectorization.PostingDecodingUtil

/-!
# Frame of reference

Blocks of 128 integers, each of `bits_per_value` bits, are packed into `4 * bits_per_value`
integers. First lanes are collapsed: up to eight bits four integers become one, up to sixteen two.
Then the lanes, of `primitive_size` bits, are filled with as many values as they hold, from the top;
the bits that are left at the bottom hold the remaining values, cut into pieces. Some widths have
code of their own. The decoders are unrolled, one for each width; what they do for a group of
integers is given as a table, line by line as in the source.
-/

namespace RLucene.Codecs.Lucene101

open List Lib Store Internal.Vectorization

/-- The bytes of integers, in little-endian order. -/
def writeInts (out : Bytes) (ints : List I32) : Bytes :=
  Store.writeInts out (ints.map BitVec.toInt)

namespace ForUtil

/-- The integers of a block. -/
def blockSize : Nat := 128

/-! ## Masks -/

/-- A mask for both lanes of sixteen bits. -/
def expandMask16 (mask16 : I32) : I32 :=
  mask16 ||| mask16 <<< 16

/-- A mask for all four lanes of eight bits. -/
def expandMask8 (mask8 : I32) : I32 :=
  expandMask16 (mask8 ||| mask8 <<< 8)

/-- The low bits of an integer. -/
def mask32 (bitsPerValue : Nat) : I32 :=
  (1 <<< bitsPerValue) - 1

/-- The low bits of each lane of sixteen. -/
def mask16 (bitsPerValue : Nat) : I32 :=
  expandMask16 ((1 <<< bitsPerValue) - 1)

/-- The low bits of each lane of eight. -/
def mask8 (bitsPerValue : Nat) : I32 :=
  expandMask8 ((1 <<< bitsPerValue) - 1)

/-- The masks of lanes of eight bits. -/
def masks8 : List I32 := (List.range 8).map mask8

/-- The masks of lanes of sixteen bits. -/
def masks16 : List I32 := (List.range 16).map mask16

/-- The masks of whole integers. -/
def masks32 : List I32 := (List.range 32).map mask32

/-- The masks for lanes of the given size. -/
def masksFor (primitiveSize : Nat) : List I32 :=
  if primitiveSize = 8 then masks8 else if primitiveSize = 16 then masks16 else masks32

/-! ## Lanes -/

/-- Four integers of eight bits become one. -/
def collapse8 (arr : List I32) : Result (List I32) :=
  (List.range 32).foldlM (fun arr i => do
    let a ← getInt arr i
    let b ← getInt arr (32 + i)
    let c ← getInt arr (64 + i)
    let d ← getInt arr (96 + i)
    setInt arr i (a <<< 24 ||| b <<< 16 ||| c <<< 8 ||| d)) arr

/-- One integer becomes four of eight bits. -/
def expand8 (arr : List I32) : Result (List I32) :=
  (List.range 32).foldlM (fun arr i => do
    let l ← getInt arr i
    let arr ← setInt arr i (l >>> 24 &&& 0xFF)
    let arr ← setInt arr (32 + i) (l >>> 16 &&& 0xFF)
    let arr ← setInt arr (64 + i) (l >>> 8 &&& 0xFF)
    setInt arr (96 + i) (l &&& 0xFF)) arr

/-- Two integers of sixteen bits become one. -/
def collapse16 (arr : List I32) : Result (List I32) :=
  (List.range 64).foldlM (fun arr i => do
    let a ← getInt arr i
    let b ← getInt arr (64 + i)
    setInt arr i (a <<< 16 ||| b)) arr

/-- One integer becomes two of sixteen bits. -/
def expand16 (arr : List I32) : Result (List I32) :=
  (List.range 64).foldlM (fun arr i => do
    let l ← getInt arr i
    let arr ← setInt arr i (l >>> 16 &&& 0xFFFF)
    setInt arr (64 + i) (l &&& 0xFFFF)) arr

/-! ## Vectors of four -/

/-- All lanes of a vector shifted by one number. -/
def shl (v : List I32) (s : Nat) : List I32 :=
  v.map fun (x : I32) => x <<< s

/-- Two vectors, or. -/
def orV (v w : List I32) : List I32 :=
  zipWith (· ||| ·) v w

/-- Two vectors, and. -/
def andV (v w : List I32) : List I32 :=
  zipWith (· &&& ·) v w

/-- Each lane shifted by its own number. -/
def shlV (v : List I32) (s : List Nat) : List I32 :=
  zipWith (fun (x : I32) s => x <<< s) v s

/-- A vector, each lane shifted right by its own amount. -/
def shrV (v : List I32) (s : List Nat) : List I32 :=
  zipWith (fun (x : I32) s => x >>> s) v s

/-! ## Encoding -/

section

variable (ints : List I32)

/-- Vector `i` of the integers. -/
def lanes (i : Nat) : Result (List I32) :=
  sliceInts ints (4 * i) 4

/-- A vector of words of one bit. -/
def encode1 : Result (List I32) := do
  return orV (orV (orV (orV (orV (orV (orV (shl (← lanes ints 0) 7) (shl (← lanes ints 1) 6))
    (shl (← lanes ints 2) 5)) (shl (← lanes ints 3) 4)) (shl (← lanes ints 4) 3))
    (shl (← lanes ints 5) 2)) (shl (← lanes ints 6) 1)) (← lanes ints 7)

/-- A vector of words of two bits. -/
def encode2 (i : Nat) : Result (List I32) := do
  return orV (orV (orV (shl (← lanes ints i) 6) (shl (← lanes ints (2 + i)) 4))
    (shl (← lanes ints (4 + i)) 2)) (← lanes ints (6 + i))

/-- A vector of words of four bits. -/
def encode4 (i : Nat) : Result (List I32) := do
  return orV (shl (← lanes ints i) 4) (← lanes ints (4 + i))

/-- Combine the first `n` integers of `tmp` with others, as far as there are any. -/
def zipInto (f : I32 → I32 → I32) : (n : Nat) → (tmp rest : List I32) → List I32
  | n + 1, t :: tmp, l :: rest => f t l :: zipInto f n tmp rest
  | _, tmp, _ => tmp

/-- The integers from `idx` on. -/
def intsFrom (idx : Nat) : Result (List I32) :=
  sliceInts ints idx (ints.length - idx)

/-- Fill the lanes from the top while there is room. Returns where the next integers begin and the
shift they would have. -/
def fillLanes (bitsPerValue numIntsPerShift : Nat) :
    (fuel : Nat) → (idx : Nat) → (shift : Int) → (tmp : List I32) → Result (Nat × Int × List I32)
  | 0, _, _, _ => .error (.unreachable "the lanes do not fill")
  | fuel + 1, idx, shift, tmp =>
    if shift ≥ 0 then do
      let rest ← intsFrom ints idx
      let tmp := zipInto (fun t l => t ||| l <<< shift.toNat) numIntsPerShift tmp rest
      fillLanes bitsPerValue numIntsPerShift fuel (idx + numIntsPerShift) (shift - bitsPerValue) tmp
    else .ok (idx, shift, tmp)

/-- Or the tails of groups of `width` integers into groups of `outs` packed ones. -/
def orTails (width outs idx groups : Nat) (tail : List I32 → List I32) (tmp : List I32) :
    Result (List I32) :=
  (List.range groups).foldlM (fun tmp k => do
    let group ← sliceInts ints (idx + width * k) width
    let packed ← sliceInts tmp (outs * k) outs
    copyInts tmp (outs * k) (orV packed (tail group))) tmp

/-- Seven 18-bit inputs contribute nine 14-bit tails. -/
def tail18 : List I32 → List I32
  | [a, b, c, d, e, f, g] =>
    let tail (left right : List I32) (leftShifts rightShifts : List Nat) (rightMasks : List I32) :=
      orV (andV (shlV left leftShifts) [0x3fff, 0x3fff, 0x3fff, 0x3fff])
        (andV (shrV right rightShifts) rightMasks)
    tail [0, a, b, c] [a, b, c, d] [0, 10, 6, 2] [4, 8, 12, 16] [0x3fff, 0x03ff, 0x003f, 0x0003] ++
      tail [0, d, e, f] [d, e, f, g] [0, 12, 8, 4] [2, 6, 10, 14]
        [0x3fff, 0x0fff, 0x00ff, 0x000f] ++
      [g &&& mask32 14]
  | _ => []

/-- Each 16-bit lane holds seven 9-bit inputs for nine 7-bit tails. -/
def tail9 : List I32 → List I32
  | [a, b, c, d, e, f, g] =>
    let tail (left right leftMasks : List I32) (leftShifts rightShifts : List Nat)
        (rightMasks : List I32) :=
      orV (shlV (andV left leftMasks) leftShifts) (andV (shrV right rightShifts) rightMasks)
    tail [0, a, b, c] [a, b, c, d] [0, 0x00030003, 0x000f000f, 0x003f003f] [0, 5, 3, 1]
        [2, 4, 6, 8] [0x007f007f, 0x001f001f, 0x00070007, 0x00010001] ++
      tail [0, d, e, f] [d, e, f, g] [0, 0x00010001, 0x00070007, 0x001f001f] [0, 6, 4, 2]
        [1, 3, 5, 7] [0x007f007f, 0x003f003f, 0x000f000f, 0x00030003] ++
      [g &&& mask16 7]
  | _ => []

/-- Three 10-bit inputs fill five 6-bit tails in each 16-bit lane. -/
def tail10 : List I32 → List I32
  | [a, b, c] =>
    orV (shlV (andV [0, a, 0, b] [0, 0x000f000f, 0, 0x00030003]) [0, 2, 0, 4])
        (andV (shrV [a, b, b, c] [4, 8, 2, 6]) [0x003f003f, 0x00030003, 0x003f003f, 0x000f000f]) ++
      [c &&& mask16 6]
  | _ => []

/-- The remaining integers, piece by piece. -/
def splitBits (bitsPerValue numInts remainingBitsPerInt : Nat) (masks : List I32) :
    (fuel : Nat) → (idx tmpIdx remainingBitsPerValue : Nat) → (tmp : List I32) → Result (List I32)
  | 0, _, _, _, _ => .error (.unreachable "the integers do not end")
  | fuel + 1, idx, tmpIdx, remainingBitsPerValue, tmp =>
    if idx < numInts then do
      if remainingBitsPerValue ≥ remainingBitsPerInt then
        let remainingBitsPerValue := remainingBitsPerValue - remainingBitsPerInt
        let mask ← getInt masks remainingBitsPerInt
        let old ← getInt tmp tmpIdx
        let value ← getInt ints idx
        let tmp ← setInt tmp tmpIdx (old ||| value >>> remainingBitsPerValue &&& mask)
        if remainingBitsPerValue = 0 then
          splitBits bitsPerValue numInts remainingBitsPerInt masks fuel (idx + 1) (tmpIdx + 1)
            bitsPerValue tmp
        else
          splitBits bitsPerValue numInts remainingBitsPerInt masks fuel idx (tmpIdx + 1)
            remainingBitsPerValue tmp
      else
        let mask1 ← getInt masks remainingBitsPerValue
        let mask2 ← getInt masks (remainingBitsPerInt - remainingBitsPerValue)
        let old ← getInt tmp tmpIdx
        let value ← getInt ints idx
        let tmp ← setInt tmp tmpIdx
          (old ||| (value &&& mask1) <<< (remainingBitsPerInt - remainingBitsPerValue))
        let remainingBitsPerValue := remainingBitsPerValue + bitsPerValue - remainingBitsPerInt
        let old ← getInt tmp tmpIdx
        let value ← getInt ints (idx + 1)
        let tmp ← setInt tmp tmpIdx (old ||| value >>> remainingBitsPerValue &&& mask2)
        splitBits bitsPerValue numInts remainingBitsPerInt masks fuel (idx + 1) (tmpIdx + 1)
          remainingBitsPerValue tmp
    else .ok tmp

/-- The remaining integers, piece by piece, for every width. -/
def encodeBits (bitsPerValue primitiveSize idx remainingBitsPerInt : Nat) (tmp : List I32) :
    Result (List I32) :=
  splitBits ints bitsPerValue (blockSize * primitiveSize / 32) remainingBitsPerInt
    (masksFor primitiveSize) (bitsPerValue * 4 + 1) idx 0 bitsPerValue tmp

/-- The remaining integers, with code of its own for three widths. -/
def encodeTail (bitsPerValue primitiveSize idx remainingBitsPerInt : Nat) (tmp : List I32) :
    Result (List I32) :=
  let numInts := blockSize * primitiveSize / 32
  let numIntsPerShift := bitsPerValue * 4
  let room := decide (ints.length ≥ numInts) && decide (tmp.length ≥ numIntsPerShift)
  if bitsPerValue = 18 ∧ primitiveSize = 32 ∧ room then
    orTails ints 7 9 idx (min ((numInts - idx) / 7) (numIntsPerShift / 9)) tail18 tmp
  else if bitsPerValue = 9 ∧ primitiveSize = 16 ∧ room then
    orTails ints 7 9 idx (min ((numInts - idx) / 7) (numIntsPerShift / 9)) tail9 tmp
  else if bitsPerValue = 10 ∧ primitiveSize = 16 ∧ room then
    orTails ints 3 5 idx (min ((numInts - idx) / 3) (numIntsPerShift / 5)) tail10 tmp
  else encodeBits ints bitsPerValue primitiveSize idx remainingBitsPerInt tmp

/-- Fill the lanes from the top, and then the bits that are left. -/
def encodeLanes (tail : (idx remainingBitsPerInt : Nat) → List I32 → Result (List I32))
    (bitsPerValue primitiveSize : Nat) (tmp : List I32) : Result (List I32) := do
  let numIntsPerShift := bitsPerValue * 4
  let shift : Int := primitiveSize - bitsPerValue
  let first ← intsFrom ints 0
  let tmp := zipInto (fun _ l => l <<< shift.toNat) numIntsPerShift tmp first
  let (idx, shift, tmp) ← fillLanes ints bitsPerValue numIntsPerShift (primitiveSize + 1)
    numIntsPerShift (shift - bitsPerValue) tmp
  let remainingBitsPerInt := (shift + bitsPerValue).toNat
  let _ ← getInt (masksFor primitiveSize) remainingBitsPerInt
  let tmp ← tail idx remainingBitsPerInt tmp
  return tmp.take numIntsPerShift

/-- The integers that are written. -/
def encodeWithTmp (bitsPerValue primitiveSize : Nat) (tmp : List I32) : Result (List I32) :=
  let numIntsPerShift := bitsPerValue * 4
  if bitsPerValue ≤ 4 ∧ primitiveSize = 8 ∧ ints.length ≥ 32 ∧ tmp.length ≥ numIntsPerShift then
    match bitsPerValue with
    | 1 => encode1 ints
    | 2 => do return (← encode2 ints 0) ++ (← encode2 ints 1)
    | 4 => do
      return (← encode4 ints 0) ++ (← encode4 ints 1) ++ (← encode4 ints 2) ++ (← encode4 ints 3)
    | bits => encodeLanes ints (encodeTail ints bits primitiveSize) bits primitiveSize tmp
  else
    encodeLanes ints (encodeTail ints bitsPerValue primitiveSize) bitsPerValue primitiveSize tmp

end

/-- The size of the lanes for a width. -/
def primitiveFor (bitsPerValue : Nat) : Nat :=
  if bitsPerValue ≤ 8 then 8 else if bitsPerValue ≤ 16 then 16 else 32

/-- The integers with their lanes collapsed. -/
def collapse (primitiveSize : Nat) (ints : List I32) : Result (List I32) :=
  if primitiveSize = 8 then collapse8 ints
  else if primitiveSize = 16 then collapse16 ints
  else .ok ints

/-- Write a block. -/
def encode (ints : List I32) (bitsPerValue : Nat) (tmp : List I32) (out : Bytes) :
    Result Bytes := do
  let ints ← collapse (primitiveFor bitsPerValue) ints
  let words ← encodeWithTmp ints bitsPerValue (primitiveFor bitsPerValue) tmp
  return writeInts out words

/-- The bytes of an encoded block. -/
def numBytes (bitsPerValue : Nat) : Nat :=
  bitsPerValue <<< 4

/-! ## Decoding -/

/-- A part of a decoded integer: bits of the packed integer at an index of the group. -/
inductive Piece where
  /-- All bits: `tmp[t + index] << left`. -/
  | whole (index left : Nat)
  /-- The low bits: `(tmp[t + index] & MASK[bits]) << left`. -/
  | low (index bits left : Nat)
  /-- Bits further up: `(tmp[t + index] as u32 >> right) as i32 & MASK[bits]`. -/
  | high (index right bits : Nat)
  /-- The same by a wide shift: `(tmp[t + index] as u64 >> right) as i32 & MASK[bits]`. -/
  | highLong (index right bits : Nat)

section

variable (masks tmp : List I32)

/-- What a piece gives to a word, for the group at `t`. -/
def Piece.eval (t : Nat) : Piece → Result I32
  | whole index left => do return (← getInt tmp (t + index)) <<< left
  | low index bits left => do
    return ((← getInt tmp (t + index)) &&& (← getInt masks bits)) <<< left
  | high index right bits => do
    return (← getInt tmp (t + index)) >>> right &&& (← getInt masks bits)
  | highLong index right bits => do
    return (((← getInt tmp (t + index)).signExtend 64) >>> right).truncate 32 &&&
      (← getInt masks bits)

/-- The pieces of one decoded integer. -/
def evalLine (t : Nat) (line : List Piece) : Result I32 :=
  line.foldlM (fun value piece => do return value ||| (← piece.eval masks tmp t)) 0

/-- The integers of one group, each given by its pieces. -/
def decodeGroup (t : Nat) : (intsIdx : Nat) → (lines : List (List Piece)) → List I32 →
    Result (List I32)
  | _, [], ints => .ok ints
  | intsIdx, line :: lines, ints => do
    let ints ← setInt ints intsIdx (← evalLine masks tmp t line)
    decodeGroup t (intsIdx + 1) lines ints

/-- The groups of `stride` packed integers, decoded from `intsIdx` on. -/
def decodeGroups (groups stride intsIdx : Nat) (lines : List (List Piece)) (ints : List I32) :
    Result (List I32) :=
  (List.range groups).foldlM
    (fun ints g => decodeGroup masks tmp (g * stride) (intsIdx + g * lines.length) lines ints) ints

end

open Piece

/-- The groups of the widths above 16 that are unrolled: how many, of how many packed integers. -/
def slowGroups : Nat → Option (Nat × Nat × List (List Piece))
  | 18 => some (8, 9, [
      [low 0 14 4, high 1 10 4],
      [low 1 10 8, high 2 6 8],
      [low 2 6 12, high 3 2 12],
      [low 3 2 16, low 4 14 2, high 5 12 2],
      [low 5 12 6, high 6 8 6],
      [low 6 8 10, high 7 4 10],
      [low 7 4 14, low 8 14 0]])
  | 20 => some (16, 5, [
      [low 0 12 8, high 1 4 8],
      [low 1 4 16, low 2 12 4, high 3 8 4],
      [low 3 8 12, low 4 12 0]])
  | 22 => some (8, 11, [
      [low 0 10 12, low 1 10 2, high 2 8 2],
      [low 2 8 14, low 3 10 4, high 4 6 4],
      [low 4 6 16, low 5 10 6, high 6 4 6],
      [low 6 4 18, low 7 10 8, high 8 2 8],
      [low 8 2 20, low 9 10 10, low 10 10 0]])
  | 24 => some (32, 3, [
      [low 0 8 16, low 1 8 8, low 2 8 0]])
  | 26 => some (8, 13, [
      [low 0 6 20, low 1 6 14, low 2 6 8, low 3 6 2, high 4 4 2],
      [low 4 4 22, low 5 6 16, low 6 6 10, low 7 6 4, high 8 2 4],
      [low 8 2 24, low 9 6 18, low 10 6 12, low 11 6 6, low 12 6 0]])
  | 27 => some (4, 27, [
      [low 0 5 22, low 1 5 17, low 2 5 12, low 3 5 7, low 4 5 2, high 5 3 2],
      [low 5 3 24, low 6 5 19, low 7 5 14, low 8 5 9, low 9 5 4, high 10 1 4],
      [low 10 1 26, low 11 5 21, low 12 5 16, low 13 5 11, low 14 5 6, low 15 5 1, high 16 4 1],
      [low 16 4 23, low 17 5 18, low 18 5 13, low 19 5 8, low 20 5 3, high 21 2 3],
      [low 21 2 25, low 22 5 20, low 23 5 15, low 24 5 10, low 25 5 5, low 26 5 0]])
  | 28 => some (16, 7, [
      [low 0 4 24, low 1 4 20, low 2 4 16, low 3 4 12, low 4 4 8, low 5 4 4, low 6 4 0]])
  | 30 => some (8, 15, [
      [low 0 2 28, low 1 2 26, low 2 2 24, low 3 2 22, low 4 2 20, low 5 2 18, low 6 2 16,
        low 7 2 14, low 8 2 12, low 9 2 10, low 10 2 8, low 11 2 6, low 12 2 4, low 13 2 2,
        low 14 2 0]])
  | 31 => some (4, 31, [
      [low 0 1 30, low 1 1 29, low 2 1 28, low 3 1 27, low 4 1 26, low 5 1 25, low 6 1 24,
        low 7 1 23, low 8 1 22, low 9 1 21, low 10 1 20, low 11 1 19, low 12 1 18, low 13 1 17,
        low 14 1 16, low 15 1 15, low 16 1 14, low 17 1 13, low 18 1 12, low 19 1 11, low 20 1 10,
        low 21 1 9, low 22 1 8, low 23 1 7, low 24 1 6, low 25 1 5, low 26 1 4, low 27 1 3,
        low 28 1 2, low 29 1 1, low 30 1 0]])
  | _ => none

/-- The whole packed integers of a value, while `b` bits of it are missing. -/
def joinBits (tmp : List I32) (remainingBitsPerInt : Nat) :
    (fuel : Nat) → (b tmpIdx : Nat) → (l : I32) → Result (Nat × Nat × I32)
  | 0, _, _, _ => .error (.unreachable "the bits do not end")
  | fuel + 1, b, tmpIdx, l =>
    if b ≥ remainingBitsPerInt then do
      let b := b - remainingBitsPerInt
      let value ← getInt tmp tmpIdx
      let mask ← getInt masks32 remainingBitsPerInt
      joinBits tmp remainingBitsPerInt fuel b (tmpIdx + 1) (l ||| (value &&& mask) <<< b)
    else .ok (b, tmpIdx, l)

/-- Join the remaining integers from their pieces. -/
def joinInts (bitsPerValue : Nat) (tmp : List I32) :
    (count outIdx tmpIdx remainingBits : Nat) → (ints : List I32) → Result (List I32)
  | 0, _, _, _, ints => .ok ints
  | count + 1, outIdx, tmpIdx, remainingBits, ints => do
    let remainingBitsPerInt := 32 - bitsPerValue
    let b := bitsPerValue - remainingBits
    let value ← getInt tmp tmpIdx
    let mask ← getInt masks32 remainingBits
    let (b, tmpIdx, l) ← joinBits tmp remainingBitsPerInt (bitsPerValue + 1) b (tmpIdx + 1)
      ((value &&& mask) <<< b)
    if b > 0 then
      let value ← getInt tmp tmpIdx
      let mask ← getInt masks32 b
      let l := l ||| value.sshiftRight (remainingBitsPerInt - b) &&& mask
      let ints ← setInt ints outIdx l
      joinInts bitsPerValue tmp count (outIdx + 1) tmpIdx (remainingBitsPerInt - b) ints
    else
      let ints ← setInt ints outIdx l
      joinInts bitsPerValue tmp count (outIdx + 1) tmpIdx remainingBitsPerInt ints

variable {I : Type} [IntInput I]

/-- Read a block of any width. -/
def decodeSlow (bitsPerValue : Nat) (input : I) (tmp ints : List I32) : Result (List I32 × I) := do
  let numInts := bitsPerValue <<< 2
  let mask ← getInt masks32 bitsPerValue
  let (ints, tmp, input) ←
    splitIntsDiff input numInts ints (32 - bitsPerValue) 32 mask tmp 0 (BitVec.allOnes 32)
  match if ints.length ≥ 128 ∧ tmp.length ≥ numInts then slowGroups bitsPerValue else none with
  | some (groups, stride, lines) =>
    return (← decodeGroups masks32 tmp groups stride numInts lines ints, input)
  | none =>
    let remainingBitsPerInt := 32 - bitsPerValue
    let _ ← getInt masks32 remainingBitsPerInt
    return (← joinInts bitsPerValue tmp (blockSize - numInts) numInts 0 remainingBitsPerInt ints,
      input)

/-- A split with a second array, and the groups of what is left. -/
def decodeDiff (masks : List I32) (count bShift dec bBits cBits groups stride intsIdx : Nat)
    (lines : List (List Piece)) (input : I) (tmp ints : List I32) : Result (List I32 × I) := do
  let bMask ← getInt masks bBits
  let cMask ← getInt masks cBits
  let (ints, tmp, input) ← splitIntsDiff input count ints bShift dec bMask tmp 0 cMask
  return (← decodeGroups masks tmp groups stride intsIdx lines ints, input)

/-- Blocks of one bit. -/
def decode1 (input : I) (ints : List I32) : Result (List I32 × I) :=
  splitIntsSame input 4 ints 7 1 (mask8 1) 28 (mask8 1)

/-- Blocks of two bits. -/
def decode2 (input : I) (ints : List I32) : Result (List I32 × I) :=
  splitIntsSame input 8 ints 6 2 (mask8 2) 24 (mask8 2)

/-- Blocks of three bits. -/
def decode3 : I → (tmp ints : List I32) → Result (List I32 × I) :=
  decodeDiff masks8 12 5 3 3 2 4 3 24 [
    [whole 0 1, high 1 1 1],
    [low 1 1 2, whole 2 0]]

/-- Blocks of four bits. -/
def decode4 (input : I) (ints : List I32) : Result (List I32 × I) :=
  splitIntsSame input 16 ints 4 4 (mask8 4) 16 (mask8 4)

/-- Blocks of five bits. -/
def decode5 : I → (tmp ints : List I32) → Result (List I32 × I) :=
  decodeDiff masks8 20 3 5 5 3 4 5 20 [
    [whole 0 2, high 1 1 2],
    [low 1 1 4, whole 2 1, high 3 2 1],
    [low 3 2 3, whole 4 0]]

/-- Blocks of six bits. -/
def decode6 : I → (tmp ints : List I32) → Result (List I32 × I) :=
  decodeDiff masks8 24 2 6 6 2 8 3 24 [[whole 0 4, whole 1 2, whole 2 0]]

/-- Blocks of seven bits. -/
def decode7 : I → (tmp ints : List I32) → Result (List I32 × I) :=
  decodeDiff masks8 28 1 7 7 1 4 7 28 [
    [whole 0 6, whole 1 5, whole 2 4, whole 3 3, whole 4 2, whole 5 1, whole 6 0]]

/-- Blocks of eight bits. -/
def decode8 (input : I) (ints : List I32) : Result (List I32 × I) :=
  IntInput.readInts input ints 0 32

/-- Blocks of nine bits. -/
def decode9 : I → (tmp ints : List I32) → Result (List I32 × I) :=
  decodeDiff masks16 36 7 9 9 7 4 9 36 [
    [whole 0 2, high 1 5 2],
    [low 1 5 4, high 2 3 4],
    [low 2 3 6, high 3 1 6],
    [low 3 1 8, whole 4 1, high 5 6 1],
    [low 5 6 3, high 6 4 3],
    [low 6 4 5, high 7 2 5],
    [low 7 2 7, whole 8 0]]

/-- Blocks of ten bits. -/
def decode10 : I → (tmp ints : List I32) → Result (List I32 × I) :=
  decodeDiff masks16 40 6 10 10 6 8 5 40 [
    [whole 0 4, high 1 2 4],
    [low 1 2 8, whole 2 2, high 3 4 2],
    [low 3 4 6, whole 4 0]]

/-- Blocks of eleven bits. -/
def decode11 : I → (tmp ints : List I32) → Result (List I32 × I) :=
  decodeDiff masks16 44 5 11 11 5 4 11 44 [
    [whole 0 6, whole 1 1, high 2 4 1],
    [low 2 4 7, whole 3 2, high 4 3 2],
    [low 4 3 8, whole 5 3, high 6 2 3],
    [low 6 2 9, whole 7 4, high 8 1 4],
    [low 8 1 10, whole 9 5, whole 10 0]]

/-- Blocks of twelve bits. -/
def decode12 : I → (tmp ints : List I32) → Result (List I32 × I) :=
  decodeDiff masks16 48 4 12 12 4 16 3 48 [[whole 0 8, whole 1 4, whole 2 0]]

/-- Blocks of thirteen bits. -/
def decode13 : I → (tmp ints : List I32) → Result (List I32 × I) :=
  decodeDiff masks16 52 3 13 13 3 4 13 52 [
    [whole 0 10, whole 1 7, whole 2 4, whole 3 1, high 4 2 1],
    [low 4 2 11, whole 5 8, whole 6 5, whole 7 2, high 8 1 2],
    [low 8 1 12, whole 9 9, whole 10 6, whole 11 3, whole 12 0]]

/-- Blocks of fourteen bits. -/
def decode14 : I → (tmp ints : List I32) → Result (List I32 × I) :=
  decodeDiff masks16 56 2 14 14 2 8 7 56 [
    [whole 0 12, whole 1 10, whole 2 8, whole 3 6, whole 4 4, whole 5 2, whole 6 0]]

/-- Blocks of fifteen bits. -/
def decode15 : I → (tmp ints : List I32) → Result (List I32 × I) :=
  decodeDiff masks16 60 1 15 15 1 4 15 60 [
    [whole 0 14, whole 1 13, whole 2 12, whole 3 11, whole 4 10, whole 5 9, whole 6 8, whole 7 7,
      whole 8 6, whole 9 5, whole 10 4, whole 11 3, whole 12 2, whole 13 1, whole 14 0]]

/-- Blocks of sixteen bits. -/
def decode16 (input : I) (ints : List I32) : Result (List I32 × I) :=
  IntInput.readInts input ints 0 64

/-- The collapsed integers. -/
def decodeCollapsed (bitsPerValue : Nat) (input : I) (tmp ints : List I32) :
    Result (List I32 × I) :=
  match bitsPerValue with
  | 1 => decode1 input ints
  | 2 => decode2 input ints
  | 3 => decode3 input tmp ints
  | 4 => decode4 input ints
  | 5 => decode5 input tmp ints
  | 6 => decode6 input tmp ints
  | 7 => decode7 input tmp ints
  | 8 => decode8 input ints
  | 9 => decode9 input tmp ints
  | 10 => decode10 input tmp ints
  | 11 => decode11 input tmp ints
  | 12 => decode12 input tmp ints
  | 13 => decode13 input tmp ints
  | 14 => decode14 input tmp ints
  | 15 => decode15 input tmp ints
  | 16 => decode16 input ints
  | _ => decodeSlow bitsPerValue input tmp ints

/-- The integers of the lanes. -/
def expand (primitiveSize : Nat) (ints : List I32) : Result (List I32) :=
  if primitiveSize = 8 then expand8 ints
  else if primitiveSize = 16 then expand16 ints
  else .ok ints

/-- Read a block. -/
def decode (bitsPerValue : Nat) (input : I) (tmp ints : List I32) : Result (List I32 × I) := do
  let (ints, input) ← decodeCollapsed bitsPerValue input tmp ints
  return (← expand (primitiveFor bitsPerValue) ints, input)

end ForUtil

end RLucene.Codecs.Lucene101
