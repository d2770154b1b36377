import RLucene.Lib.BitWord
import RLucene.Store.IndexInput

/-!
# Compression of lowercase text

Bytes in two ranges of 32 values are moved to six bits, and the last quarter of the bytes is spread
over the two free bits of the first three. The other bytes are exceptions, recorded behind the
packed bytes by their distance to the exception before and their value. The number of exceptions is
counted in one pass and they are written in another, each with its own way to find them.
-/

namespace RLucene.Util.LowercaseAsciiCompression

open List Lib Store

/-- Whether six bits are enough for a byte. -/
def isCompressible (b : Nat) : Bool :=
  ((b + 1) &&& 0xA0) == 0x20

/-- The same test in one byte lane, negated. -/
def isBad (b : UInt8) : Bool :=
  ((b + 1) &&& 0xA0) != 0x20

/-! ## Counting -/

/-- The exceptions so far. -/
structure Count where
  previousExceptionIndex : Nat
  numExceptions : Nat
  deriving DecidableEq, Repr

/-- Count the artificial exceptions before `i`. -/
def countGaps : (fuel i : Nat) → Count → Count
  | 0, _, count => count
  | fuel + 1, i, count =>
    if i - count.previousExceptionIndex > 0xFF then
      countGaps fuel i ⟨count.previousExceptionIndex + 0xFF, count.numExceptions + 1⟩
    else count

/-- Look at one byte; `none` when there are too many exceptions. -/
def countByte (input : Bytes) (maxExceptions i : Nat) (count : Count) : Result (Option Count) :=
  match input[i]? with
  | none => .error .indexOutOfBounds
  | some b =>
    if isCompressible b.toNat then .ok (some count)
    else
      let count := countGaps i i count
      let numExceptions := count.numExceptions + 1
      if numExceptions > maxExceptions then .ok none
      else .ok (some ⟨i, numExceptions⟩)

/-- Count the exceptions byte by byte. -/
def countBytes (input : Bytes) (maxExceptions : Nat) :
    (n i : Nat) → Count → Result (Option Count)
  | 0, _, count => .ok (some count)
  | n + 1, i, count => do
    match ← countByte input maxExceptions i count with
    | none => return none
    | some count => countBytes input maxExceptions n (i + 1) count

/-- A whole block without exceptions, found in one go. -/
def cleanBlock (input : Bytes) (blockStart blockEnd : Nat) : Bool :=
  blockEnd - blockStart == 16 && decide (blockEnd ≤ input.length) &&
    ((input.drop blockStart).take 16).foldl
      (fun (bad : UInt8) b => bad ||| (if isBad b then 1 else 0)) 0 == 0

/-- Count the exceptions by blocks, and give up when there are too many. -/
def countBlocks (input : Bytes) (len maxExceptions : Nat) :
    (fuel blockStart : Nat) → Count → Result (Option Count)
  | 0, _, count => .ok (some count)
  | fuel + 1, blockStart, count =>
    if blockStart < len then do
      let blockEnd := blockStart + min 16 (len - blockStart)
      if cleanBlock input blockStart blockEnd then
        countBlocks input len maxExceptions fuel blockEnd count
      else
        match ← countBytes input maxExceptions (blockEnd - blockStart) blockStart count with
        | none => return none
        | some count => countBlocks input len maxExceptions fuel blockEnd count
    else .ok (some count)

/-! ## Packing -/

/-- The six bits of a byte. -/
def toSixBits (b : UInt8) : UInt8 :=
  let b := b.toNat + 1
  UInt8.ofNat ((b &&& 0x1F) ||| ((b &&& 0x40) >>> 1))

/-- Put some bits of a source byte into the free bits of another. -/
def borrow (mask shift dest source : UInt8) : UInt8 :=
  dest ||| ((source &&& mask) <<< shift)

/-- Spread the last `saved` of the six-bit values over the first `3 * saved`. -/
def pack (sixBits : Bytes) (saved : Nat) : Bytes :=
  let packed := sixBits.take (sixBits.length - saved)
  let tail := sixBits.drop (sixBits.length - saved)
  let a := packed.take saved
  let b := (packed.drop saved).take saved
  let c := (packed.drop (2 * saved)).take saved
  zipWith (borrow 0x30 2) a tail ++ zipWith (borrow 0x0C 4) b tail ++
    zipWith (borrow 0x03 6) c tail ++ packed.drop (3 * saved) ++ tail

/-! ## Writing the exceptions -/

/-- One bit for each lane. -/
def bitmask (lanes : List Bool) : Word :=
  lanes.zipIdx.foldl (fun mask lane => mask ||| ((if lane.1 then (1 : Word) else 0) <<< lane.2)) 0

/-- The exceptions of a block, as a mask. -/
def blockMask (block : Bytes) : Word :=
  let bad := block.map isBad
  if bad.any id then bitmask bad else 0

/-- The exceptions of what is left, as a mask. -/
def tailMask (tail : Bytes) : Word :=
  bitmask (tail.map fun byte => !isCompressible byte.toNat)

/-- The masks of the full blocks of 16 and of what is left. -/
def masks (input : Bytes) : List Word :=
  let full := input.length / 16
  (pieces full 16 input).map blockMask ++ [tailMask (input.drop (16 * full))]

/-- What is written, and the last exception. -/
structure Writing where
  out : Bytes
  previousExceptionIndex : Nat
  numExceptions2 : Nat
  deriving DecidableEq, Repr

/-- Write an exception. -/
def writeException (input : Bytes) (delta i : Nat) (w : Writing) : Result Writing :=
  match input[i]? with
  | none => .error .indexOutOfBounds
  | some b => .ok ⟨writeByte (writeByte w.out (UInt8.ofNat delta)) b, i, w.numExceptions2 + 1⟩

/-- Write artificial exceptions until `i` is near enough. -/
def writeGaps (input : Bytes) : (fuel i : Nat) → Writing → Result Writing
  | 0, _, w => .ok w
  | fuel + 1, i, w =>
    if i - w.previousExceptionIndex > 0xFF then do
      let w ← writeException input 0xFF (w.previousExceptionIndex + 0xFF) w
      writeGaps input fuel i w
    else .ok w

/-- Write the exceptions of a mask. -/
def writeMask (input : Bytes) (block : Nat) : (fuel : Nat) → Word → Writing → Result Writing
  | 0, _, w => .ok w
  | fuel + 1, mask, w =>
    if mask = 0 then .ok w
    else do
      let i := block * 16 + trailingZeros mask
      let w ← writeGaps input i i w
      let w ← writeException input (i - w.previousExceptionIndex) i w
      writeMask input block fuel (mask &&& (mask - 1)) w

/-- Write the exceptions of all masks. -/
def writeMasks (input : Bytes) : (block : Nat) → List Word → Writing → Result Writing
  | _, [], w => .ok w
  | block, mask :: rest, w => do
    let w ← writeMask input block 64 mask w
    writeMasks input (block + 1) rest w

/-- How a byte string is shown in messages. -/
def displayBytes (bytes : Bytes) : String :=
  let hex (b : UInt8) := String.ofList [Nat.digitChar (b.toNat / 16), Nat.digitChar (b.toNat % 16)]
  "[" ++ " ".intercalate (bytes.map hex) ++ "]"

/-- Compress the first `len` bytes of the input. Returns whether it did, with the scratch buffer and
the output as they are left. -/
def compress (input : Bytes) (len : Nat) (tmp out : Bytes) : Result (Bool × Bytes × Bytes) :=
  if len < 8 then .ok (false, tmp, out)
  else do
    let maxExceptions := len >>> 5
    match ← countBlocks input len maxExceptions len 0 ⟨0, 0⟩ with
    | none => return (false, tmp, out)
    | some count =>
      if input.length < len ∨ tmp.length < len then .error .indexOutOfBounds
      else
        let input := input.take len
        let saved := len >>> 2
        let compressedLen := len - saved
        let tmp := pack (input.map toSixBits) saved ++ tmp.drop len
        let out := writeBytes out (tmp.take compressedLen)
        let out := writeVInt out (asI 32 count.numExceptions)
        if count.numExceptions > 0 then
          let w ← writeMasks input 0 (masks input) ⟨out, 0, 0⟩
          if count.numExceptions = w.numExceptions2 then return (true, tmp, w.out)
          else
            .error (.illegalState
              s!"{count.numExceptions} <> {w.numExceptions2} {displayBytes input}")
        else return (true, tmp, out)

/-! ## Decompression -/

/-- A byte from the high bits of three others. -/
def restore (a b c : UInt8) : UInt8 :=
  ((a &&& 0xC0) >>> 2) ||| ((b &&& 0xC0) >>> 4) ||| ((c &&& 0xC0) >>> 6)

/-- The last quarter from the high bits of the others. -/
def restoreAll (a b c : Bytes) : Bytes :=
  zipWith (fun ab c => restore ab.1 ab.2 c) (a.zip b) c

/-- Restore the last quarter when the target holds the whole text: sixteen lanes at a time, then the
rest. -/
def restoreTail (out : Bytes) (saved compressedLen : Nat) : Bytes :=
  let a := out.take saved
  let b := (out.drop saved).take saved
  let c := (out.drop (2 * saved)).take saved
  let full := saved / 16 * 16
  out.take compressedLen ++
    restoreAll (a.take full) (b.take full) (c.take full) ++
    restoreAll (a.drop full) (b.drop full) (c.drop full) ++
    out.drop (compressedLen + saved)

/-- Restore the last quarter one byte at a time. -/
def restoreIndexed (saved compressedLen : Nat) (out : Bytes) (i : Nat) : Result Bytes :=
  match out[i]?, out[saved + i]?, out[2 * saved + i]? with
  | some a, some b, some c =>
    if compressedLen + i < out.length then .ok (out.set (compressedLen + i) (restore a b c))
    else .error .indexOutOfBounds
  | _, _, _ => .error .indexOutOfBounds

/-- The byte of six bits. -/
def toEightBits (b : UInt8) : UInt8 :=
  ((b &&& 0x1F) ||| 0x20 ||| ((b &&& 0x20) <<< (1 : UInt8))) - 1

/-- Put the exceptions back. -/
def restoreExceptions : (numExceptions i : Nat) → Bytes → IndexInput → Result (Bytes × IndexInput)
  | 0, _, out, input => .ok (out, input)
  | n + 1, i, out, input => do
    let (delta, input) ← input.readByte
    let i := i + delta.toNat
    let (b, input) ← input.readByte
    if i < out.length then restoreExceptions n i (out.set i b) input
    else .error .indexOutOfBounds

/-- Decompress a text of `len` bytes into the beginning of the target. -/
def decompress (input : IndexInput) (out : Bytes) (len : Nat) : Result (Bytes × IndexInput) := do
  let saved := len >>> 2
  let compressedLen := len - saved
  if out.length < compressedLen then .error .indexOutOfBounds
  else
    let (packed, input) ← input.readBytes compressedLen
    let out := packed ++ out.drop compressedLen
    let out ←
      if len ≤ out.length then .ok (restoreTail out saved compressedLen)
      else (List.range saved).foldlM (restoreIndexed saved compressedLen) out
    let out := (out.take len).map toEightBits ++ out.drop len
    let (numExceptions, input) ← input.readVInt
    restoreExceptions numExceptions.toNat 0 out input

end RLucene.Util.LowercaseAsciiCompression
