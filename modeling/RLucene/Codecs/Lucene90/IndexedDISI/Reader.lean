import RLucene.Codecs.Lucene90.IndexedDISI.Writer

/-!
# Reading an indexed document set

`IndexedDISI` with its three block methods. The state is the source's record of fields; every
operation returns the updated record, or the error of a failed read. Loops whose condition compares
two counters recurse on their distance, so no iteration bound is added; only the block-by-block
fallback of `advanceBlock` is bounded by the length of the file.
-/

namespace RLucene.Codecs.Lucene90.IndexedDISI

open Lib Store Search

/-- The encoding of the current block. -/
inductive Method where
  | sparse
  | dense
  | all
  deriving DecidableEq, Repr

/-- The state of the iterator. -/
structure IndexedDISIImpl where
  slice : IndexInput
  jumpTable : Option RandomAccessInput
  jumpTableEntryCount : Int
  denseRankPower : Int
  denseRankWords : Int
  denseRankTable : Option Bytes
  cost : Int
  block : Int
  blockEnd : Nat
  denseBitmapOffset : Option Nat
  nextBlockIndex : Int
  method : Method
  doc : Int
  index : Int
  docExists : Bool
  nextExistDocInBlock : Int
  word : Word
  wordIndex : Int
  numberOfOnes : Int
  denseOrigoIndex : Int
  gap : Int
  deriving DecidableEq, Repr

/-! ## Opening -/

/-- The bytes of a jump table with the given number of entries. -/
def jumpTableBytes (jumpTableEntryCount : Int) : Nat :=
  if jumpTableEntryCount < 0 then 0 else jumpTableEntryCount.toNat * 4 * 2

/-- The blocks, without the jump table. -/
def createBlockSlice (input : IndexInput) (offset length : Nat) (jumpTableEntryCount : Int) :
    Result IndexInput :=
  if jumpTableBytes jumpTableEntryCount ≤ length then
    input.slice offset (length - jumpTableBytes jumpTableEntryCount)
  else .error .indexOutOfBounds

/-- The jump table, if there is one. -/
def createJumpTable (input : IndexInput) (offset length : Nat) (jumpTableEntryCount : Int) :
    Result (Option RandomAccessInput) :=
  if jumpTableEntryCount ≤ 0 then .ok none
  else if jumpTableBytes jumpTableEntryCount ≤ offset + length then do
    let table ← input.randomAccessSlice (offset + length - jumpTableBytes jumpTableEntryCount)
      (jumpTableBytes jumpTableEntryCount)
    return some table
  else .error .indexOutOfBounds

/-- An iterator over the blocks, if the power is right. -/
def fromComponents (blockSlice : IndexInput) (jumpTable : Option RandomAccessInput)
    (jumpTableEntryCount denseRankPower cost : Int) : Result IndexedDISIImpl :=
  if ¬ (7 ≤ denseRankPower ∧ denseRankPower ≤ 15) ∧ denseRankPower ≠ -1 then
    let every := powerAsI32 denseRankPower
    .error (.illegalArgument
      ("Acceptable values for denseRankPower are 7-15 (every 128-32768 docIDs). " ++
        s!"The provided power was {denseRankPower} (every {every} docIDs)."))
  else .ok
    { slice := blockSlice
      jumpTable := jumpTable
      jumpTableEntryCount := jumpTableEntryCount
      denseRankPower := denseRankPower
      denseRankWords := if denseRankPower = -1 then 0 else 1 <<< (denseRankPower - 6).toNat
      denseRankTable :=
        if denseRankPower = -1 then none
        else some (List.replicate (denseBlockLongs >>> (denseRankPower - 7).toNat) 0)
      cost := cost
      block := -1
      blockEnd := 0
      denseBitmapOffset := none
      nextBlockIndex := -1
      method := .sparse
      doc := -1
      index := -1
      docExists := false
      nextExistDocInBlock := 0
      word := 0
      wordIndex := -1
      numberOfOnes := 0
      denseOrigoIndex := 0
      gap := 0 }

/-- An iterator over a part of a file. -/
def new (input : IndexInput) (offset length : Nat) (jumpTableEntryCount denseRankPower cost : Int) :
    Result IndexedDISIImpl := do
  let blockSlice ← createBlockSlice input offset length jumpTableEntryCount
  let jumpTable ← createJumpTable input offset length jumpTableEntryCount
  fromComponents blockSlice jumpTable jumpTableEntryCount denseRankPower cost

/-! ## Block headers -/

/-- Load the rank table that stands before the bitmap of a dense block. -/
def readRankTable (denseRankPower : Int) (table : Option Bytes) (slice : IndexInput) :
    Result (Option Bytes × IndexInput) :=
  if denseRankPower ≠ -1 then
    match table with
    | none => .error (.illegalState "dense rank table is not initialized")
    | some table => do
      let (bytes, slice) ← slice.readBytes table.length
      return (some bytes, slice)
  else .ok (table, slice)

/-- Read the header of the next block. -/
def readBlockHeader (disi : IndexedDISIImpl) : Result IndexedDISIImpl := do
  let (number, slice) ← disi.slice.readShort
  let block := asI 32 ((asU 16 number <<< 16 : Nat) : Int)
  let (cardinality, slice) ← slice.readShort
  let numValues := 1 + asU 16 cardinality
  let index := disi.nextBlockIndex
  let disi := { disi with
    slice := slice, block := block, index := index, nextBlockIndex := index + numValues }
  if numValues ≤ maxArrayLength then
    return { disi with
      method := .sparse, blockEnd := slice.pos + numValues <<< 1, nextExistDocInBlock := -1 }
  else if numValues = blockSize then
    return { disi with method := .all, blockEnd := slice.pos, gap := block - index - 1 }
  else
    let bitmapOffset := slice.pos + (disi.denseRankTable.map List.length).getD 0
    let (table, slice) ← readRankTable disi.denseRankPower disi.denseRankTable slice
    return { disi with
      method := .dense, slice := slice, denseBitmapOffset := some bitmapOffset,
      blockEnd := bitmapOffset + 1 <<< 13, denseRankTable := table, wordIndex := -1,
      numberOfOnes := index + 1, denseOrigoIndex := index + 1 }

/-- The fallback: from header to header until the block is not below the target. -/
def iterateBlocks (disi : IndexedDISIImpl) (targetBlock : Int) : Nat → Result IndexedDISIImpl
  | 0 => .error (.unreachable "")
  | fuel + 1 => do
    let slice ← disi.slice.seek disi.blockEnd
    let disi ← readBlockHeader { disi with slice := slice }
    if disi.block < targetBlock then iterateBlocks disi targetBlock fuel else return disi

/-- Go to the block that the jump table gives for a block number. -/
def jumpTo (disi : IndexedDISIImpl) (jumpTable : RandomAccessInput) (blockIndex : Int) :
    Result IndexedDISIImpl := do
  let inRangeBlockIndex :=
    if blockIndex < disi.jumpTableEntryCount then blockIndex else disi.jumpTableEntryCount - 1
  let entry ← jumpTable.readLong (inRangeBlockIndex.toNat * 8)
  let index := asI 32 entry
  let offset := asI 32 (entry >>> (32 : Nat))
  -- one less, since reading the header takes the next index as the current one
  let disi := { disi with nextBlockIndex := index - 1 }
  let slice ← disi.slice.seek offset.toNat
  readBlockHeader { disi with slice := slice }

/-- Go to a block, through the jump table if that is faster. -/
def advanceBlock (disi : IndexedDISIImpl) (targetBlock : Int) : Result IndexedDISIImpl :=
  let blockIndex := targetBlock >>> (16 : Nat)
  match disi.jumpTable with
  | some jumpTable =>
    if disi.block >>> (16 : Nat) + 2 ≤ blockIndex then jumpTo disi jumpTable blockIndex
    else iterateBlocks disi targetBlock (disi.slice.length + 1)
  | none => iterateBlocks disi targetBlock (disi.slice.length + 1)

/-! ## Sparse blocks -/

/-- The low half of a document number. -/
def lowHalf (target : Int) : Nat :=
  asU 32 target &&& 0xFFFF

/-- The block part of a document number. -/
def highHalf (target : Int) : Int :=
  asI 32 ((asU 32 target &&& 0xFFFF0000 : Nat) : Int)

/-- Read documents until one is not below the target; `n` are left in the block. -/
def sparseAdvance (disi : IndexedDISIImpl) (targetInBlock : Nat) :
    Nat → Result (Bool × IndexedDISIImpl)
  | 0 => .ok (false, disi)
  | n + 1 => do
    let (short, slice) ← disi.slice.readShort
    let doc := asU 16 short
    let disi := { disi with slice := slice, index := disi.index + 1 }
    if targetInBlock ≤ doc then
      return (true, { disi with
        doc := ((disi.block.toNat ||| doc : Nat) : Int), docExists := true,
        nextExistDocInBlock := doc })
    else sparseAdvance disi targetInBlock n

/-- Go on in a list of documents. -/
def sparseAdvanceWithinBlock (disi : IndexedDISIImpl) (target : Int) :
    Result (Bool × IndexedDISIImpl) :=
  sparseAdvance disi (lowHalf target) (disi.nextBlockIndex - disi.index).toNat

/-- Read documents until one is not below the target; a larger one is put back. -/
def sparseAdvanceExact (disi : IndexedDISIImpl) (targetInBlock : Nat) :
    Nat → Result (Bool × IndexedDISIImpl)
  | 0 => .ok (false, { disi with docExists := false })
  | n + 1 => do
    let (short, slice) ← disi.slice.readShort
    let doc := asU 16 short
    let disi := { disi with slice := slice, index := disi.index + 1 }
    if targetInBlock ≤ doc then
      let disi := { disi with nextExistDocInBlock := doc }
      if doc ≠ targetInBlock then
        let slice ← disi.slice.seek (disi.slice.pos - 2)
        return (false, { disi with slice := slice, index := disi.index - 1, docExists := false })
      else return (true, { disi with docExists := true })
    else sparseAdvanceExact disi targetInBlock n

/-- Look up a document in a list. -/
def sparseAdvanceExactWithinBlock (disi : IndexedDISIImpl) (target : Int) :
    Result (Bool × IndexedDISIImpl) :=
  if (lowHalf target : Int) < disi.nextExistDocInBlock then .ok (false, disi)
  else if disi.doc = target then .ok (disi.docExists, disi)
  else sparseAdvanceExact disi (lowHalf target) (disi.nextBlockIndex - disi.index).toNat

/-! ## Dense blocks -/

/-- Position just behind the word of the rank entry at or before the target. -/
def rankSkip (disi : IndexedDISIImpl) (targetInBlock : Nat) : Result IndexedDISIImpl :=
  let power := disi.denseRankPower.toNat
  let rankIndex := targetInBlock >>> power
  match disi.denseRankTable with
  | none => .error (.unreachable "")
  | some table =>
    match table[rankIndex <<< 1]?, table[rankIndex <<< 1 + 1]? with
    | some high, some low =>
      let rank := high.toNat <<< 8 ||| low.toNat
      let rankAlignedWordIndex := (rankIndex <<< power) >>> 6
      match disi.denseBitmapOffset with
      | none => .error (.illegalState "dense bitmap offset is not initialized")
      | some bitmapOffset => do
        let slice ← disi.slice.seek (bitmapOffset + rankAlignedWordIndex * 8)
        let (value, slice) ← slice.readLong
        let rankWord := BitVec.ofInt 64 value
        return { disi with
          slice := slice, wordIndex := rankAlignedWordIndex, word := rankWord,
          numberOfOnes := disi.denseOrigoIndex + (rank + countOnes rankWord : Nat) }
    | _, _ => .error .indexOutOfBounds

/-- Read `n` words, counting their ones. -/
def readWords (disi : IndexedDISIImpl) : Nat → Result IndexedDISIImpl
  | 0 => .ok disi
  | n + 1 => do
    let (value, slice) ← disi.slice.readLong
    let word := BitVec.ofInt 64 value
    readWords { disi with
      slice := slice, word := word, numberOfOnes := disi.numberOfOnes + countOnes word } n

/-- The common beginning of the dense methods: move to the word of the target, by rank if the
distance is worth it. -/
def seekWord (disi : IndexedDISIImpl) (targetInBlock : Nat) : Result IndexedDISIImpl := do
  let targetWordIndex : Int := (targetInBlock >>> 6 : Nat)
  let disi ← (if disi.denseRankPower ≠ -1 ∧
      disi.denseRankWords ≤ targetWordIndex - disi.wordIndex then
    rankSkip disi targetInBlock else .ok disi)
  let disi ← readWords disi (targetWordIndex - disi.wordIndex).toNat
  return { disi with wordIndex := targetWordIndex }

/-- Read on to the next word that is not zero; `n` words are left in the block. -/
def nextNonzeroWord (disi : IndexedDISIImpl) : Nat → Result (Bool × IndexedDISIImpl)
  | 0 => .ok (false, { disi with wordIndex := disi.wordIndex + 1 })
  | n + 1 => do
    let wordIndex := disi.wordIndex + 1
    let (value, slice) ← disi.slice.readLong
    let word := BitVec.ofInt 64 value
    let disi := { disi with slice := slice, word := word, wordIndex := wordIndex }
    if word ≠ 0 then
      return (true, { disi with
        index := disi.numberOfOnes, numberOfOnes := disi.numberOfOnes + countOnes word,
        doc := ((disi.block.toNat |||
          ((wordIndex.toNat <<< 6) ||| trailingZeros word) : Nat) : Int) })
    else nextNonzeroWord disi n

/-- Go on in a bitmap. -/
def denseAdvanceWithinBlock (disi : IndexedDISIImpl) (target : Int) :
    Result (Bool × IndexedDISIImpl) := do
  let targetInBlock := lowHalf target
  let disi ← seekWord disi targetInBlock
  let leftBits := disi.word >>> (targetInBlock &&& 63)
  if leftBits ≠ 0 then
    return (true, { disi with
      doc := target + trailingZeros leftBits, index := disi.numberOfOnes - countOnes leftBits })
  else nextNonzeroWord disi (1023 - disi.wordIndex).toNat

/-- Look up a document in a bitmap. -/
def denseAdvanceExactWithinBlock (disi : IndexedDISIImpl) (target : Int) :
    Result (Bool × IndexedDISIImpl) := do
  let targetInBlock := lowHalf target
  let disi ← seekWord disi targetInBlock
  let leftBits := disi.word >>> (targetInBlock &&& 63)
  return (leftBits &&& 1 ≠ 0, { disi with index := disi.numberOfOnes - countOnes leftBits })

/-! ## All methods -/

/-- Go on in a full block. -/
def allAdvanceWithinBlock (disi : IndexedDISIImpl) (target : Int) :
    Result (Bool × IndexedDISIImpl) :=
  .ok (true, { disi with doc := target, index := target - disi.gap })

/-- Look up a document in a full block. -/
def allAdvanceExactWithinBlock (disi : IndexedDISIImpl) (target : Int) :
    Result (Bool × IndexedDISIImpl) :=
  .ok (true, { disi with index := target - disi.gap })

/-- Go on in a block. -/
def advanceWithinBlock (disi : IndexedDISIImpl) (target : Int) : Result (Bool × IndexedDISIImpl) :=
  match disi.method with
  | .sparse => sparseAdvanceWithinBlock disi target
  | .dense => denseAdvanceWithinBlock disi target
  | .all => allAdvanceWithinBlock disi target

/-- Look up a document in a block. -/
def advanceExactWithinBlock (disi : IndexedDISIImpl) (target : Int) :
    Result (Bool × IndexedDISIImpl) :=
  match disi.method with
  | .sparse => sparseAdvanceExactWithinBlock disi target
  | .dense => denseAdvanceExactWithinBlock disi target
  | .all => allAdvanceExactWithinBlock disi target

/-- Both kinds of advance first go to the block of the target, if it lies ahead. -/
def seekBlock (disi : IndexedDISIImpl) (targetBlock : Int) : Result IndexedDISIImpl :=
  if disi.block < targetBlock then advanceBlock disi targetBlock else .ok disi

/-- Whether the target is a document. -/
def advanceExact (disi : IndexedDISIImpl) (target : Int) : Result (Bool × IndexedDISIImpl) := do
  let targetBlock := highHalf target
  let disi ← seekBlock disi targetBlock
  let (found, disi) ← (if disi.block = targetBlock then advanceExactWithinBlock disi target
    else .ok (false, disi))
  return (found, { disi with doc := target })

/-- The first document of the current block. -/
def advanceToBlockStart (disi : IndexedDISIImpl) : Result (Int × IndexedDISIImpl) := do
  let (_, disi) ← advanceWithinBlock disi disi.block
  return (disi.doc, disi)

/-- The first document from the target on. -/
def advance (disi : IndexedDISIImpl) (target : Int) : Result (Int × IndexedDISIImpl) := do
  let targetBlock := highHalf target
  let disi ← seekBlock disi targetBlock
  if disi.block = targetBlock then
    let (advanced, disi) ← advanceWithinBlock disi target
    if advanced then return (disi.doc, disi)
    else
      let disi ← readBlockHeader disi
      advanceToBlockStart disi
  else advanceToBlockStart disi

/-- The next document. -/
def nextDoc (disi : IndexedDISIImpl) : Result (Int × IndexedDISIImpl) :=
  advance disi (asI 32 (disi.doc + 1))

/-- The calls of the iterator as one step function. -/
def step (disi : IndexedDISIImpl) : Call → Result (Answer × IndexedDISIImpl)
  | .nextDoc => do
    let (doc, disi) ← nextDoc disi
    return (.doc doc, disi)
  | .advance target => do
    let (doc, disi) ← advance disi target
    return (.doc doc, disi)
  | .advanceExact target => do
    let (found, disi) ← advanceExact disi target
    return (.found found, disi)

end RLucene.Codecs.Lucene90.IndexedDISI
