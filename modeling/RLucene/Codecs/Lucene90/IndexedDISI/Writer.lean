import RLucene.Util.FixedBitSet
import RLucene.Util.Slices

/-!
# Writing an indexed document set

`write_bitset_with_dense_rank_power` and its helpers. The documents come from an iterator, modelled
by the list of what it returns before exhaustion. Documents are collected in a bit set of 65536
bits; when a document of another block arrives the block is flushed in one of three encodings, and a
table of jump entries is written behind the last block. The vector instructions of the sparse and
rank paths are modelled lane by lane with the width of the lanes.
-/

namespace RLucene.Codecs.Lucene90.IndexedDISI

open List Lib Store Search Util Util.ArrayUtil

/-- The number of documents that a single block represents. -/
def blockSize : Nat :=
  65536

/-- The number of words of a dense block. -/
def denseBlockLongs : Nat :=
  blockSize / 64

/-- The largest cardinality that is stored sparsely. -/
def maxArrayLength : Nat :=
  4095

/-! ## Sparse blocks -/

/-- The loop that writes one document per iteration. -/
def writeDocs (out : Bytes) (iter : BitSetIterator) (doc : Int) : Nat → Result Bytes
  | 0 => .error (.unreachable "")
  | fuel + 1 =>
    if doc = noMoreDocs then .ok out
    else do
      let out := writeShort out (asI 16 doc)
      let (doc, iter) ← iter.nextDoc
      writeDocs out iter doc fuel

/-- The inner loop of the word-wise path: write the document, clear the lowest bit, and stop when
the word is empty. Returns the last document written. -/
def writeWordDocs (out : Bytes) (wordIndex : Nat) (word : Word) (doc : Int) : Nat → Bytes × Int
  | 0 => (out, doc)
  | fuel + 1 =>
    let out := writeShort out (asI 16 doc)
    let word := word &&& (word - 1)
    if word = 0 then (out, doc)
    else writeWordDocs out wordIndex word ((wordIndex <<< 6) + trailingZeros word : Nat) fuel

/-- The loop that writes one word per iteration and moves the iterator to the word's last bit. -/
def writeWords (out : Bytes) (iter : BitSetIterator) (doc : Int) : Nat → Result Bytes
  | 0 => .error (.unreachable "")
  | fuel + 1 =>
    if doc = noMoreDocs then .ok out
    else do
      let wordIndex := doc.toNat >>> 6
      let word ← FixedBitSet.wordAt iter.bits.bits wordIndex
      let (out, doc) := writeWordDocs out wordIndex word doc 64
      let iter := iter.setDocId ((doc.toNat ||| 63 : Nat) : Int)
      let (doc, iter) ← iter.nextDoc
      writeWords out iter doc fuel

/-- Write the documents of a word; the word is known to be nonzero, so the test comes last. -/
def writeNonemptyWord (out : Bytes) (docBase : Nat) (word : Word) : Nat → Bytes
  | 0 => out
  | fuel + 1 =>
    let doc := docBase + trailingZeros word
    let out := writeShort out (asI 16 doc)
    let word := word &&& (word - 1)
    if word = 0 then out else writeNonemptyWord out docBase word fuel

/-- Write the documents of a word, testing before each. -/
def writeWord (out : Bytes) (docBase : Nat) (word : Word) : Nat → Bytes
  | 0 => out
  | fuel + 1 =>
    if word ≠ 0 then
      let doc := docBase + trailingZeros word
      let out := writeShort out (asI 16 doc)
      writeWord out docBase (word &&& (word - 1)) fuel
    else out

/-- One bit for each nonzero lane. -/
def nonemptyMask (words : List Word) : Word :=
  words.zipIdx.foldl (fun mask (word, lane) =>
    if word ≠ 0 then mask ||| 1#64 <<< lane else mask) 0

/-- Visit the nonempty lanes of a group from the lowest to the highest. -/
def writeLanes (out : Bytes) (group : Nat) (words : List Word) (nonempty : Word) : Nat → Bytes
  | 0 => out
  | fuel + 1 =>
    if nonempty ≠ 0 then
      let lane := trailingZeros nonempty
      let docBase := (group * 4 + lane) * 64
      let out := writeWord out docBase (words.getD lane 0) 65
      writeLanes out group words (nonempty &&& (nonempty - 1)) fuel
    else out

/-- Groups of four words; a group without an empty word is walked directly. -/
def writeSparseSimd (bits : List Word) (out : Bytes) : Bytes :=
  (chunksExact 4 bits).zipIdx.foldl (fun out (words, group) =>
    let nonempty := nonemptyMask words
    if nonempty = 0b1111 then
      words.zipIdx.foldl (fun out (word, lane) =>
        writeNonemptyWord out ((group * 4 + lane) * 64) word 64) out
    else writeLanes out group words nonempty 5) out

/-! ## Ranks -/

/-- The sixteen byte lanes of two words. -/
def bytesOfWords (words : List Word) : Bytes :=
  words.flatMap (fun word => leBytes 8 word.toNat)

/-- The number of ones of each byte. -/
def popcounts (bytes : Bytes) : List Nat :=
  bytes.map (fun b => popCount 8 b.toNat)

/-- Lane-wise addition of lanes of the given width. -/
def addLanes (width : Nat) (a b : List Nat) : List Nat :=
  zipWith (fun x y => (x + y) % 2 ^ width) a b

/-- Widen the sixteen byte lanes to two times eight, add these, and sum the lanes. -/
def reduceLanes (counts : List Nat) : Nat :=
  (addLanes 16 (counts.take 8) (counts.drop 8)).foldl (fun sum lane => (sum + lane) % 2 ^ 16) 0

/-- The ones of eight words: four groups of sixteen bytes are added lane by lane. -/
def countEightWords (words : List Word) : Nat :=
  match chunksExact 16 (bytesOfWords words) with
  | [a, b, c, d] =>
    reduceLanes (addLanes 8 (addLanes 8 (addLanes 8 (popcounts a) (popcounts b)) (popcounts c))
      (popcounts d))
  | _ => 0

/-- The ones of up to sixteen pairs of words. -/
def countPairs (pairs : List (List Word)) : Nat :=
  reduceLanes (pairs.foldl (fun counts pair => addLanes 8 counts (popcounts (bytesOfWords pair)))
    (replicate 16 0))

/-- The ones of the words of one rank entry, counted in groups that keep each lane below 256. -/
def countRankWords (words : List Word) : Nat :=
  (chunks 16 (chunksExact 2 words)).foldl (fun count group => count + countPairs group) 0

/-- A rank entry: the high byte first. -/
def rankEntry (bitCount : Nat) : Bytes :=
  [UInt8.ofNat (bitCount >>> 8), UInt8.ofNat (bitCount &&& 0xFF)]

/-- Entry by entry: write the count so far, then add the ones of the entry's words. -/
def rankEntries (count : List Word → Nat) : Nat → List (List Word) → Bytes
  | _, [] => []
  | bitCount, words :: rest =>
    rankEntry bitCount ++ rankEntries count (bitCount + count words) rest

/-- The word-by-word path for bit sets shorter than a block. -/
def rankScalar (bits : List Word) (denseRankPower : Nat) (rank : Bytes) : Bytes :=
  ((bits.take denseBlockLongs).zipIdx.foldl (fun (state : Bytes × Nat) (b, word) =>
    let (rank, bitCount) := state
    let rank :=
      if word &&& (1 <<< (denseRankPower - 6) - 1) = 0 then
        let rankIndex := word >>> (denseRankPower - 7)
        (rank.set rankIndex (UInt8.ofNat (bitCount >>> 8))).set (rankIndex + 1)
          (UInt8.ofNat (bitCount &&& 0xFF))
      else rank
    (rank, bitCount + countOnes b)) (rank, 0)).1

/-- The rank table of a block: the number of ones before every `2 ^ denseRankPower`-th bit. -/
def createRank (bits : List Word) (denseRankPower : Nat) : Bytes :=
  let longsPerRank := 1 <<< (denseRankPower - 6)
  let rankLen := denseBlockLongs >>> (denseRankPower - 7)
  if denseRankPower = 9 ∧ denseBlockLongs ≤ bits.length then
    rankEntries countEightWords 0 (chunksExact 8 (bits.take denseBlockLongs))
  else if denseBlockLongs ≤ bits.length then
    rankEntries countRankWords 0 (chunksExact longsPerRank (bits.take denseBlockLongs))
  else (rankScalar bits denseRankPower (replicate denseBlockLongs 0)).take rankLen

/-! ## Blocks -/

/-- Write a block. -/
def flush (block : Nat) (buffer : FixedBitSet) (cardinality : Nat) (denseRankPower : Int)
    (out : Bytes) : Result Bytes :=
  let out := writeShort out (asI 16 block)
  let out := writeShort out (asI 16 ((cardinality : Int) - 1))
  if maxArrayLength < cardinality then
    if cardinality ≠ blockSize then
      let out :=
        if denseRankPower ≠ -1 then writeBytes out (createRank buffer.bits denseRankPower.toNat)
        else out
      .ok (buffer.bits.foldl (fun out word => writeLong out word.toInt) out)
    else .ok out
  else if denseBlockLongs < cardinality ∧ cardinality ≤ 2 * denseBlockLongs then
    .ok (writeSparseSimd buffer.bits out)
  else do
    let (doc, iter) ← (BitSetIterator.new buffer).nextDoc
    if cardinality ≤ 3 * denseBlockLongs / 4 then
      writeDocs out iter doc (buffer.numBits + 1)
    else writeWords out iter doc (buffer.numBits + 1)

/-! ## The jump table -/

/-- Store the pair in the entries of the blocks from `startBlock` up to `endBlock`. -/
def fillEntries (jumps : List Int) (index offset : Int) (startBlock endBlock : Nat) : List Int :=
  (range' startBlock (endBlock - startBlock)).foldl
    (fun jumps block => (jumps.set (2 * block) index).set (2 * block + 1) offset) jumps

/-- Extend the table with zeros to the required length. -/
def growJumps (jumps : List Int) (required : Nat) : Result (List Int) :=
  if jumps.length < required then do
    let _ ← oversize required 4
    return jumps ++ replicate (required - jumps.length) 0
  else .ok jumps

/-- Note where blocks start, also those that are missing. -/
def addJumps (jumps : List Int) (offset : Nat) (index : Int) (startBlock endBlock : Nat) :
    Result (List Int) := do
  let jumps ← growJumps jumps ((endBlock + 1) * 2)
  if startBlock < endBlock then
    return fillEntries jumps index (asI 32 offset) startBlock endBlock
  else return jumps

/-- Write the jump table, unless there is only one block. -/
def flushBlockJumps (jumps : List Int) (blockCount : Nat) (out : Bytes) : Result (Bytes × Int) :=
  let blockCount := if blockCount = 2 then 0 else blockCount
  if blockCount * 2 ≤ jumps.length then
    .ok ((chunks 32 (jumps.take (blockCount * 2))).foldl writeInts out, asI 16 blockCount)
  else .error .indexOutOfBounds

/-! ## The document loop -/

/-- The local variables of the document loop. -/
structure WriterState where
  out : Bytes
  jumps : List Int
  buffer : FixedBitSet
  totalCardinality : Nat
  blockCardinality : Nat
  prevDoc : Int
  jumpBlockIndex : Nat
  firstInBlock : Nat

/-- Empty the buffer. Only the words between the block's first and last document can be set. -/
def clearBlock (buffer : FixedBitSet) (first last : Nat) : Result FixedBitSet :=
  if first = 0 ∧ last = blockSize then .ok buffer.clear else buffer.clearRange first last

/-- Close the current block: record its jump entries, write it, and empty the buffer. -/
def closeBlock (origo : Nat) (denseRankPower : Int) (state : WriterState) (prevBlock : Int)
    (doc : Nat) : Result WriterState := do
  let endBlock := (prevBlock + 1).toNat
  let jumps ← addJumps state.jumps (state.out.length - origo) state.totalCardinality
    state.jumpBlockIndex endBlock
  let out ← flush prevBlock.toNat state.buffer state.blockCardinality denseRankPower state.out
  let buffer ← clearBlock state.buffer (state.firstInBlock &&& 0xFFFFFFFFFFFFFFC0)
    (((state.prevDoc.toNat &&& 0xFFFF) ||| 63) + 1)
  return { state with
    out := out, jumps := jumps, buffer := buffer, jumpBlockIndex := endBlock,
    firstInBlock := doc &&& 0xFFFF,
    totalCardinality := state.totalCardinality + state.blockCardinality, blockCardinality := 0 }

/-- One iteration of the document loop. -/
def addDoc (origo : Nat) (denseRankPower : Int) (state : WriterState) (doc : Nat) :
    Result WriterState := do
  let prevBlock := state.prevDoc >>> (16 : Nat)
  let state ← (if prevBlock ≠ -1 ∧ ((doc >>> 16 : Nat) : Int) ≠ prevBlock then
    closeBlock origo denseRankPower state prevBlock doc else .ok state)
  let buffer ← state.buffer.set (doc &&& 0xFFFF)
  return { state with
    buffer := buffer, blockCardinality := state.blockCardinality + 1, prevDoc := doc }

/-- Write the open block, if it has documents. Returns the jump table, the output, the number of
documents and the block number behind the last block. -/
def finishLastBlock (origo : Nat) (denseRankPower : Int) (state : WriterState) :
    Result (List Int × Bytes × Nat × Int) :=
  let prevBlock := state.prevDoc >>> (16 : Nat)
  if 0 < state.blockCardinality then do
    let jumps ← addJumps state.jumps (state.out.length - origo) state.totalCardinality
      state.jumpBlockIndex (prevBlock + 1).toNat
    let out ← flush prevBlock.toNat state.buffer state.blockCardinality denseRankPower state.out
    return (jumps, out, state.totalCardinality + state.blockCardinality, prevBlock + 1)
  else .ok (state.jumps, state.out, state.totalCardinality, prevBlock)

/-- What follows the loop: the last block, the block of the sentinel and the jump table. -/
def finishBlocks (origo : Nat) (denseRankPower : Int) (state : WriterState) :
    Result (Bytes × Int) := do
  let (jumps, out, total, prevBlock) ← finishLastBlock origo denseRankPower state
  let lastBlock := if prevBlock = -1 then 0 else prevBlock.toNat
  let jumps ← addJumps jumps (out.length - origo) total lastBlock (lastBlock + 1)
  let out := writeShort out (asI 16 ((noMoreDocs >>> 16 : Nat) : Int))
  let out := writeShort out 0
  let out := writeShort out (asI 16 ((noMoreDocs &&& 0xFFFF : Nat) : Int))
  flushBlockJumps jumps (lastBlock + 1) out

/-- Two to a power that may be negative, converted to a 32-bit integer. -/
def powerAsI32 (power : Int) : Int :=
  if 0 ≤ power then min (2 ^ power.toNat) (2 ^ 31 - 1) else 0

/-- Write the blocks of some documents. -/
def writeBitsetWithDenseRankPower (docs : List Nat) (out : Bytes) (denseRankPower : Int) :
    Result (Bytes × Int) := do
  let origo := out.length
  if ¬ (7 ≤ denseRankPower ∧ denseRankPower ≤ 15) ∧ denseRankPower ≠ -1 then
    let every := powerAsI32 denseRankPower
    .error (.illegalArgument
      ("Acceptable values for denseRankPower are 7-15 (every 128-32768 docIDs). " ++
        s!"The provided power was {denseRankPower} (every {every} docIDs)"))
  else
    let jumpsLen ← oversize 1 8
    let firstDoc := docs.headD noMoreDocs
    let state ← docs.foldlM (addDoc origo denseRankPower)
      { out := out
        jumps := replicate jumpsLen 0
        buffer := FixedBitSet.new (if firstDoc = noMoreDocs then 0 else blockSize)
        totalCardinality := 0
        blockCardinality := 0
        prevDoc := -1
        jumpBlockIndex := 0
        firstInBlock := firstDoc &&& 0xFFFF }
    finishBlocks origo denseRankPower state

end RLucene.Codecs.Lucene90.IndexedDISI
