import RLucene.Codecs.Lucene90.IndexedDISI.Writer
import RLucene.Index.DocValues
import RLucene.Util.MathUtil
import RLucene.Util.Packed.DirectMonotonic

/-!
# Writing doc values

`Lucene90DocValuesConsumer` for numeric and sorted-numeric fields. A field is handed over as the
list of its documents, each with its values; the iterations of the source over
`SortedNumericDocValues` are folds over this list. One pass collects the statistics from which the
encoding of the values is chosen: a constant, a table, blocks of different widths, or one packed
stream of multiples of a common divisor above the minimum.

The decision for blocks compares two sizes in floating point. It is a parameter, `savesSpace`.
-/

namespace RLucene.Codecs.Lucene90.DocValues

open Lib Store Util Util.Packed Index
open IndexedDISI (writeBitsetWithDenseRankPower)

/-! ## The format -/

/-- The tag of a numeric field. -/
def numericType : UInt8 := 0

/-- The tag of a binary field. -/
def binaryType : UInt8 := 1

/-- The tag of a sorted field. -/
def sortedType : UInt8 := 2

/-- The tag of a sorted set. -/
def sortedSetType : UInt8 := 3

/-- The tag of a field of several values. -/
def sortedNumericType : UInt8 := 4

/-- The block size of the addresses, as an exponent. -/
def directMonotonicBlockShift : Nat := 16

/-- The block size of values with a width for each block, as an exponent. -/
def numericBlockShift : Nat := 14

/-- The same as a number. -/
def numericBlockSize : Nat := 1 <<< numericBlockShift

/-- Eight intervals of a level make one of the next. -/
def skipIndexLevelShift : Nat := 3

/-- The levels of the skip index. -/
def skipIndexMaxLevel : Nat := 4

/-- The rank table has an entry for each `2 ^ 9` documents. -/
def defaultDenseRankPower : Int := 9

/-! ## Statistics -/

/-- The least and the greatest value, and the space that packing them takes. -/
structure MinMaxTracker where
  min : Int
  max : Int
  numValues : Nat
  spaceInBits : Int
  deriving DecidableEq, Repr

namespace MinMaxTracker

/-- Forget the values, and keep the space. -/
def reset (t : MinMaxTracker) : MinMaxTracker :=
  { t with min := 2 ^ 63 - 1, max := -2 ^ 63, numValues := 0 }

/-- No values yet. -/
def new : MinMaxTracker :=
  reset ⟨0, 0, 0, 0⟩

/-- Take in a value. -/
def updateValue (t : MinMaxTracker) (v : Int) : MinMaxTracker :=
  { t with min := Min.min t.min v, max := Max.max t.max v, numValues := t.numValues + 1 }

/-- Take in the values of another tracker. -/
def updateFrom (t other : MinMaxTracker) : MinMaxTracker :=
  { t with
    min := Min.min t.min other.min
    max := Max.max t.max other.max
    numValues := t.numValues + other.numValues }

/-- Add the space of the values. -/
def finish (t : MinMaxTracker) : MinMaxTracker :=
  if t.max > t.min then
    let bits := unsignedBitsRequired (asI 64 (t.max - t.min))
    { t with spaceInBits := asI 64 (t.spaceInBits + asI 64 (bits * t.numValues)) }
  else t

/-- Go on to the next block. -/
def nextBlock (t : MinMaxTracker) : MinMaxTracker :=
  t.finish.reset

end MinMaxTracker

/-- What the pass over all values has found. The map of unique values is its set of keys, until it
is dropped. -/
structure Statistics where
  numDocsWithValue : Nat
  minMax : MinMaxTracker
  blockMinMax : MinMaxTracker
  gcd : Int
  uniqueValues : Option (List Int)
  deriving DecidableEq, Repr

/-- The common divisor of the differences to the first value; extreme values discard it. -/
def updateGcd (firstValue gcd v : Int) : Int :=
  if gcd ≠ 1 then
    if ¬ (-2 ^ 62 ≤ v ∧ v ≤ 2 ^ 62 - 1) then 1 else Util.gcd gcd (asI 64 (v - firstValue))
  else gcd

/-- Insert a value into the map of unique values, which is dropped when it grows too large. -/
def insertUnique (uniqueValues : Option (List Int)) (v : Int) : Option (List Int) :=
  match uniqueValues with
  | none => none
  | some keys =>
    if v ∈ keys then some keys
    else if 256 < keys.length + 1 then none
    else some (v :: keys)

namespace Statistics

/-- Before the first value; ordinals are never looked up in a table. -/
def initial (ords : Bool) : Statistics :=
  ⟨0, .new, .new, 0, if ords then none else some []⟩

/-- Take in a value. -/
def addValue (firstValue : Int) (s : Statistics) (v : Int) : Statistics :=
  let block := s.blockMinMax.updateValue v
  let full := block.numValues = numericBlockSize
  { s with
    gcd := updateGcd firstValue s.gcd v
    minMax := if full then s.minMax.updateFrom block else s.minMax
    blockMinMax := if full then block.nextBlock else block
    uniqueValues := insertUnique s.uniqueValues v }

/-- Take in the values of a document. -/
def addDoc (firstValue : Int) (s : Statistics) (entry : Nat × List Int) : Statistics :=
  let s := entry.2.foldl (addValue firstValue) s
  { s with numDocsWithValue := s.numDocsWithValue + 1 }

/-- The statistics of a field. -/
def collect (entries : Entries) (ords : Bool) : Statistics :=
  let firstValue := entries.values.headD 0
  let s := entries.foldl (addDoc firstValue) (initial ords)
  { s with
    minMax := (s.minMax.updateFrom s.blockMinMax).finish
    blockMinMax := s.blockMinMax.finish }

end Statistics

/-! ## Encodings -/

/-- The encoding that is chosen for the values: the width, whether there are blocks, the table of
sorted values, and the minimum and divisor that are recorded. -/
structure Encoding where
  numBitsPerValue : Nat
  doBlocks : Bool
  table : Option (List Int)
  min : Int
  gcd : Int
  deriving DecidableEq, Repr

/-- The unique values, if a table of them takes fewer bits than the differences do. -/
def tableCandidate (s : Statistics) : Option (List Int) :=
  s.uniqueValues.filter fun keys =>
    1 < keys.length ∧ unsignedBitsRequired (keys.length - 1 : Int) <
      unsignedBitsRequired ((asI 64 (s.minMax.max - s.minMax.min)).tdiv s.gcd)

/-- The encoding that the statistics ask for. -/
def chooseEncoding (savesSpace : Int → Int → Bool) (s : Statistics) : Encoding :=
  let min := s.minMax.min
  let max := s.minMax.max
  if min ≥ max then ⟨0, false, none, min, s.gcd⟩
  else
    match tableCandidate s with
    | some keys =>
      let sorted := keys.insertionSort (· ≤ ·)
      ⟨unsignedBitsRequired (sorted.length - 1 : Int), false, some sorted, 0, 1⟩
    | none =>
      if 0 < s.minMax.spaceInBits ∧ savesSpace s.blockMinMax.spaceInBits s.minMax.spaceInBits then
        ⟨0xFF, true, none, min, s.gcd⟩
      else
        let bits := unsignedBitsRequired ((asI 64 (max - min)).tdiv s.gcd)
        let zeroMin := s.gcd = 1 ∧ min > 0 ∧
          unsignedBitsRequired max = unsignedBitsRequired (asI 64 (max - min))
        ⟨bits, false, none, if zeroMin then 0 else min, s.gcd⟩

/-- The size of the table, or what stands in its place. -/
def Encoding.tableSize (e : Encoding) : Int :=
  match e.table with
  | some sorted => sorted.length
  | none => if e.doBlocks then -2 - numericBlockShift else -1

/-- Write the table, or that there is none. -/
def Encoding.writeTable (e : Encoding) (out : Bytes) : Bytes :=
  (e.table.getD []).foldl writeLong (writeInt out e.tableSize)

/-- What is packed in place of a value. The index of a value in the table is stored as a byte. -/
def Encoding.encode (e : Encoding) (v : Int) : Int :=
  match e.table with
  | some sorted => if v ∈ sorted then ((sorted.idxOf v % 256 : Nat) : Int) else 0
  | none => (asI 64 (v - e.min)).tdiv e.gcd

/-! ## Values -/

/-- Pack the encoded values. -/
def writeValuesWithEncoder (entries : Entries) (writer : DirectWriter) (encodeValue : Int → Int) :
    Result DirectWriter :=
  entries.foldlM (fun writer entry =>
    entry.2.foldlM (fun (writer : DirectWriter) v => writer.add (encodeValue v)) writer) writer

/-- Write all values with one width. -/
def writeValuesSingleBlock (data : Bytes) (entries : Entries) (numValues : Nat) (e : Encoding) :
    Result Bytes := do
  let writer ← DirectWriter.getInstance data numValues e.numBitsPerValue
  let writer ← writeValuesWithEncoder entries writer e.encode
  let writer ← writer.finish
  return writer.output

/-- Write a block with a width of its own. -/
def writeBlock (data : Bytes) (values : List Int) (gcd : Int) : Result Bytes :=
  match values with
  | [] => .error .indexOutOfBounds
  | first :: rest =>
    let min := rest.foldl Min.min first
    let max := rest.foldl Max.max first
    if min = max then .ok (writeLong (writeByte data 0) min)
    else do
      let bitsPerValue := unsignedBitsRequired ((asI 64 (max - min)).tdiv gcd)
      let buffer ← DirectWriter.writeAll [] bitsPerValue
        (values.map fun v => (asI 64 (v - min)).tdiv gcd)
      let data := writeLong (writeByte data (UInt8.ofNat bitsPerValue)) min
      let bufferSize ← tryConvert .i32 buffer.length
      return writeBytes (writeInt data bufferSize) buffer

/-- The data written so far, where its blocks start, and the values of the next block. -/
structure BlocksState where
  data : Bytes
  offsets : List Nat
  buffer : List Int

/-- Write the buffered block and note where it starts. -/
def BlocksState.flush (s : BlocksState) (gcd : Int) : Result BlocksState := do
  let data ← writeBlock s.data s.buffer gcd
  return ⟨data, s.offsets ++ [s.data.length], []⟩

/-- Buffer a value, and write the block when it is full. -/
def BlocksState.add (gcd : Int) (s : BlocksState) (v : Int) : Result BlocksState :=
  let s := { s with buffer := s.buffer ++ [v] }
  if s.buffer.length = numericBlockSize then s.flush gcd else .ok s

/-- Write blocks of values and behind them the table of their offsets, which ends with its own. -/
def writeValuesMultipleBlocks (data : Bytes) (entries : Entries) (gcd : Int) :
    Result (Bytes × Int) := do
  let s ← entries.foldlM (fun s entry => entry.2.foldlM (BlocksState.add gcd) s) ⟨data, [], []⟩
  let s ← (if s.buffer ≠ [] then s.flush gcd else .ok s)
  let offsetsOrigo ← tryConvert .i64 s.data.length
  let data := s.offsets.foldl (fun data (offset : Nat) => writeLong data offset) s.data
  return (writeLong data offsetsOrigo, offsetsOrigo)

/-! ## The skip index -/

/-- What an interval of the skip index says. -/
structure SkipAccumulator where
  minDocId : Int
  maxDocId : Int
  docCount : Int
  minValue : Int
  maxValue : Int
  deriving DecidableEq, Repr

namespace SkipAccumulator

/-- No document yet. -/
def new (docId : Int) : SkipAccumulator :=
  ⟨docId, docId, 0, 2 ^ 63 - 1, -2 ^ 63⟩

/-- A full interval still takes documents that keep it dense and of a single value. -/
def isDone (a : SkipAccumulator) (skipIndexIntervalSize valueCount nextValue nextDoc : Int) :
    Bool :=
  if a.docCount < skipIndexIntervalSize then false
  else valueCount > 1 || a.minValue ≠ a.maxValue || a.minValue ≠ nextValue ||
    a.docCount ≠ nextDoc - a.minDocId

/-- Take in a value. -/
def accumulateValue (a : SkipAccumulator) (value : Int) : SkipAccumulator :=
  { a with minValue := min a.minValue value, maxValue := max a.maxValue value }

/-- Take in the next interval. -/
def accumulateOther (a other : SkipAccumulator) : SkipAccumulator :=
  { a with
    maxDocId := other.maxDocId
    minValue := min a.minValue other.minValue
    maxValue := max a.maxValue other.maxValue
    docCount := a.docCount + other.docCount }

/-- Take in a document. -/
def nextDoc (a : SkipAccumulator) (docId : Int) : SkipAccumulator :=
  { a with maxDocId := docId, docCount := a.docCount + 1 }

/-- The union of the intervals of a list. -/
def merge : List SkipAccumulator → Result SkipAccumulator
  | [] => .error .indexOutOfBounds
  | first :: rest => .ok ((first :: rest).foldl accumulateOther (new first.minDocId))

end SkipAccumulator

/-- The next level of intervals. -/
def buildLevel (accumulators : List SkipAccumulator) : Result (List SkipAccumulator) :=
  let levelSize := 1 <<< skipIndexLevelShift
  (pieces (accumulators.length / levelSize) levelSize accumulators).mapM SkipAccumulator.merge

/-- The number of levels at an index: as many as there are full intervals that begin here. -/
def getLevels (index size : Nat) : Nat :=
  if 2 ^ skipIndexLevelShift ∣ index then
    let fits := fun level =>
      1 <<< (skipIndexLevelShift * level) ≤ size - index ∧
        index % 1 <<< (skipIndexLevelShift * level) = 0
    match [3, 2, 1].find? fits with
    | some level => level + 1
    | none => 1
  else 1

/-- Write an interval. -/
def writeInterval (data : Bytes) (a : SkipAccumulator) : Bytes :=
  let data := writeInt (writeInt data a.maxDocId) a.minDocId
  let data := writeLong (writeLong data a.maxValue) a.minValue
  writeInt data a.docCount

/-- The intervals that begin at an index, the widest first. -/
def writeLevelsAt (levels : List (List SkipAccumulator)) (total : Nat) (data : Bytes)
    (index : Nat) : Result Bytes :=
  let count := getLevels index total
  (List.range count).reverse.foldlM (fun data level =>
    match (levels.getD level [])[index >>> (skipIndexLevelShift * level)]? with
    | some a => .ok (writeInterval data a)
    | none => .error .indexOutOfBounds) (writeByte data (UInt8.ofNat count))

/-- Write the intervals of all levels, in the order of the documents. -/
def writeLevels (data : Bytes) (accumulators : List SkipAccumulator) : Result Bytes := do
  let level1 ← buildLevel accumulators
  let level2 ← buildLevel level1
  let level3 ← buildLevel level2
  (List.range accumulators.length).foldlM
    (writeLevelsAt [accumulators, level1, level2, level3] accumulators.length) data

/-- The state of the loop over the documents. -/
structure SkipState where
  data : Bytes
  globalMaxValue : Int
  globalMinValue : Int
  globalDocCount : Int
  maxDocId : Int
  accumulators : List SkipAccumulator
  accumulator : Option SkipAccumulator

namespace SkipState

/-- Keep a completed interval. -/
def complete (s : SkipState) (a : SkipAccumulator) : SkipState :=
  { s with
    globalMaxValue := max s.globalMaxValue a.maxValue
    globalMinValue := min s.globalMinValue a.minValue
    globalDocCount := s.globalDocCount + a.docCount
    maxDocId := a.maxDocId
    accumulators := s.accumulators ++ [a]
    accumulator := none }

/-- The intervals of the lowest level that fill the highest one. -/
def maxAccumulators : Nat := 1 <<< (skipIndexLevelShift * (skipIndexMaxLevel - 1))

/-- Write the levels once enough intervals have been completed. -/
def writeFull (s : SkipState) : Result SkipState :=
  if s.accumulators.length = maxAccumulators then do
    let data ← writeLevels s.data s.accumulators
    return { s with data := data, accumulators := [] }
  else .ok s

/-- Take in a document, and write the intervals when there are enough. -/
def addDoc (skipIndexIntervalSize : Int) (s : SkipState) (entry : Nat × List Int) :
    Result SkipState := do
  let firstValue := entry.2.headD 0
  let s ← (match s.accumulator with
    | some a =>
      if a.isDone skipIndexIntervalSize entry.2.length firstValue entry.1 then
        (s.complete a).writeFull
      else .ok s
    | none => .ok s)
  let a := (s.accumulator.getD (.new entry.1)).nextDoc entry.1
  return { s with accumulator := some (entry.2.foldl SkipAccumulator.accumulateValue a) }

end SkipState

/-! ## The consumer -/

/-- The writer of a segment's values: its data and its metadata. -/
structure DocValuesConsumer where
  data : Bytes
  metaOut : Bytes
  maxDoc : Nat
  skipIndexIntervalSize : Int
  deriving DecidableEq, Repr

namespace DocValuesConsumer

/-- Write the skip index of a field. -/
def writeSkipIndex (c : DocValuesConsumer) (entries : Entries) : Result DocValuesConsumer := do
  let s ← entries.foldlM (SkipState.addDoc c.skipIndexIntervalSize)
    ⟨c.data, -2 ^ 63, 2 ^ 63 - 1, 0, -1, [], none⟩
  let s := s.accumulator.elim s s.complete
  let data ← (if s.accumulators ≠ [] then writeLevels s.data s.accumulators else .ok s.data)
  let metaOut := writeLong c.metaOut c.data.length
  let metaOut := writeLong metaOut ((data.length - c.data.length : Nat) : Int)
  let metaOut := writeLong (writeLong metaOut s.globalMaxValue) s.globalMinValue
  return { c with
    data := data
    metaOut := writeInt (writeInt metaOut s.globalDocCount) s.maxDocId }

/-- Record which documents have a value: none, all, or those of a bit set. -/
def writeDocsWithField (c : DocValuesConsumer) (entries : Entries) (numDocsWithValue : Nat) :
    Result DocValuesConsumer :=
  if numDocsWithValue = 0 then
    let metaOut := writeLong (writeLong c.metaOut (-2)) 0
    .ok { c with metaOut := writeByte (writeShort metaOut (-1)) 0xFF }
  else if numDocsWithValue = c.maxDoc then
    let metaOut := writeLong (writeLong c.metaOut (-1)) 0
    .ok { c with metaOut := writeByte (writeShort metaOut (-1)) 0xFF }
  else do
    let metaOut := writeLong c.metaOut c.data.length
    let (data, jumpTableEntryCount) ←
      writeBitsetWithDenseRankPower entries.docs c.data defaultDenseRankPower
    let metaOut := writeLong metaOut ((data.length - c.data.length : Nat) : Int)
    let metaOut := writeShort metaOut jumpTableEntryCount
    return { c with data := data, metaOut := writeByte metaOut (byteOf defaultDenseRankPower) }

variable (ops : FloatOps) (savesSpace : Int → Int → Bool)

/-- Write the packed values of a chosen encoding, with the offset of a jump table. -/
def writeEncoded (data : Bytes) (entries : Entries) (numValues : Nat) (e : Encoding) :
    Result (Bytes × Int) :=
  if e.doBlocks then writeValuesMultipleBlocks data entries e.gcd
  else if e.numBitsPerValue ≠ 0 then do
    let data ← writeValuesSingleBlock data entries numValues e
    return (data, -1)
  else .ok (data, -1)

/-- Ordinals start at zero and have no common divisor. -/
def checkOrds (s : Statistics) : Result Unit :=
  if 0 < s.minMax.numValues then
    if s.minMax.min ≠ 0 then
      .error (.illegalState s!"The min value for ordinals should always be 0, got {s.minMax.min}")
    else if s.minMax.max ≠ 0 ∧ s.gcd ≠ 1 then
      .error (.illegalState s!"GCD compression should never be used on ordinals, found gcd={s.gcd}")
    else .ok ()
  else .ok ()

/-- Write the values of a field; the numbers of its documents and values are returned. -/
def writeValues (c : DocValuesConsumer) (entries : Entries) (ords : Bool) :
    Result (DocValuesConsumer × Nat × Nat) := do
  let s := Statistics.collect entries ords
  let _ ← (if ords then checkOrds s else .ok ())
  let numValues := s.minMax.numValues
  let c ← c.writeDocsWithField entries s.numDocsWithValue
  let e := chooseEncoding savesSpace s
  let metaOut := e.writeTable (writeLong c.metaOut numValues)
  let metaOut := writeByte metaOut (UInt8.ofNat e.numBitsPerValue)
  let metaOut := writeLong (writeLong metaOut e.min) e.gcd
  let metaOut := writeLong metaOut c.data.length
  let (data, jumpTableOffset) ← writeEncoded c.data entries numValues e
  let metaOut := writeLong metaOut ((data.length - c.data.length : Nat) : Int)
  return ({ c with data := data, metaOut := writeLong metaOut jumpTableOffset },
    s.numDocsWithValue, numValues)

/-- The running sums of the numbers of values, from zero. -/
def addresses (entries : Entries) : List Int :=
  entries.foldl (fun sums entry => sums ++ [sums.getLastD 0 + entry.2.length]) [0]

/-- Write the values and the addresses of a field. -/
def doAddSortedNumericField (c : DocValuesConsumer) (field : FieldInfo) (entries : Entries)
    (ords : Bool) : Result DocValuesConsumer := do
  let c ← (if field.docValuesSkipIndexType ≠ .none then c.writeSkipIndex entries else .ok c)
  let c := if ords then { c with metaOut := writeByte c.metaOut 1 } else c
  let (c, numDocsWithField, numValues) ← c.writeValues savesSpace entries ords
  let c := { c with metaOut := writeInt c.metaOut numDocsWithField }
  if numValues > numDocsWithField then
    let metaOut := writeLong c.metaOut c.data.length
    let metaOut := writeVInt metaOut directMonotonicBlockShift
    let w ← DirectMonotonicWriter.getInstance metaOut c.data (numDocsWithField + 1)
      directMonotonicBlockShift
    let w ← (addresses entries).foldlM (DirectMonotonicWriter.add ops) w
    let w ← DirectMonotonicWriter.finish ops w
    let metaOut := writeLong w.metaOut ((w.dataOut.length - c.data.length : Nat) : Int)
    return { c with data := w.dataOut, metaOut := metaOut }
  else return c

/-- A numeric field; its values are seen as lists of one value. -/
def addNumericField (c : DocValuesConsumer) (field : FieldInfo) (entries : Entries) :
    Result DocValuesConsumer := do
  let metaOut := writeByte (writeInt c.metaOut field.number) numericType
  let c := { c with metaOut := metaOut }
  let c ← (if field.docValuesSkipIndexType ≠ .none then c.writeSkipIndex entries else .ok c)
  let (c, _, _) ← c.writeValues savesSpace entries false
  return c

/-- Write a field of several values. -/
def addSortedNumericField (c : DocValuesConsumer) (field : FieldInfo) (entries : Entries) :
    Result DocValuesConsumer := do
  let metaOut := writeByte (writeInt c.metaOut field.number) sortedNumericType
  doAddSortedNumericField ops savesSpace { c with metaOut := metaOut } field entries false

/-- Mark the end of the fields. -/
def close (c : DocValuesConsumer) : DocValuesConsumer :=
  { c with metaOut := writeInt c.metaOut (-1) }

end DocValuesConsumer

end RLucene.Codecs.Lucene90.DocValues
