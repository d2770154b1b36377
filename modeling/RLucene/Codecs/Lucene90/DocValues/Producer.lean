import RLucene.Codecs.Lucene90.DocValues.Consumer
import RLucene.Codecs.Lucene90.IndexedDISI.Reader

/-!
# Reading doc values

`Lucene90DocValuesProducer`: the metadata of all fields is read at once, and the iterators over a
field are opened from its entry. The readers of packed values keep state between calls, a decoded
buffer or the block they are in, so every access returns the reader it leaves.

Where the source has one type per document set and encoding, `ValuesReader` is the encoding alone,
and the dense and the sparse iterators share it.
-/

namespace RLucene.Codecs.Lucene90.DocValues

open Lib Store Util Util.Packed Index Search
open IndexedDISI (IndexedDISIImpl)

/-! ## Entries -/

/-- Where the values of a field are, and how they are encoded. -/
structure NumericEntry where
  table : Option (List Int)
  blockShift : Int
  bitsPerValue : Int
  docsWithFieldOffset : Int
  docsWithFieldLength : Nat
  jumpTableEntryCount : Int
  denseRankPower : Int
  numValues : Nat
  minValue : Int
  gcd : Int
  valuesOffset : Nat
  valuesLength : Nat
  valueJumpTableOffset : Int
  deriving DecidableEq, Repr

/-- The same for several values per document, with their addresses. -/
structure SortedNumericEntry where
  base : NumericEntry
  numDocsWithField : Int
  addressesMeta : Option Meta
  addressesOffset : Nat
  addressesLength : Nat
  deriving DecidableEq, Repr

/-- Where the byte strings of a field are. -/
structure BinaryEntry where
  dataOffset : Nat
  dataLength : Nat
  docsWithFieldOffset : Int
  docsWithFieldLength : Nat
  jumpTableEntryCount : Int
  denseRankPower : Nat
  numDocsWithField : Int
  minLength : Int
  maxLength : Int
  addressesOffset : Nat
  addressesLength : Nat
  addressesMeta : Option Meta
  deriving DecidableEq, Repr

/-- Where the terms of a field are. -/
structure TermsDictEntry where
  termsDictSize : Int
  termsAddressesMeta : Meta
  maxTermLength : Int
  maxBlockLength : Int
  termsDataOffset : Nat
  termsDataLength : Nat
  termsAddressesOffset : Nat
  termsAddressesLength : Nat
  termsDictIndexShift : Int
  termsIndexAddressesMeta : Meta
  termsIndexOffset : Nat
  termsIndexLength : Nat
  termsIndexAddressesOffset : Nat
  termsIndexAddressesLength : Nat
  deriving DecidableEq, Repr

/-- The ordinals and the terms of a field. -/
structure SortedEntry where
  ordsEntry : NumericEntry
  termsDictEntry : TermsDictEntry
  deriving DecidableEq, Repr

/-- The same for several ordinals per document. -/
inductive SortedSetEntry where
  | singleValue (entry : SortedEntry)
  | multiValue (ordsEntry : SortedNumericEntry) (termsDictEntry : TermsDictEntry)
  deriving DecidableEq, Repr

/-- Where the skip index of a field is, and what it says about all documents. -/
structure DocValuesSkipperEntry where
  offset : Int
  length : Int
  minValue : Int
  maxValue : Int
  docCount : Int
  maxDocId : Int
  deriving DecidableEq, Repr

/-- The entries of all fields by number; of two entries for a number the later one, which is in
front, counts. -/
structure FieldEntries where
  numerics : List (Int × NumericEntry)
  binaries : List (Int × BinaryEntry)
  sorted : List (Int × SortedEntry)
  sortedSets : List (Int × SortedSetEntry)
  sortedNumerics : List (Int × SortedNumericEntry)
  skippers : List (Int × DocValuesSkipperEntry)
  deriving DecidableEq, Repr

/-- No field yet. -/
def FieldEntries.empty : FieldEntries :=
  ⟨[], [], [], [], [], []⟩

/-! ## Metadata -/

/-- Read some `long`s. -/
def readLongs : Nat → IndexInput → Result (List Int × IndexInput)
  | 0, metaIn => .ok ([], metaIn)
  | n + 1, metaIn => do
    let (v, metaIn) ← metaIn.readLong
    let (rest, metaIn) ← readLongs n metaIn
    return (v :: rest, metaIn)

/-- Read the entry of a skip index. -/
def readDocValueSkipperMeta (metaIn : IndexInput) :
    Result (DocValuesSkipperEntry × IndexInput) := do
  let (offset, metaIn) ← metaIn.readLong
  let (length, metaIn) ← metaIn.readLong
  let (maxValue, metaIn) ← metaIn.readLong
  let (minValue, metaIn) ← metaIn.readLong
  let (docCount, metaIn) ← metaIn.readInt
  let (maxDocId, metaIn) ← metaIn.readInt
  return (⟨offset, length, minValue, maxValue, docCount, maxDocId⟩, metaIn)

section

-- how messages name the metadata file
variable (resource : String)

/-- The table of values, if there is one. -/
def readTable (tableSize : Int) (metaIn : IndexInput) :
    Result (Option (List Int) × IndexInput) :=
  if tableSize ≥ 0 then do
    let (table, metaIn) ← readLongs tableSize.toNat metaIn
    return (some table, metaIn)
  else .ok (none, metaIn)

/-- Read the entry of a numeric field. -/
def readNumeric (metaIn : IndexInput) : Result (NumericEntry × IndexInput) := do
  let (docsWithFieldOffset, metaIn) ← metaIn.readLong
  let (docsWithFieldLength, metaIn) ← metaIn.readLong
  let (jumpTableEntryCount, metaIn) ← metaIn.readShort
  let (denseRankPower, metaIn) ← metaIn.readByte
  let (numValues, metaIn) ← metaIn.readLong
  let (tableSize, metaIn) ← metaIn.readInt
  if tableSize > 256 then
    .error (.corruptIndex s!"invalid table size: {tableSize} resource {resource}")
  else
    let (table, metaIn) ← readTable tableSize metaIn
    let blockShift := if tableSize < -1 then -2 - tableSize else -1
    let (bitsPerValue, metaIn) ← metaIn.readByte
    let (minValue, metaIn) ← metaIn.readLong
    let (divisor, metaIn) ← metaIn.readLong
    let (valuesOffset, metaIn) ← metaIn.readLong
    let (valuesLength, metaIn) ← metaIn.readLong
    let (valueJumpTableOffset, metaIn) ← metaIn.readLong
    return (
      { table, blockShift, docsWithFieldOffset, jumpTableEntryCount, minValue
        gcd := divisor
        valueJumpTableOffset
        bitsPerValue := asI 8 bitsPerValue.toNat
        docsWithFieldLength := asU 64 docsWithFieldLength
        denseRankPower := asI 8 denseRankPower.toNat
        numValues := asU 64 numValues
        valuesOffset := asU 64 valuesOffset
        valuesLength := asU 64 valuesLength }, metaIn)

/-- The addresses of the values of each document. -/
def readAddresses (numDocsWithField : Int) (metaIn : IndexInput) :
    Result (Nat × Meta × Nat × IndexInput) := do
  let (addressesOffset, metaIn) ← metaIn.readLong
  let (blockShift, metaIn) ← metaIn.readVInt
  let (addressesMeta, metaIn) ← loadMeta metaIn (numDocsWithField + 1).toNat blockShift.toNat
  let (addressesLength, metaIn) ← metaIn.readLong
  return (asU 64 addressesOffset, addressesMeta, asU 64 addressesLength, metaIn)

/-- Read the entry of a field of several values. -/
def readSortedNumeric (metaIn : IndexInput) : Result (SortedNumericEntry × IndexInput) := do
  let (base, metaIn) ← readNumeric resource metaIn
  let (numDocsWithField, metaIn) ← metaIn.readInt
  if asU 64 numDocsWithField ≠ base.numValues then
    let (offset, addressesMeta, length, metaIn) ← readAddresses numDocsWithField metaIn
    return (⟨base, numDocsWithField, some addressesMeta, offset, length⟩, metaIn)
  else return (⟨base, numDocsWithField, none, 0, 0⟩, metaIn)

/-- Read the entry of a binary field. -/
def readBinary (metaIn : IndexInput) : Result (BinaryEntry × IndexInput) := do
  let (dataOffset, metaIn) ← metaIn.readLong
  let (dataLength, metaIn) ← metaIn.readLong
  let (docsWithFieldOffset, metaIn) ← metaIn.readLong
  let (docsWithFieldLength, metaIn) ← metaIn.readLong
  let (jumpTableEntryCount, metaIn) ← metaIn.readShort
  let (denseRankPower, metaIn) ← metaIn.readByte
  let (numDocsWithField, metaIn) ← metaIn.readInt
  let (minLength, metaIn) ← metaIn.readInt
  let (maxLength, metaIn) ← metaIn.readInt
  let entry : BinaryEntry :=
    { docsWithFieldOffset, jumpTableEntryCount, numDocsWithField, minLength, maxLength
      dataOffset := asU 64 dataOffset
      dataLength := asU 64 dataLength
      docsWithFieldLength := asU 64 docsWithFieldLength
      denseRankPower := denseRankPower.toNat
      addressesOffset := 0
      addressesLength := 0
      addressesMeta := none }
  if minLength < maxLength then
    let (offset, addressesMeta, length, metaIn) ← readAddresses numDocsWithField metaIn
    return ({ entry with
      addressesOffset := offset
      addressesLength := length
      addressesMeta := some addressesMeta }, metaIn)
  else return (entry, metaIn)

/-- The exponent of the terms in a block. -/
def termsDictBlockLz4Shift : Nat := 6

/-- Read the entry of the terms. -/
def readTermDict (metaIn : IndexInput) : Result (TermsDictEntry × IndexInput) := do
  let (termsDictSize, metaIn) ← metaIn.readVLong
  let (blockShift, metaIn) ← metaIn.readInt
  let addressesSize := (termsDictSize + 2 ^ termsDictBlockLz4Shift - 1) >>> termsDictBlockLz4Shift
  let (termsAddressesMeta, metaIn) ← loadMeta metaIn addressesSize.toNat blockShift.toNat
  let (maxTermLength, metaIn) ← metaIn.readInt
  let (maxBlockLength, metaIn) ← metaIn.readInt
  let (termsDataOffset, metaIn) ← metaIn.readLong
  let (termsDataLength, metaIn) ← metaIn.readLong
  let (termsAddressesOffset, metaIn) ← metaIn.readLong
  let (termsAddressesLength, metaIn) ← metaIn.readLong
  let (termsDictIndexShift, metaIn) ← metaIn.readInt
  let indexSize :=
    (termsDictSize + 2 ^ termsDictIndexShift.toNat - 1) >>> termsDictIndexShift.toNat
  let (termsIndexAddressesMeta, metaIn) ← loadMeta metaIn (1 + indexSize).toNat blockShift.toNat
  let (termsIndexOffset, metaIn) ← metaIn.readLong
  let (termsIndexLength, metaIn) ← metaIn.readLong
  let (termsIndexAddressesOffset, metaIn) ← metaIn.readLong
  let (termsIndexAddressesLength, metaIn) ← metaIn.readLong
  return (
    { termsDictSize, termsAddressesMeta, maxTermLength, maxBlockLength, termsDictIndexShift
      termsIndexAddressesMeta
      termsDataOffset := asU 64 termsDataOffset
      termsDataLength := asU 64 termsDataLength
      termsAddressesOffset := asU 64 termsAddressesOffset
      termsAddressesLength := asU 64 termsAddressesLength
      termsIndexOffset := asU 64 termsIndexOffset
      termsIndexLength := asU 64 termsIndexLength
      termsIndexAddressesOffset := asU 64 termsIndexAddressesOffset
      termsIndexAddressesLength := asU 64 termsIndexAddressesLength }, metaIn)

/-- Read the entry of a sorted field. -/
def readSorted (metaIn : IndexInput) : Result (SortedEntry × IndexInput) := do
  let (ordsEntry, metaIn) ← readNumeric resource metaIn
  let (termsDictEntry, metaIn) ← readTermDict metaIn
  return (⟨ordsEntry, termsDictEntry⟩, metaIn)

/-- Read the entry of a sorted set. -/
def readSortedSet (metaIn : IndexInput) : Result (SortedSetEntry × IndexInput) := do
  let (multiValued, metaIn) ← metaIn.readByte
  if multiValued = 0 then
    let (entry, metaIn) ← readSorted resource metaIn
    return (.singleValue entry, metaIn)
  else if multiValued = 1 then
    let (ordsEntry, metaIn) ← readSortedNumeric resource metaIn
    let (termsDictEntry, metaIn) ← readTermDict metaIn
    return (.multiValue ordsEntry termsDictEntry, metaIn)
  else
    .error (.corruptIndex s!"Invalid multiValued flag: {multiValued} resource {resource}")

/-- The field of a number, which must not be negative. -/
def fieldInfoByNumber (infos : List FieldInfo) (fieldNumber : Int) : Result (Option FieldInfo) :=
  if fieldNumber < 0 then .error (.illegalArgument s!"Illegal field number: {fieldNumber}")
  else .ok (infos.find? (·.number = fieldNumber))

/-- The entry of one field, by the type of its doc values. -/
def readEntry (info : FieldInfo) (typeByte : UInt8) (entries : FieldEntries)
    (metaIn : IndexInput) : Result (FieldEntries × IndexInput) :=
  if typeByte = numericType then do
    let (entry, metaIn) ← readNumeric resource metaIn
    return ({ entries with numerics := (info.number, entry) :: entries.numerics }, metaIn)
  else if typeByte = binaryType then do
    let (entry, metaIn) ← readBinary metaIn
    return ({ entries with binaries := (info.number, entry) :: entries.binaries }, metaIn)
  else if typeByte = sortedType then do
    let (entry, metaIn) ← readSorted resource metaIn
    return ({ entries with sorted := (info.number, entry) :: entries.sorted }, metaIn)
  else if typeByte = sortedSetType then do
    let (entry, metaIn) ← readSortedSet resource metaIn
    return ({ entries with sortedSets := (info.number, entry) :: entries.sortedSets }, metaIn)
  else if typeByte = sortedNumericType then do
    let (entry, metaIn) ← readSortedNumeric resource metaIn
    return ({ entries with
      sortedNumerics := (info.number, entry) :: entries.sortedNumerics }, metaIn)
  else .error (.corruptIndex s!"Invalid doc values type: {typeByte}")

/-- The skip index of a field, if it has one. -/
def readSkipper (info : FieldInfo) (entries : FieldEntries) (metaIn : IndexInput) :
    Result (FieldEntries × IndexInput) :=
  if info.docValuesSkipIndexType ≠ .none then do
    let (skipper, metaIn) ← readDocValueSkipperMeta metaIn
    return ({ entries with skippers := (info.number, skipper) :: entries.skippers }, metaIn)
  else .ok (entries, metaIn)

/-- Read the entries of one field. -/
def readField (infos : List FieldInfo) (fieldNumber : Int) (entries : FieldEntries)
    (metaIn : IndexInput) : Result (FieldEntries × IndexInput) := do
  let info ← fieldInfoByNumber infos fieldNumber
  match info with
  | none => .error (.corruptIndex
      s!"Field number {fieldNumber} not found in field infos, resource {resource}")
  | some info =>
    let (typeByte, metaIn) ← metaIn.readByte
    let (entries, metaIn) ← readSkipper info entries metaIn
    readEntry resource info typeByte entries metaIn

/-- Read fields until the end marker. Each takes at least the bytes of its number, so the length of
the file is enough fuel. -/
def readFieldsLoop (infos : List FieldInfo) : (fuel : Nat) → FieldEntries → IndexInput →
    Result (FieldEntries × IndexInput)
  | 0, _, _ => .error (.unreachable "the fields do not end")
  | fuel + 1, entries, metaIn => do
    let (fieldNumber, metaIn) ← metaIn.readInt
    if fieldNumber = -1 then return (entries, metaIn)
    else
      let (entries, metaIn) ← readField resource infos fieldNumber entries metaIn
      readFieldsLoop infos fuel entries metaIn

/-- Read the entries of all fields. -/
def readFields (infos : List FieldInfo) (metaIn : IndexInput) :
    Result (FieldEntries × IndexInput) :=
  readFieldsLoop resource infos (metaIn.bytes.length + 1) .empty metaIn

end

/-! ## Packed values -/

/-- The reader of packed values, with a buffer if the segment is merged. -/
def getDirectReaderInstance (merging : Bool) (slice : Option RandomAccessInput)
    (bitsPerValue : Int) (offset numValues : Nat) : Result DirectPackedEnum :=
  if merging then
    .ok (.getMergeInstanceWithBaseOffset slice bitsPerValue.toNat offset numValues)
  else DirectPackedEnum.getInstanceWithOffset slice bitsPerValue.toNat offset

/-- A reader of blocks of different widths. -/
structure VaryingBPVReader where
  slice : RandomAccessInput
  rankSlice : Option RandomAccessInput
  valuesOffset : Nat
  numValues : Nat
  shift : Nat
  mul : Int
  mask : Nat
  block : Option Nat
  delta : Int
  offset : Nat
  blockEndOffset : Nat
  merging : Bool
  values : Option DirectPackedEnum

namespace VaryingBPVReader

/-- A reader that has not loaded a block yet. -/
def new (entry : NumericEntry) (slice : RandomAccessInput) (data : IndexInput) (merging : Bool) :
    Result VaryingBPVReader := do
  let rankSlice ← (if entry.valueJumpTableOffset = -1 then .ok none
    else do
      let offset := asU 64 entry.valueJumpTableOffset
      let rankSlice ← data.randomAccessSlice offset (data.length - offset)
      return some rankSlice)
  let shift := entry.blockShift.toNat
  return {
    slice, rankSlice, shift, merging
    valuesOffset := entry.valuesOffset
    numValues := entry.numValues
    mul := entry.gcd
    mask := 1 <<< shift - 1
    block := none
    delta := 0
    offset := 0
    blockEndOffset := 0
    values := none }

/-- The number of the block behind the current one. -/
def nextBlock (r : VaryingBPVReader) : Nat :=
  r.block.elim 0 (· + 1)

/-- Jump to the start of a block, unless it comes next or there is no table. -/
def jump (r : VaryingBPVReader) (block : Nat) : Result VaryingBPVReader :=
  match r.rankSlice with
  | some rankSlice =>
    if block ≠ r.nextBlock then do
      let pointer ← rankSlice.readLong (block * 8)
      if asU 64 pointer < r.valuesOffset then .error (.illegalState "underflow?")
      else return { r with
        blockEndOffset := asU 64 pointer - r.valuesOffset
        block := if block = 0 then none else some (block - 1) }
    else .ok r
  | none => .ok r

/-- Read the header of the block behind the current one. -/
def readHeader (r : VaryingBPVReader) : Result (Nat × VaryingBPVReader) := do
  let bitsPerValue ← r.slice.readByte r.blockEndOffset
  let delta ← r.slice.readLong (r.blockEndOffset + 1)
  let offset := r.blockEndOffset + 9
  if bitsPerValue = 0 then
    return (0, { r with delta, offset, blockEndOffset := offset, block := some r.nextBlock })
  else
    let length ← r.slice.readInt offset
    return (bitsPerValue.toNat, { r with
      delta
      offset := offset + 4
      blockEndOffset := offset + 4 + asU 64 length
      block := some r.nextBlock })

/-- Go to a block. A header takes some bytes of the slice, so its length is enough fuel. -/
def seekBlock (block : Nat) : (fuel : Nat) → VaryingBPVReader → Result (Nat × VaryingBPVReader)
  | 0, _ => .error (.unreachable "the blocks do not end")
  | fuel + 1, r => do
    let r ← r.jump block
    let (bitsPerValue, r) ← r.readHeader
    if r.block = some block then return (bitsPerValue, r) else seekBlock block fuel r

/-- Open the values of a block. -/
def loadBlock (r : VaryingBPVReader) (block : Nat) : Result VaryingBPVReader := do
  let (bitsPerValue, r) ← r.seekBlock block (r.slice.bytes.length + 1)
  let numValues := min (1 <<< r.shift) (r.numValues - block <<< r.shift)
  if bitsPerValue = 0 then return { r with values := some .zeroes }
  else
    let values ← getDirectReaderInstance r.merging none bitsPerValue r.offset numValues
    return { r with values := some values }

/-- The value at an index; its block is loaded if it is another one. -/
def getLongValue (r : VaryingBPVReader) (index : Nat) : Result (Int × VaryingBPVReader) := do
  let block := index >>> r.shift
  let r ← (if r.block ≠ some block then r.loadBlock block else .ok r)
  match r.values with
  | none => .error (.illegalState "values is None")
  | some values =>
    let (v, values) ← values.readFromSlice (index &&& r.mask) (some r.slice)
    return (asI 64 (asI 64 (r.mul * v) + r.delta), { r with values := some values })

end VaryingBPVReader

/-- The values of a field by index, one constructor for each encoding. -/
inductive ValuesReader where
  | constant (minValue : Int)
  | block (reader : VaryingBPVReader)
  | table (table : List Int) (values : DirectPackedEnum)
  | scaled (values : DirectPackedEnum) (mul minValue : Int)
  | delta (values : DirectPackedEnum) (minValue : Int)
  | direct (values : DirectPackedEnum)

namespace ValuesReader

/-- The value at an index. -/
def getMut (r : ValuesReader) (index : Nat) : Result (Int × ValuesReader) :=
  match r with
  | .constant minValue => .ok (minValue, .constant minValue)
  | .block reader => do
    let (v, reader) ← reader.getLongValue index
    return (v, .block reader)
  | .table entries values => do
    let (v, values) ← values.readFromSlice index none
    match entries[asU 64 v]? with
    | some v => return (v, .table entries values)
    | none => .error .indexOutOfBounds
  | .scaled values mul minValue => do
    let (v, values) ← values.readFromSlice index none
    return (asI 64 (asI 64 (mul * v) + minValue), .scaled values mul minValue)
  | .delta values minValue => do
    let (v, values) ← values.readFromSlice index none
    return (asI 64 (v + minValue), .delta values minValue)
  | .direct values => do
    let (v, values) ← values.readFromSlice index none
    return (v, .direct values)

end ValuesReader

/-! ## Numeric doc values -/

/-- The iterators of a numeric field. -/
inductive NumericDocValues where
  | dense (sub : ValuesReader) (maxDoc : Nat) (doc : Int)
  | sparse (sub : ValuesReader) (disi : IndexedDISIImpl)
  | empty (doc : Int)

namespace NumericDocValues

/-- The current document. -/
def docId : NumericDocValues → Int
  | dense _ _ doc => doc
  | sparse _ disi => disi.doc
  | empty doc => doc

/-- The documents of a dense field are all documents. -/
def denseDoc (maxDoc : Nat) (target : Int) : Int :=
  if target ≥ maxDoc then noMoreDocs else target

/-- A call that moves the iterator. -/
def move (r : NumericDocValues) (call : Call) : Result (Answer × NumericDocValues) :=
  match r with
  | dense sub maxDoc doc =>
    match call with
    | .nextDoc =>
      .ok (.doc (denseDoc maxDoc (doc + 1)), dense sub maxDoc (denseDoc maxDoc (doc + 1)))
    | .advance target =>
      .ok (.doc (denseDoc maxDoc target), dense sub maxDoc (denseDoc maxDoc target))
    | .advanceExact target => .ok (.found true, dense sub maxDoc target)
  | sparse sub disi => do
    let (answer, disi) ← IndexedDISI.step disi call
    return (answer, sparse sub disi)
  | empty _ =>
    match call with
    | .nextDoc | .advance _ => .ok (.doc noMoreDocs, empty noMoreDocs)
    | .advanceExact target => .ok (.found false, empty target)

/-- The index of a document in a dense field; the block reader checks the conversion. -/
def denseIndex (sub : ValuesReader) (doc : Int) : Result Nat :=
  match sub with
  | .block _ => do
    let index ← tryConvert .usize doc
    return index.toNat
  | _ => .ok (asU 64 doc)

/-- The value of the current document. -/
def longValue (r : NumericDocValues) : Result (Int × NumericDocValues) :=
  match r with
  | dense sub maxDoc doc => do
    let index ← denseIndex sub doc
    let (v, sub) ← sub.getMut index
    return (v, dense sub maxDoc doc)
  | sparse sub disi => do
    let (v, sub) ← sub.getMut (asU 64 disi.index)
    return (v, sparse sub disi)
  | empty doc => .ok (0, empty doc)

/-- Any call. -/
def step (r : NumericDocValues) : NumericCall → Result (NumericAnswer × NumericDocValues)
  | .move call => do
    let (answer, r) ← r.move call
    return (.moved answer, r)
  | .longValue => do
    let (v, r) ← r.longValue
    return (.value v, r)

end NumericDocValues

/-! ## Sorted-numeric doc values -/

/-- An iterator over a field that all documents have. -/
structure DenseSortedNumericDocValues where
  maxDoc : Nat
  start : Int
  stop : Int
  doc : Int
  count : Int
  values : ValuesReader
  addresses : DirectMonotonicReader

/-- An iterator over a field that some documents have. -/
structure SparseSortedNumericDocValues where
  disi : IndexedDISIImpl
  values : ValuesReader
  addresses : DirectMonotonicReader
  isSet : Bool
  start : Int
  stop : Int
  count : Int

/-- The iterators of a field of several values. -/
inductive SortedNumericDocValues where
  | dense (r : DenseSortedNumericDocValues)
  | sparse (r : SparseSortedNumericDocValues)
  | singleton (inner : NumericDocValues)

section

variable (ops : FloatOps)

/-- Where the values of the document at an index start and stop. -/
def readRange (addresses : DirectMonotonicReader) (index : Nat) :
    Result (Int × Int × DirectMonotonicReader) := do
  let (start, addresses) ← addresses.getMut ops index
  let (stop, addresses) ← addresses.getMut ops (index + 1)
  return (start, stop, addresses)

namespace DenseSortedNumericDocValues

/-- Go to a document of the segment. -/
def position (r : DenseSortedNumericDocValues) (target : Int) :
    Result DenseSortedNumericDocValues := do
  let (start, stop, addresses) ← readRange ops r.addresses (asU 64 target)
  return { r with start, stop, addresses, count := asI 32 (stop - start), doc := target }

/-- The document from the target on, with its range of values. -/
def advance (r : DenseSortedNumericDocValues) (target : Int) :
    Result (Int × DenseSortedNumericDocValues) :=
  if target ≥ r.maxDoc then .ok (noMoreDocs, { r with doc := noMoreDocs })
  else do
    let r ← r.position ops target
    return (r.doc, r)

/-- A call that moves the iterator. -/
def move (r : DenseSortedNumericDocValues) : Call → Result (Answer × DenseSortedNumericDocValues)
  | .nextDoc => do
    let (doc, r) ← r.advance ops (r.doc + 1)
    return (.doc doc, r)
  | .advance target => do
    let (doc, r) ← r.advance ops target
    return (.doc doc, r)
  | .advanceExact target => do
    let r ← r.position ops target
    return (.found true, r)

/-- The next value of the current document. -/
def nextValue (r : DenseSortedNumericDocValues) : Result (Int × DenseSortedNumericDocValues) := do
  let (v, values) ← r.values.getMut (asU 64 r.start)
  return (v, { r with values, start := r.start + 1 })

end DenseSortedNumericDocValues

namespace SparseSortedNumericDocValues

/-- Find the values of the current document, once. -/
def set (r : SparseSortedNumericDocValues) : Result SparseSortedNumericDocValues :=
  if r.isSet then .ok r
  else do
    let (start, stop, addresses) ← readRange ops r.addresses (asU 64 r.disi.index)
    return { r with start, stop, addresses, count := asI 32 (stop - start), isSet := true }

/-- A call that moves the iterator. -/
def move (r : SparseSortedNumericDocValues) (call : Call) :
    Result (Answer × SparseSortedNumericDocValues) := do
  let (answer, disi) ← IndexedDISI.step r.disi call
  return (answer, { r with disi, isSet := false })

/-- The next value of the current document. -/
def nextValue (r : SparseSortedNumericDocValues) :
    Result (Int × SparseSortedNumericDocValues) := do
  let r ← r.set ops
  let (v, values) ← r.values.getMut (asU 64 r.start)
  return (v, { r with values, start := r.start + 1 })

/-- How many values the current document has. -/
def docValueCount (r : SparseSortedNumericDocValues) :
    Result (Int × SparseSortedNumericDocValues) := do
  let r ← r.set ops
  return (r.count, r)

end SparseSortedNumericDocValues

namespace SortedNumericDocValues

/-- The current document. -/
def docId : SortedNumericDocValues → Int
  | dense r => r.doc
  | sparse r => r.disi.doc
  | singleton inner => inner.docId

/-- A multi-valued view of an iterator that has not been used. -/
def singletonNumeric (inner : NumericDocValues) : Result SortedNumericDocValues :=
  if inner.docId ≠ -1 then
    .error (.illegalState s!"iterator has already been used: docID={inner.docId}")
  else .ok (singleton inner)

/-- Any call. -/
def step (r : SortedNumericDocValues) (call : SortedNumericCall) :
    Result (SortedNumericAnswer × SortedNumericDocValues) :=
  match r with
  | dense r =>
    match call with
    | .move call => do
      let (answer, r) ← r.move ops call
      return (.moved answer, dense r)
    | .docValueCount => .ok (.count r.count, dense r)
    | .nextValue => do
      let (v, r) ← r.nextValue
      return (.value v, dense r)
  | sparse r =>
    match call with
    | .move call => do
      let (answer, r) ← r.move call
      return (.moved answer, sparse r)
    | .docValueCount => do
      let (count, r) ← r.docValueCount ops
      return (.count count, sparse r)
    | .nextValue => do
      let (v, r) ← r.nextValue ops
      return (.value v, sparse r)
  | singleton inner =>
    match call with
    | .move call => do
      let (answer, inner) ← inner.move call
      return (.moved answer, singleton inner)
    | .docValueCount => .ok (.count 1, singleton inner)
    | .nextValue => do
      let (v, inner) ← inner.longValue
      return (.value v, singleton inner)

end SortedNumericDocValues

end

/-! ## The producer -/

/-- The reader of a segment's values. -/
structure DocValuesProducer where
  entries : FieldEntries
  data : IndexInput
  maxDoc : Nat
  merging : Bool

namespace DocValuesProducer

/-- A reader of the values for which `mul`, `delta` and the table decide between the encodings. -/
def openValues (p : DocValuesProducer) (entry : NumericEntry)
    (plain : DirectPackedEnum → ValuesReader) : Result ValuesReader :=
  if entry.bitsPerValue = 0 then .ok (.constant entry.minValue)
  else do
    let slice ← p.data.randomAccessSlice entry.valuesOffset entry.valuesLength
    if entry.blockShift ≥ 0 then
      let reader ← VaryingBPVReader.new entry slice p.data p.merging
      return .block reader
    else
      let values ← getDirectReaderInstance p.merging (some slice) entry.bitsPerValue 0
        entry.numValues
      match entry.table with
      | some table => return .table table values
      | none => return plain values

/-- The values of a numeric field. -/
def openNumeric (p : DocValuesProducer) (entry : NumericEntry) : Result ValuesReader :=
  p.openValues entry fun values =>
    if entry.gcd = 1 ∧ entry.minValue = 0 then .direct values
    else .scaled values entry.gcd entry.minValue

/-- The values of a sorted-numeric field. -/
def getNumericValues (p : DocValuesProducer) (entry : NumericEntry) : Result ValuesReader :=
  p.openValues entry fun values =>
    if entry.gcd ≠ 1 then .scaled values entry.gcd entry.minValue
    else if entry.minValue ≠ 0 then .delta values entry.minValue
    else .direct values

/-- The iterator over the documents of a field. -/
def openDisi (p : DocValuesProducer) (entry : NumericEntry) (cost : Int) :
    Result IndexedDISIImpl :=
  IndexedDISI.new p.data (asU 64 entry.docsWithFieldOffset) entry.docsWithFieldLength
    entry.jumpTableEntryCount entry.denseRankPower cost

/-- The iterator over the values of an entry. -/
def getNumericOfEntry (p : DocValuesProducer) (entry : NumericEntry) : Result NumericDocValues :=
  if entry.docsWithFieldOffset = -2 then .ok (.empty (-1))
  else if entry.docsWithFieldOffset = -1 then do
    let sub ← p.openNumeric entry
    return .dense sub p.maxDoc (-1)
  else do
    let disi ← p.openDisi entry (asI 64 entry.numValues)
    let sub ← p.openNumeric entry
    return .sparse sub disi

/-- The same for several values; one value each is the simple case. -/
def getSortedNumericOfEntry (p : DocValuesProducer) (entry : SortedNumericEntry) :
    Result SortedNumericDocValues :=
  if entry.base.numValues = asU 64 entry.numDocsWithField then do
    let inner ← p.getNumericOfEntry entry.base
    SortedNumericDocValues.singletonNumeric inner
  else do
    let addressesInput ← p.data.randomAccessSlice entry.addressesOffset entry.addressesLength
    match entry.addressesMeta with
    | none => .error (.illegalState "addresses_meta is None")
    | some info =>
      let addresses ← DirectMonotonicReader.getInstanceWithMerging info addressesInput p.merging
      let values ← p.getNumericValues entry.base
      if entry.base.docsWithFieldOffset = -1 then
        return .dense ⟨p.maxDoc, 0, 0, -1, 0, values, addresses⟩
      else
        let disi ← p.openDisi entry.base entry.numDocsWithField
        return .sparse ⟨disi, values, addresses, false, 0, 0, 0⟩

/-- The values of a numeric field. -/
def getNumeric (p : DocValuesProducer) (field : FieldInfo) : Result NumericDocValues :=
  match p.entries.numerics.lookup field.number with
  | none => .error (.illegalState s!"Missing numeric entry for field {field.number}")
  | some entry => p.getNumericOfEntry entry

/-- The values of a field of several values. -/
def getSortedNumeric (p : DocValuesProducer) (field : FieldInfo) :
    Result SortedNumericDocValues :=
  match p.entries.sortedNumerics.lookup field.number with
  | none => .error (.illegalState s!"Missing sorted numeric entry for field {field.number}")
  | some entry => p.getSortedNumericOfEntry entry

end DocValuesProducer

end RLucene.Codecs.Lucene90.DocValues
