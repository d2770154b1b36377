import RLucene.Codecs.Lucene90.DocValues.Encoding
import RLucene.Codecs.Lucene90.DocValues.Producer
import RLucene.Codecs.Lucene90.IndexedDISI.ReaderCorrect

/-!
# The layout of doc values

What consumer and producer agree on. The metadata of a field is the byte form of its entry, and the
entry describes the data: `DocsAt` locates the documents, `ValuesAt` the values in one of the three
forms in which they are stored. Data that is appended later does not change what is described.
-/

namespace RLucene.Codecs.Lucene90.DocValues

open Lib Store Util.Packed Index
open IndexedDISI (Block Ascending allDocs layout entryCount)

/-! ## Blocks of values -/

/-- The least value of a block. -/
def blockMin (values : List Int) : Int :=
  values.tail.foldl min (values.headD 0)

/-- The greatest value of a block. -/
def blockMax (values : List Int) : Int :=
  values.tail.foldl max (values.headD 0)

/-- The width of a block. -/
def blockWidth (gcd : Int) (values : List Int) : Nat :=
  unsignedBitsRequired ((asI 64 (blockMax values - blockMin values)).tdiv gcd)

/-- The packed differences of a block to its least value. -/
def blockPacked (gcd : Int) (values : List Int) : Bytes :=
  directBytes (blockWidth gcd values) (values.map fun v => (asI 64 (v - blockMin values)).tdiv gcd)

/-- The bytes of a block. -/
def blockBytes (gcd : Int) (values : List Int) : Bytes :=
  if blockMin values = blockMax values then 0 :: intLE 8 (blockMin values)
  else UInt8.ofNat (blockWidth gcd values) :: intLE 8 (blockMin values) ++
    intLE 4 (blockPacked gcd values).length ++ blockPacked gcd values

/-- The bytes of all blocks. -/
def blocksBytes (gcd : Int) (groups : List (List Int)) : Bytes :=
  groups.flatMap (blockBytes gcd)

/-- Where each block starts, for blocks from `base` on, and behind them the end of the last one. -/
def blockStarts (gcd : Int) (base : Nat) : List (List Int) → List Nat
  | [] => [base]
  | values :: groups => base :: blockStarts gcd (base + (blockBytes gcd values).length) groups

/-- The bytes of the jump table: where each block starts. -/
def jumpTableBytes (gcd : Int) (base : Nat) (groups : List (List Int)) : Bytes :=
  (blockStarts gcd base groups).flatMap fun (start : Nat) => intLE 8 start

/-! ## The byte form of entries -/

/-- Where the documents of a field are. -/
structure DocsLocation where
  offset : Int
  length : Nat
  jumpTableEntryCount : Int
  denseRankPower : Int
  deriving DecidableEq, Repr

/-- The bytes of the location. -/
def DocsLocation.bytes (l : DocsLocation) : Bytes :=
  intLE 8 l.offset ++ intLE 8 l.length ++ intLE 2 l.jumpTableEntryCount ++ [byteOf l.denseRankPower]

/-- All fields are in the range of their types. -/
structure DocsLocation.Valid (l : DocsLocation) : Prop where
  offset : asI 64 l.offset = l.offset
  length : l.length < 2 ^ 64
  jumpTableEntryCount : asI 16 l.jumpTableEntryCount = l.jumpTableEntryCount
  denseRankPower : asI 8 l.denseRankPower = l.denseRankPower

namespace NumericEntry

/-- Where the documents of an entry are. -/
def docsLocation (e : NumericEntry) : DocsLocation :=
  ⟨e.docsWithFieldOffset, e.docsWithFieldLength, e.jumpTableEntryCount, e.denseRankPower⟩

/-- The size of the table, or what stands in its place. -/
def tableSize (e : NumericEntry) : Int :=
  match e.table with
  | some table => table.length
  | none => if 0 ≤ e.blockShift then -2 - e.blockShift else -1

/-- The bytes of the table. -/
def tableBytes (e : NumericEntry) : Bytes :=
  intLE 4 e.tableSize ++ (e.table.getD []).flatMap (intLE 8)

/-- The bytes that describe the values. -/
def valuesBytes (e : NumericEntry) : Bytes :=
  [byteOf e.bitsPerValue] ++ intLE 8 e.minValue ++ intLE 8 e.gcd ++ intLE 8 e.valuesOffset ++
    intLE 8 e.valuesLength ++ intLE 8 e.valueJumpTableOffset

/-- The bytes of an entry. -/
def bytes (e : NumericEntry) : Bytes :=
  e.docsLocation.bytes ++ intLE 8 e.numValues ++ e.tableBytes ++ e.valuesBytes

/-- All fields are in the range of their types. -/
structure Valid (e : NumericEntry) : Prop where
  docs : e.docsLocation.Valid
  numValues : e.numValues < 2 ^ 64
  table : ∀ table, e.table = some table → table.length ≤ 256 ∧ Longs table ∧ e.blockShift = -1
  blockShift : e.blockShift = -1 ∨ 0 ≤ e.blockShift ∧ e.blockShift < 2 ^ 30
  bitsPerValue : asI 8 e.bitsPerValue = e.bitsPerValue
  minValue : asI 64 e.minValue = e.minValue
  gcd : asI 64 e.gcd = e.gcd
  valuesOffset : e.valuesOffset < 2 ^ 64
  valuesLength : e.valuesLength < 2 ^ 64
  valueJumpTableOffset : asI 64 e.valueJumpTableOffset = e.valueJumpTableOffset

end NumericEntry

/-- The bytes of an entry. -/
def DocValuesSkipperEntry.bytes (e : DocValuesSkipperEntry) : Bytes :=
  intLE 8 e.offset ++ intLE 8 e.length ++ intLE 8 e.maxValue ++ intLE 8 e.minValue ++
    intLE 4 e.docCount ++ intLE 4 e.maxDocId

/-! ## What an entry describes -/

/-- The documents of a field: none, all, or those of a bit set in the data. -/
inductive DocsAt (data : Bytes) (maxDoc : Nat) (docs : List Nat) (l : DocsLocation) : Prop where
  | empty (hoffset : l.offset = -2) (hdocs : docs = [])
  | dense (hoffset : l.offset = -1) (hdocs : docs = List.range maxDoc)
  | sparse (offset : Nat) (blocks : List Block) (hoffset : l.offset = offset)
      (hlt : offset < 2 ^ 63) (hasc : Ascending blocks) (hdocs : allDocs blocks = docs)
      (hat : At data offset (layout defaultDenseRankPower blocks))
      (hlength : l.length = (layout defaultDenseRankPower blocks).length)
      (hcount : l.jumpTableEntryCount = asI 16 (entryCount blocks))
      (hpower : l.denseRankPower = defaultDenseRankPower)

/-- The values of a field: all equal, one packed stream, or blocks with a jump table. -/
inductive ValuesAt (data : Bytes) (values : List Int) (e : NumericEntry) : Prop where
  | constant (hbits : e.bitsPerValue = 0) (hvalues : ∀ v ∈ values, v = e.minValue)
  | packed (bits : Nat) (encode : Int → Int) (hbits : e.bitsPerValue = bits)
      (hshift : e.blockShift = -1) (hsupported : bits ∈ supportedBitsPerValue)
      (hne : values ≠ []) (hfit : Fits bits (unsigned (values.map encode)))
      (hdecode : ∀ v ∈ values, decode e.table e.gcd e.minValue (asI 64 (encode v)) = some v)
      (hat : At data e.valuesOffset (directBytes bits (values.map encode)))
      (hlength : e.valuesLength = (directBytes bits (values.map encode)).length)
  | blocks (hbits : e.bitsPerValue ≠ 0) (hshift : e.blockShift = numericBlockShift)
      (hne : values ≠ []) (hgcd : 0 < e.gcd) (hdvd : ∀ u ∈ values, ∀ v ∈ values, e.gcd ∣ v - u)
      (hsmall : ∀ u ∈ values, ∀ v ∈ values, e.gcd = 1 ∨ v - u < 2 ^ 63)
      (hat : At data e.valuesOffset
        (blocksBytes e.gcd (chunks numericBlockSize values) ++
          jumpTableBytes e.gcd e.valuesOffset (chunks numericBlockSize values)))
      (hlength : e.valuesLength = (blocksBytes e.gcd (chunks numericBlockSize values) ++
        jumpTableBytes e.gcd e.valuesOffset (chunks numericBlockSize values)).length)
      (hjump : e.valueJumpTableOffset =
        ((e.valuesOffset + (blocksBytes e.gcd (chunks numericBlockSize values)).length : Nat) :
          Int))
      (hlt : e.valuesOffset + e.valuesLength < 2 ^ 63)

/-- The entry describes a field in the data. -/
structure NumericEntry.Describes (data : Bytes) (maxDoc : Nat) (entries : Entries)
    (e : NumericEntry) : Prop where
  valid : e.Valid
  numValues : e.numValues = entries.values.length
  docs : DocsAt data maxDoc entries.docs e.docsLocation
  values : ValuesAt data entries.values e

section

variable (ops : FloatOps)

/-- Running sums of the numbers of values, in the blocks in which they are stored. -/
def addressGroups (entries : Entries) : List (List Int) :=
  chunks (2 ^ directMonotonicBlockShift) (DocValuesConsumer.addresses entries)

/-- The byte form of a sorted-numeric entry. Addresses follow only if some document has several
values. -/
def sortedNumericBytes (entries : Entries) (n : SortedNumericEntry) : Bytes :=
  n.base.bytes ++ intLE 4 n.numDocsWithField ++
    if entries.length < entries.values.length then
      intLE 8 n.addressesOffset ++ vIntBytes directMonotonicBlockShift ++
        metaBytes ops 0 (addressGroups entries) ++ intLE 8 n.addressesLength
    else []

/-- The addresses of a field whose documents do not all have one value. -/
structure AddressesAt (data : Bytes) (entries : Entries) (n : SortedNumericEntry) : Prop where
  info : n.addressesMeta =
    some (metaOf ops directMonotonicBlockShift (DocValuesConsumer.addresses entries))
  stored : At data n.addressesOffset (dataBytes ops (addressGroups entries))
  length : n.addressesLength = (dataBytes ops (addressGroups entries)).length
  size : n.addressesOffset + n.addressesLength ≤ data.length
  small : n.addressesOffset + n.addressesLength < 2 ^ 63

/-- The sorted-numeric entry describes a field in the data. -/
structure SortedNumericEntry.Describes (data : Bytes) (maxDoc : Nat) (entries : Entries)
    (n : SortedNumericEntry) : Prop where
  base : n.base.Describes data maxDoc entries
  numDocs : n.numDocsWithField = entries.length
  single : ¬ entries.length < entries.values.length →
    n.addressesMeta = none ∧ n.addressesOffset = 0 ∧ n.addressesLength = 0
  addresses : entries.length < entries.values.length → AddressesAt ops data entries n

end

/-! ## Growing data -/

variable {data : Bytes} {maxDoc : Nat} {e : NumericEntry} {entries : Entries}

/-- More data does not matter. -/
theorem DocsAt.append {docs : List Nat} {l : DocsLocation} (h : DocsAt data maxDoc docs l)
    (rest : Bytes) : DocsAt (data ++ rest) maxDoc docs l := by
  cases h with
  | empty hoffset hdocs => exact .empty hoffset hdocs
  | dense hoffset hdocs => exact .dense hoffset hdocs
  | sparse offset blocks hoffset hlt hasc hdocs hat hlength hcount hpower =>
    exact .sparse offset blocks hoffset hlt hasc hdocs (hat.append rest) hlength hcount hpower

/-- More data does not matter. -/
theorem ValuesAt.append {values : List Int} (h : ValuesAt data values e) (rest : Bytes) :
    ValuesAt (data ++ rest) values e := by
  cases h with
  | constant hbits hvalues => exact .constant hbits hvalues
  | packed bits encode hbits hshift hsupported hne hfit hdecode hat hlength =>
    exact .packed bits encode hbits hshift hsupported hne hfit hdecode (hat.append rest) hlength
  | blocks hbits hshift hne hgcd hdvd hsmall hat hlength hjump hlt =>
    exact .blocks hbits hshift hne hgcd hdvd hsmall (hat.append rest) hlength hjump hlt

/-- More data does not matter. -/
theorem NumericEntry.Describes.append (h : e.Describes data maxDoc entries) (rest : Bytes) :
    e.Describes (data ++ rest) maxDoc entries :=
  ⟨h.valid, h.numValues, h.docs.append rest, h.values.append rest⟩

/-- More data does not matter. -/
theorem SortedNumericEntry.Describes.append {ops : FloatOps} {n : SortedNumericEntry}
    (h : n.Describes ops data maxDoc entries) (rest : Bytes) :
    n.Describes ops (data ++ rest) maxDoc entries := by
  refine ⟨h.base.append rest, h.numDocs, h.single, fun hmany => ?_⟩
  obtain ⟨info, hat, hlength, hsize, hsmall⟩ := h.addresses hmany
  refine ⟨info, hat.append rest, hlength, ?_, hsmall⟩
  rw [List.length_append]
  omega

end RLucene.Codecs.Lucene90.DocValues
