import Mathlib.Data.Vector.Basic
import RLucene.Util.PriorityQueue

/-!
# Document maps for a merge

A merge maps the documents of its readers to documents of the merged segment. With an index sort
`MultiSorter` does a merge sort of the readers; if it finds nothing to sort, or without an index
sort, documents are only moved up over the deleted ones before them.

A reader is seen through its number of documents, its live documents and its blocks. The values that
an index sorter compares come from providers, one for each field and reader. Packed values are
lists.
-/

namespace RLucene.Index

open Lib Store Util

/-! ## Readers -/

/-- The most documents that an index may have. -/
def maxDocs : Nat :=
  2147483647 - 128

/-- A bit, if there is one. -/
def bitsGet (bits : List Bool) (index : Nat) : Result Bool :=
  match bits[index]? with
  | some bit => .ok bit
  | none => .error .indexOutOfBounds

/-- The live documents and the blocks of a reader. `parentDocs` are the documents that have the
parent field. -/
structure CodecReader where
  maxDoc : Nat
  liveDocs : Option (List Bool)
  numDocs : Nat
  hasBlocks : Bool
  parentField : Option String
  parentDocs : Option (List Nat)
  createdVersionMajor : Nat
  liveDocs_length : ∀ bits, liveDocs = some bits → bits.length = maxDoc
  numDocs_eq : numDocs = (liveDocs.elim maxDoc fun bits => bits.count true)

/-- Whether a document is live; without bits all are. -/
def isLive (liveDocs : Option (List Bool)) (doc : Nat) : Result Bool :=
  match liveDocs with
  | none => .ok true
  | some bits => bitsGet bits doc

/-! ## Comparing documents -/

/-- A field of an index sort. It has a provider of comparable values for each reader, if it can be
used for index sorting. -/
structure SortField where
  display : String
  reverse : Bool
  providers : Option (List (Nat → Int))

/-- Minus one for a field in reverse order. -/
def reverseMul (field : SortField) : Int :=
  if field.reverse then -1 else 1

/-- `next_set_bit` of the parents of a reader. -/
def nextSetBit (parents : List Nat) (doc : Nat) : Nat :=
  (parents.find? fun parent => doc ≤ parent).getD 2147483647

/-- The provider for one reader: children of a block have the values of their parent. -/
def wrapProvider (reader : CodecReader) (provider : Nat → Int) : Result (Nat → Int) :=
  if reader.hasBlocks then
    match reader.parentField with
    | some parentField =>
      match reader.parentDocs with
      | none => .error (.illegalState
          s!"parent field {parentField} must be present if index sorting is used with blocks")
      | some parents => .ok fun doc => provider (nextSetBit parents doc)
    | none =>
      if 10 ≤ reader.createdVersionMajor then
        .error (.corruptIndex ("parent field is not set but the index has blocks and uses index " ++
          s!"sorting. indexCreatedVersionMajor: {reader.createdVersionMajor}"))
      else .ok provider
  else .ok provider

/-- The values of each reader, or an error when there are too few. -/
def wrapProviders : List CodecReader → List (Nat → Int) → Nat → Result (List (Nat → Int))
  | [], _, _ => .ok []
  | _ :: _, [], j => .error (.illegalState
      s!"index sorter did not return a comparable provider for reader {j}")
  | reader :: readers, provider :: providers, j => do
    let wrapped ← wrapProvider reader provider
    let rest ← wrapProviders readers providers (j + 1)
    return wrapped :: rest

/-- The comparable values of a field, for each reader. -/
def fieldComparables (readers : List CodecReader) (field : SortField) :
    Result (List (Nat → Int)) :=
  match field.providers with
  | none => .error (.illegalArgument
      s!"Cannot use sort field {field.display} for index sorting")
  | some providers => wrapProviders readers providers 0

/-- A document of a reader, with its value for each of `n` fields. -/
structure LeafAndDocId (n : Nat) where
  readerIndex : Nat
  liveDocs : Option (List Bool)
  maxDoc : Nat
  valuesAsComparableLongs : List.Vector Int n
  docId : Nat

/-- The first difference of two lists of values decides, if there is one. -/
def compareValues : List Int → List Int → List Int → Option Bool
  | mul :: muls, a :: as, b :: bs =>
    if a = b then compareValues muls as bs
    else some (decide (mul * (if a < b then -1 else 1) < 0))
  | _, _, _ => none

/-- A single field needs no loop over the values. -/
def compareSingle : List Int → List Int → List Int → Option Bool
  | mul :: _, a :: _, b :: _ =>
    if a = b then none else some (decide (mul * (if a < b then -1 else 1) < 0))
  | _, _, _ => none

/-- The order of the documents. -/
def lessThan (single : Bool) (reverseMuls : List Int) {n : Nat} (a b : LeafAndDocId n) : Bool :=
  match (if single then compareSingle else compareValues) reverseMuls
      a.valuesAsComparableLongs.toList b.valuesAsComparableLongs.toList with
  | some less => less
  | none =>
    -- tie-break by the natural order of documents
    if a.readerIndex ≠ b.readerIndex then a.readerIndex < b.readerIndex else a.docId < b.docId

/-! ## Document maps -/

/-- How documents are mapped: by a sort, or past the deleted ones. -/
inductive MergeStateDocMapHook where
  | sorted (remapped : List Int)
  | deletions (delDocMap : Option (List Int)) (docBase : Int)

/-- Where the documents of a reader go. -/
structure MergeStateDocMap where
  liveDocs : Option (List Bool)
  hook : MergeStateDocMapHook

/-- An entry of a table, if there is one. -/
def packedGet (values : List Int) (index : Nat) : Result Int :=
  match values[index]? with
  | some value => .ok value
  | none => .error .indexOutOfBounds

/-- Where a document goes, or `-1` if it is deleted. -/
def MergeStateDocMap.get (map : MergeStateDocMap) (docId : Nat) : Result Int :=
  match map.hook with
  | .sorted remapped => do
    if ← isLive map.liveDocs docId then
      let value ← packedGet remapped docId
      return asI 32 value
    else return -1
  | .deletions delDocMap docBase =>
    match map.liveDocs, delDocMap with
    | none, none => .ok (asI 32 (docBase + docId))
    | some bits, some delDocMap => do
      if ← bitsGet bits docId then
        let value ← packedGet delDocMap docId
        return asI 32 (docBase + asI 32 value)
      else return -1
    | _, _ => .error (.illegalState "should not be here")

/-! ## Merge sort -/

/-- The documents that are next, and the maps so far. -/
structure MergeLoop (n : Nat) where
  queue : PriorityQueue (LeafAndDocId n)
  builders : List (List Int)
  mappedDocId : Int
  lastReaderIndex : Nat
  isSorted : Bool

section

variable {n : Nat} (lt : LeafAndDocId n → LeafAndDocId n → Bool)
  (getValues : Nat → Nat → List.Vector Int n)

/-- Map the document on top, and go to the next one of its reader. -/
def mergeTop (s : MergeLoop n) (top : LeafAndDocId n) : Result (MergeLoop n) := do
  let isSorted := if s.lastReaderIndex > top.readerIndex then false else s.isSorted
  let builders := s.builders.modify top.readerIndex (· ++ [s.mappedDocId])
  let live ← isLive top.liveDocs top.docId
  let mappedDocId := if live then s.mappedDocId + 1 else s.mappedDocId
  let docId := top.docId + 1
  let queue := if docId < top.maxDoc then
      s.queue.updateTopWithNewTop lt
        { top with docId, valuesAsComparableLongs := getValues top.readerIndex docId }
    else (s.queue.pop lt).2
  return { queue, builders, mappedDocId, lastReaderIndex := top.readerIndex, isSorted }

/-- As long as the queue has documents. -/
def mergeLoop : Nat → MergeLoop n → Result (MergeLoop n)
  | 0, s => .ok s
  | fuel + 1, s =>
    match s.queue.top with
    | none => .ok s
    | some top => do
      let s ← mergeTop lt getValues s top
      mergeLoop fuel s

/-- Put the first document of a reader into the queue. -/
def addLeaf (queue : PriorityQueue (LeafAndDocId n)) (reader : CodecReader × Nat) :
    Result (PriorityQueue (LeafAndDocId n)) :=
  queue.add lt ⟨reader.2, reader.1.liveDocs, reader.1.maxDoc, getValues reader.2 0, 0⟩

end

/-- Merge the documents by their values. -/
def sortWithProviders (single : Bool) (readers : List CodecReader) (reverseMuls : List Int)
    (getValues : Nat → Nat → List.Vector Int reverseMuls.length) :
    Result (Option (List MergeStateDocMap)) := do
  let lt := lessThan single reverseMuls
  let queue ← PriorityQueue.new readers.length
  let queue ← readers.zipIdx.foldlM (addLeaf lt getValues) queue
  let s ← mergeLoop lt getValues (readers.map CodecReader.maxDoc).sum
    ⟨queue, readers.map fun _ => [], 0, 0, true⟩
  if s.isSorted then return none
  else
    return some ((readers.zip s.builders).map fun (reader, remapped) =>
      ⟨reader.liveDocs, .sorted remapped⟩)

/-- The values of a document for all fields. -/
def documentValues (n : Nat) (comparables : List (List (Nat → Int))) (reader doc : Nat) :
    List.Vector Int n :=
  List.Vector.ofFn fun j => ((comparables[j.val]?.bind fun comparable => comparable[reader]?).map
    fun provider => provider doc).getD 0

/-- Merge sort the readers. Nothing is returned if they are in order as they stand. -/
def MultiSorter.sort (fields : List SortField) (readers : List CodecReader) :
    Result (Option (List MergeStateDocMap)) := do
  let comparables ← fields.mapM (fieldComparables readers)
  sortWithProviders (fields.length == 1) readers (fields.map reverseMul)
    (documentValues _ comparables)

/-! ## Deletions -/

/-- The places of documents among the live ones. -/
def removeDeletesLoop : List Bool → Int → Int → List Int
  | [], _, _ => []
  | live :: rest, i, del =>
    (i - del) :: removeDeletesLoop rest (i + 1) (if live then del else del + 1)

/-- The live documents before each document. -/
def removeDeletes (maxDoc : Nat) (liveDocs : List Bool) : List Int :=
  removeDeletesLoop (liveDocs.take maxDoc) 0 0

/-- The maps of readers that are not sorted. -/
def buildDeletionDocMaps : List CodecReader → Int → List MergeStateDocMap
  | [], _ => []
  | reader :: readers, totalDocs =>
    ⟨reader.liveDocs,
      .deletions (reader.liveDocs.map fun bits => removeDeletes reader.maxDoc bits) totalDocs⟩ ::
      buildDeletionDocMaps readers (asI 32 (totalDocs + reader.numDocs))

/-- The maps of a merge, and whether documents have been sorted. -/
def buildDocMaps (indexSort : Option (List SortField)) (readers : List CodecReader) :
    Result (Bool × List MergeStateDocMap) :=
  match indexSort with
  | none => .ok (false, buildDeletionDocMaps readers 0)
  | some fields => do
    match ← MultiSorter.sort fields readers with
    | none => return (false, buildDeletionDocMaps readers 0)
    | some maps => return (true, maps)

end RLucene.Index
