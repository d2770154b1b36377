import RLucene.Search.DocIdSetIterator

/-!
# Doc values

A doc-values field maps documents to lists of longs; a numeric field has lists of one value. The two
abstract machines say what the iterators over such a field answer: `numericDocValues` for
`NumericDocValues` and `sortedNumericDocValues` for `SortedNumericDocValues`, where the values of a
document are taken one after another and every move starts them anew. Beyond the contract of
document iterators, `advance_exact` is only called with documents of the segment, and values are
only asked for on a document that has some, not more often than it has.
-/

namespace RLucene.Index

open List Lib Search

/-- Whether a field has a skip index. -/
inductive DocValuesSkipIndexType where
  | none
  | range
  deriving DecidableEq, Repr

/-- The parts of a field's description that the doc-values format uses. -/
structure FieldInfo where
  number : Int
  docValuesSkipIndexType : DocValuesSkipIndexType
  deriving DecidableEq, Repr

/-- The documents of a field with their values. -/
abbrev Entries := List (Nat × List Int)

namespace Entries

/-- The documents that have values. -/
def docs (entries : Entries) : List Nat :=
  entries.map Prod.fst

/-- The values of all documents, one after another. -/
def values (entries : Entries) : List Int :=
  entries.flatMap Prod.snd

/-- The values of one document. -/
def valuesAt (entries : Entries) (doc : Int) : List Int :=
  ((entries.find? fun entry => (entry.1 : Int) = doc).map Prod.snd).getD []

end Entries

/-- A map from documents below `maxDoc` to non-empty lists of longs. The lists are shorter than
`2 ^ 31`, as their lengths are returned as `i32`. -/
structure FieldValues (maxDoc : Nat) where
  entries : Entries
  increasing : Increasing entries.docs
  lt_maxDoc : ∀ entry ∈ entries, entry.1 < maxDoc
  ne_nil : ∀ entry ∈ entries, entry.2 ≠ []
  length_lt : ∀ entry ∈ entries, entry.2.length < 2 ^ 31
  longs : ∀ entry ∈ entries, ∀ v ∈ entry.2, -2 ^ 63 ≤ v ∧ v < 2 ^ 63

/-! ## Sizes -/

theorem Entries.length_values_le {entries : Entries} {k : Nat}
    (h : ∀ entry ∈ entries, entry.2.length ≤ k) : entries.values.length ≤ entries.length * k := by
  induction entries with
  | nil => exact Nat.zero_le _
  | cons entry entries ih =>
    have hhead := h entry mem_cons_self
    have htail := ih (forall_mem_cons.mp h).2
    have hvalues : Entries.values (entry :: entries) = entry.2 ++ Entries.values entries := rfl
    rw [hvalues, length_append, length_cons, Nat.succ_mul]
    omega

variable {maxDoc : Nat}

section

variable (f : FieldValues maxDoc)

include f

/-- All values are `long`s. -/
theorem FieldValues.longs_values :
    ∀ v ∈ f.entries.values, -2 ^ 63 ≤ v ∧ v < 2 ^ 63 := by
  intro v hv
  obtain ⟨entry, hentry, hmem⟩ := mem_flatMap.mp hv
  exact f.longs entry hentry v hmem

/-- All documents are of the segment. -/
theorem FieldValues.docs_lt : ∀ d ∈ f.entries.docs, d < maxDoc := by
  intro d hd
  obtain ⟨entry, hentry, rfl⟩ := mem_map.mp hd
  exact f.lt_maxDoc entry hentry

/-- At most all documents have values. -/
theorem FieldValues.length_le : f.entries.length ≤ maxDoc := by
  have hnodup : f.entries.docs.Nodup := f.increasing.imp fun h => h.ne
  have hsub := subperm_of_subset hnodup fun d hd => mem_range.mpr (f.docs_lt d hd)
  simpa [Entries.docs] using hsub.length_le

/-- The values can be counted. -/
theorem FieldValues.length_values_lt
    (hmax : maxDoc ≤ noMoreDocs) : f.entries.values.length < 2 ^ 62 := by
  have hdocs := f.length_le
  have hle := Entries.length_values_le (k := 2 ^ 31) fun entry hentry =>
    (f.length_lt entry hentry).le
  unfold noMoreDocs at hmax
  omega

end

/-! ## The entry of a document -/

/-- The document is the one at an index of the field, with these values. -/
def Entries.EntryAt (entries : Entries) (doc : Int) (index : Nat) (vs : List Int) : Prop :=
  ∃ d : Nat, entries[index]? = some (d, vs) ∧ (d : Int) = doc

namespace FieldValues

variable {maxDoc : Nat} (f : FieldValues maxDoc) {doc : Int} {index : Nat} {vs : List Int}

/-- The document of an entry. -/
theorem docs_of_entryAt {d : Nat} (h : f.entries[index]? = some (d, vs)) :
    f.entries.docs[index]? = some d := by
  rw [Entries.docs, getElem?_map, h]
  rfl

/-- The values of a document are those of its entry. -/
theorem valuesAt_eq (h : f.entries.EntryAt doc index vs) : f.entries.valuesAt doc = vs := by
  obtain ⟨d, hget, rfl⟩ := h
  obtain ⟨hindex, hentry⟩ := List.getElem_of_getElem? hget
  have hfind : (f.entries.find? fun entry => (entry.1 : Int) = (d : Int)) = some (d, vs) := by
    refine find?_eq_some_iff_getElem.mpr ⟨by simp, index, hindex, hentry, fun j hj => ?_⟩
    have hless := pairwise_iff_getElem.mp f.increasing j index
      (by simpa [Entries.docs] using hj.trans hindex) (by simpa [Entries.docs] using hindex) hj
    simp only [Entries.docs, getElem_map, hentry] at hless
    simp only [Bool.not_eq_true', decide_eq_false_iff_not]
    omega
  rw [Entries.valuesAt, hfind]
  rfl

/-- A document with values has an entry. -/
theorem exists_entryAt (h : f.entries.valuesAt doc ≠ []) :
    ∃ index, f.entries.EntryAt doc index (f.entries.valuesAt doc) := by
  unfold Entries.valuesAt at h ⊢
  cases hfind : f.entries.find? fun entry => (entry.1 : Int) = doc with
  | none => simp [hfind] at h
  | some entry =>
    have hdoc := find?_some hfind
    obtain ⟨index, hget⟩ := mem_iff_getElem?.mp (mem_of_find?_eq_some hfind)
    exact ⟨index, entry.1, hget, by simpa using hdoc⟩

/-- The index of a document is the number of documents before it. -/
theorem index_eq {d : Nat} (h : f.entries.EntryAt d index vs) :
    index = f.entries.docs.countP (· < d) := by
  obtain ⟨e, hget, he⟩ := h
  obtain rfl : e = d := by omega
  obtain ⟨hindex, rfl⟩ := List.getElem_of_getElem? (f.docs_of_entryAt hget)
  exact (f.increasing.countP_lt_getElem hindex).symm

/-- The index of the first value of the document at an index. -/
def start (index : Nat) : Nat :=
  (Entries.values (f.entries.take index)).length

/-- Where the values of the next entry start. -/
theorem start_succ (h : f.entries.EntryAt doc index vs) :
    f.start (index + 1) = f.start index + vs.length := by
  obtain ⟨d, hget, -⟩ := h
  rw [start, take_add_one, hget, Entries.values, flatMap_append, length_append]
  simp [start, Entries.values]

/-- The values of a document stand one after another from its first one on. -/
theorem values_get (h : f.entries.EntryAt doc index vs) {j : Nat} (hj : j < vs.length) :
    f.entries.values[f.start index + j]? = some vs[j] := by
  obtain ⟨d, hget, -⟩ := h
  obtain ⟨hindex, hentry⟩ := List.getElem_of_getElem? hget
  have hsplit : f.entries.values = Entries.values (f.entries.take index) ++
      (vs ++ Entries.values (f.entries.drop (index + 1))) := by
    conv_lhs => rw [← take_append_drop index f.entries, drop_eq_getElem_cons hindex]
    rw [hentry, Entries.values, flatMap_append, flatMap_cons]
    rfl
  rw [hsplit, start, getElem?_append_right (Nat.le_add_right _ _), Nat.add_sub_cancel_left,
    getElem?_append_left hj, getElem?_eq_getElem hj]

/-- If there are as many values as documents, every document has one. -/
theorem length_eq_one (h : ¬ f.entries.length < f.entries.values.length) :
    ∀ entry ∈ f.entries, entry.2.length = 1 := by
  have hgen : ∀ entries : Entries, (∀ entry ∈ entries, entry.2 ≠ []) →
      entries.length ≤ entries.values.length ∧ (entries.values.length ≤ entries.length →
        ∀ entry ∈ entries, entry.2.length = 1) := by
    intro entries
    induction entries with
    | nil => exact fun _ => ⟨le_rfl, nofun⟩
    | cons entry entries ih =>
      intro hne
      obtain ⟨hle, hone⟩ := ih (forall_mem_cons.mp hne).2
      have hpos := length_pos_iff.mpr (hne entry mem_cons_self)
      have hlen : (Entries.values (entry :: entries)).length =
          entry.2.length + (Entries.values entries).length := length_append
      rw [hlen, length_cons]
      refine ⟨by omega, fun hall e he => ?_⟩
      cases he with
      | head => omega
      | tail _ he => exact hone (by omega) e he
  exact (hgen f.entries f.ne_nil).2 (Nat.le_of_not_lt h)

/-- In a field with one value for each document, the document's index is that of its value. -/
theorem start_of_single (h : ∀ entry ∈ f.entries, entry.2.length = 1)
    (hindex : index ≤ f.entries.length) : f.start index = index := by
  have hgen : ∀ entries : Entries, (∀ entry ∈ entries, entry.2.length = 1) →
      entries.values.length = entries.length := by
    intro entries hone
    rw [Entries.values, length_flatMap, map_congr_left hone]
    simp
  rw [start, hgen _ fun e he => h e (mem_of_mem_take he), length_take]
  omega

/-- The value of an entry that has one. -/
theorem single_value (hone : ∀ entry ∈ f.entries, entry.2.length = 1)
    (h : f.entries.EntryAt doc index vs) : f.entries.values[index]? = some (vs.headD 0) := by
  obtain ⟨d, hget, -⟩ := id h
  have hlt := (List.getElem_of_getElem? hget).1
  have hlen : vs.length = 1 := hone _ (mem_of_getElem? hget)
  have hvalue := f.values_get h (j := 0) (by omega)
  rw [f.start_of_single hone hlt.le, Nat.add_zero] at hvalue
  rw [hvalue]
  cases vs with
  | nil => simp at hlen
  | cons v vs => rfl

/-- A document with values has one. -/
theorem valuesAt_length (hone : ∀ entry ∈ f.entries, entry.2.length = 1)
    (h : f.entries.valuesAt doc ≠ []) : (f.entries.valuesAt doc).length = 1 := by
  obtain ⟨index, d, hget, -⟩ := f.exists_entryAt h
  exact hone _ (mem_of_getElem? hget)

/-! If all documents have the field, documents are their own indices. -/

/-- The entry of a document if all have values. -/
theorem index_of_range (hdocs : f.entries.docs = range maxDoc)
    (h : f.entries.EntryAt doc index vs) : doc = index := by
  obtain ⟨d, hget, rfl⟩ := h
  have hdoc := f.docs_of_entryAt hget
  rw [hdocs] at hdoc
  obtain ⟨hlt, hrange⟩ := List.getElem_of_getElem? hdoc
  rw [getElem_range] at hrange
  omega

/-- Every document has an entry then. -/
theorem entryAt_of_range (hdocs : f.entries.docs = range maxDoc) (hindex : index < maxDoc) :
    ∃ vs, f.entries.EntryAt index index vs := by
  have hlen : index < f.entries.length := by
    have := congrArg length hdocs
    rw [Entries.docs, length_map, length_range] at this
    omega
  have hget : f.entries[index]? = some (f.entries[index].1, f.entries[index].2) :=
    getElem?_eq_getElem hlen
  exact ⟨_, _, hget, f.index_of_range hdocs ⟨_, hget, rfl⟩⟩

end FieldValues

/-! ## The abstract machines -/

/-- The calls that move a doc-values iterator. -/
def LegalMove (docs : List Nat) (maxDoc : Nat) (doc : Int) (call : Call) : Prop :=
  Legal docs doc call ∧ ∀ target, call = .advanceExact target → target < maxDoc

/-- A call of a numeric iterator. -/
inductive NumericCall where
  | move (call : Call)
  | longValue
  deriving DecidableEq, Repr

/-- What it answers. -/
inductive NumericAnswer where
  | moved (answer : Answer)
  | value (value : Int)
  deriving DecidableEq, Repr

/-- The numeric doc values of a field; the state is the position. -/
def numericDocValues (maxDoc : Nat) (entries : Entries) :
    Machine Int NumericCall NumericAnswer where
  next doc
    | .move call => specDoc entries.docs doc call
    | .longValue => doc
  answer doc
    | .move call => .moved (specAnswer entries.docs doc call)
    | .longValue => .value ((entries.valuesAt doc).headD 0)
  Legal doc
    | .move call => LegalMove entries.docs maxDoc doc call
    | .longValue => entries.valuesAt doc ≠ []

/-- A call of an iterator of several values. -/
inductive SortedNumericCall where
  | move (call : Call)
  | docValueCount
  | nextValue
  deriving DecidableEq, Repr

/-- What it answers. -/
inductive SortedNumericAnswer where
  | moved (answer : Answer)
  | count (count : Int)
  | value (value : Int)
  deriving DecidableEq, Repr

/-- A document and how many of its values have been taken. -/
structure ValuePosition where
  doc : Int
  taken : Nat
  deriving DecidableEq, Repr

/-- The sorted-numeric doc values of a field. -/
def sortedNumericDocValues (maxDoc : Nat) (entries : Entries) :
    Machine ValuePosition SortedNumericCall SortedNumericAnswer where
  next position
    | .move call => ⟨specDoc entries.docs position.doc call, 0⟩
    | .docValueCount => position
    | .nextValue => ⟨position.doc, position.taken + 1⟩
  answer position
    | .move call => .moved (specAnswer entries.docs position.doc call)
    | .docValueCount => .count (entries.valuesAt position.doc).length
    | .nextValue => .value ((entries.valuesAt position.doc).getD position.taken 0)
  Legal position
    | .move call => LegalMove entries.docs maxDoc position.doc call
    | .docValueCount => entries.valuesAt position.doc ≠ []
    | .nextValue => position.taken < (entries.valuesAt position.doc).length

end RLucene.Index
