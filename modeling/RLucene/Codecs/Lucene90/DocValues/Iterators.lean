import RLucene.Codecs.Lucene90.DocValues.ValuesReader

/-!
# The doc-values iterators

The iterators that the producer opens refine the abstract machines of a field. `Stands` relates a
state of an iterator to the abstract state it stands for, one case for each kind of iterator; every
legal call answers as the machine does and keeps the relation.
-/

namespace RLucene.Codecs.Lucene90.DocValues

open List Lib Store Util Util.Packed Index Search
open IndexedDISI (Block Ascending allDocs layout entryCount IndexedDISIImpl
  Inv WellFormed)

variable {maxDoc : Nat} {f : FieldValues maxDoc} {call : Call} {entry : NumericEntry}

/-! ## Documents -/

/-- The next document if all have values. -/
theorem leastFrom_range (n target : Nat) :
    leastFrom (range n) target = if target ≥ n then noMoreDocs else target := by
  split
  · refine leastFrom_eq_noMoreDocs fun d hd => ?_
    have := mem_range.mp hd
    omega
  · exact leastFrom_of_mem (Increasing.range n) (mem_range.mpr (by omega))

/-- The dense iterator goes there. -/
theorem denseDoc_eq {target : Int} (h : 0 ≤ target) :
    NumericDocValues.denseDoc maxDoc target = leastFrom (range maxDoc) target.toNat := by
  rw [NumericDocValues.denseDoc, leastFrom_range]
  by_cases hge : target ≥ maxDoc
  · rw [if_pos hge, if_pos (by omega)]
  · rw [if_neg hge, if_neg (by omega), Int.toNat_of_nonneg h]

theorem le_specDoc (docs : List Nat) (doc : Int) (call : Call) : -1 ≤ specDoc docs doc call := by
  cases call <;> (rw [specDoc]; omega)

/-- The state of a document iterator over the documents of the field. -/
structure DisiStands (f : FieldValues maxDoc) (doc : Int) (disi : IndexedDISIImpl) : Prop where
  place : ∃ blocks, WellFormed defaultDenseRankPower blocks ∧ allDocs blocks = f.entries.docs ∧
    Inv defaultDenseRankPower blocks doc disi

namespace DisiStands

variable {doc : Int} {disi : IndexedDISIImpl}

/-- The iterator is on the document. -/
theorem doc_eq (h : DisiStands f doc disi) : disi.doc = doc := by
  obtain ⟨blocks, -, -, hinv⟩ := h.place
  exact hinv.doc_eq

/-- One call. -/
theorem step (h : DisiStands f doc disi) (hlegal : Legal f.entries.docs doc call) :
    ∃ disi', IndexedDISI.step disi call = .ok (specAnswer f.entries.docs doc call, disi') ∧
      DisiStands f (specDoc f.entries.docs doc call) disi' := by
  obtain ⟨blocks, hw, hdocs, hinv⟩ := h.place
  rw [← hdocs] at hlegal ⊢
  obtain ⟨disi', hstep, hnext⟩ := IndexedDISI.step_correct hw doc disi call hinv hlegal
  exact ⟨disi', hstep, ⟨blocks, hw, hdocs, hnext⟩⟩

/-- On a document of the field the iterator knows the document's index. -/
theorem index_eq (h : DisiStands f doc disi) {index : Nat} {vs : List Int}
    (hentry : f.entries.EntryAt doc index vs) (hmax : maxDoc ≤ noMoreDocs) :
    asU 64 disi.index = index := by
  obtain ⟨blocks, hw, hdocs, hinv⟩ := h.place
  obtain ⟨d, hget, rfl⟩ := hentry
  have hmem : d ∈ allDocs blocks := hdocs ▸ mem_of_getElem? (f.docs_of_entryAt hget)
  have hindex := f.index_eq ⟨d, hget, rfl⟩
  have hlt := (List.getElem_of_getElem? hget).1
  have hle := f.length_le
  unfold noMoreDocs at hmax
  rw [hinv.index_eq hw hmem, hdocs, ← hindex]
  exact asU_of_lt (by omega)

end DisiStands

/-! ## Numeric iterators -/

namespace NumericDocValues

/-- The iterator stands at a document of the field. -/
inductive Stands (f : FieldValues maxDoc) (doc : Int) : NumericDocValues → Prop where
  | empty (hdocs : f.entries.docs = []) : Stands f doc (.empty doc)
  | dense {sub : ValuesReader} (hdocs : f.entries.docs = range maxDoc)
      (hreads : sub.Reads f.entries.values) (hge : -1 ≤ doc) : Stands f doc (.dense sub maxDoc doc)
  | sparse {sub : ValuesReader} {disi : IndexedDISIImpl} (hdisi : DisiStands f doc disi)
      (hreads : sub.Reads f.entries.values) : Stands f doc (.sparse sub disi)

variable {doc : Int} {r : NumericDocValues}

/-- The current document. -/
theorem Stands.docId_eq (h : Stands f doc r) : r.docId = doc := by
  cases h with
  | empty hdocs => rfl
  | dense hdocs hreads hge => rfl
  | sparse hdisi hreads => exact hdisi.doc_eq

/-- One call. -/
theorem Stands.move (h : Stands f doc r) (hlegal : LegalMove f.entries.docs maxDoc doc call) :
    ∃ r', r.move call = .ok (specAnswer f.entries.docs doc call, r') ∧
      Stands f (specDoc f.entries.docs doc call) r' := by
  obtain ⟨hcall, hexact⟩ := hlegal
  cases h with
  | empty hdocs =>
    rw [hdocs]
    cases call with
    | nextDoc => exact ⟨_, rfl, .empty hdocs⟩
    | advance target => exact ⟨_, rfl, .empty hdocs⟩
    | advanceExact target => exact ⟨_, rfl, .empty hdocs⟩
  | dense hdocs hreads hge =>
    rw [hdocs]
    cases call with
    | nextDoc =>
      refine ⟨.dense _ maxDoc (leastFrom (range maxDoc) (doc + 1).toNat), ?_,
        .dense hdocs hreads (le_specDoc _ _ _)⟩
      rw [NumericDocValues.move, denseDoc_eq (by omega), specAnswer]
    | advance target =>
      refine ⟨.dense _ maxDoc (leastFrom (range maxDoc) target), ?_,
        .dense hdocs hreads (le_specDoc _ _ _)⟩
      rw [NumericDocValues.move, denseDoc_eq (by omega), specAnswer, Int.toNat_natCast]
    | advanceExact target =>
      refine ⟨.dense _ maxDoc target, ?_, .dense hdocs hreads (le_specDoc _ _ _)⟩
      rw [NumericDocValues.move, specAnswer, decide_eq_true (mem_range.mpr (hexact _ rfl))]
  | sparse hdisi hreads =>
    obtain ⟨disi', hstep, hnext⟩ := hdisi.step hcall
    refine ⟨_, ?_, .sparse hnext hreads⟩
    rw [NumericDocValues.move, hstep]
    rfl

/-- The index of a document is its number. -/
theorem denseIndex_eq (sub : ValuesReader) {d : Nat} (hd : d < 2 ^ 63) :
    denseIndex sub d = .ok d := by
  have hconv : tryConvert .usize (d : Int) = .ok (d : Int) := tryConvert_ok (usize_holds hd)
  have hcast : asU 64 (d : Int) = d := asU_of_lt (by omega)
  cases sub with
  | block reader =>
    rw [denseIndex, hconv]
    rfl
  | constant _ | table _ _ | scaled _ _ _ | delta _ _ | direct _ => exact congrArg Except.ok hcast

/-- On a document of a field with single values, the value is read. -/
theorem Stands.longValue (h : Stands f doc r) (hone : ∀ entry ∈ f.entries, entry.2.length = 1)
    (hmax : maxDoc ≤ noMoreDocs) (hlegal : f.entries.valuesAt doc ≠ []) :
    ∃ r', r.longValue = .ok ((f.entries.valuesAt doc).headD 0, r') ∧ Stands f doc r' := by
  obtain ⟨index, hentry⟩ := f.exists_entryAt hlegal
  have hvalue := f.single_value hone hentry
  cases h with
  | empty hdocs =>
    obtain ⟨d, hget, -⟩ := hentry
    have hdoc := f.docs_of_entryAt hget
    simp [hdocs] at hdoc
  | dense hdocs hreads hge =>
    have hindex := f.index_of_range hdocs hentry
    obtain ⟨d, hget, rfl⟩ := hentry
    obtain rfl : d = index := by omega
    have hlt := (List.getElem_of_getElem? hget).1
    have hle := f.length_le
    obtain ⟨sub', hread, hnext⟩ := hreads.get hvalue
    unfold noMoreDocs at hmax
    refine ⟨_, ?_, .dense hdocs hnext hge⟩
    rw [NumericDocValues.longValue, denseIndex_eq _ (by omega), ok_bind, hread]
    rfl
  | sparse hdisi hreads =>
    obtain ⟨sub', hread, hnext⟩ := hreads.get hvalue
    refine ⟨_, ?_, .sparse hdisi hnext⟩
    rw [NumericDocValues.longValue, hdisi.index_eq hentry hmax, hread]
    rfl

/-- The iterators over a field with single values refine its abstract machine. -/
theorem step_refines (hone : ∀ entry ∈ f.entries, entry.2.length = 1) (hmax : maxDoc ≤ noMoreDocs) :
    (numericDocValues maxDoc f.entries).Refines (Stands f) step := by
  intro doc r call h hlegal
  cases call with
  | move call =>
    obtain ⟨r', hmove, hnext⟩ := h.move hlegal
    refine ⟨r', ?_, hnext⟩
    rw [step, hmove]
    rfl
  | longValue =>
    obtain ⟨r', hvalue, hnext⟩ := h.longValue hone hmax hlegal
    refine ⟨r', ?_, hnext⟩
    rw [step, hvalue]
    rfl

end NumericDocValues

/-! ## Sorted-numeric iterators -/

section

variable (ops : FloatOps)

/-- The reader gives the addresses of the field. -/
def AddressesStand (f : FieldValues maxDoc) (addresses : DirectMonotonicReader) : Prop :=
  ∃ deltas, DirectMonotonicReader.Holds ops deltas (DocValuesConsumer.addresses f.entries) addresses

variable {ops} {addresses : DirectMonotonicReader} {index : Nat} {vs : List Int} {doc : Int}
  (hmax : maxDoc ≤ noMoreDocs)

include hmax

/-- The address of an entry. -/
theorem AddressesStand.getMut (h : AddressesStand ops f addresses)
    (hindex : index ≤ f.entries.length) :
    ∃ addresses', addresses.getMut ops index = .ok ((f.start index : Int), addresses') ∧
      AddressesStand ops f addresses' := by
  obtain ⟨deltas, hholds⟩ := h
  have hlen : index < (DocValuesConsumer.addresses f.entries).length := by
    rw [addresses_length]
    omega
  obtain ⟨addresses', hread, hnext⟩ := DirectMonotonicReader.getMut_spec ops hholds hlen
  have hvalue : (DocValuesConsumer.addresses f.entries)[index] = (f.start index : Int) := by
    simp only [addresses_eq, getElem_map, getElem_range]
    rfl
  have hle : f.start index ≤ f.entries.values.length := by
    exact ((take_sublist _ _).flatMap _).length_le
  have hlt := f.length_values_lt hmax
  rw [hvalue, asI_64 (by omega) (by omega)] at hread
  exact ⟨addresses', hread, deltas, hnext⟩

/-- The range of an entry. -/
theorem AddressesStand.readRange (h : AddressesStand ops f addresses)
    (hentry : f.entries.EntryAt doc index vs) :
    ∃ addresses', readRange ops addresses index =
        .ok ((f.start index : Int), ((f.start index + vs.length : Nat) : Int), addresses') ∧
      AddressesStand ops f addresses' := by
  obtain ⟨d, hget, -⟩ := id hentry
  have hlt := (List.getElem_of_getElem? hget).1
  obtain ⟨first, hfirst, hstands⟩ := h.getMut hmax hlt.le
  obtain ⟨second, hsecond, hstands'⟩ := hstands.getMut hmax (Nat.succ_le_of_lt hlt)
  rw [f.start_succ hentry] at hsecond
  refine ⟨second, ?_, hstands'⟩
  rw [DocValues.readRange, hfirst, ok_bind]
  dsimp only
  rw [hsecond]
  rfl

/-- The range that has been read belongs to the document, and some of it has been taken. -/
def RangeStands (f : FieldValues maxDoc) (position : ValuePosition) (start count : Int) : Prop :=
  ∀ index vs, f.entries.EntryAt position.doc index vs →
    start = ((f.start index + position.taken : Nat) : Int) ∧ count = vs.length

omit hmax in
/-- No value has been taken yet. -/
theorem RangeStands.of_range (hentry : f.entries.EntryAt doc index vs) :
    RangeStands f ⟨doc, 0⟩ (f.start index)
      (asI 32 (((f.start index + vs.length : Nat) : Int) - (f.start index : Nat))) := by
  intro index' vs' hentry'
  have hvs : vs = vs' := (f.valuesAt_eq hentry).symm.trans (f.valuesAt_eq hentry')
  obtain ⟨d, hget, rfl⟩ := hentry
  obtain rfl : index = index' := (f.index_eq ⟨d, hget, rfl⟩).trans (f.index_eq hentry').symm
  have hlt : vs.length < 2 ^ 31 := f.length_lt _ (mem_of_getElem? hget)
  refine ⟨rfl, ?_⟩
  rw [← hvs]
  push_cast
  rw [add_sub_cancel_left]
  exact asI_32 (by omega) (by omega)

/-- The next value of a document. -/
theorem RangeStands.next {position : ValuePosition} {start count : Int} {values : ValuesReader}
    (h : RangeStands f position start count) (hreads : values.Reads f.entries.values)
    (hlegal : position.taken < (f.entries.valuesAt position.doc).length) :
    (∃ values', values.getMut (asU 64 start) =
        .ok ((f.entries.valuesAt position.doc).getD position.taken 0, values') ∧
      values'.Reads f.entries.values) ∧
      RangeStands f ⟨position.doc, position.taken + 1⟩ (start + 1) count := by
  obtain ⟨index, hentry⟩ := f.exists_entryAt (ne_nil_of_length_pos (Nat.zero_lt_of_lt hlegal))
  obtain ⟨hstart, -⟩ := h _ _ hentry
  have hvalue := f.values_get hentry hlegal
  have hlt := (List.getElem_of_getElem? hvalue).1
  have hsmall := f.length_values_lt hmax
  refine ⟨?_, fun index' vs' hentry' => ?_⟩
  · rw [hstart, asU_of_lt (n := f.start index + position.taken) (by omega),
      getD_eq_getElem _ _ hlegal]
    exact hreads.get hvalue
  · obtain ⟨hstart', hcount'⟩ := h _ _ hentry'
    refine ⟨?_, hcount'⟩
    rw [hstart']
    push_cast
    ring

variable (ops)

namespace DenseSortedNumericDocValues

/-- The iterator stands at a position, and all documents have values. -/
structure Stands (f : FieldValues maxDoc) (position : ValuePosition)
    (r : DenseSortedNumericDocValues) : Prop where
  docs_eq : f.entries.docs = range maxDoc
  maxDoc_eq : r.maxDoc = maxDoc
  doc_eq : r.doc = position.doc
  doc_ge : -1 ≤ position.doc
  reads : r.values.Reads f.entries.values
  addresses : AddressesStand ops f r.addresses
  range : RangeStands f position r.start r.count

variable {ops} {p : ValuePosition} {r : DenseSortedNumericDocValues} (h : Stands ops f p r)

include h

/-- The iterator is put on a document. -/
theorem Stands.toPosition {target : Nat} (htarget : target < maxDoc) :
    ∃ r', r.position ops target = .ok r' ∧ Stands ops f ⟨target, 0⟩ r' := by
  obtain ⟨vs, hentry⟩ := f.entryAt_of_range h.docs_eq htarget
  obtain ⟨addresses', hread, hnext⟩ := h.addresses.readRange hmax hentry
  unfold noMoreDocs at hmax
  have hvalid : (-1 : Int) ≤ target := by omega
  rw [DenseSortedNumericDocValues.position, asU_of_lt (n := target) (by omega), hread]
  exact ⟨_, rfl, h.docs_eq, h.maxDoc_eq, rfl, hvalid, h.reads, hnext, RangeStands.of_range hentry⟩

/-- The iterator goes to the first document from the target on. -/
theorem Stands.advance (target : Nat) :
    ∃ r', r.advance ops target = .ok ((leastFrom f.entries.docs target : Int), r') ∧
      Stands ops f ⟨leastFrom f.entries.docs target, 0⟩ r' := by
  rw [DenseSortedNumericDocValues.advance, h.docs_eq, leastFrom_range, h.maxDoc_eq]
  by_cases hge : target ≥ maxDoc
  · rw [if_pos hge, if_pos (by exact_mod_cast hge)]
    have hend : (-1 : Int) ≤ noMoreDocs := by decide
    refine ⟨_, rfl, ⟨h.docs_eq, rfl, rfl, hend, h.reads, h.addresses, ?_⟩⟩
    -- the end is not a document of the field
    intro index vs hentry
    have hindex : (noMoreDocs : Int) = index := f.index_of_range h.docs_eq hentry
    obtain ⟨d, hget, -⟩ := hentry
    have hlt := (List.getElem_of_getElem? hget).1
    have hle := f.length_le
    omega
  · rw [if_neg hge, if_neg (by exact_mod_cast hge)]
    obtain ⟨r', hposition, hnext⟩ := h.toPosition hmax (Nat.lt_of_not_le hge)
    refine ⟨r', ?_, hnext⟩
    rw [hposition, ok_bind, hnext.doc_eq]
    rfl

/-- One call that moves it. -/
theorem Stands.move (hlegal : LegalMove f.entries.docs maxDoc p.doc call) :
    ∃ r', r.move ops call = .ok (specAnswer f.entries.docs p.doc call, r') ∧
      Stands ops f ⟨specDoc f.entries.docs p.doc call, 0⟩ r' := by
  have hge := h.doc_ge
  cases call with
  | nextDoc =>
    obtain ⟨r', hadvance, hnext⟩ := h.advance hmax (p.doc + 1).toNat
    rw [Int.toNat_of_nonneg (by omega)] at hadvance
    refine ⟨r', ?_, hnext⟩
    rw [DenseSortedNumericDocValues.move, h.doc_eq, hadvance]
    rfl
  | advance target =>
    obtain ⟨r', hadvance, hnext⟩ := h.advance hmax target
    refine ⟨r', ?_, hnext⟩
    rw [DenseSortedNumericDocValues.move, hadvance]
    rfl
  | advanceExact target =>
    have htarget := hlegal.2 target rfl
    obtain ⟨r', hposition, hnext⟩ := h.toPosition hmax htarget
    refine ⟨r', ?_, hnext⟩
    rw [DenseSortedNumericDocValues.move, hposition, specAnswer, h.docs_eq,
      decide_eq_true (mem_range.mpr htarget)]
    rfl

end DenseSortedNumericDocValues

namespace SparseSortedNumericDocValues

/-- The iterator stands at a position; it may have to look up the range of values. -/
structure Stands (f : FieldValues maxDoc) (position : ValuePosition)
    (r : SparseSortedNumericDocValues) : Prop where
  disi : DisiStands f position.doc r.disi
  reads : r.values.Reads f.entries.values
  addresses : AddressesStand ops f r.addresses
  range : r.isSet = true → RangeStands f position r.start r.count
  fresh : r.isSet = false → position.taken = 0

variable {ops} {position : ValuePosition} {r : SparseSortedNumericDocValues}

/-- The range is looked up when it is needed. -/
theorem Stands.set (h : Stands ops f position r) (hlegal : f.entries.valuesAt position.doc ≠ []) :
    ∃ r', r.set ops = .ok r' ∧ Stands ops f position r' ∧ r'.isSet = true := by
  unfold SparseSortedNumericDocValues.set
  cases hset : r.isSet with
  | true => exact ⟨r, rfl, h, hset⟩
  | false =>
    obtain ⟨index, hentry⟩ := f.exists_entryAt hlegal
    obtain ⟨addresses', hread, hnext⟩ := h.addresses.readRange hmax hentry
    have hposition : position = ⟨position.doc, 0⟩ := by
      rw [← h.fresh hset]
    rw [h.disi.index_eq hentry hmax, hread]
    refine ⟨_, rfl, ⟨h.disi, h.reads, hnext, fun _ => ?_, nofun⟩, rfl⟩
    rw [hposition]
    exact RangeStands.of_range hentry

omit hmax in
/-- One call that moves it. -/
theorem Stands.move (h : Stands ops f position r)
    (hlegal : Legal f.entries.docs position.doc call) :
    ∃ r', r.move call = .ok (specAnswer f.entries.docs position.doc call, r') ∧
      Stands ops f ⟨specDoc f.entries.docs position.doc call, 0⟩ r' := by
  obtain ⟨disi', hstep, hnext⟩ := h.disi.step hlegal
  refine ⟨{ r with disi := disi', isSet := false }, ?_,
    ⟨hnext, h.reads, h.addresses, fun hset => ?_,
    fun _ => rfl⟩⟩
  · rw [SparseSortedNumericDocValues.move, hstep]
    rfl
  · cases hset

end SparseSortedNumericDocValues

namespace SortedNumericDocValues

/-- The iterator stands at a document of the field, with some of its values taken. -/
inductive Stands (f : FieldValues maxDoc) (position : ValuePosition) :
    SortedNumericDocValues → Prop where
  | dense {r : DenseSortedNumericDocValues}
      (h : DenseSortedNumericDocValues.Stands ops f position r) : Stands f position (.dense r)
  | sparse {r : SparseSortedNumericDocValues}
      (h : SparseSortedNumericDocValues.Stands ops f position r) : Stands f position (.sparse r)
  | singleton {inner : NumericDocValues} (hone : ∀ entry ∈ f.entries, entry.2.length = 1)
      (h : NumericDocValues.Stands f position.doc inner) : Stands f position (.singleton inner)

variable {ops} {position : ValuePosition} {r : SortedNumericDocValues}

omit hmax in
/-- The current document. -/
theorem Stands.docId_eq (h : Stands ops f position r) : r.docId = position.doc := by
  cases h with
  | dense h => exact h.doc_eq
  | sparse h => exact h.disi.doc_eq
  | singleton hone h => exact h.docId_eq

variable (ops)

/-- The iterators over a field refine its abstract machine. -/
theorem step_refines_sorted :
    (sortedNumericDocValues maxDoc f.entries).Refines (Stands ops f) (step ops) := by
  intro position r call h hlegal
  cases h with
  | dense h =>
    cases call with
    | move call =>
      obtain ⟨r', hmove, hnext⟩ := h.move hmax hlegal
      refine ⟨_, ?_, .dense hnext⟩
      rw [step, hmove]
      rfl
    | docValueCount =>
      obtain ⟨index, hentry⟩ := f.exists_entryAt hlegal
      refine ⟨_, ?_, .dense h⟩
      rw [step, (h.range _ _ hentry).2]
      rfl
    | nextValue =>
      obtain ⟨⟨values', hread, hreads⟩, hrange⟩ := h.range.next hmax h.reads hlegal
      rw [step, DenseSortedNumericDocValues.nextValue, hread]
      exact ⟨_, rfl, .dense ⟨h.docs_eq, h.maxDoc_eq, h.doc_eq, h.doc_ge, hreads, h.addresses,
        hrange⟩⟩
  | sparse h =>
    cases call with
    | move call =>
      obtain ⟨r', hmove, hnext⟩ := h.move hlegal.1
      refine ⟨_, ?_, .sparse hnext⟩
      rw [step, hmove]
      rfl
    | docValueCount =>
      -- the range of values is set by the first call that needs it
      obtain ⟨r', hset, hnext, htrue⟩ := h.set hmax hlegal
      obtain ⟨index, hentry⟩ := f.exists_entryAt hlegal
      refine ⟨_, ?_, .sparse hnext⟩
      rw [step, SparseSortedNumericDocValues.docValueCount, hset, ok_bind,
        (hnext.range htrue _ _ hentry).2]
      rfl
    | nextValue =>
      have hne : f.entries.valuesAt position.doc ≠ [] := by
        intro hnil
        have hlt : position.taken < (f.entries.valuesAt position.doc).length := hlegal
        simp [hnil] at hlt
      obtain ⟨r', hset, hnext, htrue⟩ := h.set hmax hne
      obtain ⟨⟨values', hread, hreads⟩, hrange⟩ :=
        (hnext.range htrue).next hmax hnext.reads hlegal
      rw [step, SparseSortedNumericDocValues.nextValue, hset, ok_bind, hread]
      refine ⟨_, rfl, .sparse ⟨hnext.disi, hreads, hnext.addresses, fun _ => hrange, ?_⟩⟩
      intro hfalse
      exact absurd (htrue.symm.trans hfalse) Bool.noConfusion
  | singleton hone h =>
    cases call with
    | move call =>
      obtain ⟨inner', hmove, hnext⟩ := h.move hlegal
      refine ⟨_, ?_, .singleton hone hnext⟩
      rw [step, hmove]
      rfl
    | docValueCount =>
      refine ⟨_, ?_, .singleton hone h⟩
      show _ =
        Except.ok (SortedNumericAnswer.count ((f.entries.valuesAt position.doc).length : Int), _)
      rw [f.valuesAt_length hone hlegal]
      rfl
    | nextValue =>
      have hlt : position.taken < (f.entries.valuesAt position.doc).length := hlegal
      have hne : f.entries.valuesAt position.doc ≠ [] := ne_nil_of_length_pos (by omega)
      have hlen := f.valuesAt_length hone hne
      obtain ⟨inner', hvalue, hnext⟩ := h.longValue hone hmax hne
      refine ⟨_, ?_, .singleton hone hnext⟩
      have htaken : position.taken = 0 := by omega
      show _ = Except.ok
        (SortedNumericAnswer.value ((f.entries.valuesAt position.doc).getD position.taken 0), _)
      rw [step, hvalue, htaken]
      cases f.entries.valuesAt position.doc <;> rfl

end SortedNumericDocValues

end

/-! ## Opening -/

namespace DocValuesProducer

variable {p : DocValuesProducer}

/-- A new iterator stands before all documents. -/
theorem openDisi_stands {offset : Nat} {blocks : List Block} (cost : Int)
    (hmax : maxDoc ≤ noMoreDocs) (hoffset : entry.docsWithFieldOffset = offset)
    (hlt : offset < 2 ^ 63) (hasc : Ascending blocks) (hdocs : allDocs blocks = f.entries.docs)
    (hat : At p.data.bytes offset (layout defaultDenseRankPower blocks))
    (hlength : entry.docsWithFieldLength = (layout defaultDenseRankPower blocks).length)
    (hcount : entry.jumpTableEntryCount = asI 16 (entryCount blocks))
    (hpower : entry.denseRankPower = defaultDenseRankPower) :
    ∃ disi, p.openDisi entry cost = .ok disi ∧ DisiStands f (-1) disi := by
  obtain ⟨disi, hnew, hinv⟩ := IndexedDISI.new_inv defaultPower_valid p.data hat cost
  refine ⟨disi, ?_, ⟨blocks, ⟨defaultPower_valid, hasc, hdocs ▸ f.increasing, ?_⟩, hdocs, hinv⟩⟩
  · rw [openDisi, hoffset, hlength, hcount, hpower, asU_of_lt (n := offset) (by omega)]
    exact hnew
  · intro d hd
    exact (f.docs_lt d (hdocs ▸ hd)).trans_le hmax

/-- The numeric iterator of a described field stands before its first document. -/
theorem getNumericOfEntry_stands (hmax : maxDoc ≤ noMoreDocs) (hp : p.maxDoc = maxDoc)
    (h : entry.Describes p.data.bytes maxDoc f.entries) :
    ∃ r, p.getNumericOfEntry entry = .ok r ∧ NumericDocValues.Stands f (-1) r := by
  obtain ⟨sub, hopen, hreads⟩ := openNumeric_reads f.longs_values h.numValues h.values
  unfold getNumericOfEntry
  cases h.docs with
  | empty hoffset hdocs =>
    have hoffset' : entry.docsWithFieldOffset = -2 := hoffset
    rw [if_pos hoffset']
    exact ⟨_, rfl, .empty hdocs⟩
  | dense hoffset hdocs =>
    have hoffset' : entry.docsWithFieldOffset = -1 := hoffset
    rw [if_neg (by omega), if_pos hoffset', hopen, hp]
    exact ⟨_, rfl, .dense hdocs hreads le_rfl⟩
  | sparse offset blocks hoffset hlt hasc hdocs hat hlength hcount hpower =>
    have hoffset' : entry.docsWithFieldOffset = offset := hoffset
    obtain ⟨disi, hdisi, hstands⟩ := openDisi_stands (f := f) (asI 64 entry.numValues) hmax hoffset'
      hlt hasc hdocs hat hlength hcount hpower
    rw [if_neg (by omega), if_neg (by omega), hdisi, ok_bind, hopen]
    exact ⟨_, rfl, .sparse hstands hreads⟩

/-- The sorted-numeric iterator of a described field stands before its first document. -/
theorem getSortedNumericOfEntry_stands {ops : FloatOps} {entry : SortedNumericEntry}
    (hmax : maxDoc ≤ noMoreDocs) (hp : p.maxDoc = maxDoc)
    (h : entry.Describes ops p.data.bytes maxDoc f.entries) :
    ∃ r, p.getSortedNumericOfEntry entry = .ok r ∧
      SortedNumericDocValues.Stands ops f ⟨-1, 0⟩ r := by
  have hle := f.length_le
  have hnumDocs : asU 64 entry.numDocsWithField = f.entries.length := by
    unfold noMoreDocs at hmax
    rw [h.numDocs]
    exact asU_of_lt (by omega)
  unfold getSortedNumericOfEntry
  rw [hnumDocs, h.base.numValues]
  by_cases hmany : f.entries.length < f.entries.values.length
  · obtain ⟨hinfo, hstored, hlength, hsize, -⟩ := h.addresses hmany
    obtain ⟨slice, hslice, hdata⟩ := IndexInput.randomAccessSlice_at hstored
      entry.addressesLength hlength.ge hsize
    obtain ⟨addresses, deltas, haddresses, hholds, -⟩ :=
      DirectMonotonicReader.getInstance_widthsHold
      ops p.merging hdata (by rw [addresses_length]; unfold noMoreDocs at hmax; omega)
    obtain ⟨values, hvalues, hreads⟩ :=
      getNumericValues_reads f.longs_values h.base.numValues h.base.values
    rw [if_neg (by omega), hslice, ok_bind, hinfo]
    dsimp only
    rw [haddresses, ok_bind, hvalues, ok_bind]
    cases h.base.docs with
    | empty hoffset hdocs =>
      have hnil : f.entries = [] := map_eq_nil_iff.mp hdocs
      simp [hnil, Entries.values] at hmany
    | dense hoffset hdocs =>
      have hoffset' : entry.base.docsWithFieldOffset = -1 := hoffset
      rw [if_pos hoffset', hp]
      refine ⟨_, rfl, .dense ⟨hdocs, rfl, rfl, le_rfl, hreads, ⟨deltas, hholds⟩, ?_⟩⟩
      -- no document has been reached
      intro index vs hentry
      have hindex : (-1 : Int) = index := f.index_of_range hdocs hentry
      omega
    | sparse offset blocks hoffset hlt hasc hdocs hat hlength hcount hpower =>
      have hoffset' : entry.base.docsWithFieldOffset = offset := hoffset
      obtain ⟨disi, hdisi, hstands⟩ := openDisi_stands (f := f) entry.numDocsWithField hmax
        hoffset' hlt hasc hdocs hat hlength hcount hpower
      rw [if_neg (by omega), hdisi]
      exact ⟨_, rfl, .sparse ⟨hstands, hreads, ⟨deltas, hholds⟩, fun hset => (by cases hset),
        fun _ => rfl⟩⟩
  · have hone := f.length_eq_one hmany
    have hsame : f.entries.values.length = f.entries.length := by
      have hfull := f.start_of_single hone le_rfl
      rwa [FieldValues.start, take_length] at hfull
    obtain ⟨inner, hinner, hstands⟩ := getNumericOfEntry_stands (f := f) hmax hp h.base
    refine ⟨.singleton inner, ?_, .singleton hone hstands⟩
    rw [if_pos hsame, hinner, ok_bind, SortedNumericDocValues.singletonNumeric,
      if_neg (not_not_intro hstands.docId_eq)]

end DocValuesProducer

end RLucene.Codecs.Lucene90.DocValues
