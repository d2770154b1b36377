import RLucene.Codecs.Lucene90.DocValues.Iterators
import RLucene.Codecs.Lucene90.DocValues.Metadata

/-!
# Doc values are read as they were written

A segment's numeric and sorted-numeric fields are written one after another and opened again. Every
iterator of the producer, merging or not, refines the abstract machine of its field.
-/

namespace RLucene.Codecs.Lucene90.DocValues

open List Lib Store Util.Packed Index Search

/-! ## Writing and opening a segment -/

/-- The values of a field, at most one or any number of them for each document. -/
inductive FieldData (maxDoc : Nat) where
  | numeric (f : FieldValues maxDoc) (single : ∀ entry ∈ f.entries, entry.2.length = 1)
  | sortedNumeric (f : FieldValues maxDoc)

/-- A field with its values. Field numbers are non-negative `i32`. -/
structure DocValuesField (maxDoc : Nat) where
  info : FieldInfo
  data : FieldData maxDoc
  number_nonneg : 0 ≤ info.number
  number_lt : info.number < 2 ^ 31

section

variable {maxDoc : Nat} (ops : FloatOps) (savesSpace : Int → Int → Bool)

/-- The documents of a field with their values. -/
def DocValuesField.entries (field : DocValuesField maxDoc) : Entries :=
  match field.data with
  | .numeric f _ => f.entries
  | .sortedNumeric f => f.entries

/-- A bound for the bytes of all fields in the data. -/
def fieldsBound (fields : List (DocValuesField maxDoc)) : Nat :=
  (fields.map fun field => dataBound field.entries).sum

/-- Hand a field to the consumer. -/
def addField (c : DocValuesConsumer) (field : DocValuesField maxDoc) : Result DocValuesConsumer :=
  match field.data with
  | .numeric f _ => c.addNumericField savesSpace field.info f.entries
  | .sortedNumeric f => c.addSortedNumericField ops savesSpace field.info f.entries

/-- Write all fields, and what ends them. -/
def writeFields (c : DocValuesConsumer) (fields : List (DocValuesField maxDoc)) :
    Result DocValuesConsumer := do
  let c ← fields.foldlM (addField ops savesSpace) c
  return c.close

end

/-- Open a producer over the metadata and the data. -/
def openProducer (resource : String) (infos : List FieldInfo) (metaIn data : IndexInput)
    (maxDoc : Nat) (merging : Bool) : Result DocValuesProducer := do
  let (entries, _) ← readFields resource infos metaIn
  return ⟨entries, data, maxDoc, merging⟩

/-! ## The metadata of all fields -/

variable {block : Bytes} {c : DocValuesConsumer} {number : Int} {blocks : List Bytes}

section

variable {maxDoc : Nat} (ops : FloatOps)

/-- The metadata of a field that is described in the data. -/
def FieldAt (data : Bytes) (field : DocValuesField maxDoc) (block : Bytes) : Prop :=
  ∃ skipper : Option DocValuesSkipperEntry,
    (skipper.isSome ↔ field.info.docValuesSkipIndexType ≠ .none) ∧
    match field.data with
    | .numeric f _ => ∃ n : NumericEntry,
        block = headerBytes field.info numericType skipper ++ n.bytes ∧
        n.Describes data maxDoc f.entries
    | .sortedNumeric f => ∃ n : SortedNumericEntry,
        block = headerBytes field.info sortedNumericType skipper ++
          sortedNumericBytes ops f.entries n ∧
        n.Describes ops data maxDoc f.entries

variable {ops}

/-- More data does not matter. -/
theorem FieldAt.append {data : Bytes} {field : DocValuesField maxDoc}
    (h : FieldAt ops data field block) (rest : Bytes) : FieldAt ops (data ++ rest) field block := by
  obtain ⟨skipper, hskipper, hentry⟩ := h
  refine ⟨skipper, hskipper, ?_⟩
  cases hdata : field.data with
  | numeric f single =>
    rw [hdata] at hentry
    obtain ⟨n, hblock, hdescribes⟩ := hentry
    exact ⟨n, hblock, hdescribes.append rest⟩
  | sortedNumeric f =>
    rw [hdata] at hentry
    obtain ⟨n, hblock, hdescribes⟩ := hentry
    exact ⟨n, hblock, hdescribes.append rest⟩

/-- A field is written with its metadata block. -/
theorem addField_ok (ops : FloatOps) (savesSpace : Int → Int → Bool)
    (field : DocValuesField maxDoc) (hc : c.maxDoc = maxDoc) (hmax : maxDoc ≤ noMoreDocs)
    (hsize : c.data.length + dataBound field.entries < 2 ^ 63) :
    ∃ more block, addField ops savesSpace c field =
        .ok { c with data := c.data ++ more, metaOut := c.metaOut ++ block } ∧
      more.length ≤ dataBound field.entries ∧ FieldAt ops (c.data ++ more) field block := by
  subst hc
  unfold addField FieldAt
  unfold DocValuesField.entries at hsize ⊢
  cases hdata : field.data with
  | numeric f single =>
    rw [hdata] at hsize
    obtain ⟨more, skipper, n, hskipper, hwrite, hmore, hdescribes⟩ :=
      addNumericField_ok savesSpace field.info f hmax hsize
    exact ⟨more, _, hwrite, hmore, skipper, hskipper, n, rfl, hdescribes⟩
  | sortedNumeric f =>
    rw [hdata] at hsize
    obtain ⟨more, skipper, n, hskipper, hwrite, hmore, hdescribes⟩ :=
      addSortedNumericField_ok ops savesSpace field.info f hmax hsize
    exact ⟨more, _, hwrite, hmore, skipper, hskipper, n, rfl, hdescribes⟩

/-- Fields are written one after another. Those that have been written stay described while the
data grows. -/
theorem addFields_ok (ops : FloatOps) (savesSpace : Int → Int → Bool)
    (fields : List (DocValuesField maxDoc)) (hc : c.maxDoc = maxDoc) (hmax : maxDoc ≤ noMoreDocs)
    (hsize : c.data.length + fieldsBound fields < 2 ^ 63) :
    ∃ more blocks, fields.foldlM (addField ops savesSpace) c =
        .ok { c with data := c.data ++ more, metaOut := c.metaOut ++ blocks.flatten } ∧
      Forall₂ (FieldAt ops (c.data ++ more)) fields blocks := by
  induction fields generalizing c with
  | nil => exact ⟨[], [], by rw [append_nil, flatten_nil, append_nil]; rfl, .nil⟩
  | cons field fields ih =>
    rw [fieldsBound, map_cons, sum_cons, ← fieldsBound] at hsize
    obtain ⟨more, block, hadd, hmore, hfield⟩ :=
      addField_ok ops savesSpace field hc hmax (by omega)
    obtain ⟨more', blocks, hrest, hfields⟩ := ih
      (c := { c with data := c.data ++ more, metaOut := c.metaOut ++ block }) hc
      (by dsimp only; rw [length_append]; omega)
    dsimp only at hrest hfields
    refine ⟨more ++ more', block :: blocks, ?_, ?_⟩
    · rw [foldlM_cons, hadd, ok_bind, hrest]
      simp only [append_assoc, flatten_cons]
    · rw [← append_assoc]
      exact .cons (hfield.append more') hfields

/-- All fields are written, each with its metadata block. -/
theorem writeFields_ok (ops : FloatOps) (savesSpace : Int → Int → Bool)
    (fields : List (DocValuesField maxDoc)) (hc : c.maxDoc = maxDoc) (hmax : maxDoc ≤ noMoreDocs)
    (hsize : c.data.length + fieldsBound fields < 2 ^ 63) :
    ∃ c' blocks, writeFields ops savesSpace c fields = .ok c' ∧
      c'.metaOut = c.metaOut ++ (blocks.flatten ++ intLE 4 (-1)) ∧
      Forall₂ (FieldAt ops c'.data) fields blocks := by
  obtain ⟨more, blocks, hadd, hfields⟩ := addFields_ok ops savesSpace fields hc hmax hsize
  refine ⟨DocValuesConsumer.close { c with
    data := c.data ++ more
    metaOut := c.metaOut ++ blocks.flatten }, blocks, ?_, ?_, hfields⟩
  · rw [writeFields, hadd, ok_bind, pure_eq_ok]
  · rw [← append_assoc]
    exact writeInt_eq _ _

/-- The field's entry has been read. -/
def Registered (ops : FloatOps) (data : Bytes) (entries : FieldEntries)
    (field : DocValuesField maxDoc) : Prop :=
  match field.data with
  | .numeric f _ => ∃ n, entries.numerics.lookup field.info.number = some n ∧
      n.Describes data maxDoc f.entries
  | .sortedNumeric f => ∃ n, entries.sortedNumerics.lookup field.info.number = some n ∧
      n.Describes ops data maxDoc f.entries

variable {bytes data : Bytes} {pos : Nat} (resource : String) {infos : List FieldInfo}

theorem lookup_cons_ne {α : Type} {k : Int} (h : k ≠ number) (a : α) (l : List (Int × α)) :
    ((number, a) :: l).lookup k = l.lookup k := by
  rw [lookup_cons, beq_false_of_ne h]

/-- Entries of other fields are kept when more are put in front. -/
theorem Registered.mono {entries entries' : FieldEntries} {other : DocValuesField maxDoc}
    (h : Registered ops data entries other) (hne : other.info.number ≠ number)
    (hnumerics : ∀ k ≠ number, entries'.numerics.lookup k = entries.numerics.lookup k)
    (hsorted : ∀ k ≠ number, entries'.sortedNumerics.lookup k = entries.sortedNumerics.lookup k) :
    Registered ops data entries' other := by
  unfold Registered at h ⊢
  rw [hnumerics _ hne, hsorted _ hne]
  exact h

/-- Behind the number, the type and the skip index of a field, its entry is read. -/
theorem readField_header {field : DocValuesField maxDoc} {type : UInt8}
    {skipper : Option DocValuesSkipperEntry} (entries : FieldEntries)
    (hskipper : skipper.isSome ↔ field.info.docValuesSkipIndexType ≠ .none)
    (hinfo : infos.find? (·.number = field.info.number) = some field.info)
    (h : At bytes pos (headerBytes field.info type skipper)) :
    ∃ skippers, readField resource infos field.info.number entries ⟨bytes, pos + 4⟩ =
      readEntry resource field.info type { entries with skippers }
        ⟨bytes, pos + (headerBytes field.info type skipper).length⟩ := by
  have hlookup : fieldInfoByNumber infos field.info.number = .ok (some field.info) := by
    rw [fieldInfoByNumber, if_neg (not_lt.mpr field.number_nonneg), hinfo]
  rw [headerBytes] at h ⊢
  simp only [at_append_iff, length_append, intLE_length, length_singleton] at h ⊢
  obtain ⟨⟨-, htype⟩, hskip⟩ := h
  obtain ⟨skippers, hread⟩ := readSkipper_at hskipper entries hskip
  refine ⟨skippers, ?_⟩
  rw [readField, hlookup, ok_bind]
  dsimp only
  rw [IndexInput.readByte_mk htype, ok_bind]
  rw [Nat.add_assoc pos 4 1, hread, ok_bind, Nat.add_assoc pos]

/-- The entries of a field are read. -/
theorem readField_at {field : DocValuesField maxDoc} (entries : FieldEntries)
    (hmax : maxDoc ≤ noMoreDocs) (hfield : FieldAt ops data field block)
    (hinfo : infos.find? (·.number = field.info.number) = some field.info)
      (h : At bytes pos block) :
    ∃ entries', readField resource infos field.info.number entries ⟨bytes, pos + 4⟩ =
        .ok (entries', ⟨bytes, pos + block.length⟩) ∧
      Registered ops data entries' field ∧
      ∀ other : DocValuesField maxDoc, other.info.number ≠ field.info.number →
        Registered ops data entries other → Registered ops data entries' other := by
  obtain ⟨skipper, hskipper, hentry⟩ := hfield
  cases hdata : field.data with
  | numeric f single =>
    rw [hdata] at hentry
    obtain ⟨n, rfl, hdescribes⟩ := hentry
    obtain ⟨hheader, hn⟩ := at_append_iff.mp h
    obtain ⟨skippers, hread⟩ := readField_header resource entries hskipper hinfo hheader
    rw [hread, readEntry, if_pos rfl, readNumeric_at resource hdescribes.valid hn, length_append,
      Nat.add_assoc]
    refine ⟨_, rfl, ?_, fun other hne hother => hother.mono hne
      (fun k hk => lookup_cons_ne hk _ _) (fun _ _ => rfl)⟩
    rw [Registered, hdata]
    exact ⟨n, lookup_cons_self, hdescribes⟩
  | sortedNumeric f =>
    rw [hdata] at hentry
    obtain ⟨n, rfl, hdescribes⟩ := hentry
    obtain ⟨hheader, hn⟩ := at_append_iff.mp h
    obtain ⟨skippers, hread⟩ := readField_header resource entries hskipper hinfo hheader
    rw [hread, readEntry, if_neg (by decide), if_neg (by decide), if_neg (by decide),
      if_neg (by decide), if_pos rfl, readSortedNumeric_at resource hmax hdescribes hn,
      length_append, Nat.add_assoc]
    refine ⟨_, rfl, ?_, fun other hne hother => hother.mono hne (fun _ _ => rfl)
      (fun k hk => lookup_cons_ne hk _ _)⟩
    rw [Registered, hdata]
    exact ⟨n, lookup_cons_self, hdescribes⟩

/-- A field starts with its number. -/
theorem FieldAt.number_at {field : DocValuesField maxDoc} (hfield : FieldAt ops data field block) :
    ∃ rest, block = intLE 4 field.info.number ++ rest := by
  obtain ⟨skipper, -, hentry⟩ := hfield
  cases hdata : field.data with
  | numeric f single =>
    rw [hdata] at hentry
    obtain ⟨n, rfl, -⟩ := hentry
    exact ⟨_, by rw [headerBytes, append_assoc, append_assoc]⟩
  | sortedNumeric f =>
    rw [hdata] at hentry
    obtain ⟨n, rfl, -⟩ := hentry
    exact ⟨_, by rw [headerBytes, append_assoc, append_assoc]⟩

variable {fields : List (DocValuesField maxDoc)}

/-- The metadata of a field takes some bytes. -/
theorem fields_le (h : List.Forall₂ (FieldAt ops data) fields blocks) :
    fields.length ≤ blocks.flatten.length := by
  induction h with
  | nil => exact le_rfl
  | cons hfield _ ih =>
    obtain ⟨rest, rfl⟩ := hfield.number_at
    rw [flatten_cons, length_append, length_append, intLE_length, length_cons]
    omega

/-- With enough fuel all fields up to the end marker are read. -/
theorem readFieldsLoop_at (hmax : maxDoc ≤ noMoreDocs)
    (hfields : List.Forall₂ (FieldAt ops data) fields blocks)
    (hnodup : (fields.map fun field => field.info.number).Nodup)
    (hinfos : ∀ field ∈ fields, infos.find? (·.number = field.info.number) = some field.info)
    (h : At bytes pos (blocks.flatten ++ intLE 4 (-1))) {fuel : Nat} (hfuel : fields.length < fuel)
    (entries : FieldEntries) :
    ∃ entries' metaIn, readFieldsLoop resource infos fuel entries ⟨bytes, pos⟩ =
        .ok (entries', metaIn) ∧
      (∀ field ∈ fields, Registered ops data entries' field) ∧
      ∀ other : DocValuesField maxDoc, (∀ field ∈ fields, other.info.number ≠ field.info.number) →
        Registered ops data entries other → Registered ops data entries' other := by
  induction hfields generalizing pos fuel entries with
  | nil =>
    obtain ⟨fuel, rfl⟩ : ∃ k, fuel = k + 1 := ⟨fuel - 1, by omega⟩
    have hread := IndexInput.readInt_mk h
    refine ⟨entries, ⟨bytes, pos + 4⟩, ?_, fun _ hfield => absurd hfield not_mem_nil,
      fun _ _ hother => hother⟩
    rw [readFieldsLoop, hread]
    rfl
  | @cons field block fields blocks hfield _ ih =>
    obtain ⟨fuel, rfl⟩ : ∃ k, fuel = k + 1 := ⟨fuel - 1, by omega⟩
    rw [flatten_cons, append_assoc, at_append_iff] at h
    obtain ⟨hblock, htail⟩ := h
    rw [map_cons, nodup_cons] at hnodup
    have hdistinct : ∀ other ∈ fields, field.info.number ≠ other.info.number := by
      intro other hother heq
      exact hnodup.1 (heq ▸ mem_map_of_mem hother)
    obtain ⟨entries₁, hread, hregistered, hkeep⟩ := readField_at resource entries hmax hfield
      (hinfos field mem_cons_self) hblock
    obtain ⟨rest, hsplit⟩ := hfield.number_at
    have hnumber : asI 32 field.info.number = field.info.number :=
      asI_of_range (by decide) (by have := field.number_nonneg; push_cast; omega)
        (by have := field.number_lt; push_cast; omega)
    have hint := IndexInput.readInt_mk (at_append_iff.mp (hsplit ▸ hblock)).1
    rw [hnumber] at hint
    have hfuel' : fields.length < fuel := Nat.lt_of_succ_lt_succ hfuel
    obtain ⟨entries', metaIn, hloop, hall, hothers⟩ := ih hnodup.2
      (forall_mem_cons.mp hinfos).2 htail hfuel' entries₁
    refine ⟨entries', metaIn, ?_, ?_, ?_⟩
    · rw [readFieldsLoop, hint, ok_bind]
      dsimp only
      rw [if_neg (by have := field.number_nonneg; omega), hread, ok_bind]
      exact hloop
    · intro other hother
      cases hother with
      | head => exact hothers field hdistinct hregistered
      | tail _ hother => exact hall other hother
    · intro other hne hother
      exact hothers other (forall_mem_cons.mp hne).2 (hkeep other (hne field mem_cons_self) hother)

end

/-! ## Answers -/

section

variable {maxDoc : Nat}

/-- The iterators over a field answer every legal sequence of calls as the field's abstract machine
does, and report its positions. -/
def AnswersAsWritten (ops : FloatOps) (p : DocValuesProducer) (field : DocValuesField maxDoc) :
    Prop :=
  match field.data with
  | .numeric f _ => ∃ r, p.getNumeric field.info = .ok r ∧
      ∀ calls, (numericDocValues maxDoc f.entries).LegalRun (-1) calls →
        ∃ trace, Machine.run NumericDocValues.step r calls = .ok trace ∧
          trace.map (fun e => (e.1, e.2.docId)) =
            (numericDocValues maxDoc f.entries).trace (-1) calls
  | .sortedNumeric f => ∃ r, p.getSortedNumeric field.info = .ok r ∧
      ∀ calls, (sortedNumericDocValues maxDoc f.entries).LegalRun ⟨-1, 0⟩ calls →
        ∃ trace, Machine.run (SortedNumericDocValues.step ops) r calls = .ok trace ∧
          trace.map (fun e => (e.1, e.2.docId)) =
            ((sortedNumericDocValues maxDoc f.entries).trace ⟨-1, 0⟩ calls).map
              (fun e => (e.1, e.2.doc))

/-- A field whose entry is registered answers as written. -/
theorem answersAsWritten_of_registered {ops : FloatOps} {p : DocValuesProducer}
    {field : DocValuesField maxDoc} (hmax : maxDoc ≤ noMoreDocs) (hp : p.maxDoc = maxDoc)
    (h : Registered ops p.data.bytes p.entries field) : AnswersAsWritten ops p field := by
  unfold Registered at h
  unfold AnswersAsWritten
  cases hdata : field.data with
  | numeric f single =>
    rw [hdata] at h
    obtain ⟨n, hlookup, hdescribes⟩ := h
    obtain ⟨r, hopen, hstands⟩ := DocValuesProducer.getNumericOfEntry_stands hmax hp hdescribes
    refine ⟨r, ?_, fun calls hlegal => ?_⟩
    · rw [DocValuesProducer.getNumeric, hlookup]
      exact hopen
    · obtain ⟨trace, hrun, htrace, -⟩ := Machine.run_of_refines
        (NumericDocValues.step_refines single hmax) (f := id) (g := NumericDocValues.docId)
        (fun _ _ h => h.docId_eq) hstands hlegal
      exact ⟨trace, hrun, htrace.trans (map_id _)⟩
  | sortedNumeric f =>
    rw [hdata] at h
    obtain ⟨n, hlookup, hdescribes⟩ := h
    obtain ⟨r, hopen, hstands⟩ :=
      DocValuesProducer.getSortedNumericOfEntry_stands hmax hp hdescribes
    refine ⟨r, ?_, fun calls hlegal => ?_⟩
    · rw [DocValuesProducer.getSortedNumeric, hlookup]
      exact hopen
    · obtain ⟨trace, hrun, htrace, -⟩ := Machine.run_of_refines
        (SortedNumericDocValues.step_refines_sorted ops hmax) (f := ValuePosition.doc)
        (g := SortedNumericDocValues.docId) (fun _ _ h => h.docId_eq) hstands hlegal
      exact ⟨trace, hrun, htrace⟩

/-- Fields are written and read as they were written, whatever stands before and behind them in the
files. -/
theorem writeFields_answersAsWritten (ops : FloatOps) (savesSpace : Int → Int → Bool)
    (resource : String) (fields : List (DocValuesField maxDoc)) (infos : List FieldInfo)
    (c : DocValuesConsumer) (hmax : maxDoc ≤ noMoreDocs) (hc : c.maxDoc = maxDoc)
    (hsize : c.data.length + fieldsBound fields < 2 ^ 63)
    (hnodup : (fields.map fun field => field.info.number).Nodup)
    (hinfos : ∀ field ∈ fields, infos.find? (·.number = field.info.number) = some field.info) :
    ∃ c', writeFields ops savesSpace c fields = .ok c' ∧
      ∀ (merging : Bool) (dataPos : Nat) (moreMeta moreData : Bytes),
        ∃ p, openProducer resource infos ⟨c'.metaOut ++ moreMeta, c.metaOut.length⟩
            ⟨c'.data ++ moreData, dataPos⟩ maxDoc merging = .ok p ∧
          ∀ field ∈ fields, AnswersAsWritten ops p field := by
  obtain ⟨c', blocks, hwrite, hmeta, hblocks⟩ :=
    writeFields_ok ops savesSpace fields hc hmax hsize
  refine ⟨c', hwrite, fun merging dataPos moreMeta moreData => ?_⟩
  have hat : At (c'.metaOut ++ moreMeta) c.metaOut.length (blocks.flatten ++ intLE 4 (-1)) := by
    rw [hmeta]
    exact at_of_append _ _ _
  have hcount : fields.length < (c'.metaOut ++ moreMeta).length + 1 := by
    have hlen := fields_le hblocks
    rw [hmeta, length_append, length_append, length_append]
    omega
  obtain ⟨entries, metaIn, hread, hall, -⟩ := readFieldsLoop_at resource hmax
    (hblocks.imp fun _ _ h => FieldAt.append h moreData) hnodup hinfos hat hcount .empty
  refine ⟨⟨entries, ⟨c'.data ++ moreData, dataPos⟩, maxDoc, merging⟩, ?_, fun field hfield => ?_⟩
  · rw [openProducer, readFields, hread]
    rfl
  · exact answersAsWritten_of_registered hmax rfl (hall field hfield)

/-- More than 256 different values. -/
def squareEntries : Entries :=
  (range 257).map fun d => (d, [(d : Int) ^ 2])

theorem squareEntries_increasing : Increasing squareEntries.docs := by
  rw [Entries.docs, squareEntries, map_map]
  exact (map_id (range 257)).symm ▸ Increasing.range 257

theorem mem_squareEntries {entry : Nat × List Int} (h : entry ∈ squareEntries) :
    entry.1 < 257 ∧ entry.2 = [(entry.1 : Int) ^ 2] := by
  obtain ⟨d, hd, rfl⟩ := mem_map.mp h
  exact ⟨mem_range.mp hd, rfl⟩

theorem squareEntries_longs {entry : Nat × List Int} (h : entry ∈ squareEntries) {v : Int}
    (hv : v ∈ entry.2) : -2 ^ 63 ≤ v ∧ v < 2 ^ 63 := by
  obtain ⟨hlt, hvalues⟩ := mem_squareEntries h
  rw [hvalues, mem_singleton] at hv
  have hle : (entry.1 : Int) ^ 2 ≤ 256 ^ 2 := pow_le_pow_left₀ (by omega) (by omega) 2
  have hnonneg : 0 ≤ (entry.1 : Int) ^ 2 := by positivity
  omega

/-- A field with the square of each document. -/
def squares : FieldValues 257 where
  entries := squareEntries
  increasing := squareEntries_increasing
  lt_maxDoc _ h := (mem_squareEntries h).1
  ne_nil _ h := (mem_squareEntries h).2 ▸ cons_ne_nil _ _
  length_lt _ h := (mem_squareEntries h).2 ▸ Nat.one_lt_two_pow (by decide)
  longs _ h _ hv := squareEntries_longs h hv

/-- A sparse numeric field with the extreme values, a field with several values and a skip index,
and a field that is written in blocks. -/
def threeFields : List (DocValuesField 257) :=
  [⟨⟨0, .none⟩, .numeric ⟨[(0, [-2 ^ 63]), (2, [2 ^ 63 - 1])], by decide, by decide, by decide,
      by decide, by decide⟩ (by decide), by decide, by decide⟩,
    ⟨⟨7, .range⟩, .sortedNumeric ⟨[(1, [5, 5, 8])], by decide, by decide, by decide, by decide,
      by decide⟩, by decide, by decide⟩,
    ⟨⟨8, .none⟩, .numeric squares (by decide +kernel), by decide, by decide⟩]

/-- A field in blocks, one of several values and one without values. -/
theorem writeFields_answersAsWritten_threeFields :
    (chooseEncoding (fun _ _ => true) (Statistics.collect squares.entries false)).doBlocks = true ∧
    ∃ c, writeFields wholeOps (fun _ _ => true) ⟨[], [], 257, 4096⟩ threeFields = .ok c ∧
      ∃ p, openProducer "" [⟨0, .none⟩, ⟨7, .range⟩, ⟨8, .none⟩] ⟨c.metaOut, 0⟩ ⟨c.data, 0⟩ 257
          true = .ok p ∧
        ∀ field ∈ threeFields, AnswersAsWritten wholeOps p field := by
  obtain ⟨c, hwrite, hanswers⟩ := writeFields_answersAsWritten wholeOps (fun _ _ => true) ""
    threeFields [⟨0, .none⟩, ⟨7, .range⟩, ⟨8, .none⟩] ⟨[], [], 257, 4096⟩ (by decide) rfl
    (by decide +kernel) (by decide) (by
      intro field hfield
      simp only [threeFields, mem_cons, not_mem_nil, or_false] at hfield
      rcases hfield with rfl | rfl | rfl <;> rfl)
  have hopen := hanswers true 0 [] []
  rw [append_nil, append_nil] at hopen
  exact ⟨by decide +kernel, c, hwrite, hopen⟩

end

end RLucene.Codecs.Lucene90.DocValues
