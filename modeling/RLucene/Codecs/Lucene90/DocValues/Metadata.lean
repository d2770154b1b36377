import RLucene.Codecs.Lucene90.DocValues.ConsumerCorrect

/-!
# Reading the metadata

The producer reads back the entries from their byte forms, field by field up to the end marker.
-/

namespace RLucene.Codecs.Lucene90.DocValues

open List Lib Store Util.Packed Index Search

variable {bytes : Bytes} {pos : Nat} {n : SortedNumericEntry} {e : NumericEntry}

/-- Some `long`s are read back. -/
theorem readLongs_at {longs : List Int} (hlongs : Longs longs)
    (h : At bytes pos (longs.flatMap (intLE 8))) :
    readLongs longs.length ⟨bytes, pos⟩ =
      .ok (longs, ⟨bytes, pos + (longs.flatMap (intLE 8)).length⟩) := by
  induction longs generalizing pos with
  | nil => rfl
  | cons v longs ih =>
    rw [flatMap_cons, at_append_iff, intLE_length] at h
    have hv : asI 64 v = v := by
      obtain ⟨hlow, hhigh⟩ := hlongs v mem_cons_self
      exact asI_64 (by omega) (by omega)
    rw [length_cons, readLongs, IndexInput.readLong_mk h.1, ok_bind]
    dsimp only
    rw [ih (forall_mem_cons.mp hlongs).2 h.2, hv, flatMap_cons, length_append, intLE_length,
      add_assoc]
    rfl

/-- A byte keeps the sign. -/
theorem asI_byteOf (i : Int) : asI 8 ((byteOf i).toNat : Int) = asI 8 i := by
  have hlt := asU_lt 8 i
  rw [byteOf, UInt8.toNat_ofNat', Nat.mod_eq_of_lt hlt, asI_asU]

theorem asU_asI_natCast {n : Nat} (h : n < 2 ^ 64) : asU 64 (asI 64 (n : Int)) = n := by
  rw [asU_asI, asU_of_lt h]

section

variable (resource : String)

/-- The table is read back. -/
theorem readTable_at (hvalid : e.Valid) (h : At bytes pos ((e.table.getD []).flatMap (intLE 8))) :
    readTable e.tableSize ⟨bytes, pos⟩ =
      .ok (e.table, ⟨bytes, pos + ((e.table.getD []).flatMap (intLE 8)).length⟩) := by
  unfold readTable NumericEntry.tableSize
  cases htable : e.table with
  | none =>
    rcases hvalid.blockShift with hshift | hshift
    · simp [hshift]
    · simp [hshift.1]
      omega
  | some table =>
    rw [htable] at h
    have hread := readLongs_at (hvalid.table _ htable).2.1 h
    dsimp only
    rw [if_pos (by omega), Int.toNat_natCast, hread]
    rfl

/-- The size of the table says if there are blocks. -/
theorem tableSize_range (hvalid : e.Valid) :
    asI 32 e.tableSize = e.tableSize ∧ ¬ e.tableSize > 256 ∧
      (if e.tableSize < -1 then -2 - e.tableSize else -1) = e.blockShift := by
  have hrange : -2 ^ 31 ≤ e.tableSize ∧ e.tableSize ≤ 256 ∧
      (if e.tableSize < -1 then -2 - e.tableSize else -1) = e.blockShift := by
    unfold NumericEntry.tableSize
    cases htable : e.table with
    | none =>
      rcases hvalid.blockShift with hshift | hshift
      · simp [hshift]
      · simp only [hshift.1, if_true]
        refine ⟨by omega, by omega, ?_⟩
        omega
    | some table =>
      obtain ⟨hlen, -, hshift⟩ := hvalid.table _ htable
      dsimp only
      refine ⟨by omega, by omega, ?_⟩
      rw [if_neg (by omega), hshift]
  exact ⟨asI_32 (by omega) (by omega), by omega, hrange.2.2⟩

/-- A numeric entry is read back. -/
theorem readNumeric_at (hvalid : e.Valid) (h : At bytes pos e.bytes) :
    readNumeric resource ⟨bytes, pos⟩ = .ok (e, ⟨bytes, pos + e.bytes.length⟩) := by
  obtain ⟨hsize, hnot, hshift⟩ := tableSize_range hvalid
  have hlen : e.bytes.length = 31 + ((e.table.getD []).flatMap (intLE 8)).length + 41 := by
    simp [NumericEntry.bytes, NumericEntry.tableBytes, NumericEntry.valuesBytes, DocsLocation.bytes]
    omega
  simp only [NumericEntry.bytes, NumericEntry.tableBytes, NumericEntry.valuesBytes,
    DocsLocation.bytes, at_append_iff, length_append, intLE_length, length_singleton,
      ← add_assoc] at h
  obtain ⟨⟨⟨⟨⟨⟨hoffset, hlength⟩, hentries⟩, hpower⟩, hnum⟩, htsize, htable⟩,
    ⟨⟨⟨⟨hbits, hmin⟩, hgcd⟩, hvoffset⟩, hvlength⟩, hjump⟩ := h
  have hread := readTable_at hvalid htable
  simp only [add_assoc, Nat.reduceAdd] at hread hbits hmin hgcd hvoffset hvlength hjump
  rw [readNumeric]
  simp only [IndexInput.readLong_mk hoffset, IndexInput.readLong_mk hlength,
    IndexInput.readShort_mk hentries, IndexInput.readByte_mk hpower, IndexInput.readLong_mk hnum,
    IndexInput.readInt_mk htsize, ok_bind, add_assoc, Nat.reduceAdd, hsize, if_neg hnot, hread,
    IndexInput.readByte_mk hbits, IndexInput.readLong_mk hmin, IndexInput.readLong_mk hgcd,
    IndexInput.readLong_mk hvoffset, IndexInput.readLong_mk hvlength, IndexInput.readLong_mk hjump,
    hshift, asI_byteOf, hlen]
  rw [show asI 64 e.docsLocation.offset = e.docsWithFieldOffset from hvalid.docs.offset,
    show asI 16 e.docsLocation.jumpTableEntryCount = e.jumpTableEntryCount from
      hvalid.docs.jumpTableEntryCount,
    show asI 8 e.docsLocation.denseRankPower = e.denseRankPower from hvalid.docs.denseRankPower,
    show asU 64 (asI 64 (e.docsLocation.length : Int)) = e.docsWithFieldLength from
      asU_asI_natCast hvalid.docs.length,
    asU_asI_natCast hvalid.numValues, asU_asI_natCast hvalid.valuesOffset,
    asU_asI_natCast hvalid.valuesLength, hvalid.bitsPerValue, hvalid.minValue, hvalid.gcd,
    hvalid.valueJumpTableOffset, pure_eq_ok]

/-- The entry of the skip index is read back. -/
theorem readSkipper_at {info : FieldInfo} {skipper : Option DocValuesSkipperEntry}
    (hskipper : skipper.isSome ↔ info.docValuesSkipIndexType ≠ .none) (entries : FieldEntries)
    (h : At bytes pos (skipperBytes skipper)) :
    ∃ skippers, readSkipper info entries ⟨bytes, pos⟩ =
      .ok ({ entries with skippers }, ⟨bytes, pos + (skipperBytes skipper).length⟩) := by
  unfold readSkipper
  cases skipper with
  | none =>
    rw [if_neg (by simpa using hskipper)]
    exact ⟨entries.skippers, rfl⟩
  | some skipper =>
    rw [if_pos (by simpa using hskipper)]
    have hlen : (skipperBytes (some skipper)).length = 40 := by
      simp [skipperBytes, DocValuesSkipperEntry.bytes]
    simp only [skipperBytes, Option.elim_some, DocValuesSkipperEntry.bytes, at_append_iff,
      length_append, intLE_length, Nat.reduceAdd] at h
    obtain ⟨⟨⟨⟨⟨hoffset, hlength⟩, hmax⟩, hmin⟩, hcount⟩, hdoc⟩ := h
    rw [readDocValueSkipperMeta, hlen]
    simp only [IndexInput.readLong_mk hoffset, IndexInput.readLong_mk hlength,
      IndexInput.readLong_mk hmax, IndexInput.readLong_mk hmin, IndexInput.readInt_mk hcount,
      IndexInput.readInt_mk hdoc, ok_bind, add_assoc, Nat.reduceAdd, pure_eq_ok]
    exact ⟨_, rfl⟩

variable {ops : FloatOps} {data : Bytes} {maxDoc : Nat} {f : FieldValues maxDoc}

/-- The entry of the addresses is read back. -/
theorem readAddresses_at (hnumDocs : n.numDocsWithField = f.entries.length)
    (haddresses : AddressesAt ops data f.entries n)
    (h : At bytes pos (intLE 8 n.addressesOffset ++ vIntBytes directMonotonicBlockShift ++
      metaBytes ops 0 (addressGroups f.entries) ++ intLE 8 n.addressesLength)) :
    ∃ info, n.addressesMeta = some info ∧
      readAddresses n.numDocsWithField ⟨bytes, pos⟩ =
        .ok (n.addressesOffset, info, n.addressesLength, ⟨bytes, pos +
          (intLE 8 n.addressesOffset ++ vIntBytes directMonotonicBlockShift ++
            metaBytes ops 0 (addressGroups f.entries) ++ intLE 8 n.addressesLength).length⟩) := by
  obtain ⟨hinfo, -, hlength, -, hsmall⟩ := haddresses
  refine ⟨_, hinfo, ?_⟩
  simp only [at_append_iff, length_append, intLE_length] at h
  obtain ⟨⟨⟨hoffset, hshift⟩, hmeta⟩, hlen⟩ := h
  have hload := loadMeta_at ops hmeta (by rw [← addressGroups]; omega)
  rw [addresses_length] at hload
  have hcount : (n.numDocsWithField + 1).toNat = f.entries.length + 1 := by omega
  have hblock : (asI 32 ((directMonotonicBlockShift : Nat) : Int)).toNat =
      directMonotonicBlockShift := by decide
  rw [readAddresses, IndexInput.readLong_mk hoffset, ok_bind]
  dsimp only
  rw [IndexInput.readVInt_mk hshift, ok_bind]
  rw [hcount, hblock, add_assoc, hload, ok_bind]
  rw [← addressGroups, add_assoc pos, IndexInput.readLong_mk hlen, ok_bind]
  rw [asU_asI_natCast (by omega), asU_asI_natCast (by omega), pure_eq_ok, addressGroups]
  simp only [length_append, intLE_length, add_assoc]

/-- An entry of several values is read back. -/
theorem readSortedNumeric_at (hmax : maxDoc ≤ noMoreDocs)
    (hdescribes : n.Describes ops data maxDoc f.entries)
    (h : At bytes pos (sortedNumericBytes ops f.entries n)) :
    readSortedNumeric resource ⟨bytes, pos⟩ =
      .ok (n, ⟨bytes, pos + (sortedNumericBytes ops f.entries n).length⟩) := by
  have hle := f.length_le
  have hnumDocs : asI 32 n.numDocsWithField = n.numDocsWithField := by
    unfold noMoreDocs at hmax
    rw [hdescribes.numDocs]
    exact asI_32 (by omega) (by omega)
  have hcount : asU 64 n.numDocsWithField = f.entries.length := by
    unfold noMoreDocs at hmax
    rw [hdescribes.numDocs]
    exact asU_of_lt (by omega)
  rw [sortedNumericBytes, at_append_iff, at_append_iff] at h
  obtain ⟨⟨hbase, hnum⟩, hrest⟩ := h
  rw [readSortedNumeric, readNumeric_at resource hdescribes.base.valid hbase, ok_bind]
  dsimp only
  rw [IndexInput.readInt_mk hnum, ok_bind, hnumDocs]
  rw [hcount, hdescribes.base.numValues, sortedNumericBytes]
  by_cases hmany : f.entries.length < f.entries.values.length
  · rw [if_pos hmany] at hrest ⊢
    rw [length_append, intLE_length, ← add_assoc] at hrest
    obtain ⟨info, hinfo, hread⟩ :=
      readAddresses_at hdescribes.numDocs (hdescribes.addresses hmany) hrest
    rw [if_pos (by omega), hread, ok_bind, ← hinfo]
    simp only [length_append, intLE_length, add_assoc]
    rfl
  · obtain ⟨hinfo, hoffset, hlength⟩ := hdescribes.single hmany
    have hsame : f.entries.length = f.entries.values.length := by
      have hfull := f.start_of_single (f.length_eq_one hmany) le_rfl
      rw [FieldValues.start, take_length] at hfull
      exact hfull.symm
    have hn : (⟨n.base, n.numDocsWithField, none, 0, 0⟩ : SortedNumericEntry) = n := by
      rw [← hinfo]
      nth_rewrite 1 [← hoffset]
      rw [← hlength]
    rw [if_neg (not_not_intro hsame), if_neg hmany, append_nil, length_append, intLE_length,
      ← add_assoc, hn]
    rfl

end

end RLucene.Codecs.Lucene90.DocValues
