import RLucene.Codecs.Lucene90.DocValues.ConsumerCorrect

/-!
# Reading values

`ValuesReader.Reads` says that a reader stands for a list of values: in any order of indices every
access returns the value at its index, and the reader that is left still stands for them. The
producer opens such a reader from every entry that describes values.
-/

namespace RLucene.Codecs.Lucene90.DocValues

open List Lib Store Util.Packed

/-! ## Blocks of different widths -/

theorem numericBlockSize_eq : numericBlockSize = 2 ^ numericBlockShift := by decide

/-- What precedes a block. -/
def blockStart (gcd : Int) (values : List Int) (block : Nat) : Nat :=
  (blocksBytes gcd ((chunks numericBlockSize values).take block)).length

/-- The blocks of the values and the table of their starts. -/
structure BlocksAt (slice rank : RandomAccessInput) (offset : Nat) (gcd : Int)
    (values : List Int) : Prop where
  divides : Divides gcd values
  blocks : At slice.bytes 0 (blocksBytes gcd (chunks numericBlockSize values))
  starts : At rank.bytes 0 (jumpTableBytes gcd offset (chunks numericBlockSize values))
  small : offset + (blocksBytes gcd (chunks numericBlockSize values)).length < 2 ^ 63

variable {b : Nat}

/-- Where a block starts. -/
theorem blockStarts_get (gcd : Int) (groups : List (List Int)) (hb : b ≤ groups.length)
    (base : Nat) :
    (blockStarts gcd base groups)[b]? = some (base + (blocksBytes gcd (groups.take b)).length) := by
  induction groups generalizing b base with
  | nil =>
    obtain rfl : b = 0 := Nat.le_zero.mp hb
    rfl
  | cons values groups ih =>
    cases b with
    | zero => rfl
    | succ b =>
      rw [blockStarts, getElem?_cons_succ, ih (Nat.le_of_succ_le_succ hb)]
      simp [blocksBytes, add_assoc]

theorem jumpTableBytes_ne_nil (gcd : Int) (base : Nat) (groups : List (List Int)) :
    jumpTableBytes gcd base groups ≠ [] := by
  intro hnil
  have hlen := congrArg length hnil
  rw [jumpTableBytes, flatMap_length (k := 8) fun _ _ => intLE_length 8 _] at hlen
  cases groups <;> simp [blockStarts] at hlen

variable {bits i : Nat} {values : List Int}

theorem directBytes_ne_nil (hbits : bits ∈ supportedBitsPerValue)
    (hne : values ≠ []) : directBytes bits values ≠ [] := by
  intro hnil
  have hlen := congrArg length hnil
  have hpos : 0 < bits * values.length :=
    mul_pos (pos_of_ne_zero (supported_pos hbits).1) (length_pos_iff.mpr hne)
  rw [directBytes, length_append, packed_length, length_map, length_nil] at hlen
  omega

/-- The bytes before, of and behind a block. -/
theorem blocksBytes_split (gcd : Int) {groups : List (List Int)} {group : List Int}
    (h : groups[b]? = some group) : blocksBytes gcd groups =
      blocksBytes gcd (groups.take b) ++ (blockBytes gcd group ++
        blocksBytes gcd (groups.drop (b + 1))) := by
  obtain ⟨hb, rfl⟩ := List.getElem_of_getElem? h
  conv_lhs => rw [← take_append_drop b groups, drop_eq_getElem_cons hb]
  rw [blocksBytes_append]
  rfl

/-- A block ends where the next one starts. -/
theorem blockStart_succ (gcd : Int) {group : List Int}
    (h : (chunks numericBlockSize values)[b]? = some group) :
    blockStart gcd values (b + 1) = blockStart gcd values b + (blockBytes gcd group).length := by
  rw [blockStart, take_add_one, h, blocksBytes_append, length_append]
  simp [blockStart, blocksBytes]

namespace BlocksAt

variable {slice rank : RandomAccessInput} {offset : Nat} {gcd : Int} {group : List Int}

/-- The bytes of a block are there. -/
theorem block_at (h : BlocksAt slice rank offset gcd values)
    (hget : (chunks numericBlockSize values)[b]? = some group) :
    At slice.bytes (blockStart gcd values b) (blockBytes gcd group) := by
  have hblocks := h.blocks
  rw [blocksBytes_split gcd hget, at_append_iff, at_append_iff, zero_add] at hblocks
  exact hblocks.2.1

/-- The table of starts gives the position of a block in the file. -/
theorem readLong_start (h : BlocksAt slice rank offset gcd values)
    (hb : b < (chunks numericBlockSize values).length) :
    ∃ pointer, rank.readLong (b * 8) = .ok pointer ∧
      asU 64 pointer = offset + blockStart gcd values b := by
  have hget := blockStarts_get gcd (chunks numericBlockSize values) hb.le offset
  obtain ⟨hlt, hstart⟩ := List.getElem_of_getElem? hget
  have hat := At.flatMap h.starts (k := 8) (fun _ _ => intLE_length 8 _) hlt
  rw [hstart, zero_add, mul_comm] at hat
  have hle : blockStart gcd values b ≤
      (blocksBytes gcd (chunks numericBlockSize values)).length := by
    rw [blocksBytes_split gcd (getElem?_eq_getElem hb), length_append]
    exact Nat.le_add_right _ _
  have hsmall := h.small
  refine ⟨_, RandomAccessInput.readLong_at hat, ?_⟩
  rw [asU_asI]
  exact asU_of_lt (n := offset + blockStart gcd values b) (by omega)

end BlocksAt

/-- Over the slice, the reader and the delta stand for the values of a block. -/
def BlockReads (slice : RandomAccessInput) (gcd delta : Int) (reader : DirectPackedEnum)
    (group : List Int) : Prop :=
  ∃ xs : List Nat, reader.ReadsFrom slice xs ∧ xs.length = group.length ∧
    ∀ (j : Nat) (hj : j < group.length), asI 64 (asI 64 (gcd * signedAt xs j) + delta) = group[j]

namespace VaryingBPVReader

variable {slice rank : RandomAccessInput} {offset : Nat} {gcd : Int}

/-- The reader is over the blocks and knows where the next one starts. -/
structure Over (slice rank : RandomAccessInput) (offset : Nat) (gcd : Int) (values : List Int)
    (r : VaryingBPVReader) : Prop where
  slice_eq : r.slice = slice
  rank_eq : r.rankSlice = some rank
  offset_eq : r.valuesOffset = offset
  num_eq : r.numValues = values.length
  shift_eq : r.shift = numericBlockShift
  mask_eq : r.mask = numericBlockSize - 1
  mul_eq : r.mul = gcd
  end_eq : r.blockEndOffset = blockStart gcd values r.nextBlock

/-- And if it is in a block, it stands for the values of that block. -/
structure Holds (slice rank : RandomAccessInput) (offset : Nat) (gcd : Int) (values : List Int)
    (r : VaryingBPVReader) : Prop where
  standing : Over slice rank offset gcd values r
  loaded : ∀ b group, r.block = some b → (chunks numericBlockSize values)[b]? = some group →
    ∃ reader, r.values = some reader ∧ BlockReads slice gcd r.delta reader group

variable {r : VaryingBPVReader} {group : List Int}

/-- The jump table leads to a block. -/
theorem jump_spec (hat : BlocksAt slice rank offset gcd values)
    (h : Over slice rank offset gcd values r) (hb : b < (chunks numericBlockSize values).length) :
    ∃ r', r.jump b = .ok r' ∧ Over slice rank offset gcd values r' ∧ r'.nextBlock = b ∧
      r'.merging = r.merging := by
  unfold jump
  rw [h.rank_eq]
  dsimp only
  by_cases hnext : b = r.nextBlock
  · rw [if_neg (not_not_intro hnext)]
    exact ⟨r, rfl, h, hnext.symm, rfl⟩
  · obtain ⟨pointer, hread, hpointer⟩ := hat.readLong_start hb
    have hunder : ¬ asU 64 pointer < r.valuesOffset := by
      rw [hpointer, h.offset_eq]
      omega
    rw [if_pos hnext, hread, ok_bind, if_neg hunder, hpointer, h.offset_eq, Nat.add_sub_cancel_left]
    have hnext' : (if b = 0 then none else some (b - 1)).elim 0 (· + 1) = b := by
      cases b <;> rfl
    refine ⟨_, rfl, ⟨h.slice_eq, rfl, rfl, h.num_eq, h.shift_eq, h.mask_eq, h.mul_eq, ?_⟩, hnext',
      rfl⟩
    exact congrArg (blockStart gcd values) hnext'.symm

/-- The width in the header of a block. -/
def headerWidth (gcd : Int) (group : List Int) : Nat :=
  if blockMin group = blockMax group then 0 else blockWidth gcd group

theorem asI_blockMin (hdivides : Divides gcd group) (hne : group ≠ []) :
    asI 64 (blockMin group) = blockMin group := by
  obtain ⟨hlow, hhigh⟩ := hdivides.longs _ (blockMin_mem hne).1
  exact asI_64 (by omega) (by omega)

/-- The reader of packed values. -/
theorem getDirectReaderInstance_reads (merging : Bool) (own : Option RandomAccessInput)
    {offset : Nat} {vals : List Nat} (h : PackedAt slice offset bits vals) :
    ∃ reader, getDirectReaderInstance merging own bits offset vals.length = .ok reader ∧
      reader.ReadsFrom slice vals ∧ reader.input = own := by
  unfold getDirectReaderInstance
  cases merging with
  | false => exact DirectPackedEnum.getInstanceWithOffset_reads h
  | true => exact ⟨_, rfl, DirectPackedEnum.getMergeInstance_reads h, rfl⟩

/-- A reader whose open block is read as it should be. -/
theorem Over.holds (h : Over slice rank offset gcd values r) (hblock : r.block = some b)
    (hget : (chunks numericBlockSize values)[b]? = some group) (reader : DirectPackedEnum)
    (hreads : BlockReads slice gcd r.delta reader group) :
    Holds slice rank offset gcd values { r with values := some reader } := by
  refine ⟨⟨h.slice_eq, h.rank_eq, h.offset_eq, h.num_eq, h.shift_eq, h.mask_eq, h.mul_eq, h.end_eq⟩,
    fun b' group' hb' hget' => ?_⟩
  obtain rfl : b = b' := Option.some.inj (hblock.symm.trans hb')
  obtain rfl : group = group' := Option.some.inj (hget.symm.trans hget')
  exact ⟨reader, rfl, hreads⟩

section

variable (hat : BlocksAt slice rank offset gcd values)

include hat

/-- The header of a block. -/
theorem readHeader_spec (h : Over slice rank offset gcd values r)
    (hget : (chunks numericBlockSize values)[r.nextBlock]? = some group)
    (hdivides : Divides gcd group) (hne : group ≠ []) (hlen : group.length ≤ numericBlockSize) :
    ∃ r', r.readHeader = .ok (headerWidth gcd group, r') ∧ Over slice rank offset gcd values r' ∧
      r'.block = some r.nextBlock ∧ r'.delta = blockMin group ∧ r'.merging = r.merging ∧
      (headerWidth gcd group ≠ 0 → At slice.bytes r'.offset (blockPacked gcd group)) := by
  have hblock := hat.block_at hget
  have hsucc := blockStart_succ gcd hget
  have hmin := asI_blockMin hdivides hne
  rw [blockBytes] at hblock hsucc
  unfold readHeader headerWidth
  rw [h.slice_eq, h.end_eq]
  by_cases hsame : blockMin group = blockMax group
  · rw [if_pos hsame] at hblock hsucc ⊢
    have hparts := at_append_iff (a := [0]) |>.mp hblock
    have hbyte : At slice.bytes (blockStart gcd values r.nextBlock) [0] := hparts.1
    have hdelta : At slice.bytes (blockStart gcd values r.nextBlock + 1)
      (intLE 8 (blockMin group)) := hparts.2
    rw [RandomAccessInput.readByte_at hbyte, ok_bind, RandomAccessInput.readLong_at hdelta, ok_bind,
      hmin]
    refine ⟨_, rfl, ⟨rfl, h.rank_eq, h.offset_eq, h.num_eq, h.shift_eq, h.mask_eq, h.mul_eq, ?_⟩,
      rfl, rfl, rfl, fun hzero => absurd rfl hzero⟩
    exact hsucc.symm
  · rw [if_neg hsame] at hblock hsucc ⊢
    obtain ⟨hbits, -⟩ := block_packs hdivides hne
    have hrange : blockWidth gcd group ≠ 0 ∧ blockWidth gcd group ≤ 255 := supported_pos hbits
    have hnat : (UInt8.ofNat (blockWidth gcd group)).toNat = blockWidth gcd group := by
      exact Nat.mod_eq_of_lt (by omega)
    have hzero : UInt8.ofNat (blockWidth gcd group) ≠ 0 := by
      intro heq
      rw [heq] at hnat
      exact hrange.1 hnat.symm
    have hpacked := blockPacked_length_lt gcd hlen
    have hlength : asU 64 (asI 32 ((blockPacked gcd group).length : Int)) =
        (blockPacked gcd group).length := by
      rw [asI_32 (by omega) (by omega)]
      exact asU_of_lt (by omega)
    rw [at_append_iff, at_append_iff] at hblock
    obtain ⟨⟨hhead, hlenAt⟩, hdata⟩ := hblock
    obtain ⟨hbyte, hdelta⟩ := at_append_iff (a := [_]) |>.mp hhead
    simp only [length_append, length_cons, intLE_length, length_nil, zero_add,
      Nat.reduceAdd] at hlenAt hdata hdelta hsucc
    rw [RandomAccessInput.readByte_at hbyte, ok_bind, RandomAccessInput.readLong_at hdelta, ok_bind,
      if_neg hzero, RandomAccessInput.readInt_at hlenAt, ok_bind, hmin, hnat, hlength]
    refine ⟨_, rfl, ⟨rfl, h.rank_eq, h.offset_eq, h.num_eq, h.shift_eq, h.mask_eq, h.mul_eq, ?_⟩,
      rfl, rfl, rfl, fun _ => ?_⟩
    · show blockStart gcd values r.nextBlock + 9 + 4 + _ = blockStart gcd values (r.nextBlock + 1)
      omega
    · exact hdata

/-- The search ends at the block. -/
theorem seekBlock_spec (h : Over slice rank offset gcd values r)
    (hget : (chunks numericBlockSize values)[b]? = some group) (hdivides : Divides gcd group)
    (hne : group ≠ []) (hlen : group.length ≤ numericBlockSize) (fuel : Nat) :
    ∃ r', seekBlock b (fuel + 1) r = .ok (headerWidth gcd group, r') ∧
      Over slice rank offset gcd values r' ∧ r'.block = some b ∧ r'.delta = blockMin group ∧
      (headerWidth gcd group ≠ 0 → At slice.bytes r'.offset (blockPacked gcd group)) := by
  obtain ⟨hb, -⟩ := List.getElem_of_getElem? hget
  obtain ⟨r₁, hjump, hover, hnext, -⟩ := jump_spec hat h hb
  rw [← hnext] at hget
  obtain ⟨r₂, hheader, hover₂, hblock, hdelta, -, hpacked⟩ :=
    readHeader_spec hat hover hget hdivides hne hlen
  rw [hnext] at hblock
  refine ⟨r₂, ?_, hover₂, hblock, hdelta, hpacked⟩
  rw [seekBlock, hjump, ok_bind, hheader, ok_bind]
  dsimp only
  rw [if_pos hblock]
  rfl

/-- The block is loaded. -/
theorem loadBlock_spec (h : Over slice rank offset gcd values r)
    (hget : (chunks numericBlockSize values)[b]? = some group) :
    ∃ r', r.loadBlock b = .ok r' ∧ Holds slice rank offset gcd values r' ∧ r'.block = some b := by
  have hpos : 0 < numericBlockSize := by decide
  have hmem := mem_of_getElem? hget
  have hlen := length_le_of_mem_chunks hmem
  obtain ⟨hcount, hne⟩ := chunk_size hpos hget
  have hdivides := hat.divides.subset fun v hv => by
    rw [← chunks_flatten hpos values]
    exact mem_flatten_of_mem hmem hv
  obtain ⟨r₁, hseek, hover, hblock, hdelta, hpacked⟩ :=
    seekBlock_spec hat h hget hdivides hne hlen r.slice.bytes.length
  obtain ⟨hbits, hfit, hdecode⟩ := block_packs hdivides hne
  unfold loadBlock
  rw [hseek, ok_bind]
  dsimp only
  by_cases hsame : blockMin group = blockMax group
  · -- all values of the block are its least one
    rw [headerWidth, if_pos hsame, if_pos rfl]
    refine ⟨_, rfl, hover.holds hblock hget .zeroes ⟨replicate group.length 0,
      fun v hv => eq_of_mem_replicate hv, length_replicate, fun j hj => ?_⟩, hblock⟩
    have hlow := (blockMin_mem hne).2 _ (getElem_mem hj)
    have hhigh := (blockMax_mem hne).2 _ (getElem_mem hj)
    have hzero : signedAt (replicate group.length 0) j = 0 := by
      rw [signedAt_eq (by simpa using hj), getElem_replicate]
      rfl
    rw [hzero, hdelta, mul_zero, show asI 64 0 = 0 from rfl, zero_add, asI_blockMin hdivides hne]
    omega
  · have hwidth : headerWidth gcd group = blockWidth gcd group := if_neg hsame
    have hnonzero : headerWidth gcd group ≠ 0 := hwidth ▸ (supported_pos hbits).1
    have hpackedAt : PackedAt slice r₁.offset (headerWidth gcd group) (unsigned (group.map
        fun v => (asI 64 (v - blockMin group)).tdiv gcd)) :=
      hwidth ▸ packedAt_directBytes hbits hfit (hpacked hnonzero)
    obtain ⟨reader, hopen, hreader, -⟩ :=
      getDirectReaderInstance_reads r₁.merging none hpackedAt
    have hnum : min (1 <<< r₁.shift) (r₁.numValues - b <<< r₁.shift) =
        (unsigned (group.map fun v => (asI 64 (v - blockMin group)).tdiv gcd)).length := by
      rw [length_map, length_map, hover.shift_eq, hover.num_eq, hcount, Nat.shiftLeft_eq b,
        ← numericBlockSize_eq, numericBlockSize]
    rw [if_neg hnonzero, hnum, hopen, ok_bind]
    refine ⟨_, rfl, hover.holds hblock hget reader ⟨_, hreader, by simp, fun j hj => ?_⟩, hblock⟩
    have hvalue := hdecode _ (getElem_mem hj)
    rw [signedAt_unsigned (by simpa using hj), getElem_map, hdelta]
    exact Option.some.inj hvalue

/-- The value of an index. -/
theorem getLongValue_spec (h : Holds slice rank offset gcd values r) (hi : i < values.length) :
    ∃ r', r.getLongValue i = .ok (values[i], r') ∧ Holds slice rank offset gcd values r' := by
  obtain ⟨group, hget, hin, hvalue⟩ := exists_chunk (k := numericBlockSize) (by decide) hi
  have hblock : i >>> r.shift = i / numericBlockSize := by
    rw [h.standing.shift_eq, Nat.shiftRight_eq_div_pow]
    rfl
  have hload : ∃ r₁, (if r.block ≠ some (i / numericBlockSize) then
      r.loadBlock (i / numericBlockSize) else .ok r) = .ok r₁ ∧
      Holds slice rank offset gcd values r₁ ∧ r₁.block = some (i / numericBlockSize) := by
    by_cases hcurrent : r.block = some (i / numericBlockSize)
    · rw [if_neg (not_not_intro hcurrent)]
      exact ⟨r, rfl, h, hcurrent⟩
    · rw [if_pos hcurrent]
      exact loadBlock_spec hat h.standing hget
  obtain ⟨r₁, hok, hholds, hcurrent⟩ := hload
  obtain ⟨reader, hreader, xs, hreads, hlen, hxs⟩ := hholds.loaded _ _ hcurrent hget
  have hmask : i &&& r₁.mask = i % numericBlockSize := by
    rw [hholds.standing.mask_eq]
    exact Nat.and_two_pow_sub_one_eq_mod i 14
  obtain ⟨reader', hread, hnext, -⟩ :=
    DirectPackedEnum.readFromSlice_spec hreads (some slice) (.inl rfl) (hlen ▸ hin)
  refine ⟨{ r₁ with values := some reader' }, ?_,
    hholds.standing.holds hcurrent hget reader' ⟨xs, hnext, hlen, hxs⟩⟩
  unfold getLongValue
  rw [hblock]
  dsimp only
  rw [hok, ok_bind, hreader]
  dsimp only
  rw [hmask, hholds.standing.slice_eq, hread, ok_bind]
  rw [hholds.standing.mul_eq, hxs _ hin, hvalue]
  rfl

end

/-- A new reader. -/
theorem new_holds {entry : NumericEntry} {slice : RandomAccessInput} {data : IndexInput}
    (merging : Bool) (hnum : entry.numValues = values.length)
    (hshift : entry.blockShift = numericBlockShift) (hdivides : Divides entry.gcd values)
    (hblocks : At slice.bytes 0 (blocksBytes entry.gcd (chunks numericBlockSize values)))
    (hjump : entry.valueJumpTableOffset =
      ((entry.valuesOffset + (blocksBytes entry.gcd (chunks numericBlockSize values)).length :
      Nat) : Int))
    (hstarts : At data.bytes (entry.valuesOffset +
      (blocksBytes entry.gcd (chunks numericBlockSize values)).length)
      (jumpTableBytes entry.gcd entry.valuesOffset (chunks numericBlockSize values)))
    (hlt : entry.valuesOffset + (blocksBytes entry.gcd (chunks numericBlockSize values)).length <
      2 ^ 63) :
    ∃ r rank, new entry slice data merging = .ok r ∧
      BlocksAt slice rank entry.valuesOffset entry.gcd values ∧
      Holds slice rank entry.valuesOffset entry.gcd values r := by
  have hle := hstarts.le_length (jumpTableBytes_ne_nil _ _ _)
  obtain ⟨rank, hrank, hat⟩ := IndexInput.randomAccessSlice_at hstarts
    (data.length - (entry.valuesOffset +
      (blocksBytes entry.gcd (chunks numericBlockSize values)).length))
    (by rw [IndexInput.length]; omega) (by rw [IndexInput.length]; omega)
  have hoffset : asU 64 entry.valueJumpTableOffset = entry.valuesOffset +
      (blocksBytes entry.gcd (chunks numericBlockSize values)).length := by
    rw [hjump]
    exact asU_of_lt (by omega)
  have hpresent : entry.valueJumpTableOffset ≠ -1 := by omega
  unfold new
  rw [if_neg hpresent, hoffset]
  dsimp only
  rw [hrank]
  refine ⟨_, rank, rfl, ⟨hdivides, hblocks, hat, hlt⟩, ⟨rfl, rfl, rfl, hnum, ?_, ?_, rfl, rfl⟩, ?_⟩
  · rw [hshift, Int.toNat_natCast]
  · rw [hshift, Int.toNat_natCast, numericBlockSize]
  · intro b group hb
    cases hb

end VaryingBPVReader

/-! ## Readers and the values they stand for -/

/-- A packed stream of encoded values, read through its own slice. -/
def StreamReads (values : List Int) (encode : Int → Int) (reader : DirectPackedEnum) : Prop :=
  ∃ slice, reader.ReadsFrom slice (unsigned (values.map encode)) ∧ reader.input = some slice

/-- A value that is packed with one width. -/
theorem StreamReads.readFromSlice {encode : Int → Int}
    {reader : DirectPackedEnum} (h : StreamReads values encode reader) (hi : i < values.length) :
    ∃ reader', reader.readFromSlice i none = .ok (asI 64 (encode values[i]), reader') ∧
      StreamReads values encode reader' := by
  obtain ⟨slice, hreads, hinput⟩ := h
  obtain ⟨reader', hread, hnext, hsame⟩ := DirectPackedEnum.readFromSlice_spec hreads
    none (.inr ⟨rfl, hinput⟩) (by simpa using hi)
  rw [signedAt_unsigned (by simpa using hi), getElem_map] at hread
  exact ⟨reader', hread, slice, hnext, hsame.trans hinput⟩

namespace ValuesReader

/-- The reader stands for the values. -/
inductive Reads (values : List Int) : ValuesReader → Prop where
  | constant {minValue : Int} (hvalues : ∀ v ∈ values, v = minValue) :
    Reads values (.constant minValue)
  | block {r : VaryingBPVReader} {slice rank : RandomAccessInput} {offset : Nat} {gcd : Int}
    (hat : BlocksAt slice rank offset gcd values)
    (hholds : VaryingBPVReader.Holds slice rank offset gcd values r) : Reads values (.block r)
  | table {sorted : List Int} {reader : DirectPackedEnum} {encode : Int → Int}
    (hreads : StreamReads values encode reader)
    (hdecode : ∀ v ∈ values, sorted[asU 64 (asI 64 (encode v))]? = some v) :
    Reads values (.table sorted reader)
  | scaled {mul minValue : Int} {reader : DirectPackedEnum} {encode : Int → Int}
    (hreads : StreamReads values encode reader)
    (hdecode : ∀ v ∈ values, asI 64 (asI 64 (mul * asI 64 (encode v)) + minValue) = v) :
    Reads values (.scaled reader mul minValue)
  | delta {minValue : Int} {reader : DirectPackedEnum} {encode : Int → Int}
    (hreads : StreamReads values encode reader)
    (hdecode : ∀ v ∈ values, asI 64 (asI 64 (encode v) + minValue) = v) :
    Reads values (.delta reader minValue)
  | direct {reader : DirectPackedEnum} {encode : Int → Int}
    (hreads : StreamReads values encode reader)
    (hdecode : ∀ v ∈ values, asI 64 (encode v) = v) : Reads values (.direct reader)

/-- Every access returns the value at its index, in any order of indices. -/
theorem Reads.getMut {r : ValuesReader} (h : Reads values r)
    (hi : i < values.length) : ∃ r', r.getMut i = .ok (values[i], r') ∧ Reads values r' := by
  have hmem := getElem_mem hi
  cases h with
  | constant hvalues =>
    refine ⟨_, ?_, .constant hvalues⟩
    rw [ValuesReader.getMut, hvalues _ hmem]
  | block hat hholds =>
    obtain ⟨r', hread, hnext⟩ := VaryingBPVReader.getLongValue_spec hat hholds hi
    refine ⟨_, ?_, .block hat hnext⟩
    rw [ValuesReader.getMut, hread]
    rfl
  | table hreads hdecode =>
    obtain ⟨reader', hread, hnext⟩ := hreads.readFromSlice hi
    refine ⟨_, ?_, .table hnext hdecode⟩
    rw [ValuesReader.getMut, hread, ok_bind]
    dsimp only
    rw [hdecode _ hmem]
    rfl
  | scaled hreads hdecode =>
    obtain ⟨reader', hread, hnext⟩ := hreads.readFromSlice hi
    refine ⟨_, ?_, .scaled hnext hdecode⟩
    rw [ValuesReader.getMut, hread, ok_bind]
    dsimp only
    rw [hdecode _ hmem]
    rfl
  | delta hreads hdecode =>
    obtain ⟨reader', hread, hnext⟩ := hreads.readFromSlice hi
    refine ⟨_, ?_, .delta hnext hdecode⟩
    rw [ValuesReader.getMut, hread, ok_bind]
    dsimp only
    rw [hdecode _ hmem]
    rfl
  | direct hreads hdecode =>
    obtain ⟨reader', hread, hnext⟩ := hreads.readFromSlice hi
    refine ⟨_, ?_, .direct hnext hdecode⟩
    rw [ValuesReader.getMut, hread, ok_bind]
    rw [hdecode _ hmem]
    rfl

/-- A value of any encoding. -/
theorem Reads.get {r : ValuesReader} (h : Reads values r) {v : Int}
    (hv : values[i]? = some v) : ∃ r', r.getMut i = .ok (v, r') ∧ Reads values r' := by
  obtain ⟨hi, rfl⟩ := List.getElem_of_getElem? hv
  exact h.getMut hi

end ValuesReader

/-! ## Opening -/

namespace DocValuesProducer

variable {p : DocValuesProducer} {entry : NumericEntry}

/-- What a stream without a table is read as does not lose values. -/
def Plain (entry : NumericEntry) (plain : DirectPackedEnum → ValuesReader) : Prop :=
  ∀ (values : List Int) (encode : Int → Int) (reader : DirectPackedEnum),
    StreamReads values encode reader →
    (∀ v ∈ values, asI 64 (asI 64 (entry.gcd * asI 64 (encode v)) + entry.minValue) = v) →
    (plain reader).Reads values

/-- The reader of an encoding. -/
theorem openValues_reads {plain : DirectPackedEnum → ValuesReader} (hplain : Plain entry plain)
    (hlongs : Longs values) (hnum : entry.numValues = values.length)
    (h : ValuesAt p.data.bytes values entry) :
    ∃ r, p.openValues entry plain = .ok r ∧ r.Reads values := by
  unfold openValues
  cases h with
  | constant hbits hvalues =>
    rw [if_pos hbits]
    exact ⟨_, rfl, .constant hvalues⟩
  | packed bits encode hbits hshift hsupported hne hfit hdecode hat hlength =>
    have hnonempty : directBytes bits (values.map encode) ≠ [] :=
      directBytes_ne_nil hsupported (map_eq_nil_iff.not.mpr hne)
    have hnonzero : entry.bitsPerValue ≠ 0 := by
      have := (supported_pos hsupported).1
      omega
    obtain ⟨slice, hslice, hstream⟩ := IndexInput.randomAccessSlice_at hat
      entry.valuesLength hlength.ge (hlength ▸ hat.le_length hnonempty)
    obtain ⟨reader, hopen, hreads, hinput⟩ := VaryingBPVReader.getDirectReaderInstance_reads
      p.merging (some slice) (packedAt_directBytes hsupported hfit hstream)
    have hcount : entry.numValues = (unsigned (values.map encode)).length := by
      rw [length_map, length_map, hnum]
    have hstreamReads : StreamReads values encode reader := ⟨slice, hreads, hinput⟩
    rw [if_neg hnonzero, hslice, ok_bind, if_neg (by omega), hbits, hcount, hopen, ok_bind]
    cases htable : entry.table with
    | some table =>
      rw [htable] at hdecode
      exact ⟨_, rfl, .table hstreamReads hdecode⟩
    | none =>
      rw [htable] at hdecode
      exact ⟨_, rfl, hplain _ _ _ hstreamReads fun v hv => Option.some.inj (hdecode v hv)⟩
  | blocks hbits hshift hne hgcd hdvd hsmall hat hlength hjump hlt =>
    obtain ⟨hblocks, hstarts⟩ := at_append_iff.mp hat
    have hle : entry.valuesOffset + entry.valuesLength ≤ p.data.bytes.length := by
      rw [hlength]
      exact hat.le_length (append_ne_nil_of_right_ne_nil _ (jumpTableBytes_ne_nil _ _ _))
    obtain ⟨slice, hslice, hin⟩ := IndexInput.randomAccessSlice_at hblocks
      entry.valuesLength (by rw [hlength, length_append]; omega) hle
    obtain ⟨r, rank, hnew, hblocksAt, hholds⟩ := VaryingBPVReader.new_holds p.merging hnum hshift
      ⟨hgcd, hlongs, hdvd, hsmall⟩ hin hjump hstarts
      (by rw [hlength, length_append] at hlt; omega)
    have hblockShift : entry.blockShift ≥ 0 := by omega
    rw [if_neg hbits, hslice, ok_bind, if_pos hblockShift, hnew, ok_bind]
    exact ⟨_, rfl, .block hblocksAt hholds⟩

/-- The same for one value per document. -/
theorem openNumeric_reads (hlongs : Longs values) (hnum : entry.numValues = values.length)
    (h : ValuesAt p.data.bytes values entry) :
    ∃ r, p.openNumeric entry = .ok r ∧ r.Reads values := by
  refine openValues_reads ?_ hlongs hnum h
  intro values encode reader hreads hdecode
  dsimp only
  by_cases hdirect : entry.gcd = 1 ∧ entry.minValue = 0
  · rw [if_pos hdirect]
    refine .direct hreads fun v hv => ?_
    simpa [hdirect.1, hdirect.2] using hdecode v hv
  · rw [if_neg hdirect]
    exact .scaled hreads hdecode

/-- The same for several values per document. -/
theorem getNumericValues_reads (hlongs : Longs values) (hnum : entry.numValues = values.length)
    (h : ValuesAt p.data.bytes values entry) :
    ∃ r, p.getNumericValues entry = .ok r ∧ r.Reads values := by
  refine openValues_reads ?_ hlongs hnum h
  intro values encode reader hreads hdecode
  dsimp only
  by_cases hgcd : entry.gcd = 1
  · rw [if_neg (not_not_intro hgcd)]
    simp only [hgcd, one_mul, asI_asI_add] at hdecode
    by_cases hmin : entry.minValue = 0
    · rw [if_neg (not_not_intro hmin)]
      refine .direct hreads fun v hv => ?_
      simpa [hmin] using hdecode v hv
    · rw [if_pos hmin]
      refine .delta hreads fun v hv => ?_
      rw [asI_asI_add]
      exact hdecode v hv
  · rw [if_pos hgcd]
    exact .scaled hreads hdecode

end DocValuesProducer

end RLucene.Codecs.Lucene90.DocValues
