import Mathlib.Data.List.Chain
import RLucene.Store.IndexInput
import RLucene.Util.BitUtil

/-!
# Term states

Where the postings of a term are is written as differences to the term before it; the first term of
a block is written as it is. Both sides keep a state: the writer the last term, the reader the state
it decodes each term into. A term of one document has no postings: its document stands in the state,
and where two such terms follow each other the difference of their documents takes the place of that
of their positions in the file.
-/

namespace RLucene.Codecs.Lucene101

open List Lib Store Util

/-- What a field keeps of its terms, from least to most. -/
inductive IndexOptions where
  | none
  | docs
  | docsAndFreqs
  | docsAndFreqsAndPositions
  | docsAndFreqsAndPositionsAndOffsets
  deriving Repr, DecidableEq

/-- The order of the options. -/
def IndexOptions.rank : IndexOptions → Nat
  | none => 0
  | docs => 1
  | docsAndFreqs => 2
  | docsAndFreqsAndPositions => 3
  | docsAndFreqsAndPositionsAndOffsets => 4

/-- Each option has all that is before it. -/
instance : LE IndexOptions where
  le a b := a.rank ≤ b.rank

/-- The order can be decided. -/
instance (a b : IndexOptions) : Decidable (a ≤ b) :=
  inferInstanceAs (Decidable (a.rank ≤ b.rank))

/-- The part of a field that is read here. -/
structure FieldInfo where
  indexOptions : IndexOptions
  hasPayloads : Bool
  deriving Repr, DecidableEq

/-- What the writer writes for a field. -/
structure FieldWriteOptions where
  writePositions : Bool
  writePayloads : Bool
  writeOffsets : Bool
  deriving Repr, DecidableEq

/-- `set_field`: the options of a writer for a field. -/
def FieldWriteOptions.ofField (field : FieldInfo) : FieldWriteOptions where
  writePositions := .docsAndFreqsAndPositions ≤ field.indexOptions
  writePayloads := field.hasPayloads
  writeOffsets := .docsAndFreqsAndPositionsAndOffsets ≤ field.indexOptions

/-- What the term dictionary says about a term. -/
structure BlockTermState where
  docFreq : Int
  totalTermFreq : Int
  deriving Repr, DecidableEq

/-- Where the postings of a term are. -/
structure IntBlockTermState where
  docStartFp : Int
  posStartFp : Int
  payStartFp : Int
  lastPosBlockOffset : Int
  singletonDocId : Int
  base : BlockTermState
  deriving Repr, DecidableEq

namespace IntBlockTermState

/-- The state before the first term. -/
def new : IntBlockTermState where
  docStartFp := 0
  posStartFp := 0
  payStartFp := 0
  lastPosBlockOffset := -1
  singletonDocId := -1
  base := ⟨0, 0⟩

/-- The entries of a block of postings. -/
def blockSize : Int := 128

/-! ## The writer -/

/-- Write where the documents of a term are. -/
def encodeDocs (out : Bytes) (last state : IntBlockTermState) : Result Bytes :=
  if last.singletonDocId ≠ -1 ∧ state.singletonDocId ≠ -1 ∧ state.docStartFp = last.docStartFp then
    let delta := asI 32 (state.singletonDocId - last.singletonDocId)
    writeVLong out (BitUtil.zigZagEncodeI64 (BitVec.ofInt 64 delta) <<< 1 ||| 1).toInt
  else do
    let out ← writeVLong out (asI 64 (2 * asI 64 (state.docStartFp - last.docStartFp)))
    return if state.singletonDocId ≠ -1 then writeVInt out state.singletonDocId else out

/-- Write where its payloads are. -/
def encodePay (out : Bytes) (last state : IntBlockTermState) (options : FieldWriteOptions) :
    Result Bytes :=
  if options.writePayloads || options.writeOffsets then
    writeVLong out (asI 64 (state.payStartFp - last.payStartFp))
  else .ok out

/-- Write where its last positions are, if there are enough. -/
def encodeOffset (out : Bytes) (state : IntBlockTermState) : Result Bytes :=
  if state.lastPosBlockOffset ≠ -1 then writeVLong out state.lastPosBlockOffset else .ok out

/-- Write where its positions are. -/
def encodePositions (out : Bytes) (last state : IntBlockTermState) (options : FieldWriteOptions) :
    Result Bytes :=
  if options.writePositions then do
    let out ← writeVLong out (asI 64 (state.posStartFp - last.posStartFp))
    let out ← encodePay out last state options
    encodeOffset out state
  else .ok out

/-- `encode_term_with_option`: the last term of the writer and what it has written. -/
def encodeTerm (options : FieldWriteOptions) (writer : IntBlockTermState × Bytes)
    (term : IntBlockTermState × Bool) : Result (IntBlockTermState × Bytes) := do
  let (state, absolute) := term
  let last := if absolute then new else writer.1
  let out ← encodeDocs writer.2 last state
  let out ← encodePositions out last state options
  return (state, out)

/-! ## The reader -/

/-- Read where the documents of a term are. -/
def decodeDocs (input : IndexInput) (state : IntBlockTermState) :
    Result (IntBlockTermState × IndexInput) := do
  let (l, input) ← input.readVLong
  let l := BitVec.ofInt 64 l
  if l &&& 1 = 0 then
    let state := { state with docStartFp := asI 64 (state.docStartFp + (l >>> (1 : Nat)).toInt) }
    if state.base.docFreq = (1 : Int) then
      let (doc, input) ← input.readVInt
      return ({ state with singletonDocId := doc }, input)
    else
      return ({ state with singletonDocId := -1 }, input)
  else
    let delta := BitUtil.zigZagDecodeI64 (l >>> 1)
    return ({ state with singletonDocId := asI 32 (state.singletonDocId + asI 32 delta.toInt) },
      input)

/-- Read where its payloads are. -/
def decodePay (input : IndexInput) (state : IntBlockTermState) (field : FieldInfo) :
    Result (IntBlockTermState × IndexInput) :=
  if .docsAndFreqsAndPositionsAndOffsets ≤ field.indexOptions ∨ field.hasPayloads then do
    let (pay, input) ← input.readVLong
    return ({ state with payStartFp := asI 64 (state.payStartFp + pay) }, input)
  else .ok (state, input)

/-- Read where its last positions are, if there are enough. -/
def decodeOffset (input : IndexInput) (state : IntBlockTermState) :
    Result (IntBlockTermState × IndexInput) :=
  if state.base.totalTermFreq > blockSize then do
    let (offset, input) ← input.readVLong
    return ({ state with lastPosBlockOffset := offset }, input)
  else .ok ({ state with lastPosBlockOffset := -1 }, input)

/-- Read where its positions are. -/
def decodePositions (input : IndexInput) (state : IntBlockTermState) (field : FieldInfo) :
    Result (IntBlockTermState × IndexInput) :=
  if .docsAndFreqsAndPositions ≤ field.indexOptions then do
    let (pos, input) ← input.readVLong
    let state := { state with posStartFp := asI 64 (state.posStartFp + pos) }
    let (state, input) ← decodePay input state field
    decodeOffset input state
  else .ok (state, input)

/-- `decode_term`, into a state that has the frequencies of the term already. -/
def decodeTerm (field : FieldInfo) (input : IndexInput) (state : IntBlockTermState)
    (absolute : Bool) : Result (IntBlockTermState × IndexInput) := do
  let state :=
    if absolute then { state with docStartFp := 0, posStartFp := 0, payStartFp := 0 } else state
  let (state, input) ← decodeDocs input state
  decodePositions input state field

/-- Decode the terms of a field one after the other into one state, and copy it after each term. -/
def decodeTerms (field : FieldInfo) :
    IndexInput → IntBlockTermState → List (BlockTermState × Bool) →
      Result (List IntBlockTermState × IndexInput)
  | input, _, [] => .ok ([], input)
  | input, state, (base, absolute) :: rest => do
    let (state, input) ← decodeTerm field input { state with base := base } absolute
    let (states, input) ← decodeTerms field input state rest
    return (state :: states, input)

/-! ## One term -/

section

variable {field : FieldInfo} {last state reader : IntBlockTermState}
  {out out' file : Bytes} {pos : Nat}

/-- The field has positions. -/
def hasPositions (field : FieldInfo) : Prop :=
  .docsAndFreqsAndPositions ≤ field.indexOptions

/-- Payloads and offsets have a file of their own. -/
def hasPay (field : FieldInfo) : Prop :=
  .docsAndFreqsAndPositionsAndOffsets ≤ field.indexOptions ∨ field.hasPayloads

/-- Whether it does is read off its options. -/
instance (field : FieldInfo) : Decidable (hasPositions field) :=
  inferInstanceAs (Decidable (_ ≤ _))

/-- Whether it does is read off its options. -/
instance (field : FieldInfo) : Decidable (hasPay field) :=
  inferInstanceAs (Decidable (_ ∨ _))

/-- A state that a writer can have of a term, with its pointers in 64 bits. -/
structure Valid (field : FieldInfo) (state : IntBlockTermState) : Prop where
  docStartFp : 0 ≤ state.docStartFp ∧ state.docStartFp < 2 ^ 63
  posStartFp : 0 ≤ state.posStartFp ∧ state.posStartFp < 2 ^ 63
  payStartFp : 0 ≤ state.payStartFp ∧ state.payStartFp < 2 ^ 63
  singleton : state.base.docFreq = 1 → 0 ≤ state.singletonDocId ∧ state.singletonDocId < 2 ^ 31
  not_singleton : state.base.docFreq ≠ 1 → state.singletonDocId = -1
  offset : hasPositions field → blockSize < state.base.totalTermFreq →
    0 ≤ state.lastPosBlockOffset ∧ state.lastPosBlockOffset < 2 ^ 63
  no_offset : ¬(hasPositions field ∧ blockSize < state.base.totalTermFreq) →
    state.lastPosBlockOffset = -1

/-- The pointers do not go back from one term to the next. -/
structure Before (last state : IntBlockTermState) : Prop where
  docStartFp : last.docStartFp ≤ state.docStartFp
  posStartFp : last.posStartFp ≤ state.posStartFp
  payStartFp : last.payStartFp ≤ state.payStartFp

/-- What the differences of a term are taken to: the term before it, or a new state. -/
structure Origin (last state : IntBlockTermState) : Prop extends Before last state where
  docStartFp_nonneg : 0 ≤ last.docStartFp
  posStartFp_nonneg : 0 ≤ last.posStartFp
  payStartFp_nonneg : 0 ≤ last.payStartFp
  le_singletonDocId : -1 ≤ last.singletonDocId
  singletonDocId_lt : last.singletonDocId < 2 ^ 31

/-- What a reader has of a term: pointers into files that the field does not have are not kept. -/
structure Reproduces (field : FieldInfo) (term state : IntBlockTermState) : Prop where
  docStartFp : state.docStartFp = term.docStartFp
  posStartFp : hasPositions field → state.posStartFp = term.posStartFp
  payStartFp : hasPositions field → hasPay field → state.payStartFp = term.payStartFp
  singletonDocId : state.singletonDocId = term.singletonDocId
  lastPosBlockOffset : state.lastPosBlockOffset = term.lastPosBlockOffset

/-- A number that is not negative is written. -/
theorem writeVLong_eq {i : Int} (h : 0 ≤ i) : writeVLong out i = .ok (out ++ vLongBytes i) :=
  if_neg (Int.not_lt.mpr h)

/-- It is read back. -/
theorem readVLong_eq {i : Int} (hlo : 0 ≤ i) (hhi : i < 2 ^ 63) (hat : At file pos (vLongBytes i)) :
    (IndexInput.mk file pos).readVLong = .ok (i, ⟨file, pos + (vLongBytes i).length⟩) := by
  rw [IndexInput.readVLong_mk hat, asI_64 (by omega) hhi]

/-- A number and the flag below it are taken apart again. -/
theorem flag_and_shift {n b : Nat} (hn : n < 2 ^ 62) (hb : b < 2) :
    BitVec.ofInt 64 ((2 * n + b : Nat) : Int) &&& 1 = BitVec.ofNat 64 b ∧
      BitVec.ofInt 64 ((2 * n + b : Nat) : Int) >>> 1 = BitVec.ofNat 64 n := by
  rw [BitVec.ofInt_natCast]
  constructor
  · apply BitVec.eq_of_toNat_eq
    rw [BitVec.toNat_and, BitVec.toNat_ofNat, BitVec.toNat_ofNat]
    change _ &&& 1 = _
    rw [Nat.and_one_is_mod]
    omega
  · apply BitVec.eq_of_toNat_eq
    rw [BitVec.toNat_ushiftRight, BitVec.toNat_ofNat, BitVec.toNat_ofNat, Nat.shiftRight_eq_div_pow]
    omega

/-- The distance with its flag. -/
theorem flagged_toInt {z : BitVec 64} (hz : z.toNat < 2 ^ 62) :
    (z <<< 1 ||| 1).toInt = ((2 * z.toNat + 1 : Nat) : Int) := by
  have hor : z <<< 1 ||| (1 : BitVec 64) = z <<< 1 + 1 := by
    refine (BitVec.add_eq_or_of_and_eq_zero _ _ ?_).symm
    ext i hi
    rcases i with - | i <;> simp [BitVec.getElem_one]
  have hnat : (z <<< 1 + 1).toNat = 2 * z.toNat + 1 := by
    rw [BitVec.toNat_add, BitVec.toNat_shiftLeft, Nat.shiftLeft_eq]
    change (_ + 1) % _ = _
    omega
  rw [hor, BitVec.toInt_eq_toNat_cond, hnat, if_pos (by omega)]

/-- The bytes of the pointers into the files of positions and payloads, and of the offset of the
last positions, as far as there are any. -/
def payBytes (field : FieldInfo) (last state : IntBlockTermState) : Bytes :=
  if (FieldWriteOptions.ofField field).writePayloads ||
    (FieldWriteOptions.ofField field).writeOffsets
  then vLongBytes (state.payStartFp - last.payStartFp) else []

@[inherit_doc payBytes]
def offsetBytes (state : IntBlockTermState) : Bytes :=
  if state.lastPosBlockOffset ≠ -1 then vLongBytes state.lastPosBlockOffset else []

@[inherit_doc payBytes]
def positionBytes (field : FieldInfo) (last state : IntBlockTermState) : Bytes :=
  if (FieldWriteOptions.ofField field).writePositions then
    vLongBytes (state.posStartFp - last.posStartFp) ++
      (payBytes field last state ++ offsetBytes state)
  else []

/-- The writer and the reader agree on positions. -/
theorem hasPositions_iff :
    (FieldWriteOptions.ofField field).writePositions = true ↔ hasPositions field :=
  decide_eq_true_iff

/-- The writer and the reader agree on payloads. -/
theorem hasPay_iff :
    ((FieldWriteOptions.ofField field).writePayloads ||
      (FieldWriteOptions.ofField field).writeOffsets) = true ↔ hasPay field := by
  simp [FieldWriteOptions.ofField, hasPay, or_comm]

variable (hlast : Origin last state) (hstate : Valid field state)

include hstate

/-- The document, or `-1`. -/
theorem Valid.singletonDocId_range : -1 ≤ state.singletonDocId ∧ state.singletonDocId < 2 ^ 31 := by
  by_cases hsingle : state.base.docFreq = 1
  · have hrange := hstate.singleton hsingle
    omega
  · rw [hstate.not_singleton hsingle]
    omega

/-- The offset is there if there are more positions than a block has. -/
theorem hasOffset_iff (hpositions : hasPositions field) :
    state.lastPosBlockOffset ≠ -1 ↔ blockSize < state.base.totalTermFreq := by
  constructor
  · intro hne
    by_contra hfew
    exact hne (hstate.no_offset fun h => hfew h.2)
  · intro hmany
    have hoffset := hstate.offset hpositions hmany
    omega

/-- The offset is read back. -/
theorem decodeOffset_spec (hpositions : hasPositions field)
    (hat : At file pos (offsetBytes state)) (hbase : reader.base = state.base) :
    decodeOffset ⟨file, pos⟩ reader =
      .ok ({ reader with lastPosBlockOffset := state.lastPosBlockOffset },
        ⟨file, pos + (offsetBytes state).length⟩) := by
  by_cases hmany : blockSize < state.base.totalTermFreq
  · have hoffset := hstate.offset hpositions hmany
    rw [offsetBytes, if_pos ((hasOffset_iff hstate hpositions).mpr hmany)] at hat ⊢
    rw [decodeOffset, hbase, if_pos hmany, readVLong_eq hoffset.1 hoffset.2 hat, ok_bind]
    rfl
  · have hnone : state.lastPosBlockOffset = -1 := hstate.no_offset fun h => hmany h.2
    rw [offsetBytes, if_neg (not_not_intro hnone), decodeOffset, hbase, if_neg hmany, hnone]
    rfl

include hlast

/-- The difference of two documents is kept, and leaves room for the flag. -/
theorem delta_spec (hlastOne : last.singletonDocId ≠ -1) (hone : state.singletonDocId ≠ -1) :
    asI 32 (state.singletonDocId - last.singletonDocId) =
        state.singletonDocId - last.singletonDocId ∧
      (BitVec.ofInt 64 (state.singletonDocId - last.singletonDocId)).toInt =
        state.singletonDocId - last.singletonDocId ∧
      (BitUtil.zigZagEncodeI64
        (BitVec.ofInt 64 (state.singletonDocId - last.singletonDocId))).toNat < 2 ^ 62 := by
  have hsingle : state.base.docFreq = 1 := by
    by_contra hne
    exact hone (hstate.not_singleton hne)
  have hrange := hstate.singleton hsingle
  have hle := hlast.le_singletonDocId
  have hlt := hlast.singletonDocId_lt
  have hint : (BitVec.ofInt 64 (state.singletonDocId - last.singletonDocId)).toInt =
      state.singletonDocId - last.singletonDocId := by
    rw [BitVec.toInt_ofInt]
    exact asI_64 (by omega) (by omega)
  refine ⟨asI_32 (by omega) (by omega), hint, ?_⟩
  have hnat := BitUtil.zigZagEncodeI64_toNat
    (BitVec.ofInt 64 (state.singletonDocId - last.singletonDocId))
  split at hnat <;> omega

/-- A reader that knows the last term gets the document and the pointer of the term. -/
def DecodesDocs (last state : IntBlockTermState) (written : Bytes) : Prop :=
  ∀ {file : Bytes} {pos : Nat} {reader : IntBlockTermState}, At file pos written →
    reader.docStartFp = last.docStartFp →
    (last.singletonDocId ≠ -1 → reader.singletonDocId = last.singletonDocId) →
    reader.base = state.base →
    decodeDocs ⟨file, pos⟩ reader =
      .ok ({ reader with docStartFp := state.docStartFp, singletonDocId := state.singletonDocId },
        ⟨file, pos + written.length⟩)

/-- One document each and one file pointer: the distance of the documents is written. -/
theorem encodeDocs_near (hlastOne : last.singletonDocId ≠ -1) (hone : state.singletonDocId ≠ -1)
    (hsame : state.docStartFp = last.docStartFp) (hencode : encodeDocs out last state = .ok out') :
    ∃ written, out' = out ++ written ∧ DecodesDocs last state written := by
  obtain ⟨hdelta, hint, hsmall⟩ := delta_spec hlast hstate hlastOne hone
  have hdoc := hstate.singletonDocId_range
  rw [encodeDocs, if_pos ⟨hlastOne, hone, hsame⟩] at hencode
  dsimp only at hencode
  rw [hdelta] at hencode
  generalize hz : BitUtil.zigZagEncodeI64
    (BitVec.ofInt 64 (state.singletonDocId - last.singletonDocId)) = z at hencode hsmall
  rw [flagged_toInt hsmall, writeVLong_eq (Int.natCast_nonneg _)] at hencode
  obtain rfl := Except.ok.inj hencode
  refine ⟨_, rfl, ?_⟩
  intro file pos reader hat hreader hreaderDoc _
  obtain ⟨hflag, hshift⟩ := flag_and_shift hsmall (show 1 < 2 by decide)
  rw [decodeDocs, readVLong_eq (Int.natCast_nonneg _) (by omega) hat, ok_bind]
  dsimp only
  rw [hflag, if_neg (by decide), hshift, BitVec.ofNat_toNat, BitVec.setWidth_eq, ← hz,
    BitUtil.zigZagDecodeI64_encode, hint, hdelta, hreaderDoc hlastOne, asI_32 (by omega) (by omega),
    pure_eq_ok, hsame, ← hreader]
  rw [show last.singletonDocId + (state.singletonDocId - last.singletonDocId) =
    state.singletonDocId by omega]

omit hstate hlast in
/-- The distance of the file pointers is written twice as large; one that is then negative is
refused. -/
theorem distance_lt {n : Nat} (hn : n < 2 ^ 63) {mid : Bytes}
    (hmid : writeVLong out (asI 64 (2 * (n : Int))) = .ok mid) : n < 2 ^ 62 := by
  by_contra hlarge
  have hneg : asI 64 (2 * (n : Int)) < 0 := by
    rw [show 2 * (n : Int) = (2 * n - 2 ^ 64) + 1 * 2 ^ 64 by omega, asI_add_mul,
      asI_64 (by omega) (by omega)]
    omega
  rw [writeVLong, if_pos hneg] at hmid
  cases hmid

/-- The pointer is read back from twice its distance, and the document behind it if there is one. -/
theorem decodesDocs_far {n : Nat} (hn : state.docStartFp - last.docStartFp = n)
    (hfits : n < 2 ^ 62) :
    DecodesDocs last state (vLongBytes (2 * (n : Int)) ++
      if state.singletonDocId ≠ -1 then vIntBytes state.singletonDocId else []) := by
  have hfp := hstate.docStartFp
  have hzero := hlast.docStartFp_nonneg
  intro file pos reader hat hreader _ hbase
  obtain ⟨hat, hat'⟩ := at_append_iff.mp hat
  obtain ⟨hflag, hshift⟩ := flag_and_shift hfits (show 0 < 2 by decide)
  have hread : (IndexInput.mk file pos).readVLong =
      .ok (((2 * n + 0 : Nat) : Int), ⟨file, pos + (vLongBytes (2 * (n : Int))).length⟩) :=
    readVLong_eq (by omega) (by omega) (by exact_mod_cast hat)
  have hsum : asI 64 (reader.docStartFp + (BitVec.ofNat 64 n).toInt) = state.docStartFp := by
    rw [BitVec.toInt_eq_toNat_cond, BitVec.toNat_ofNat, Nat.mod_eq_of_lt (by omega),
      if_pos (by omega), hreader, ← hn, add_sub_cancel, asI_64 (by omega) (by omega)]
  rw [decodeDocs, hread, ok_bind]
  dsimp only
  rw [hflag, if_pos (by decide), hshift, hsum, hbase]
  by_cases hsingle : state.base.docFreq = 1
  · have hrange := hstate.singleton hsingle
    have hone : state.singletonDocId ≠ -1 := by omega
    rw [if_pos hone] at hat' ⊢
    rw [if_pos hsingle, IndexInput.readVInt_mk hat', ok_bind, asI_32 (by omega) (by omega),
      length_append, ← add_assoc]
    rfl
  · have hnone := hstate.not_singleton hsingle
    rw [if_neg hsingle, if_neg (not_not_intro hnone), append_nil, hnone]
    rfl

/-- The document and the pointer of a term, from those of the term before it. -/
theorem encodeDocs_spec (hencode : encodeDocs out last state = .ok out') :
    ∃ written, out' = out ++ written ∧ DecodesDocs last state written := by
  have hfp := hstate.docStartFp
  have hle := hlast.docStartFp
  have hzero := hlast.docStartFp_nonneg
  by_cases htrick : last.singletonDocId ≠ -1 ∧ state.singletonDocId ≠ -1 ∧
      state.docStartFp = last.docStartFp
  · exact encodeDocs_near hlast hstate htrick.1 htrick.2.1 htrick.2.2 hencode
  · obtain ⟨n, hn⟩ := Int.eq_ofNat_of_zero_le (show 0 ≤ state.docStartFp - last.docStartFp by omega)
    rw [encodeDocs, if_neg htrick, hn, asI_64 (i := (n : Int)) (by omega) (by omega)] at hencode
    obtain ⟨mid, hmid, hencode⟩ := bind_eq_ok.mp hencode
    have hfits := distance_lt (by omega) hmid
    rw [asI_64 (by omega) (by omega), writeVLong_eq (by omega)] at hmid
    obtain rfl := Except.ok.inj hmid
    obtain rfl := Except.ok.inj hencode
    refine ⟨_, ?_, decodesDocs_far hlast hstate hn hfits⟩
    split
    · rw [writeVInt, append_assoc]
    · rw [append_nil]

/-- Documents within half the range are written. -/
theorem encodeDocs_ok
    (hsmall : state.docStartFp < 2 ^ 62) : ∃ out', encodeDocs out last state = .ok out' := by
  have hle := hlast.docStartFp
  have hzero := hlast.docStartFp_nonneg
  rw [encodeDocs]
  split
  next htrick =>
    obtain ⟨hdelta, -, hfits⟩ := delta_spec hlast hstate htrick.1 htrick.2.1
    dsimp only
    rw [hdelta, flagged_toInt hfits]
    exact ⟨_, writeVLong_eq (Int.natCast_nonneg _)⟩
  next =>
    rw [asI_64 (i := state.docStartFp - last.docStartFp) (by omega) (by omega),
      asI_64 (by omega) (by omega), writeVLong_eq (by omega), ok_bind]
    exact ⟨_, rfl⟩

/-- What is written for positions. -/
theorem encodePositions_spec :
    encodePositions out last state (.ofField field) =
      .ok (out ++ positionBytes field last state) := by
  have hpos := hstate.posStartFp
  have hpay := hstate.payStartFp
  have hposLe := hlast.posStartFp
  have hpayLe := hlast.payStartFp
  have hlastPos := hlast.posStartFp_nonneg
  have hlastPay := hlast.payStartFp_nonneg
  have hencodePay (out : Bytes) : encodePay out last state (.ofField field) =
      .ok (out ++ payBytes field last state) := by
    rw [encodePay, payBytes]
    split
    · rw [asI_64 (by omega) (by omega), writeVLong_eq (by omega)]
    · rw [append_nil]
  rw [encodePositions, positionBytes]
  split
  next hpositions =>
    have hencodeOffset (out : Bytes) : encodeOffset out state = .ok (out ++ offsetBytes state) := by
      rw [encodeOffset, offsetBytes]
      split
      next hne =>
        have hpositions := hasPositions_iff.mp hpositions
        have hoffset := hstate.offset hpositions ((hasOffset_iff hstate hpositions).mp hne)
        rw [writeVLong_eq hoffset.1]
      next => rw [append_nil]
    rw [asI_64 (by omega) (by omega), writeVLong_eq (by omega), ok_bind, hencodePay, ok_bind,
      hencodeOffset, append_assoc, append_assoc]
  next => rw [append_nil]

/-- The payloads are found again. -/
theorem decodePay_spec (hat : At file pos (payBytes field last state))
    (hreader : hasPay field → reader.payStartFp = last.payStartFp) :
    decodePay ⟨file, pos⟩ reader field =
      .ok ({ reader with
          payStartFp := if hasPay field then state.payStartFp else reader.payStartFp },
        ⟨file, pos + (payBytes field last state).length⟩) := by
  have hpay := hstate.payStartFp
  have hpayLe := hlast.payStartFp
  have hlastPay := hlast.payStartFp_nonneg
  by_cases hpayField : hasPay field
  · have hsum : asI 64 (reader.payStartFp + (state.payStartFp - last.payStartFp)) =
        state.payStartFp := by
      rw [hreader hpayField, add_sub_cancel, asI_64 (by omega) (by omega)]
    rw [payBytes, if_pos (hasPay_iff.mpr hpayField)] at hat ⊢
    rw [if_pos hpayField, decodePay, if_pos (show _ ∨ _ from hpayField),
      readVLong_eq (by omega) (by omega) hat, ok_bind]
    dsimp only
    rw [hsum, pure_eq_ok]
  · rw [payBytes, if_neg (fun h => hpayField (hasPay_iff.mp h)), if_neg hpayField, decodePay,
      if_neg (show ¬(_ ∨ _) from hpayField)]
    rfl

/-- The positions are found again. -/
theorem decodePositions_spec
    (hat : At file pos (positionBytes field last state)) (hbase : reader.base = state.base)
    (hreader : hasPositions field → reader.posStartFp = last.posStartFp)
    (hreaderPay : hasPositions field → hasPay field → reader.payStartFp = last.payStartFp)
    (hreaderOffset : ¬hasPositions field → reader.lastPosBlockOffset = -1) :
    decodePositions ⟨file, pos⟩ reader field =
      .ok ({ reader with
          posStartFp := if hasPositions field then state.posStartFp else reader.posStartFp
          payStartFp :=
            if hasPositions field ∧ hasPay field then state.payStartFp else reader.payStartFp
          lastPosBlockOffset := state.lastPosBlockOffset },
        ⟨file, pos + (positionBytes field last state).length⟩) := by
  have hpos := hstate.posStartFp
  have hposLe := hlast.posStartFp
  have hlastPos := hlast.posStartFp_nonneg
  by_cases hpositions : hasPositions field
  · rw [positionBytes, if_pos (hasPositions_iff.mpr hpositions)] at hat ⊢
    obtain ⟨hat, hrest⟩ := at_append_iff.mp hat
    obtain ⟨hatPay, hatOffset⟩ := at_append_iff.mp hrest
    have hsum : asI 64 (reader.posStartFp + (state.posStartFp - last.posStartFp)) =
        state.posStartFp := by
      rw [hreader hpositions, add_sub_cancel, asI_64 (by omega) (by omega)]
    have hdecodePay := @decodePay_spec field last state
      { reader with posStartFp := state.posStartFp }
      file _ hlast hstate hatPay (hreaderPay hpositions)
    have hdecodeOffset := @decodeOffset_spec field state
      { reader with
        posStartFp := state.posStartFp
        payStartFp := if hasPay field then state.payStartFp else reader.payStartFp }
      file _ hstate hpositions hatOffset hbase
    rw [decodePositions, if_pos (show IndexOptions.docsAndFreqsAndPositions ≤ _ from hpositions),
      readVLong_eq (by omega) (by omega) hat, ok_bind]
    dsimp only
    rw [hsum, hdecodePay, ok_bind]
    rw [hdecodeOffset, if_pos hpositions, length_append, length_append, add_assoc, add_assoc]
    simp only [hpositions, true_and]
  · have hnone : state.lastPosBlockOffset = -1 := hstate.no_offset fun h => hpositions h.1
    rw [positionBytes, if_neg (fun h => hpositions (hasPositions_iff.mp h)), decodePositions,
      if_neg (show ¬IndexOptions.docsAndFreqsAndPositions ≤ _ from hpositions), hnone,
      ← hreaderOffset hpositions, if_neg hpositions, if_neg fun h => hpositions h.1]
    rfl

omit hlast

/-- What the writer and the reader start from. -/
theorem origin_of_valid {absolute : Bool}
    (hprev : absolute = true ∨ Valid field last ∧ Before last state) :
    Origin (if absolute then new else last) state := by
  cases absolute with
  | true =>
    exact ⟨⟨hstate.docStartFp.1, hstate.posStartFp.1, hstate.payStartFp.1⟩, le_rfl, le_rfl, le_rfl,
      le_rfl, show new.singletonDocId < 2 ^ 31 by decide⟩
  | false =>
    obtain habsurd | ⟨hlast, hbefore⟩ := hprev
    · cases habsurd
    · exact ⟨hbefore, hlast.docStartFp.1, hlast.posStartFp.1, hlast.payStartFp.1,
        hlast.singletonDocId_range.1, hlast.singletonDocId_range.2⟩

/-- A term within half the range is written. -/
theorem encodeTerm_ok {absolute : Bool}
    (hprev : absolute = true ∨ Valid field last ∧ Before last state)
    (hsmall : state.docStartFp < 2 ^ 62) :
    ∃ out', encodeTerm (.ofField field) (last, out) (state, absolute) = .ok (state, out') := by
  have horigin := origin_of_valid hstate hprev
  obtain ⟨mid, hdocs⟩ := @encodeDocs_ok field _ state out horigin hstate hsmall
  rw [encodeTerm]
  rw [hdocs, ok_bind, encodePositions_spec horigin hstate, ok_bind]
  exact ⟨_, rfl⟩

/-- The reader has the term that the writer goes on from; or both start afresh. -/
def Follows (field : FieldInfo) (last reader : IntBlockTermState)
    (term : IntBlockTermState × Bool) : Prop :=
  term.2 = true ∨ (Valid field last ∧ Before last term.1) ∧ Reproduces field last reader

/-- One term. -/
theorem decodeTerm_encodeTerm {last' : IntBlockTermState} {absolute : Bool}
    (hfollows : Follows field last reader (state, absolute))
    (hreaderOffset : ¬hasPositions field → reader.lastPosBlockOffset = -1)
    (hencode : encodeTerm (.ofField field) (last, out) (state, absolute) = .ok (last', out')) :
    last' = state ∧ ∃ written state', out' = out ++ written ∧ Reproduces field state state' ∧
      ∀ {file : Bytes} {pos : Nat}, At file pos written →
        decodeTerm field ⟨file, pos⟩ { reader with base := state.base } absolute =
          .ok (state', ⟨file, pos + written.length⟩) := by
  have horigin := origin_of_valid hstate (hfollows.imp_right And.left)
  -- What the differences are taken to, on the side of the reader.
  obtain ⟨start, hstart⟩ : ∃ start : IntBlockTermState, start =
      if absolute then
        { { reader with base := state.base } with
          docStartFp := 0, posStartFp := 0, payStartFp := 0 }
      else { reader with base := state.base } := ⟨_, rfl⟩
  have hbase : start.base = state.base := by
    rw [hstart]
    split <;> rfl
  have hoffset : start.lastPosBlockOffset = reader.lastPosBlockOffset := by
    rw [hstart]
    split <;> rfl
  generalize hprev : (if absolute = true then new else last) = prev at horigin
  have hsame : start.docStartFp = prev.docStartFp ∧
      (prev.singletonDocId ≠ -1 → start.singletonDocId = prev.singletonDocId) ∧
      (hasPositions field → start.posStartFp = prev.posStartFp) ∧
      (hasPositions field → hasPay field → start.payStartFp = prev.payStartFp) := by
    cases absolute with
    | true =>
      subst hprev hstart
      exact ⟨rfl, fun h => absurd rfl h, fun _ => rfl, fun _ _ => rfl⟩
    | false =>
      obtain habsurd | ⟨-, hreader⟩ := hfollows
      · cases habsurd
      · subst hprev hstart
        exact ⟨hreader.docStartFp, fun _ => hreader.singletonDocId, hreader.posStartFp,
          hreader.payStartFp⟩
  rw [encodeTerm] at hencode
  rw [hprev] at hencode
  obtain ⟨mid, hdocs, hencode⟩ := bind_eq_ok.mp hencode
  rw [encodePositions_spec horigin hstate, ok_bind, pure_eq_ok] at hencode
  obtain ⟨rfl, rfl⟩ := Prod.mk.inj (Except.ok.inj hencode)
  obtain ⟨docBytes, rfl, hdecodeDocs⟩ := encodeDocs_spec horigin hstate hdocs
  refine ⟨rfl, docBytes ++ positionBytes field prev state, { start with
    docStartFp := state.docStartFp
    posStartFp := if hasPositions field then state.posStartFp else start.posStartFp
    payStartFp := if hasPositions field ∧ hasPay field then state.payStartFp else start.payStartFp
    lastPosBlockOffset := state.lastPosBlockOffset
    singletonDocId := state.singletonDocId }, append_assoc _ _ _,
    ⟨rfl, fun h => if_pos h, fun h h' => if_pos ⟨h, h'⟩, rfl, rfl⟩, ?_⟩
  intro file pos hat
  obtain ⟨hatDocs, hatPositions⟩ := at_append_iff.mp hat
  have hdecode := @decodePositions_spec field prev state
    { start with docStartFp := state.docStartFp, singletonDocId := state.singletonDocId } file _
    horigin hstate hatPositions hbase hsame.2.2.1 hsame.2.2.2
    (fun h => hoffset.trans (hreaderOffset h))
  rw [decodeTerm, ← hstart, hdecodeDocs hatDocs hsame.1 hsame.2.1 hbase, ok_bind]
  dsimp only
  rw [hdecode, length_append, add_assoc]

end

/-! ## All terms of a field -/

section

variable {field : FieldInfo} {terms : List (IntBlockTermState × Bool)}

/-- Write some terms. -/
def encodeTerms (options : FieldWriteOptions) (writer : IntBlockTermState × Bytes)
    (terms : List (IntBlockTermState × Bool)) : Result (IntBlockTermState × Bytes) :=
  terms.foldlM (encodeTerm options) writer

/-- Terms within half the range are written. -/
theorem encodeTerms_ok (hvalid : ∀ term ∈ terms, Valid field term.1)
    (hchain : terms.IsChain fun a b => Before a.1 b.1)
    (hsmall : ∀ term ∈ terms, term.1.docStartFp < 2 ^ 62) {last : IntBlockTermState}
    (hfirst : ∀ term ∈ terms.head?, term.2 = true ∨ Valid field last ∧ Before last term.1)
    (out : Bytes) : ∃ writer, encodeTerms (.ofField field) (last, out) terms = .ok writer := by
  induction terms generalizing last out with
  | nil => exact ⟨_, rfl⟩
  | cons term terms ih =>
    have hmem : term ∈ term :: terms := mem_cons_self
    obtain ⟨out', hstep⟩ := @encodeTerm_ok field last term.1 out (hvalid _ hmem) term.2
      (hfirst term rfl) (hsmall _ hmem)
    rw [encodeTerms, foldlM_cons, hstep, ok_bind]
    refine ih (forall_mem_cons.mp hvalid).2 (isChain_cons.mp hchain).2
      (forall_mem_cons.mp hsmall).2 (fun next hnext => ?_) out'
    exact .inr ⟨hvalid _ hmem, (isChain_cons.mp hchain).1 next hnext⟩

/-- Every term of a run is read back, whatever state the reader has, if the first is absolute. -/
theorem decodeTerms_spec (hvalid : ∀ term ∈ terms, Valid field term.1)
    (hchain : terms.IsChain fun a b => Before a.1 b.1) {last reader last' : IntBlockTermState}
    {out out' : Bytes} (hfirst : ∀ term ∈ terms.head?, Follows field last reader term)
    (hreader : ¬hasPositions field → reader.lastPosBlockOffset = -1)
    (hencode : encodeTerms (.ofField field) (last, out) terms = .ok (last', out')) :
    ∃ written states, out' = out ++ written ∧
      List.Forall₂ (fun term state => Reproduces field term.1 state) terms states ∧
      ∀ {file : Bytes} {pos : Nat}, At file pos written →
        decodeTerms field ⟨file, pos⟩ reader (terms.map fun term => (term.1.base, term.2)) =
          .ok (states, ⟨file, pos + written.length⟩) := by
  induction terms generalizing last reader out with
  | nil =>
    obtain ⟨-, rfl⟩ := Prod.mk.inj (Except.ok.inj hencode)
    exact ⟨[], [], (append_nil _).symm, .nil, fun _ => rfl⟩
  | cons term terms ih =>
    have hmem : term ∈ term :: terms := mem_cons_self
    obtain ⟨⟨mid, outMid⟩, hstep, hrest⟩ := bind_eq_ok.mp hencode
    obtain ⟨rfl, here, state, rfl, hstate, hdecode⟩ := decodeTerm_encodeTerm (hvalid _ hmem)
      (hfirst term rfl) hreader hstep
    obtain ⟨there, states, rfl, hstates, hdecodes⟩ := ih
      (forall_mem_cons.mp hvalid).2 (isChain_cons.mp hchain).2
      (fun next hnext =>
        .inr ⟨⟨hvalid _ hmem, (isChain_cons.mp hchain).1 next hnext⟩, hstate⟩)
      (fun h => hstate.lastPosBlockOffset.trans ((hvalid _ hmem).no_offset fun h' => h h'.1)) hrest
    refine ⟨here ++ there, state :: states, append_assoc _ _ _, .cons hstate hstates, ?_⟩
    intro file pos hat
    obtain ⟨hat, hat'⟩ := at_append_iff.mp hat
    rw [map_cons, decodeTerms, hdecode hat, ok_bind]
    dsimp only
    rw [hdecodes hat', ok_bind, length_append, add_assoc]
    rfl

/-- The terms of a field are read back from what was written, with one state for all of them: where
the postings are, the document of a term that has only one, and the pointers of the files that the
field has. Pointers below `2 ^ 62` can be written. -/
theorem decodeTerms_encodeTerms (hvalid : ∀ term ∈ terms, Valid field term.1)
    (hchain : terms.IsChain fun a b => Before a.1 b.1)
    (hfirst : ∀ term ∈ terms.head?, term.2 = true)
    (last reader : IntBlockTermState)
    (hreader : ¬hasPositions field → reader.lastPosBlockOffset = -1)
    (out rest : Bytes) :
    ((∀ term ∈ terms, term.1.docStartFp < 2 ^ 62) →
      ∃ writer, encodeTerms (.ofField field) (last, out) terms = .ok writer) ∧
    ∀ last' out', encodeTerms (.ofField field) (last, out) terms = .ok (last', out') →
      ∃ states, decodeTerms field ⟨out' ++ rest, out.length⟩ reader
          (terms.map fun term => (term.1.base, term.2)) =
            .ok (states, ⟨out' ++ rest, out'.length⟩) ∧
        List.Forall₂ (fun term state => Reproduces field term.1 state) terms states := by
  constructor
  · intro hsmall
    exact encodeTerms_ok hvalid hchain hsmall (fun term hterm => .inl (hfirst term hterm)) out
  · intro last' out' hencode
    obtain ⟨written, states, rfl, hstates, hdecode⟩ := decodeTerms_spec hvalid hchain
      (fun term hterm => .inl (hfirst term hterm)) hreader hencode
    refine ⟨states, ?_, hstates⟩
    rw [hdecode (at_of_append out written rest), length_append]

/-- Two terms of one document each, at the same place. -/
theorem decodeTerms_encodeTerms_singletons :
    ∃ states, decodeTerms ⟨.docs, false⟩ ⟨[200, 1, 7, 9] ++ [], 0⟩ new
        [(⟨1, 1⟩, true), (⟨1, 1⟩, false)] =
        .ok (states, ⟨[200, 1, 7, 9] ++ [], 4⟩) ∧
      List.Forall₂ (fun term state => Reproduces ⟨.docs, false⟩ term.1 state)
        [(⟨100, 0, 0, -1, 7, ⟨1, 1⟩⟩, true), (⟨100, 0, 0, -1, 9, ⟨1, 1⟩⟩, false)] states := by
  have hvalid : ∀ term ∈ [((⟨100, 0, 0, -1, 7, ⟨1, 1⟩⟩ : IntBlockTermState), true),
      (⟨100, 0, 0, -1, 9, ⟨1, 1⟩⟩, false)], Valid ⟨.docs, false⟩ term.1 := by
    intro term hterm
    rcases mem_pair.mp hterm with rfl | rfl <;>
      exact ⟨by decide, by decide, by decide, by decide, by decide, by decide, by decide⟩
  exact (decodeTerms_encodeTerms hvalid
    (.cons_cons ⟨by decide, by decide, by decide⟩ (.singleton _)) (by simp) new new (fun _ => rfl)
      [] []).2 ⟨100, 0, 0, -1, 9, ⟨1, 1⟩⟩ _ (by decide +kernel)

/-- A field without positions whose terms have a pointer to positions, as the writer leaves it there
from a field before: the reader does not get it back. -/
theorem decodeTerms_without_positions :
    Valid ⟨.docs, false⟩ ⟨0, 100, 0, -1, 7, ⟨1, 1⟩⟩ ∧
      encodeTerms (.ofField ⟨.docs, false⟩) (new, []) [(⟨0, 100, 0, -1, 7, ⟨1, 1⟩⟩, true)] =
        .ok (⟨0, 100, 0, -1, 7, ⟨1, 1⟩⟩, [0, 7]) ∧
      decodeTerms ⟨.docs, false⟩ ⟨[0, 7], 0⟩ new [(⟨1, 1⟩, true)] =
        .ok ([⟨0, 0, 0, -1, 7, ⟨1, 1⟩⟩], ⟨[0, 7], 2⟩) :=
  ⟨⟨by decide, by decide, by decide, by decide, by decide, by decide, by decide⟩, by decide +kernel,
    by decide +kernel⟩

end

end IntBlockTermState

end RLucene.Codecs.Lucene101
