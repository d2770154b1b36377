import RLucene.Codecs.Lucene101.ForCollapse
import RLucene.Codecs.Lucene101.ForUtilDecode

/-!
# Blocks are decoded to what was encoded

`decode_encode`: the bytes of an encoded block, of integers of any number of bits up to 31, decode
to the block, and nothing behind them is read. The words are those of the generic loop.
-/

namespace RLucene.Codecs.Lucene101

open List Lib Store Internal.Vectorization

/-! ## Words in a file -/

/-- The bytes of words. -/
def wordBytes (words : List I32) : Bytes :=
  words.flatMap fun word => intLE 4 word.toInt

/-- The bytes of some words. -/
theorem writeInts_eq_append (out : Bytes) (words : List I32) :
    writeInts out words = out ++ wordBytes words := by
  rw [writeInts, Store.writeInts_eq, flatMap_map, wordBytes]

theorem wordBytes_cons (word : I32) (words : List I32) :
    wordBytes (word :: words) = intLE 4 word.toInt ++ wordBytes words :=
  flatMap_cons

theorem wordBytes_length (words : List I32) : (wordBytes words).length = 4 * words.length := by
  induction words with
  | nil => rfl
  | cons word words ih =>
    rw [wordBytes_cons, length_append, intLE_length, ih, length_cons]
    omega

variable {file : Bytes} {pos : Nat} {words : List I32}

/-- Words are read back. -/
theorem readIntList_at (h : At file pos (wordBytes words)) :
    readIntList words.length ⟨file, pos⟩ = .ok (words, ⟨file, pos + 4 * words.length⟩) := by
  induction words generalizing pos with
  | nil => rfl
  | cons word words ih =>
    rw [wordBytes_cons, at_append_iff, intLE_length] at h
    have hword : asI 32 word.toInt = word.toInt :=
      asI_of_range (by decide) (by exact_mod_cast BitVec.le_toInt word)
        (by exact_mod_cast BitVec.toInt_lt (x := word))
    rw [length_cons, readIntList, IndexInput.readInt_mk h.1, ok_bind]
    simp only [ih h.2, ok_bind, pure_eq_ok, hword, BitVec.ofInt_toInt]
    rw [show pos + 4 + 4 * words.length = pos + 4 * (words.length + 1) by omega]

/-- A file supplies the words it has. -/
theorem supplies_of_at (h : At file pos (wordBytes words)) :
    Supplies (⟨file, pos⟩ : IndexInput) words ⟨file, pos + 4 * words.length⟩ := by
  intro dst offset hfit
  show (if offset + words.length ≤ dst.length then _ else _) = _
  rw [if_pos hfit, readIntList_at h, ok_bind]
  rfl

namespace ForUtil

/-! ## Blocks -/

variable {bits : Nat}

/-- The shape of a block of integers of the given width. -/
def shapeOf (bits : Nat) (hpos : 1 ≤ bits) (hle : bits ≤ 31) : Shape :=
  .ofLimits 8 16 bits le_rfl le_rfl hpos hle

theorem toNat_lt_of_toInt {x : I32} (h : 0 ≤ x.toInt ∧ x.toInt < 2 ^ bits) :
    x.toNat < 2 ^ bits := by
  have hnonneg : (x.toNat : Int) = x.toInt := by
    rw [BitVec.toInt_eq_toNat_cond] at h ⊢
    split
    · rfl
    · split at h <;> omega
  have := h.2
  rw [← hnonneg] at this
  exact_mod_cast this

variable {s : Shape} {block arr tmp dest : List I32}

/-- What the decoders leave in the lanes is the collapsed block. -/
theorem Collapsed.of_unpacked (hvalues : Values s arr) (hcollapsed : Collapsed s.size block arr)
    (hpacked : Packed s arr words) (hunpacked : UnpackedTo s words s.ints dest) :
    Collapsed s.size block dest := by
  intro i hi k hk
  rw [hunpacked.restores hpacked (fun int _ => hvalues.narrow int) hi]
  exact hcollapsed i hi k hk

section

variable {tmp' : List I32}

/-- Encoded blocks have the announced length and decode wherever they stand in a file. -/
theorem encode_spec (hpos : 1 ≤ bits) (hle : bits ≤ 31) (hblock : block.length = blockSize)
    (hfits : ∀ value ∈ block, value.toNat < 2 ^ bits) (htmp : tmp.length = blockSize)
    (htmp' : tmp'.length = blockSize) (hdest : dest.length = blockSize) (out : Bytes) :
    ∃ bytes, encode block bits tmp out = .ok (out ++ bytes) ∧ bytes.length = numBytes bits ∧
      ∀ file pos, At file pos bytes →
        decode bits (⟨file, pos⟩ : IndexInput) tmp' dest =
          .ok (block, ⟨file, pos + numBytes bits⟩) := by
  let s := shapeOf bits hpos hle
  have hfew : s.words ≤ blockSize := by
    show 4 * bits ≤ 128
    omega
  obtain ⟨ints, hcollapse, hvalues, -, hcollapsed⟩ := @collapse_spec s block hblock hfits
  obtain ⟨words, hwords, hpacked⟩ := encodeWithTmp_packed hvalues (hfew.trans htmp.ge)
  have hbytes : numBytes bits = 4 * words.length := by
    rw [numBytes, Nat.shiftLeft_eq, hpacked.length]
    show bits * 2 ^ 4 = 4 * (4 * bits)
    omega
  refine ⟨wordBytes words, ?_, (wordBytes_length words).trans hbytes.symm, fun file pos hat => ?_⟩
  · rw [encode, show primitiveFor bits = s.size from rfl, hcollapse, ok_bind,
      show bits = s.bits from rfl, hwords, ok_bind, pure_eq_ok, writeInts_eq_append]
  · have hints : s.ints ≤ dest.length := by
      have hsize := size_le s
      rw [hdest]
      show 4 * s.size ≤ 128
      omega
    obtain ⟨dest', hrun, hlen, hunpacked⟩ := Decoding.decodeCollapsed
      ⟨supplies_of_at hat, hpacked.length, hfew.trans htmp'.ge, hints⟩
      (show s.size = primitiveFor s.bits from rfl) (show bits < 32 by omega)
    have hexpand := expand_of_collapsed (hlen.trans hdest) hblock
      (hcollapsed.of_unpacked hvalues hpacked hunpacked)
    rw [decode, show bits = s.bits from rfl, hrun, ok_bind]
    simp only [show primitiveFor s.bits = s.size from rfl, hexpand, ok_bind, pure_eq_ok]
    rw [show numBytes s.bits = 4 * words.length from hbytes]

end

/-- The bytes of an encoded block have the length that is announced, decode to the block wherever
they stand in a file, and are those of the generic loop. -/
theorem decode_encode {bits : Nat} (hpos : 1 ≤ bits) (hle : bits ≤ 31) {block : List I32}
    (hblock : block.length = blockSize)
    (hrange : ∀ value ∈ block, 0 ≤ value.toInt ∧ value.toInt < 2 ^ bits) {tmp tmp' dest : List I32}
    (htmp : tmp.length = blockSize) (htmp' : tmp'.length = blockSize)
    (hdest : dest.length = blockSize) (out : Bytes) :
    ∃ bytes, encode block bits tmp out = .ok (out ++ bytes) ∧ bytes.length = numBytes bits ∧
      (∀ file pos, At file pos bytes →
        decode bits (⟨file, pos⟩ : IndexInput) tmp' dest =
          .ok (block, ⟨file, pos + numBytes bits⟩)) ∧
      ∃ ints, collapse (primitiveFor bits) block = .ok ints ∧
        encodeWithTmp ints bits (primitiveFor bits) tmp =
          encodeLanes ints (encodeBits ints bits (primitiveFor bits)) bits
            (primitiveFor bits) tmp := by
  have hfits : ∀ value ∈ block, value.toNat < 2 ^ bits := fun value hvalue =>
    toNat_lt_of_toInt (hrange value hvalue)
  obtain ⟨bytes, hrun, hlength, hdecode⟩ :=
    encode_spec hpos hle hblock hfits htmp htmp' hdest out
  obtain ⟨ints, hcollapse, hvalues, -⟩ := @collapse_spec (shapeOf bits hpos hle) block hblock hfits
  have hfew : (shapeOf bits hpos hle).words ≤ tmp.length := by
    rw [htmp]
    show 4 * bits ≤ 128
    omega
  exact ⟨bytes, hrun, hlength, hdecode, ints, hcollapse, encodeWithTmp_eq_generic hvalues hfew⟩

/-- A block of nine bits. -/
theorem decode_encode_replicate :
    ∃ bytes, encode (replicate 128 300) 9 (replicate 128 0) [] = .ok ([] ++ bytes) ∧
      bytes.length = numBytes 9 ∧
      (∀ file pos, At file pos bytes →
        decode 9 (⟨file, pos⟩ : IndexInput) (replicate 128 1) (replicate 128 2) =
          .ok (replicate 128 300, ⟨file, pos + numBytes 9⟩)) ∧
      ∃ ints, collapse (primitiveFor 9) (replicate 128 300) = .ok ints ∧
        encodeWithTmp ints 9 (primitiveFor 9) (replicate 128 0) =
          encodeLanes ints (encodeBits ints 9 (primitiveFor 9)) 9 (primitiveFor 9)
            (replicate 128 0) :=
  decode_encode (by decide) (by decide) length_replicate
    (fun value hvalue => by
      rw [eq_of_mem_replicate hvalue]
      decide)
    length_replicate length_replicate length_replicate []

end ForUtil

end RLucene.Codecs.Lucene101
