import RLucene.Store.IndexInput
import RLucene.Util.BitUtil

/-!
# Timestamps of stored fields

A `long` that is a multiple of a second, an hour or a day is divided by this unit. The header byte
has the unit in two bits, then a bit that says if there are more bytes, and the five low bits of the
zig-zag value. Each value is read back (`readTLong_writeTLong`), since a value that is divided is a
multiple.
-/

namespace RLucene.Codecs.Lucene90.Compressing

open Lib Store Util.BitUtil

/-- A second, in milliseconds. -/
def second : BitVec 64 :=
  1000

/-- An hour. -/
def hour : BitVec 64 :=
  60 * 60 * second

/-- A day. -/
def day : BitVec 64 :=
  24 * hour

/-- The tag of a second. -/
def secondEncoding : Nat :=
  0x40

/-- The tag of an hour. -/
def hourEncoding : Nat :=
  0x80

/-- The tag of a day. -/
def dayEncoding : Nat :=
  0xC0

/-- The unit in the header and how often it is in the value. -/
def tlongUnit (l : BitVec 64) : Nat × BitVec 64 :=
  if l.srem second ≠ 0 then (0, l)
  else if l.srem day = 0 then (dayEncoding, l.sdiv day)
  else if l.srem hour = 0 then (hourEncoding, l.sdiv hour)
  else (secondEncoding, l.sdiv second)

/-- Write a time. -/
def writeTLong (out : Bytes) (l : BitVec 64) : Result Bytes :=
  let (header, l) := tlongUnit l
  let zigzagL := zigZagEncodeI64 l
  let header := header ||| (zigzagL &&& 0x1F).toNat
  let upperBits := zigzagL >>> 5
  let header := if upperBits ≠ 0 then header ||| 0x20 else header
  let out := writeByte out (.ofNat header)
  if upperBits ≠ 0 then writeVLong out upperBits.toInt else .ok out

/-- The unit that is in the header is multiplied back. -/
def multiply (unit : Nat) (l : BitVec 64) : Result (BitVec 64) :=
  if unit = secondEncoding then .ok (l * second)
  else if unit = hourEncoding then .ok (l * hour)
  else if unit = dayEncoding then .ok (l * day)
  else if unit = 0 then .ok l
  else .error (.unreachable "invalid tlong encoding")

/-- Read a time. -/
def readTLong (input : IndexInput) : Result (BitVec 64 × IndexInput) := do
  let (b, input) ← input.readByte
  let header := b.toNat
  let bits := BitVec.ofNat 64 (header &&& 0x1F)
  let (bits, input) ← if header &&& 0x20 ≠ 0 then do
      let (v, input) ← input.readVLong
      pure (bits ||| BitVec.ofInt 64 v <<< 5, input)
    else pure (bits, input)
  let l ← multiply (header &&& dayEncoding) (zigZagDecodeI64 bits)
  return (l, input)

/-! ## Units -/

/-- A multiple that is divided comes back. -/
theorem sdiv_mul_cancel {l unit : BitVec 64} (h : l.srem unit = 0) : l.sdiv unit * unit = l := by
  have hdvd : unit.toInt ∣ l.toInt := by
    rw [Int.dvd_iff_tmod_eq_zero, ← BitVec.toInt_srem, h]
    rfl
  apply BitVec.eq_of_toInt_eq
  rw [BitVec.toInt_mul, BitVec.toInt_sdiv, Int.bmod_mul_bmod, Int.tdiv_mul_cancel hdvd,
    ← BitVec.toInt_ofInt, BitVec.ofInt_toInt]

/-- The unit that is chosen divides. -/
theorem tlongUnit_spec (l : BitVec 64) :
    (tlongUnit l).1 ∈ [0, secondEncoding, hourEncoding, dayEncoding] ∧
      multiply (tlongUnit l).1 (tlongUnit l).2 = .ok l := by
  rw [tlongUnit]
  split
  · exact ⟨by simp, rfl⟩
  next hsecond =>
    split
    next hday => exact ⟨by simp, congrArg Except.ok (sdiv_mul_cancel hday)⟩
    next =>
      split
      next hhour => exact ⟨by simp, congrArg Except.ok (sdiv_mul_cancel hhour)⟩
      next => exact ⟨by simp, congrArg Except.ok (sdiv_mul_cancel (not_not.mp hsecond))⟩

/-! ## The header -/

/-- The header with its three parts. -/
def headerOf (unit low : Nat) (more : Bool) : Nat :=
  if more then unit ||| low ||| 0x20 else unit ||| low

/-- The parts of the header are read back. -/
theorem headerOf_parts : ∀ unit ∈ [0, secondEncoding, hourEncoding, dayEncoding], ∀ low < 32,
    ∀ more : Bool, headerOf unit low more < 256 ∧ headerOf unit low more &&& 0x1F = low ∧
      (headerOf unit low more &&& 0x20 ≠ 0 ↔ more = true) ∧
      headerOf unit low more &&& dayEncoding = unit := by
  decide +kernel

/-- The low bits and the upper ones make the value. -/
theorem low_or_upper (z : BitVec 64) : BitVec.ofNat 64 (z.toNat % 32) ||| z >>> 5 <<< 5 = z := by
  apply BitVec.eq_of_toNat_eq
  have hlow : (BitVec.ofNat 64 (z.toNat % 32)).toNat = z.toNat % 2 ^ 5 := by
    rw [BitVec.toNat_ofNat]
    omega
  have hupper : (z >>> 5 <<< 5).toNat = 2 ^ 5 * (z.toNat / 2 ^ 5) := by
    rw [BitVec.toNat_shiftLeft, BitVec.toNat_ushiftRight, Nat.shiftLeft_eq,
      Nat.shiftRight_eq_div_pow]
    omega
  rw [BitVec.toNat_or, hlow, hupper, Nat.or_comm,
    ← Nat.two_pow_add_eq_or_of_lt (Nat.mod_lt _ (by decide)), Nat.div_add_mod]

/-- What is written for a value is read back, whatever comes before and behind it. -/
theorem readTLong_writeTLong (l : BitVec 64) (out rest : Bytes) :
    ∃ written, writeTLong out l = .ok (out ++ written) ∧
      readTLong ⟨out ++ written ++ rest, out.length⟩ =
        .ok (l, ⟨out ++ written ++ rest, out.length + written.length⟩) := by
  obtain ⟨hunit, hl⟩ := tlongUnit_spec l
  rw [writeTLong]
  generalize tlongUnit l = encoded at hunit hl ⊢
  obtain ⟨unit, l'⟩ := encoded
  dsimp only at hunit hl ⊢
  have hdecode := zigZagDecodeI64_encode l'
  generalize zigZagEncodeI64 l' = z at hdecode ⊢
  have hback := low_or_upper z
  rw [show (z &&& 0x1F).toNat = z.toNat % 32 from Nat.and_two_pow_sub_one_eq_mod z.toNat 5]
  obtain ⟨hlt, hbits, hmore, henc⟩ := headerOf_parts unit hunit (z.toNat % 32)
    (Nat.mod_lt _ (by decide))
    (decide (z >>> 5 ≠ 0))
  have hheader : (if z >>> 5 ≠ 0 then unit ||| z.toNat % 32 ||| 0x20 else unit ||| z.toNat % 32) =
      headerOf unit (z.toNat % 32) (decide (z >>> 5 ≠ 0)) := by
    simp only [headerOf, decide_eq_true_eq]
  rw [hheader]
  generalize headerOf unit (z.toNat % 32) (decide (z >>> 5 ≠ 0)) = header at hlt hbits hmore henc ⊢
  have hread : (UInt8.ofNat header).toNat = header := UInt8.toNat_ofNat_of_lt' hlt
  rw [decide_eq_true_eq] at hmore
  rw [← hdecode, ← henc] at hl
  by_cases hupper : z >>> 5 = 0
  · have hless : ¬header &&& 0x20 ≠ 0 := fun h => hmore.mp h hupper
    refine ⟨[.ofNat header], by rw [if_neg (not_not.mpr hupper)]; rfl, ?_⟩
    have hat : At (out ++ [UInt8.ofNat header] ++ rest) out.length [.ofNat header] :=
      ⟨rest, by simp⟩
    rw [hupper, show (0 : BitVec 64) <<< 5 = 0#64 from rfl, BitVec.or_zero] at hback
    simp only [readTLong, IndexInput.readByte_mk hat, ok_bind, hread, if_neg hless, hbits, hback,
      pure_eq_ok, hl]
    rfl
  · -- the upper bits are not negative, and are those of a `long`
    have hpos : (z >>> 5).toInt = (z >>> 5).toNat := by
      apply BitVec.toInt_eq_toNat_of_lt
      rw [BitVec.toNat_ushiftRight, Nat.shiftRight_eq_div_pow]
      omega
    have hvalue : BitVec.ofInt 64 (asI 64 (z >>> 5).toInt) = z >>> 5 := by
      rw [asI, BitVec.toInt_bmod_cancel, BitVec.ofInt_toInt]
    refine ⟨[.ofNat header] ++ vLongBytes (z >>> 5).toInt, ?_, ?_⟩
    · rw [if_pos hupper, writeVLong, if_neg (by omega), ← List.append_assoc]
      rfl
    · obtain ⟨hat, hlong⟩ := at_append_iff.mp
        (⟨rest, by simp⟩ : At (out ++ ([.ofNat header] ++ vLongBytes (z >>> 5).toInt) ++
          rest) out.length ([.ofNat header] ++ vLongBytes (z >>> 5).toInt))
      simp only [readTLong, IndexInput.readByte_mk hat, ok_bind, hread, if_pos (hmore.mpr hupper),
        hbits, pure_eq_ok]
      rw [List.length_singleton] at hlong
      simp only [IndexInput.readVLong_mk hlong, ok_bind, hvalue, hback, hl, List.length_append,
        Nat.add_assoc]
      rfl

end RLucene.Codecs.Lucene90.Compressing
