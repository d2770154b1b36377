import RLucene.Internal.Vectorization.PostingDecodingUtilCorrect
import RLucene.Lib.Packing

/-!
# Group varints

Integers are written in groups of four: a byte with the four lengths, then the low bytes of each
integer. What is left over is written as variable-length integers. One reader takes the bytes of
each integer one after the other; the other takes four bytes for each integer, whatever its length,
and masks those that do not belong to it, if enough bytes are left. `readGroupVInts_spec`: both read
back what `writeGroupVInts` writes.
-/

namespace RLucene.Util.GroupVIntUtil

open Nat List Lib Store Internal.Vectorization

/-- Four integers and the byte with their lengths. -/
def maxLengthPerGroup : Nat := 17

/-- The masks of one to four bytes. -/
def intMasks : List I32 :=
  [0xFF, 0xFFFF, 0xFFFFFF, BitVec.allOnes 32]

/-- The bytes of an integer up to its highest bit. The low bit is set, so that zero has one byte. -/
def numBytes (v : I32) : Nat :=
  4 - (32 - Nat.size (v ||| 1).toNat) / 8

/-! ## Writing -/

/-- Copy bytes to the scratch buffer. -/
def copyBytes (scratch : Bytes) (pos : Nat) (piece : Bytes) : Result Bytes :=
  if pos + piece.length ≤ scratch.length then .ok (splice scratch pos piece)
  else .error .indexOutOfBounds

/-- The byte with the lengths of a group. -/
def flagOf (a b c d : I32) : UInt8 :=
  UInt8.ofNat ((numBytes a - 1) <<< 6 ||| (numBytes b - 1) <<< 4 ||| (numBytes c - 1) <<< 2 |||
    (numBytes d - 1))

/-- The bytes of an integer, in little-endian order. -/
def toLeBytes (v : I32) : Bytes :=
  intLE 4 v.toInt

/-- Rearrange sixteen bytes; places outside of them are zero. -/
def swizzle (bytes : Bytes) (order : List Nat) : Bytes :=
  order.map fun i => bytes.getD i 0

/-- The places of the low bytes of four integers, behind a zero. -/
def lowBytesOrder : List Nat :=
  [255, 0, 4, 8, 12, 13, 14, 15, 255, 255, 255, 255, 255, 255, 255, 255]

/-- One group. Each integer is copied to the scratch buffer with all its bytes, and the next one
over those that are not needed; four integers of one byte are rearranged at once. -/
def writeGroup (scratch out : Bytes) (a b c d : I32) : Result (Bytes × Bytes) :=
  if scratch.length ≥ 8 ∧ (a ||| b ||| c ||| d).toNat ≤ 255 then do
    let bytes := toLeBytes a ++ toLeBytes b ++ toLeBytes c ++ toLeBytes d
    let scratch ← copyBytes scratch 0 ((swizzle bytes lowBytesOrder).take 8)
    return (scratch, writeBytes out (scratch.take 5))
  else do
    let scratch ← copyBytes scratch 0 [flagOf a b c d]
    let writePos := 1
    let scratch ← copyBytes scratch writePos (toLeBytes a)
    let writePos := writePos + numBytes a
    let scratch ← copyBytes scratch writePos (toLeBytes b)
    let writePos := writePos + numBytes b
    let scratch ← copyBytes scratch writePos (toLeBytes c)
    let writePos := writePos + numBytes c
    let scratch ← copyBytes scratch writePos (toLeBytes d)
    let writePos := writePos + numBytes d
    return (scratch, writeBytes out (scratch.take writePos))

/-- Write groups of four, and what is left one by one. -/
def writeGroupVInts (out : Bytes) (values : List I32) (limit : Nat) : Result Bytes := do
  let (_, out) ← (range (limit / 4)).foldlM (fun (scratch, out) k => do
    let a ← getInt values (4 * k)
    let b ← getInt values (4 * k + 1)
    let c ← getInt values (4 * k + 2)
    let d ← getInt values (4 * k + 3)
    writeGroup scratch out a b c d) (replicate maxLengthPerGroup (0 : UInt8), out)
  (range (limit % 4)).foldlM (fun out k => do
    return writeVInt out (← getInt values (4 * (limit / 4) + k)).toInt) out

/-! ## Reading -/

/-- Read an integer of one to four bytes. -/
def readIntInGroup (input : IndexInput) (numBytesMinus1 : Nat) : Result (I32 × IndexInput) :=
  match numBytesMinus1 with
  | 0 => do
    let (b, input) ← input.readByte
    return (BitVec.ofNat 32 b.toNat, input)
  | 1 => do
    let (s, input) ← input.readShort
    return (BitVec.ofNat 32 (asU 16 s), input)
  | 2 => do
    let (s, input) ← input.readShort
    let (b, input) ← input.readByte
    return (BitVec.ofNat 32 (asU 16 s) ||| BitVec.ofNat 32 b.toNat <<< 16, input)
  | _ => do
    let (i, input) ← input.readInt
    return (BitVec.ofInt 32 i, input)

/-- Read a group byte by byte. -/
def readGroupVInt (input : IndexInput) (dst : List I32) (offset : Nat) :
    Result (List I32 × IndexInput) := do
  let (flag, input) ← input.readByte
  let (a, input) ← readIntInGroup input (flag.toNat >>> 6)
  let dst ← setInt dst offset a
  let (b, input) ← readIntInGroup input (flag.toNat >>> 4 &&& 0x03)
  let dst ← setInt dst (offset + 1) b
  let (c, input) ← readIntInGroup input (flag.toNat >>> 2 &&& 0x03)
  let dst ← setInt dst (offset + 2) c
  let (d, input) ← readIntInGroup input (flag.toNat &&& 0x03)
  let dst ← setInt dst (offset + 3) d
  return (dst, input)

/-- `IntReader::read`: four bytes at a position, of which those of the integer are kept. -/
def readMasked (input : IndexInput) (pos numBytesMinus1 : Nat) : Result I32 := do
  let i ← (RandomAccessInput.mk input.bytes).readInt pos
  return BitVec.ofInt 32 i &&& intMasks.getD numBytesMinus1 0

/-- Read a group with the reader of whole integers, if `remaining` bytes are enough for it. The
input that is returned stands behind the group: the caller adds the length to the position. -/
def readGroupVIntWithReader (input : IndexInput) (remaining : Nat) (dst : List I32) (offset : Nat) :
    Result (List I32 × IndexInput) :=
  if remaining < maxLengthPerGroup then readGroupVInt input dst offset
  else do
    let (flag, input) ← input.readByte
    let pos := input.pos
    let n1 := flag.toNat >>> 6
    let n2 := flag.toNat >>> 4 &&& 0x03
    let n3 := flag.toNat >>> 2 &&& 0x03
    let n4 := flag.toNat &&& 0x03
    let dst ← setInt dst offset (← readMasked input pos n1)
    let pos := pos + (1 + n1)
    let dst ← setInt dst (offset + 1) (← readMasked input pos n2)
    let pos := pos + (1 + n2)
    let dst ← setInt dst (offset + 2) (← readMasked input pos n3)
    let pos := pos + (1 + n3)
    let dst ← setInt dst (offset + 3) (← readMasked input pos n4)
    let pos := pos + (1 + n4)
    return (dst, { input with pos := pos })

/-- All groups and what is left over. How many bytes the input takes to remain is left open; with
none the integers are read byte by byte. -/
def readGroupVInts (remaining : IndexInput → Nat) (input : IndexInput) (dst : List I32)
    (limit : Nat) : Result (List I32 × IndexInput) := do
  let state ← (range (limit / 4)).foldlM (fun (dst, input) k =>
    readGroupVIntWithReader input (remaining input) dst (4 * k)) (dst, input)
  (range (limit % 4)).foldlM (fun (dst, input) k => do
    let (v, input) ← input.readVInt
    return (← setInt dst (4 * (limit / 4) + k) (BitVec.ofInt 32 v), input)) state

/-! ## The bytes of a group -/

variable {v a b c d : I32} {n offset : Nat}

section

theorem asU_toInt (v : I32) : asU 32 v.toInt = v.toNat := by
  have h : ((asU 32 v.toInt : Nat) : Int) = (v.toNat : Int) := by
    rw [asU_cast, BitVec.toInt_eq_toNat_bmod, Int.bmod_emod]
    exact Int.emod_eq_of_lt (Int.natCast_nonneg _) (by exact_mod_cast v.isLt)
  exact_mod_cast h

theorem numBytes_pos (v : I32) : 1 ≤ numBytes v := by
  have hpos : 0 < Nat.size (v ||| 1).toNat := by
    rw [Nat.size_pos, BitVec.toNat_or]
    exact Nat.lt_of_lt_of_le Nat.one_pos right_le_or
  unfold numBytes
  omega

theorem numBytes_le (v : I32) : numBytes v ≤ 4 :=
  sub_le _ _

/-- The bytes that are kept hold the whole integer. -/
theorem lt_numBytes (v : I32) : v.toNat < 256 ^ numBytes v := by
  have hsize : Nat.size (v ||| 1).toNat ≤ 32 := Nat.size_le.mpr (v ||| 1).isLt
  have hle : v.toNat ≤ (v ||| 1).toNat := by
    exact left_le_or
  calc v.toNat ≤ (v ||| 1).toNat := hle
    _ < 2 ^ Nat.size (v ||| 1).toNat := lt_size_self _
    _ ≤ 2 ^ (8 * numBytes v) := Nat.pow_le_pow_right (by decide) (by unfold numBytes; omega)
    _ = 256 ^ numBytes v := by rw [Nat.pow_mul]

/-- A small integer has one byte. -/
theorem numBytes_of_lt (h : v.toNat < 256) : numBytes v = 1 := by
  have hsize : Nat.size (v ||| 1).toNat ≤ 8 := by
    rw [Nat.size_le, BitVec.toNat_or]
    exact or_lt_two_pow h (by decide)
  have hpos := numBytes_pos v
  unfold numBytes at hpos ⊢
  omega

/-- The bytes of an integer that are written. -/
def valueBytes (v : I32) : Bytes :=
  leBytes (numBytes v) v.toNat

/-- The bytes of a group. -/
def groupBytes (a b c d : I32) : Bytes :=
  [flagOf a b c d] ++ valueBytes a ++ valueBytes b ++ valueBytes c ++ valueBytes d

theorem valueBytes_length (v : I32) : (valueBytes v).length = numBytes v :=
  leBytes_length _ _

/-- The bytes of an integer are its first ones. -/
theorem toLeBytes_take (v : I32) : (toLeBytes v).take (numBytes v) = valueBytes v := by
  rw [toLeBytes, intLE, asU_toInt, leBytes_take (numBytes_le v), valueBytes]

theorem toLeBytes_length (v : I32) : (toLeBytes v).length = 4 :=
  intLE_length 4 _

/-- What is copied to the end of the bytes so far, up to the place where the next copy starts. -/
theorem copyBytes_spec {scratch sofar piece : Bytes} {pos k : Nat}
    (hsofar : scratch.take pos = sofar)
    (hroom : pos + piece.length ≤ scratch.length) (hk : k ≤ piece.length) :
    ∃ scratch', copyBytes scratch pos piece = .ok scratch' ∧ scratch'.length = scratch.length ∧
      scratch'.take (pos + k) = sofar ++ piece.take k := by
  refine ⟨splice scratch pos piece, if_pos hroom, splice_length hroom, ?_⟩
  have hlen : (scratch.take pos).length = pos := by
    rw [length_take]
    omega
  rw [splice, append_assoc, take_append, hlen, Nat.add_sub_cancel_left,
    take_of_length_le (by omega), take_append_of_le_length hk, hsofar]

/-- What is written for a group. -/
theorem writeGroup_spec {scratch : Bytes} (hscratch : scratch.length = maxLengthPerGroup)
    (out : Bytes)
    (a b c d : I32) : ∃ scratch', writeGroup scratch out a b c d =
      .ok (scratch', out ++ groupBytes a b c d) ∧ scratch'.length = maxLengthPerGroup := by
  have hscratch' : scratch.length = 17 := hscratch
  unfold writeGroup
  by_cases hsmall : scratch.length ≥ 8 ∧ (a ||| b ||| c ||| d).toNat ≤ 255
  · obtain ⟨-, hor⟩ := hsmall
    have hab : a.toNat ||| b.toNat ≤ 255 := left_le_or.trans (left_le_or.trans hor)
    have ha : a.toNat < 256 := lt_succ_of_le (left_le_or.trans hab)
    have hb : b.toNat < 256 := lt_succ_of_le (right_le_or.trans hab)
    have hc : c.toNat < 256 := lt_succ_of_le (right_le_or.trans (left_le_or.trans hor))
    have hd : d.toNat < 256 := lt_succ_of_le (right_le_or.trans hor)
    have hgroup : groupBytes a b c d = [0, UInt8.ofNat a.toNat, UInt8.ofNat b.toNat,
        UInt8.ofNat c.toNat, UInt8.ofNat d.toNat] := by
      simp only [groupBytes, flagOf, valueBytes, numBytes_of_lt ha, numBytes_of_lt hb,
        numBytes_of_lt hc, numBytes_of_lt hd]
      rfl
    have hswizzle : ((swizzle (toLeBytes a ++ toLeBytes b ++ toLeBytes c ++ toLeBytes d)
        lowBytesOrder).take 8).take 5 = groupBytes a b c d := by
      rw [hgroup]
      simp only [toLeBytes, intLE, Nat.reduceMul, asU_toInt]
      rfl
    obtain ⟨scratch', hcopy, hlen, htake⟩ := @copyBytes_spec scratch []
      ((swizzle (toLeBytes a ++ toLeBytes b ++ toLeBytes c ++ toLeBytes d) lowBytesOrder).take 8)
      0 5 rfl (by rw [hscratch']; exact le_of_ble_eq_true rfl) (le_of_ble_eq_true rfl)
    rw [zero_add, nil_append, hswizzle] at htake
    rw [if_pos ⟨by omega, by simpa only [BitVec.toNat_or] using hor⟩]
    dsimp only
    rw [hcopy, ok_bind, htake]
    exact ⟨scratch', rfl, hlen.trans hscratch⟩
  · have ha := numBytes_le a
    have hb := numBytes_le b
    have hc := numBytes_le c
    rw [if_neg hsmall]
    obtain ⟨s0, hcopy0, hlen0, htake0⟩ := @copyBytes_spec scratch [] [flagOf a b c d] 0 1 rfl
      (by rw [hscratch', length_singleton]; decide) le_rfl
    obtain ⟨s1, hcopy1, hlen1, htake1⟩ := @copyBytes_spec s0 _ (toLeBytes a) _ (numBytes a) htake0
      (by rw [toLeBytes_length]; omega) (by rw [toLeBytes_length]; omega)
    obtain ⟨s2, hcopy2, hlen2, htake2⟩ := @copyBytes_spec s1 _ (toLeBytes b) _ (numBytes b) htake1
      (by rw [toLeBytes_length]; omega) (by rw [toLeBytes_length]; omega)
    obtain ⟨s3, hcopy3, hlen3, htake3⟩ := @copyBytes_spec s2 _ (toLeBytes c) _ (numBytes c) htake2
      (by rw [toLeBytes_length]; omega) (by rw [toLeBytes_length]; omega)
    obtain ⟨s4, hcopy4, hlen4, htake4⟩ := @copyBytes_spec s3 _ (toLeBytes d) _ (numBytes d) htake3
      (by rw [toLeBytes_length]; omega) (by rw [toLeBytes_length]; exact numBytes_le d)
    simp only [hcopy0, hcopy1, hcopy2, hcopy3, hcopy4, ok_bind, pure_eq_ok, htake4]
    refine ⟨s4, ?_, by omega⟩
    simp only [toLeBytes_take, nil_append, groupBytes, writeBytes]
    rfl

end

/-! ## Reading a group -/

section

variable {file : Bytes} {pos : Nat}

/-- The parts of all flags. -/
theorem parts_of_flag : ∀ a < 4, ∀ b < 4, ∀ c < 4, ∀ d < 4,
    (UInt8.ofNat (a <<< 6 ||| b <<< 4 ||| c <<< 2 ||| d)).toNat >>> 6 = a ∧
    (UInt8.ofNat (a <<< 6 ||| b <<< 4 ||| c <<< 2 ||| d)).toNat >>> 4 &&& 0x03 = b ∧
    (UInt8.ofNat (a <<< 6 ||| b <<< 4 ||| c <<< 2 ||| d)).toNat >>> 2 &&& 0x03 = c ∧
    (UInt8.ofNat (a <<< 6 ||| b <<< 4 ||| c <<< 2 ||| d)).toNat &&& 0x03 = d := by
  decide +kernel

/-- The lengths are read off the flag. -/
theorem flagOf_parts (a b c d : I32) :
    (flagOf a b c d).toNat >>> 6 = numBytes a - 1 ∧
    (flagOf a b c d).toNat >>> 4 &&& 0x03 = numBytes b - 1 ∧
    (flagOf a b c d).toNat >>> 2 &&& 0x03 = numBytes c - 1 ∧
    (flagOf a b c d).toNat &&& 0x03 = numBytes d - 1 := by
  have ha := numBytes_le a
  have hb := numBytes_le b
  have hc := numBytes_le c
  have hd := numBytes_le d
  exact parts_of_flag _ (by omega) _ (by omega) _ (by omega) _ (by omega)

theorem leBytes_eq_intLE {k : Nat} (h : n < 256 ^ k) : leBytes k n = intLE k (n : Int) := by
  rw [intLE, asU_of_lt]
  rwa [Nat.pow_mul]

/-- The reader of single bytes. -/
theorem readIntInGroup_spec (hat : At file pos (valueBytes v)) :
    readIntInGroup ⟨file, pos⟩ (numBytes v - 1) = .ok (v, ⟨file, pos + numBytes v⟩) := by
  have hpos := numBytes_pos v
  have hle := numBytes_le v
  have hlt := lt_numBytes v
  rw [valueBytes] at hat
  have hcases : numBytes v = 1 ∨ numBytes v = 2 ∨ numBytes v = 3 ∨ numBytes v = 4 := by omega
  rcases hcases with hn | hn | hn | hn <;> rw [hn] at hat hlt ⊢
  · have hbyte : (UInt8.ofNat v.toNat).toNat = v.toNat := by
      exact mod_eq_of_lt hlt
    simp only [readIntInGroup, IndexInput.readByte_mk hat, ok_bind, pure_eq_ok, hbyte,
      BitVec.ofNat_toNat, BitVec.setWidth_eq]
  · rw [leBytes_eq_intLE hlt] at hat
    have hvalue : asU 16 (asI 16 (v.toNat : Int)) = v.toNat := by
      rw [asU_asI, asU_of_lt hlt]
    simp only [readIntInGroup, IndexInput.readShort_mk hat, ok_bind, pure_eq_ok, hvalue,
      BitVec.ofNat_toNat, BitVec.setWidth_eq]
  · rw [show 3 = 2 + 1 from rfl, leBytes_add, at_append_iff, leBytes_length] at hat
    obtain ⟨hlow, hhigh⟩ := hat
    rw [← leBytes_mod] at hlow
    have hsplit := div_add_mod v.toNat (256 ^ 2)
    have hlowLt : v.toNat % 256 ^ 2 < 2 ^ 16 := mod_lt _ (by decide)
    have hhighLt : v.toNat / 256 ^ 2 < 256 := by omega
    generalize v.toNat % 256 ^ 2 = low at hlow hsplit hlowLt
    generalize v.toNat / 256 ^ 2 = high at hhigh hsplit hhighLt
    rw [leBytes_eq_intLE hlowLt] at hlow
    have hvalue : asU 16 (asI 16 (low : Int)) = low := by
      rw [asU_asI, asU_of_lt hlowLt]
    have hbyte : (UInt8.ofNat high).toNat = high := by
      exact mod_eq_of_lt hhighLt
    have hjoin : BitVec.ofNat 32 low ||| BitVec.ofNat 32 high <<< 16 = v := by
      apply BitVec.eq_of_toNat_eq
      rw [BitVec.toNat_or, BitVec.toNat_shiftLeft, BitVec.toNat_ofNat, BitVec.toNat_ofNat,
        mod_eq_of_lt (show low < 2 ^ 32 by omega), mod_eq_of_lt (show high < 2 ^ 32 by omega),
        shiftLeft_eq, mod_eq_of_lt (by omega), Nat.or_comm, Nat.mul_comm,
        ← two_pow_add_eq_or_of_lt hlowLt]
      exact hsplit
    simp only [readIntInGroup, IndexInput.readShort_mk hlow, ok_bind, IndexInput.readByte_mk hhigh,
      pure_eq_ok, hvalue, hbyte, hjoin]
  · rw [leBytes_eq_intLE hlt] at hat
    have hvalue : BitVec.ofInt 32 (asI 32 (v.toNat : Int)) = v := by
      rw [asI, ← BitVec.toInt_eq_toNat_bmod, BitVec.ofInt_toInt]
    show (do
      let (i, input) ← IndexInput.readInt ⟨file, pos⟩
      return (BitVec.ofInt 32 i, input)) = _
    simp only [IndexInput.readInt_mk hat, ok_bind, pure_eq_ok, hvalue]

/-- The four bytes at a position, whatever they are. -/
theorem readInt_at_of_length (h : pos + 4 ≤ file.length) :
    ∃ word : Bytes, At file pos word ∧ word.length = 4 ∧
      (RandomAccessInput.mk file).readInt pos = .ok (asI 32 (leNat word : Nat)) := by
  obtain ⟨word, hword⟩ : ∃ word, (file.drop pos).take 4 = word := ⟨_, rfl⟩
  have hlen : word.length = 4 := by
    rw [← hword, length_take, length_drop]
    omega
  have hat : At file pos word := hword ▸ take_prefix _ _
  have hbytes := leBytes_leNat word
  have hlt := leNat_lt word
  rw [hlen] at hbytes hlt
  refine ⟨word, hat, hlen, RandomAccessInput.readInt_at ?_⟩
  rwa [← leBytes_eq_intLE hlt, hbytes]

/-- The reader of whole integers keeps the bytes that belong to the integer. -/
theorem readMasked_spec {p : Nat} (hat : At file pos (valueBytes v))
    (hroom : pos + 4 ≤ file.length) : readMasked ⟨file, p⟩ pos (numBytes v - 1) = .ok v := by
  have hpos := numBytes_pos v
  have hle := numBytes_le v
  obtain ⟨word, hword, hlen, hread⟩ := readInt_at_of_length hroom
  rw [readMasked, hread, ok_bind, pure_eq_ok]
  congr 1
  apply BitVec.eq_of_toNat_eq
  have hlt := leNat_lt word
  rw [hlen] at hlt
  have hnat : (BitVec.ofInt 32 (asI 32 (leNat word : Nat))).toNat = leNat word := by
    rw [BitVec.toNat_ofInt]
    have := asU_asI 32 (leNat word : Nat)
    rwa [asU_of_lt hlt, asU] at this
  have hlow : leNat word % 256 ^ numBytes v = v.toNat := by
    have hstarts : valueBytes v <+: word := prefix_of_prefix_length_le hat hword
      (by rw [valueBytes_length, hlen]; exact hle)
    have htake := prefix_iff_eq_take.mp hstarts
    rw [valueBytes_length] at htake
    rw [← leNat_take, ← htake, valueBytes, leNat_leBytes, mod_eq_of_lt (lt_numBytes v)]
  have hmask : (intMasks.getD (numBytes v - 1) 0).toNat = 256 ^ numBytes v - 1 := by
    have hcases : numBytes v = 1 ∨ numBytes v = 2 ∨ numBytes v = 3 ∨ numBytes v = 4 := by omega
    rcases hcases with hn | hn | hn | hn <;> rw [hn] <;> decide
  rw [BitVec.toNat_and, hnat, hmask, show (256 : Nat) = 2 ^ 8 from rfl, ← Nat.pow_mul,
    and_two_pow_sub_one_eq_mod, Nat.pow_mul]
  exact hlow

/-- A group is read back byte by byte. -/
theorem readGroupVInt_spec {dst : List I32} (hat : At file pos (groupBytes a b c d))
    (hroom : offset + 4 ≤ dst.length) :
    readGroupVInt ⟨file, pos⟩ dst offset =
      .ok ((((dst.set offset a).set (offset + 1) b).set (offset + 2) c).set (offset + 3) d,
        ⟨file, pos + (groupBytes a b c d).length⟩) := by
  simp only [groupBytes, at_append_iff, length_append, valueBytes_length, length_singleton] at hat ⊢
  obtain ⟨⟨⟨⟨hflag, ha⟩, hb⟩, hc⟩, hd⟩ := hat
  obtain ⟨hn1, hn2, hn3, hn4⟩ := flagOf_parts a b c d
  rw [readGroupVInt, IndexInput.readByte_mk hflag, ok_bind]
  simp only [hn1, hn2, hn3, hn4, readIntInGroup_spec ha, ok_bind]
  rw [setInt_eq (by omega), ok_bind]
  rw [← add_assoc] at hb hc hd
  simp only [readIntInGroup_spec hb, ok_bind]
  rw [setInt_eq (by rw [length_set]; omega), ok_bind]
  rw [← add_assoc] at hc hd
  simp only [readIntInGroup_spec hc, ok_bind]
  rw [setInt_eq (by rw [length_set, length_set]; omega), ok_bind]
  rw [← add_assoc] at hd
  simp only [readIntInGroup_spec hd, ok_bind]
  rw [setInt_eq (by rw [length_set, length_set, length_set]; omega), ok_bind, pure_eq_ok]
  simp only [add_assoc]

/-- Both readers read a group, and consume its bytes. -/
theorem readGroupVIntWithReader_spec {dst : List I32} {remaining : Nat}
    (hat : At file pos (groupBytes a b c d)) (hroom : offset + 4 ≤ dst.length)
    (hremaining : remaining ≤ file.length - pos) :
    readGroupVIntWithReader ⟨file, pos⟩ remaining dst offset =
      .ok ((((dst.set offset a).set (offset + 1) b).set (offset + 2) c).set (offset + 3) d,
        ⟨file, pos + (groupBytes a b c d).length⟩) := by
  by_cases hfew : remaining < maxLengthPerGroup
  · rw [readGroupVIntWithReader, if_pos hfew, readGroupVInt_spec hat hroom]
  · have hmany : 17 ≤ remaining := Nat.le_of_not_lt hfew
    have hla := numBytes_le a
    have hlb := numBytes_le b
    have hlc := numBytes_le c
    have hpa := numBytes_pos a
    have hpb := numBytes_pos b
    have hpc := numBytes_pos c
    have hpd := numBytes_pos d
    simp only [groupBytes, at_append_iff, length_append, valueBytes_length,
      length_singleton] at hat ⊢
    obtain ⟨⟨⟨⟨hflag, ha⟩, hb⟩, hc⟩, hd⟩ := hat
    obtain ⟨hn1, hn2, hn3, hn4⟩ := flagOf_parts a b c d
    rw [readGroupVIntWithReader, if_neg hfew, IndexInput.readByte_mk hflag, ok_bind]
    simp only [hn1, hn2, hn3, hn4, Nat.add_sub_cancel' hpa, Nat.add_sub_cancel' hpb,
      Nat.add_sub_cancel' hpc, Nat.add_sub_cancel' hpd]
    simp only [← add_assoc] at hb hc hd
    rw [readMasked_spec ha (by omega), ok_bind, setInt_eq (by omega), ok_bind,
      readMasked_spec hb (by omega), ok_bind, setInt_eq (by rw [length_set]; omega), ok_bind,
      readMasked_spec hc (by omega), ok_bind, setInt_eq (by rw [length_set, length_set]; omega),
      ok_bind, readMasked_spec hd (by omega), ok_bind,
      setInt_eq (by rw [length_set, length_set, length_set]; omega), ok_bind, pure_eq_ok]
    simp only [add_assoc]

end

/-! ## All groups -/

section

variable {values dst : List I32} {limit : Nat}

/-- The bytes of group `k`. -/
def groupAt (values : List I32) (k : Nat) : Bytes :=
  groupBytes (intAt values (4 * k)) (intAt values (4 * k + 1)) (intAt values (4 * k + 2))
    (intAt values (4 * k + 3))

/-- The bytes of an integer that is left over. -/
def tailAt (values : List I32) (limit k : Nat) : Bytes :=
  vIntBytes (intAt values (4 * (limit / 4) + k)).toInt

/-- The bytes of the first `limit` integers. -/
def groupVIntBytes (values : List I32) (limit : Nat) : Bytes :=
  (range (limit / 4)).flatMap (groupAt values) ++ (range (limit % 4)).flatMap (tailAt values limit)

/-- The first `k` groups have been written behind `out`. -/
structure GroupsWritten (values : List I32) (out : Bytes) (k : Nat) (s : Bytes × Bytes) : Prop where
  scratch_length : s.1.length = maxLengthPerGroup
  out_eq : s.2 = out ++ (range k).flatMap (groupAt values)

/-- One more group. -/
theorem GroupsWritten.step {out : Bytes} {k : Nat} {s : Bytes × Bytes}
    (h : GroupsWritten values out k s) (hk : 4 * k + 4 ≤ values.length) :
    ∃ s', (do
        let a ← getInt values (4 * k)
        let b ← getInt values (4 * k + 1)
        let c ← getInt values (4 * k + 2)
        let d ← getInt values (4 * k + 3)
        writeGroup s.1 s.2 a b c d) = .ok s' ∧ GroupsWritten values out (k + 1) s' := by
  obtain ⟨scratch', hwrite, hlen⟩ := writeGroup_spec h.scratch_length s.2 (intAt values (4 * k))
    (intAt values (4 * k + 1)) (intAt values (4 * k + 2)) (intAt values (4 * k + 3))
  refine ⟨(scratch', s.2 ++ groupAt values k), ?_, hlen, ?_⟩
  · simp only [getInt_eq (show 4 * k < values.length by omega),
      getInt_eq (show 4 * k + 1 < values.length by omega),
      getInt_eq (show 4 * k + 2 < values.length by omega),
      getInt_eq (show 4 * k + 3 < values.length by omega), ok_bind]
    exact hwrite
  · rw [flatMap_range_succ, ← append_assoc, ← h.out_eq]

/-- What is written. -/
theorem writeGroupVInts_spec (hlimit : limit ≤ values.length) (out : Bytes) :
    writeGroupVInts out values limit = .ok (out ++ groupVIntBytes values limit) := by
  have hstart : GroupsWritten values out 0 (replicate maxLengthPerGroup (0 : UInt8), out) :=
    ⟨length_replicate, (append_nil out).symm⟩
  obtain ⟨s, hgroups, hall⟩ := foldlM_range (n := limit / 4) (I := GroupsWritten values out)
    (fun k s hk hs => hs.step (by omega)) hstart
  rw [writeGroupVInts, hgroups, ok_bind, groupVIntBytes, ← append_assoc, ← hall.out_eq]
  refine foldlM_range_append (fun k hk out => ?_) _
  rw [getInt_eq (by omega), ok_bind, pure_eq_ok, writeVInt, tailAt]

/-- The first `n` integers of a buffer replaced by those of another. -/
def replaceFirst (values dst : List I32) (n : Nat) : List I32 :=
  values.take n ++ dst.drop n

/-- An entry after some are replaced. -/
theorem intAt_replaceFirst (hvalues : n ≤ values.length) (i : Nat) :
    intAt (replaceFirst values dst n) i = if i < n then intAt values i else intAt dst i := by
  rw [replaceFirst, intAt_append, length_take_of_le hvalues]
  split
  next hi => rw [intAt_eq_getElem?, getElem?_take_of_lt hi, ← intAt_eq_getElem?]
  next hi =>
    rw [intAt_eq_getElem?, getElem?_drop, Nat.add_sub_cancel' (Nat.le_of_not_lt hi),
      ← intAt_eq_getElem?]

theorem replaceFirst_take (hvalues : n ≤ values.length) :
    (replaceFirst values dst n).take n = values.take n := by
  rw [replaceFirst, take_append_of_le_length (by rw [length_take]; omega), take_take, Nat.min_self]

theorem replaceFirst_length {n : Nat} (hvalues : n ≤ values.length) (hdst : n ≤ dst.length) :
    (replaceFirst values dst n).length = dst.length := by
  rw [replaceFirst, length_append, length_take, length_drop]
  omega

/-- One entry more is replaced. -/
theorem replaceFirst_set (hvalues : n < values.length) (hdst : n < dst.length) :
    (replaceFirst values dst n).set n (intAt values n) = replaceFirst values dst (n + 1) := by
  have hlen : (values.take n).length = n := by
    rw [length_take]
    omega
  rw [replaceFirst, set_append_right _ _ hlen.le, hlen, Nat.sub_self, drop_eq_getElem_cons hdst,
    set_cons_zero, replaceFirst, intAt_eq_getElem hvalues,
    ← take_append_getElem hvalues, append_assoc]
  rfl

/-- Both readers read back the integers and consume their bytes, whatever the input takes to remain
of what it has. -/
theorem readGroupVInts_spec {remaining : IndexInput → Nat}
    (hremaining : ∀ input : IndexInput, remaining input ≤ input.bytes.length - input.pos)
    {file : Bytes} {pos : Nat} (hlimit : limit ≤ values.length) (hdst : limit ≤ dst.length)
    (hat : At file pos (groupVIntBytes values limit)) :
    readGroupVInts remaining ⟨file, pos⟩ dst limit =
      .ok (replaceFirst values dst limit, ⟨file, pos + (groupVIntBytes values limit).length⟩) := by
  obtain ⟨hgroups, htail⟩ := at_append_iff.mp hat
  rw [readGroupVInts, foldlM_range_eq (fun k => (replaceFirst values dst (4 * k),
      ⟨file, pos + ((range k).flatMap (groupAt values)).length⟩)) ?_ (by simp [replaceFirst]),
    ok_bind, foldlM_range_eq (fun k => (replaceFirst values dst (4 * (limit / 4) + k),
      ⟨file, pos + ((range (limit / 4)).flatMap (groupAt values)).length +
        ((range k).flatMap (tailAt values limit)).length⟩)) ?_ (by simp), groupVIntBytes,
    length_append, div_add_mod, add_assoc]
  · intro k hk
    have hlen : (replaceFirst values dst (4 * (limit / 4) + k)).length = dst.length :=
      replaceFirst_length (by omega) (by omega)
    have hvalue (v : I32) : BitVec.ofInt 32 (asI 32 v.toInt) = v := by
      rw [asI, BitVec.toInt_eq_toNat_bmod, Int.bmod_bmod, ← BitVec.toInt_eq_toNat_bmod,
        BitVec.ofInt_toInt]
    dsimp only
    rw [IndexInput.readVInt_mk (htail.flatMap_range hk), ok_bind]
    rw [hvalue, setInt_eq (by omega), ok_bind, pure_eq_ok, replaceFirst_set (by omega) (by omega),
      flatMap_range_succ, length_append, ← add_assoc (pos + _)]
    rfl
  · intro k hk
    have hlen : (replaceFirst values dst (4 * k)).length = dst.length :=
      replaceFirst_length (by omega) (by omega)
    dsimp only
    rw [readGroupVIntWithReader_spec (hgroups.flatMap_range hk) (by omega) (hremaining _),
      replaceFirst_set (by omega) (by omega), replaceFirst_set (by omega) (by omega),
      replaceFirst_set (by omega) (by omega), replaceFirst_set (by omega) (by omega),
      flatMap_range_succ, length_append, ← add_assoc pos]
    rfl

end

end RLucene.Util.GroupVIntUtil
