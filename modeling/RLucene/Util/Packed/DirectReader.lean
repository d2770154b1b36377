import RLucene.Store.IndexInput
import RLucene.Util.Packed.DirectWriter

/-!
# Direct reader

The fourteen direct readers each read one machine word that covers the value, shift it and mask it.
The merge instance decodes 128 values at a time into a buffer. `DirectPackedEnum.ReadsFrom` is the
relation between a reader and the values it stands for; `readFromSlice_spec` says that every read
returns the value at its index and keeps the relation, in any order of indices.
-/

namespace RLucene.Util.Packed

open Nat List Lib Store

/-- The machine words of a random-access input. -/
inductive WordSize where
  | byte
  | short
  | int
  | long
  deriving DecidableEq, Repr

/-- The bytes of a word. -/
def WordSize.bytes : WordSize → Nat
  | .byte => 1
  | .short => 2
  | .int => 4
  | .long => 8

/-- The unsigned reading of the word at a position. -/
def readUnsigned (slice : RandomAccessInput) (size : WordSize) (pos : Nat) : Result Nat :=
  match size with
  | .byte => do return (← slice.readByte pos).toNat
  | .short => do return asU 16 (← slice.readShort pos)
  | .int => do return asU 32 (← slice.readInt pos)
  | .long => do return asU 64 (← slice.readLong pos)

/-- A value within a word. The shift of a 20 or 28 bit value is arithmetic in the source; the mask
leaves no sign bits of it. -/
def readCell (size : WordSize) (slice : RandomAccessInput) (pos shift mask : Nat) : Result Int := do
  let word ← readUnsigned slice size pos
  return asI 64 ((word >>> shift &&& mask : Nat) : Int)

/-! ## The direct readers -/

/-- A value of 1 bit. -/
def directPackedReader1 (slice : RandomAccessInput) (offset index : Nat) : Result Int :=
  readCell .byte slice (offset + (index >>> 3)) (index &&& 7) 0x1

/-- A value of 2 bits. -/
def directPackedReader2 (slice : RandomAccessInput) (offset index : Nat) : Result Int :=
  readCell .byte slice (offset + (index >>> 2)) ((index &&& 3) <<< 1) 0x3

/-- A value of 4 bits. -/
def directPackedReader4 (slice : RandomAccessInput) (offset index : Nat) : Result Int :=
  readCell .byte slice (offset + (index >>> 1)) ((index &&& 1) <<< 2) 0xF

/-- A value of 8 bits. -/
def directPackedReader8 (slice : RandomAccessInput) (offset index : Nat) : Result Int :=
  readCell .byte slice (offset + index) 0 0xFF

/-- A value of 12 bits. -/
def directPackedReader12 (slice : RandomAccessInput) (offset index : Nat) : Result Int :=
  readCell .short slice (offset + (index * 12) >>> 3) ((index &&& 1) <<< 2) 0xFFF

/-- A value of 16 bits. -/
def directPackedReader16 (slice : RandomAccessInput) (offset index : Nat) : Result Int :=
  readCell .short slice (offset + index <<< 1) 0 0xFFFF

/-- A value of 20 bits. -/
def directPackedReader20 (slice : RandomAccessInput) (offset index : Nat) : Result Int :=
  readCell .int slice (offset + (index * 20) >>> 3) ((index &&& 1) <<< 2) 0xFFFFF

/-- A value of 24 bits. -/
def directPackedReader24 (slice : RandomAccessInput) (offset index : Nat) : Result Int :=
  readCell .int slice (offset + index * 3) 0 0xFFFFFF

/-- A value of 28 bits. -/
def directPackedReader28 (slice : RandomAccessInput) (offset index : Nat) : Result Int :=
  readCell .int slice (offset + (index * 28) >>> 3) ((index &&& 1) <<< 2) 0xFFFFFFF

/-- A value of 32 bits. -/
def directPackedReader32 (slice : RandomAccessInput) (offset index : Nat) : Result Int :=
  readCell .int slice (offset + index <<< 2) 0 0xFFFFFFFF

/-- A value of 40 bits. -/
def directPackedReader40 (slice : RandomAccessInput) (offset index : Nat) : Result Int :=
  readCell .long slice (offset + index * 5) 0 0xFFFFFFFFFF

/-- A value of 48 bits. -/
def directPackedReader48 (slice : RandomAccessInput) (offset index : Nat) : Result Int :=
  readCell .long slice (offset + index * 6) 0 0xFFFFFFFFFFFF

/-- A value of 56 bits. -/
def directPackedReader56 (slice : RandomAccessInput) (offset index : Nat) : Result Int :=
  readCell .long slice (offset + index * 7) 0 0xFFFFFFFFFFFFFF

/-- A value of 64 bits. -/
def directPackedReader64 (slice : RandomAccessInput) (offset index : Nat) : Result Int :=
  readCell .long slice (offset + index <<< 3) 0 0xFFFFFFFFFFFFFFFF

/-- The reader of a width. -/
def readDirect (bitsPerValue : Nat) (slice : RandomAccessInput) (offset index : Nat) : Result Int :=
  match bitsPerValue with
  | 1 => directPackedReader1 slice offset index
  | 2 => directPackedReader2 slice offset index
  | 4 => directPackedReader4 slice offset index
  | 8 => directPackedReader8 slice offset index
  | 12 => directPackedReader12 slice offset index
  | 16 => directPackedReader16 slice offset index
  | 20 => directPackedReader20 slice offset index
  | 24 => directPackedReader24 slice offset index
  | 28 => directPackedReader28 slice offset index
  | 32 => directPackedReader32 slice offset index
  | 40 => directPackedReader40 slice offset index
  | 48 => directPackedReader48 slice offset index
  | 56 => directPackedReader56 slice offset index
  | 64 => directPackedReader64 slice offset index
  | n => .error (.illegalArgument s!"unsupported bits_per_value: {n}")

/-! ## The merge instance -/

/-- The buffer of a merging reader has `2 ^ 7` values. -/
def mergeBufferShift : Nat := 7

/-- How many values are buffered. -/
def mergeBufferSize : Nat := 1 <<< mergeBufferShift

/-- Where in the buffer a value is. -/
def mergeBufferMask : Nat := mergeBufferSize - 1

theorem mergeBufferSize_eq : mergeBufferSize = 128 := rfl

/-- A reader that buffers the values around the last index. -/
structure LongValuesImpl where
  slice : Option RandomAccessInput
  bitsPerValue : Nat
  numValues : Nat
  baseOffset : Nat
  buffer : List Int
  blockIndex : Option Nat

/-- The slice given with the call, or the reader's own. -/
def resolveSlice (given own : Option RandomAccessInput) : Result RandomAccessInput :=
  match given with
  | some slice => .ok slice
  | none =>
    match own with
    | some slice => .ok slice
    | none => .error (.illegalState "input is empty")

/-- The values of one word, from its low bits upwards. -/
def unpackWord (bitsPerValue count word : Nat) : List Int :=
  (range count).map fun j =>
    asI 64 ((word >>> (j * bitsPerValue) &&& (2 ^ bitsPerValue - 1) : Nat) : Int)

/-- Decode the 128 values from `index` on, or those that are left. -/
def decodeBuffer (bitsPerValue numValues baseOffset : Nat) (slice : RandomAccessInput)
    (index : Nat) : Result (List Int) :=
  if numValues < index then .error .indexOutOfBounds
  else if numValues ≤ index + mergeBufferSize then
    (range (numValues - index)).mapM fun i =>
      readDirect bitsPerValue slice baseOffset (index + i)
  else if bitsPerValue &&& 0x07 = 0 then
    let size := if bitsPerValue > 32 then WordSize.long
      else if bitsPerValue > 16 then .int
      else if bitsPerValue > 8 then .short
      else .byte
    (range mergeBufferSize).mapM fun i =>
      readCell size slice (baseOffset + index * bitsPerValue / 8 + i * (bitsPerValue / 8)) 0
        (2 ^ bitsPerValue - 1)
  else if bitsPerValue < 8 then do
    let words ← (range (2 * bitsPerValue)).mapM fun i =>
      readUnsigned slice .long (baseOffset + index * bitsPerValue / 8 + i * 8)
    return words.flatMap (unpackWord bitsPerValue (64 / bitsPerValue))
  else do
    -- a pair of 12 bit values is read as an int, whose sign extension the masks cut off
    let bytesFor2Values := bitsPerValue * 2 / 8
    let words ← (range (mergeBufferSize / 2)).mapM fun i =>
      readUnsigned slice (if bytesFor2Values > 4 then .long else .int)
        (baseOffset + index * bitsPerValue / 8 + i * bytesFor2Values)
    return words.flatMap (unpackWord bitsPerValue 2)

/-- Read the values around an index. -/
def LongValuesImpl.fillBuffer (r : LongValuesImpl) (index : Nat)
    (slice : Option RandomAccessInput) : Result LongValuesImpl := do
  let slice ← resolveSlice slice r.slice
  let buffer := if r.buffer = [] then replicate mergeBufferSize (-1) else r.buffer
  let values ← decodeBuffer r.bitsPerValue r.numValues r.baseOffset slice index
  return { r with buffer := values ++ buffer.drop values.length }

/-- Read a value, through the buffer. -/
def LongValuesImpl.readFromSlice (r : LongValuesImpl) (index : Nat)
    (slice : Option RandomAccessInput) : Result (Int × LongValuesImpl) := do
  let blockIndex := index >>> mergeBufferShift
  let r ← (if r.blockIndex ≠ some blockIndex then do
      let r ← r.fillBuffer (blockIndex <<< mergeBufferShift) slice
      return { r with blockIndex := some blockIndex }
    else .ok r)
  match r.buffer[index &&& mergeBufferMask]? with
  | some value => return (value, r)
  | none => .error .indexOutOfBounds

/-! ## All readers -/

/-- The readers of packed values. -/
inductive DirectPackedEnum where
  | direct (bitsPerValue : Nat) (input : Option RandomAccessInput) (offset : Nat)
  | merge (reader : LongValuesImpl)
  | zeroes

namespace DirectPackedEnum

/-- A reader of the width, if there is one. -/
def getInstanceWithOffset (slice : Option RandomAccessInput) (bitsPerValue offset : Nat) :
    Result DirectPackedEnum :=
  if bitsPerValue ∈ supportedBitsPerValue then .ok (.direct bitsPerValue slice offset)
  else .error (.illegalArgument s!"unsupported bits_per_value: {bitsPerValue}")

/-- A reader that buffers. -/
def getMergeInstanceWithBaseOffset (slice : Option RandomAccessInput)
    (bitsPerValue baseOffset numValues : Nat) : DirectPackedEnum :=
  .merge ⟨slice, bitsPerValue, numValues, baseOffset, [], none⟩

/-- Read a value. -/
def readFromSlice (reader : DirectPackedEnum) (index : Nat) (slice : Option RandomAccessInput) :
    Result (Int × DirectPackedEnum) :=
  match reader with
  | .direct bitsPerValue input offset => do
    let slice ← resolveSlice slice input
    let value ← readDirect bitsPerValue slice offset index
    return (value, .direct bitsPerValue input offset)
  | .merge r => do
    let (value, r) ← r.readFromSlice index slice
    return (value, .merge r)
  | .zeroes => .ok (0, .zeroes)

end DirectPackedEnum

/-! ## Reading a value -/

variable {slice : RandomAccessInput} {offset pos w n i : Nat} {vals : List Nat} {rest : Bytes}
  {bpv : Nat} {r : LongValuesImpl} {given : Option RandomAccessInput} {reader : DirectPackedEnum}
  {values : List Int}

/-- The word at a position where its bytes stand. -/
theorem readUnsigned_at (size : WordSize) (h : At slice.bytes pos (leBytes size.bytes n))
    (hn : n < 256 ^ size.bytes) : readUnsigned slice size pos = .ok n := by
  have hint (k : Nat) : leBytes k n = intLE k (n : Int) := (intLE_natCast k n).symm
  cases size with
  | byte =>
    have hread := @IndexInput.readByte_at ⟨slice.bytes, pos⟩ (UInt8.ofNat n) [] h
    simp only [readUnsigned, RandomAccessInput.readByte, hread, ok_bind, pure_eq_ok,
      UInt8.toNat_ofNat']
    rw [mod_eq_of_lt (by simpa [WordSize.bytes] using hn)]
  | short =>
    rw [WordSize.bytes, hint] at h
    have hread := @IndexInput.readShort_at ⟨slice.bytes, pos⟩ _ h
    simp only [readUnsigned, RandomAccessInput.readShort, hread, ok_bind, pure_eq_ok, asU_asI]
    rw [asU_of_lt (by simpa [WordSize.bytes] using hn)]
  | int =>
    rw [WordSize.bytes, hint] at h
    have hread := @IndexInput.readInt_at ⟨slice.bytes, pos⟩ _ h
    simp only [readUnsigned, RandomAccessInput.readInt, hread, ok_bind, pure_eq_ok, asU_asI]
    rw [asU_of_lt (by simpa [WordSize.bytes] using hn)]
  | long =>
    rw [WordSize.bytes, hint] at h
    have hread := @IndexInput.readLong_at ⟨slice.bytes, pos⟩ _ h
    simp only [readUnsigned, RandomAccessInput.readLong, hread, ok_bind, pure_eq_ok, asU_asI]
    rw [asU_of_lt (by simpa [WordSize.bytes] using hn)]

/-- A word that covers a value gives the value, whatever bits surround it. -/
theorem readCell_at (h : At slice.bytes offset (packed w vals ++ rest)) (hfit : Fits w vals)
    (hi : i < vals.length) (size : WordSize) {p s : Nat} (hpos : 8 * p + s = w * i)
    (hroom : s + w ≤ 8 * size.bytes)
    (hlen : p + size.bytes ≤ (w * vals.length + 7) / 8 + rest.length) :
    readCell size slice (offset + p) s (2 ^ w - 1) = .ok (asI 64 (vals[i] : Int)) := by
  obtain ⟨hn, hat⟩ := h.window (p := p) (k := size.bytes) (by rwa [length_append, packed_length])
  rw [readCell, readUnsigned_at size hat hn, ok_bind, and_two_pow_sub_one_eq_mod,
    shiftRight_eq_div_pow, windowNat_packed hfit hi rest hpos hroom]
  rfl

/-- Every direct reader returns the packed value at its index. -/
theorem readDirect_at (hbpv : bpv ∈ supportedBitsPerValue)
    (h : At slice.bytes offset (packed bpv vals ++ rest)) (hfit : Fits bpv vals)
    (hpad : DirectWriter.paddingBytesNeeded bpv ≤ rest.length) (hi : i < vals.length) :
    readDirect bpv slice offset i = .ok (asI 64 (vals[i] : Int)) := by
  have h7 : i &&& 7 = i % 8 := and_two_pow_sub_one_eq_mod i 3
  have h3 : i &&& 3 = i % 4 := and_two_pow_sub_one_eq_mod i 2
  have h1 : i &&& 1 = i % 2 := and_two_pow_sub_one_eq_mod i 1
  simp only [supportedBitsPerValue, mem_cons, not_mem_nil, or_false] at hbpv
  rcases hbpv with rfl | rfl | rfl | rfl | rfl | rfl | rfl | rfl | rfl | rfl | rfl | rfl | rfl | rfl
  all_goals
    norm_num [DirectWriter.paddingBytesNeeded] at hpad
    refine readCell_at h hfit hi _ ?_ ?_ ?_
    all_goals
      try simp only [WordSize.bytes, shiftRight_eq_div_pow, shiftLeft_eq, h7, h3, h1]
      omega

/-! ## Filling the merge buffer -/

/-- The values as the readers return them. -/
def signedAt (vals : List Nat) (i : Nat) : Int :=
  asI 64 (vals.getD i 0 : Int)

theorem signedAt_eq (hi : i < vals.length) : signedAt vals i = asI 64 (vals[i] : Int) := by
  rw [signedAt, getD_eq_getElem _ _ hi]

/-- A word that begins with a value and covers the next ones. -/
theorem unpackWord_window (hfit : Fits w vals) {base c p k : Nat} (hpos : 8 * p = w * base)
    (hcover : w * c ≤ 8 * k) (hin : base + c ≤ vals.length) :
    unpackWord w c (windowNat (packed w vals ++ rest) p k) =
      (range c).map fun j => signedAt vals (base + j) := by
  apply map_congr_left
  intro j hj
  have hj := mem_range.mp hj
  have hbits : j * w + w ≤ 8 * k := by
    calc j * w + w = w * (j + 1) := by ring
      _ ≤ w * c := Nat.mul_le_mul_left w hj
      _ ≤ 8 * k := hcover
  rw [signedAt_eq (by omega), and_two_pow_sub_one_eq_mod, shiftRight_eq_div_pow,
    windowNat_packed (i := base + j) hfit (by omega) rest (by rw [hpos]; ring) hbits]

/-- Words of `c` values each, one after the other. -/
theorem decodeWords_at (h : At slice.bytes offset (packed w vals ++ rest)) (hfit : Fits w vals)
    (size : WordSize) {index c m step : Nat} (haligned : 8 ∣ index * w) (hstep : w * c = 8 * step)
    (hcover : step ≤ size.bytes) (hin : index + c * m ≤ vals.length)
    (hlen : ∀ i < m, index * w / 8 + i * step + size.bytes ≤
      (w * vals.length + 7) / 8 + rest.length) :
    (do let words ← (range m).mapM fun i =>
          readUnsigned slice size (offset + index * w / 8 + i * step)
        return words.flatMap (unpackWord w c) : Result (List Int)) =
      .ok ((range (c * m)).map fun j => signedAt vals (index + j)) := by
  obtain ⟨q, hq⟩ := haligned
  have hbase : index * w / 8 = q := by omega
  rw [hbase] at hlen ⊢
  have hread : ∀ i ∈ range m, readUnsigned slice size (offset + q + i * step) =
      .ok (windowNat (packed w vals ++ rest) (q + i * step) size.bytes) := by
    intro i hi
    have hroom := hlen i (mem_range.mp hi)
    obtain ⟨hn, hat⟩ := h.window (p := q + i * step) (k := size.bytes)
      (by rwa [length_append, packed_length])
    rw [add_assoc]
    exact readUnsigned_at size hat hn
  rw [mapM_ok hread, ok_bind, flatMap_map, pure_eq_ok,
    ← flatMap_range_map (m := m) (c := c) (fun j => signedAt vals (index + j))]
  refine congrArg Except.ok (flatMap_congr ?_)
  intro i hi
  have hi := mem_range.mp hi
  have hgroups : c * i + c ≤ c * m := by
    exact Nat.mul_le_mul_left c hi
  have hpos : 8 * (q + i * step) = w * (index + c * i) := by
    rw [mul_add, ← hq, mul_add, ← Nat.mul_assoc w, hstep]
    ring
  rw [unpackWord_window hfit hpos (by omega) (by omega)]
  simp only [add_assoc]

/-- Decoding from a multiple of the buffer size on gives the next values. -/
theorem decodeBuffer_at (index : Nat) (hbpv : bpv ∈ supportedBitsPerValue)
    (h : At slice.bytes offset (packed bpv vals ++ rest)) (hfit : Fits bpv vals)
    (hpad : DirectWriter.paddingBytesNeeded bpv ≤ rest.length) (haligned : 128 ∣ index)
    (hindex : index < vals.length) :
    decodeBuffer bpv vals.length offset slice index =
      .ok ((range (min 128 (vals.length - index))).map fun j => signedAt vals (index + j)) := by
  have hbytes : 8 ∣ index * bpv := Dvd.dvd.mul_right (Nat.dvd_trans ⟨16, rfl⟩ haligned) bpv
  unfold decodeBuffer
  rw [if_neg (by omega)]
  by_cases htail : vals.length ≤ index + mergeBufferSize
  · rw [if_pos htail, Nat.min_eq_right (by rw [mergeBufferSize_eq] at htail; omega)]
    apply mapM_ok
    intro j hj
    have hj := mem_range.mp hj
    rw [readDirect_at hbpv h hfit hpad (by omega), signedAt_eq]
  · rw [if_neg htail, mergeBufferSize_eq]
    rw [mergeBufferSize_eq] at htail
    rw [Nat.min_eq_left (by omega)]
    rcases supported_cases hbpv with ⟨step, rfl, hpos, hstep⟩ | hsmall | hpair
    · have hmask : 8 * step &&& 7 = 0 := by
        rw [show 7 = 2 ^ 3 - 1 by rfl, and_two_pow_sub_one_eq_mod]
        omega
      rw [if_pos hmask]
      apply mapM_ok
      intro j hj
      have hj := mem_range.mp hj
      rw [add_assoc, signedAt_eq (by omega)]
      have hstart : index * (8 * step) / 8 + j * (8 * step / 8) = step * (index + j) := by
        rw [show index * (8 * step) = 8 * (step * index) by ring,
          Nat.mul_div_cancel_left _ (by decide), Nat.mul_div_cancel_left _ (by decide)]
        ring
      rw [hstart]
      refine readCell_at h hfit (by omega) _ (by ring) ?_ ?_
      · split_ifs <;> simp only [WordSize.bytes] <;> omega
      · -- at least one more value follows, so even an eight-byte word stays within the bytes
        have hmore : step * (index + j + 2) ≤ step * vals.length :=
          Nat.mul_le_mul_left step (by omega)
        rw [mul_add] at hmore
        rw [show 8 * step * vals.length = 8 * (step * vals.length) by ring]
        split_ifs <;> simp only [WordSize.bytes] <;> omega
    · have hgroup : bpv * (64 / bpv) = 8 * 8 := by rcases hsmall with rfl | rfl | rfl <;> rfl
      have hcount : 64 / bpv * (2 * bpv) = 128 := by
        rw [mul_comm 2, ← Nat.mul_assoc, mul_comm _ bpv, hgroup]
      rw [if_neg (by rcases hsmall with rfl | rfl | rfl <;> decide), if_pos (by omega),
        decodeWords_at h hfit .long hbytes hgroup le_rfl (by omega), hcount]
      intro i hi
      simp only [WordSize.bytes]
      rcases hsmall with rfl | rfl | rfl <;> omega
    · have hgroup : bpv * 2 = 8 * (bpv * 2 / 8) := by omega
      rw [if_neg (by rcases hpair with rfl | rfl | rfl <;> decide), if_neg (by omega),
        decodeWords_at h hfit _ hbytes hgroup
          (by split_ifs <;> simp only [WordSize.bytes] <;> omega)
          (by omega)]
      intro i hi
      rcases hpair with rfl | rfl | rfl <;>
        norm_num [DirectWriter.paddingBytesNeeded, WordSize.bytes] at hpad ⊢ <;> omega

/-! ## Readers and the values they stand for -/

/-- The bytes of a direct writer for the values stand at the offset. -/
structure PackedAt (slice : RandomAccessInput) (offset bpv : Nat) (vals : List Nat) : Prop where
  supported : bpv ∈ supportedBitsPerValue
  fits : Fits bpv vals
  bytes_at : ∃ rest, DirectWriter.paddingBytesNeeded bpv ≤ rest.length ∧
    At slice.bytes offset (packed bpv vals ++ rest)

/-- A decoded block is the one its index names. -/
structure LongValuesImpl.ReadsFrom (slice : RandomAccessInput) (vals : List Nat)
    (r : LongValuesImpl) : Prop where
  packed_at : PackedAt slice r.baseOffset r.bitsPerValue vals
  num_eq : r.numValues = vals.length
  buffer_eq : ∀ b, r.blockIndex = some b → ∀ j < 128, 128 * b + j < vals.length →
    r.buffer[j]? = some (signedAt vals (128 * b + j))

/-- Filling the buffer for a block that begins before the end. -/
theorem LongValuesImpl.fillBuffer_spec (h : r.ReadsFrom slice vals)
    (hslice : resolveSlice given r.slice = .ok slice) {b : Nat} (hb : 128 * b < vals.length) :
    ∃ buffer, r.fillBuffer (128 * b) given = .ok { r with buffer := buffer } ∧
      ∀ j < 128, 128 * b + j < vals.length → buffer[j]? = some (signedAt vals (128 * b + j)) := by
  obtain ⟨rest, hpad, hat⟩ := h.packed_at.bytes_at
  have hdecode := decodeBuffer_at (128 * b) h.packed_at.supported hat h.packed_at.fits hpad
    ⟨_, rfl⟩ hb
  rw [fillBuffer, hslice, h.num_eq]
  simp only [ok_bind, hdecode, pure_eq_ok]
  refine ⟨_, rfl, fun j hj hin => ?_⟩
  have hcount : j < min 128 (vals.length - 128 * b) := by omega
  rw [getElem?_append_left (by simpa using hcount), getElem?_map, getElem?_range hcount]
  rfl

/-- A value through the buffer. -/
theorem LongValuesImpl.readFromSlice_spec (h : r.ReadsFrom slice vals)
    (hslice : resolveSlice given r.slice = .ok slice) (hi : i < vals.length) :
    ∃ r', r.readFromSlice i given = .ok (signedAt vals i, r') ∧ r'.ReadsFrom slice vals ∧
      r'.slice = r.slice := by
  have hblock : i >>> mergeBufferShift = i / 128 := shiftRight_eq_div_pow i 7
  have hstart : (i / 128) <<< mergeBufferShift = 128 * (i / 128) := by
    rw [shiftLeft_eq, mul_comm]
    rfl
  have hmask : i &&& mergeBufferMask = i % 128 := and_two_pow_sub_one_eq_mod i 7
  have hsplit := div_add_mod i 128
  have hmod := mod_lt i (show 128 > 0 by decide)
  unfold LongValuesImpl.readFromSlice
  simp only [hblock, hmask, hstart]
  by_cases hcached : r.blockIndex = some (i / 128)
  · have hvalue := h.buffer_eq _ hcached (i % 128) hmod (by omega)
    rw [hsplit] at hvalue
    rw [if_neg (not_not_intro hcached), ok_bind, hvalue]
    exact ⟨r, rfl, h, rfl⟩
  · obtain ⟨buffer, hfill, hbuffer⟩ :=
      LongValuesImpl.fillBuffer_spec h hslice (b := i / 128) (by omega)
    have hvalue := hbuffer (i % 128) hmod (by omega)
    rw [hsplit] at hvalue
    rw [if_pos hcached, hfill]
    simp only [ok_bind, pure_eq_ok, hvalue]
    refine ⟨_, rfl, ⟨h.packed_at, h.num_eq, ?_⟩, rfl⟩
    intro b hb
    cases hb
    exact hbuffer

namespace DirectPackedEnum

/-- The reader's own slice. -/
def input : DirectPackedEnum → Option RandomAccessInput
  | .direct _ input _ => input
  | .merge r => r.slice
  | .zeroes => none

/-- Over the slice, the reader stands for the values. -/
def ReadsFrom (slice : RandomAccessInput) (vals : List Nat) : DirectPackedEnum → Prop
  | .direct bitsPerValue _ offset => PackedAt slice offset bitsPerValue vals
  | .merge r => r.ReadsFrom slice vals
  | .zeroes => ∀ v ∈ vals, v = 0

/-- A read returns the value at the index, and the reader still stands for the same values. -/
theorem readFromSlice_spec (h : reader.ReadsFrom slice vals) (given : Option RandomAccessInput)
    (hslice : given = some slice ∨ given = none ∧ reader.input = some slice)
    (hi : i < vals.length) : ∃ reader', reader.readFromSlice i given = .ok
      (signedAt vals i, reader') ∧ reader'.ReadsFrom slice vals ∧ reader'.input = reader.input := by
  have hresolve : resolveSlice given reader.input = .ok slice := by
    rcases hslice with rfl | ⟨rfl, hinput⟩
    · rfl
    · rw [hinput]
      rfl
  cases reader with
  | direct bitsPerValue input offset =>
    obtain ⟨rest, hpad, hat⟩ := h.bytes_at
    refine ⟨.direct bitsPerValue input offset, ?_, h, rfl⟩
    rw [readFromSlice, show resolveSlice given input = .ok slice from hresolve, ok_bind,
      readDirect_at h.supported hat h.fits hpad hi, signedAt_eq hi]
    rfl
  | merge r =>
    obtain ⟨r', hread, hnext, hsame⟩ := LongValuesImpl.readFromSlice_spec h hresolve hi
    refine ⟨.merge r', ?_, hnext, hsame⟩
    rw [readFromSlice, hread]
    rfl
  | zeroes =>
    refine ⟨.zeroes, ?_, h, rfl⟩
    rw [readFromSlice, signedAt_eq hi, h _ (getElem_mem hi)]
    rfl

/-- The reader of a width. -/
theorem getInstanceWithOffset_reads {own : Option RandomAccessInput} {bpv : Nat}
    (h : PackedAt slice offset bpv vals) :
    ∃ reader, getInstanceWithOffset own bpv offset = .ok reader ∧ reader.ReadsFrom slice vals ∧
      reader.input = own :=
  ⟨.direct bpv own offset, if_pos h.supported, h, rfl⟩

/-- The reader with a buffer. -/
theorem getMergeInstance_reads {own : Option RandomAccessInput} {bpv : Nat}
    (h : PackedAt slice offset bpv vals) :
    (getMergeInstanceWithBaseOffset own bpv offset vals.length).ReadsFrom slice vals :=
  ⟨h, rfl, nofun⟩

end DirectPackedEnum

/-- What the writer appends can be read at the position where it stands. -/
theorem packedAt_directBytes {bpv : Nat} {values : List Int} (hbpv : bpv ∈ supportedBitsPerValue)
    (hfit : Fits bpv (unsigned values)) (h : At slice.bytes offset (directBytes bpv values)) :
    PackedAt slice offset bpv (unsigned values) :=
  ⟨hbpv, hfit, replicate _ 0, by simp, h⟩

theorem signedAt_unsigned (hi : i < values.length) :
    signedAt (unsigned values) i = asI 64 values[i] := by
  rw [signedAt_eq (by simpa using hi), getElem_map, asI_asU]

/-! ## Written values in any order -/

/-- What a writer of this width may be given. -/
def Packable (bitsPerValue : Nat) (value : Int) : Prop :=
  -2 ^ 63 ≤ value ∧ value < 2 ^ 63 ∧ (bitsPerValue = 64 ∨ 0 ≤ value ∧ value < 2 ^ bitsPerValue)

theorem Packable.asI_eq {value : Int} (h : Packable bpv value) : asI 64 value = value :=
  asI_of_range (by decide) (by exact_mod_cast h.1) (by exact_mod_cast h.2.1)

/-- Values that can be packed fit the width. -/
theorem fits_of_packable (h : ∀ v ∈ values, Packable bpv v) : Fits bpv (unsigned values) := by
  intro u hu
  obtain ⟨v, hv, rfl⟩ := mem_map.mp hu
  obtain ⟨-, hlt, rfl | ⟨hpos, hfit⟩⟩ := h v hv
  · exact asU_lt 64 v
  · obtain ⟨n, rfl⟩ := Int.eq_ofNat_of_zero_le hpos
    rw [asU_of_lt (by omega)]
    exact_mod_cast hfit

namespace DirectPackedEnum

/-- Reads at some indices, one after the other. -/
def readEach (reader : DirectPackedEnum) : List Nat → Result (List Int × DirectPackedEnum)
  | [] => .ok ([], reader)
  | i :: rest => do
    let (value, reader) ← reader.readFromSlice i none
    let (values, reader) ← reader.readEach rest
    return (value :: values, reader)

/-- Reading in any order. -/
theorem readEach_spec (h : reader.ReadsFrom slice vals) (hinput : reader.input = some slice)
    {indices : List Nat} (hin : ∀ i ∈ indices, i < vals.length) :
    ∃ reader', reader.readEach indices = .ok (indices.map (signedAt vals), reader') := by
  induction indices generalizing reader with
  | nil => exact ⟨reader, rfl⟩
  | cons i rest ih =>
    obtain ⟨next, hread, hnext, hsame⟩ :=
      readFromSlice_spec h none (.inr ⟨rfl, hinput⟩) (hin i mem_cons_self)
    obtain ⟨last, hrest⟩ :=
      ih hnext (hsame.trans hinput) (forall_mem_cons.mp hin).2
    refine ⟨last, ?_⟩
    rw [readEach, hread, ok_bind]
    dsimp only
    rw [hrest]
    rfl

/-- Whatever stands before the written bytes and behind their padding, both readers return the
values, in every order of indices. If nothing stands behind it, a read beyond the padding would
fail. -/
theorem readEach_written {bpv : Nat} (hbpv : bpv ∈ supportedBitsPerValue) {values : List Int}
    (hvalues : ∀ v ∈ values, Packable bpv v) (before behind : Bytes) {indices : List Nat}
    (hin : ∀ i ∈ indices, i < values.length) :
    ∃ written reader direct merged,
      DirectWriter.writeAll before bpv values = .ok (before ++ written) ∧
      getInstanceWithOffset (some ⟨before ++ written ++ behind⟩) bpv before.length = .ok reader ∧
      reader.readEach indices = .ok (indices.map (values.getD · 0), direct) ∧
      (getMergeInstanceWithBaseOffset (some ⟨before ++ written ++ behind⟩) bpv before.length
        values.length).readEach indices = .ok (indices.map (values.getD · 0), merged) := by
  have hfit := fits_of_packable hvalues
  have hpacked := @packedAt_directBytes ⟨before ++ directBytes bpv values ++
    behind⟩ before.length bpv
    values hbpv hfit (by simp [At])
  have hread : indices.map (signedAt (unsigned values)) = indices.map (values.getD · 0) := by
    refine map_congr_left fun i hi => ?_
    have hlt := hin i hi
    rw [signedAt_unsigned hlt, (hvalues _ (getElem_mem hlt)).asI_eq]
    simp [hlt]
  have hin' : ∀ i ∈ indices, i < (unsigned values).length := by simpa using hin
  obtain ⟨reader, hopen, hreads, hinput⟩ := @getInstanceWithOffset_reads _ _ _
    (some ⟨before ++ directBytes bpv values ++ behind⟩) bpv hpacked
  obtain ⟨direct, hdirect⟩ := readEach_spec hreads hinput hin'
  obtain ⟨merged, hmerged⟩ := readEach_spec (@getMergeInstance_reads _ _ _
    (some ⟨before ++ directBytes bpv values ++ behind⟩) bpv hpacked) rfl hin'
  rw [hread] at hdirect hmerged
  rw [length_map] at hmerged
  exact ⟨directBytes bpv values, reader, direct, merged, DirectWriter.writeAll_eq hbpv hfit before,
    hopen, hdirect, hmerged⟩

/-- Three values behind a byte. -/
theorem readEach_written_pair : ∃ written reader direct merged,
    DirectWriter.writeAll [7] 12 [5, 4095, 0] = .ok ([7] ++ written) ∧
    getInstanceWithOffset (some ⟨[7] ++ written ++ []⟩) 12 1 = .ok reader ∧
    reader.readEach [1, 2, 0, 1] = .ok ([4095, 0, 5, 4095], direct) ∧
    (getMergeInstanceWithBaseOffset (some ⟨[7] ++ written ++ []⟩) 12 1 3).readEach [1, 2, 0, 1] =
      .ok ([4095, 0, 5, 4095], merged) :=
  @readEach_written 12 (by decide) [5, 4095, 0] (by simp [Packable]) [7] [] [1, 2, 0, 1] (by decide)

end DirectPackedEnum

end RLucene.Util.Packed
