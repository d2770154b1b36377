import RLucene.Store.DataOutput

/-!
# Index input

An `IndexInput` is a byte list with a file pointer. The multi-byte readers are the default methods
of the `DataInput` trait. For each of them a lemma says that, where the bytes of a written value
stand at the file pointer, the value is read back and the pointer moves behind them. Since the bytes
of an input never change, `At` facts about them hold for every position the input is moved to.
-/

namespace RLucene.Store

open Lib

/-- A file, or a slice of one, with its file pointer. -/
structure IndexInput where
  bytes : Bytes
  pos : Nat
  deriving DecidableEq, Repr

variable {input : IndexInput} {offset : Nat} {enc : Bytes} {b : UInt8}

namespace IndexInput

/-- The bytes of the file. -/
def length (input : IndexInput) : Nat :=
  input.bytes.length

/-- The input with its pointer moved forward, as a successful read leaves it. -/
def skip (input : IndexInput) (k : Nat) : IndexInput :=
  { input with pos := input.pos + k }

@[simp] theorem skip_bytes (input : IndexInput) (k : Nat) :
    (input.skip k).bytes = input.bytes := rfl

@[simp] theorem skip_pos (input : IndexInput) (k : Nat) : (input.skip k).pos = input.pos + k := rfl

@[simp] theorem skip_skip (input : IndexInput) (j k : Nat) :
    (input.skip j).skip k = input.skip (j + k) := by
  simp [skip, add_assoc]

/-- Go to a position within the file. -/
def seek (input : IndexInput) (pos : Nat) : Result IndexInput :=
  if pos ≤ input.bytes.length then .ok { input with pos := pos }
  else .error (.eof s!"seek past EOF (pos={pos})")

/-- Go on by some bytes. -/
def skipBytes (input : IndexInput) (numBytes : Int) : Result IndexInput :=
  if numBytes < 0 then .error (.illegalArgument s!"num_bytes must be >= 0, got {numBytes}")
  else input.seek (input.pos + numBytes.toNat)

/-- A slice is a new input over part of the file, positioned at its beginning. -/
def slice (input : IndexInput) (offset length : Nat) : Result IndexInput :=
  if offset + length ≤ input.bytes.length then .ok ⟨sliceOf input.bytes offset length, 0⟩
  else .error (.illegalArgument "slice() out of bounds")

/-! ## Readers -/

/-- Read a byte. -/
def readByte (input : IndexInput) : Result (UInt8 × IndexInput) :=
  match input.bytes.drop input.pos with
  | b :: _ => .ok (b, input.skip 1)
  | [] => .error (.eof "read past EOF")

/-- Read some bytes. -/
def readBytes (input : IndexInput) (len : Nat) : Result (Bytes × IndexInput) :=
  if input.pos + len ≤ input.bytes.length then
    .ok ((input.bytes.drop input.pos).take len, input.skip len)
  else .error (.eof "read past EOF")

/-- Read two bytes. -/
def readShort (input : IndexInput) : Result (Int × IndexInput) := do
  let (b1, input) ← input.readByte
  let (b2, input) ← input.readByte
  return (asI 16 (leNat [b1, b2]), input)

/-- Read four bytes. -/
def readInt (input : IndexInput) : Result (Int × IndexInput) := do
  let (b1, input) ← input.readByte
  let (b2, input) ← input.readByte
  let (b3, input) ← input.readByte
  let (b4, input) ← input.readByte
  return (asI 32 (leNat [b1, b2, b3, b4]), input)

/-- Read eight bytes. -/
def readLong (input : IndexInput) : Result (Int × IndexInput) := do
  let (b1, input) ← input.readInt
  let (b2, input) ← input.readInt
  return (asI 64 ((asU 64 b2 <<< 32) % 2 ^ 64 ||| asU 64 b1 &&& 0xFFFFFFFF : Nat), input)

/-- Read the groups of a variable-length number of the given width. -/
def readGroups (input : IndexInput) (width : Nat) : Result (Int × IndexInput) :=
  match readV width (input.bytes.drop input.pos) 0 0 0 with
  | some (value, count) => .ok (asI width value, input.skip count)
  | none => .error (.eof "read past EOF")

/-- Read an `int` of groups of seven bits. -/
def readVInt (input : IndexInput) : Result (Int × IndexInput) :=
  input.readGroups 32

/-- Read a `long` of groups of seven bits. -/
def readVLong (input : IndexInput) : Result (Int × IndexInput) :=
  input.readGroups 64

/-! ## Reading back what was written -/

/-- A position within the file. -/
theorem seek_ok {pos : Nat} (h : pos ≤ input.bytes.length) :
    input.seek pos = .ok ⟨input.bytes, pos⟩ := by
  rw [seek, if_pos h]

/-- A slice over what stands in the file holds exactly that. -/
theorem slice_at (h : At input.bytes offset enc) (hne : enc ≠ []) :
    input.slice offset enc.length = .ok ⟨enc, 0⟩ := by
  rw [slice, if_pos (h.le_length hne), h.sliceOf_eq]

/-- A byte is read back. -/
theorem readByte_at {input : IndexInput} {b : UInt8} {rest : Bytes}
    (h : At input.bytes input.pos (b :: rest)) : input.readByte = .ok (b, input.skip 1) := by
  obtain ⟨tail, htail⟩ := h
  rw [readByte, ← htail, List.cons_append]

/-- The tail of what stands at the pointer stands one byte further on. -/
theorem at_skip_one {rest : Bytes} (h : At input.bytes input.pos (b :: rest)) :
    At (input.skip 1).bytes (input.skip 1).pos rest :=
  (at_append_iff (a := [b])).mp h |>.2

/-- Some bytes are read back. -/
theorem readBytes_at (h : At input.bytes input.pos enc) (hpos : input.pos ≤ input.bytes.length) :
    input.readBytes enc.length = .ok (enc, input.skip enc.length) := by
  have hlen : input.pos + enc.length ≤ input.bytes.length := by
    have := List.IsPrefix.length_le h
    rw [List.length_drop] at this
    omega
  obtain ⟨tail, htail⟩ := h
  rw [readBytes, if_pos hlen, ← htail, List.take_left]

/-- The little-endian bytes of an integer decode to its unsigned reading. -/
theorem leNat_intLE (k : Nat) (i : Int) : leNat (intLE k i) = asU (8 * k) i := by
  rw [intLE, leNat_leBytes, show 256 = 2 ^ 8 by norm_num, ← pow_mul, Nat.mod_eq_of_lt (asU_lt _ _)]

/-- Two bytes are read back. -/
theorem readShort_at {input : IndexInput} {i : Int}
    (h : At input.bytes input.pos (intLE 2 i)) :
    input.readShort = .ok (asI 16 i, input.skip 2) := by
  have hval := leNat_intLE 2 i
  rw [intLE_succ 1, intLE_succ 0, intLE_zero] at h hval
  rw [readShort, readByte_at h]
  simp only [ok_bind, readByte_at (at_skip_one h), hval, skip_skip, pure_eq_ok]
  rw [asI_asU 16]

/-- Four bytes are read back. -/
theorem readInt_at {input : IndexInput} {i : Int}
    (h : At input.bytes input.pos (intLE 4 i)) : input.readInt = .ok (asI 32 i, input.skip 4) := by
  have hval := leNat_intLE 4 i
  rw [intLE_succ 3, intLE_succ 2, intLE_succ 1, intLE_succ 0, intLE_zero] at h hval
  have h1 := at_skip_one h
  have h2 := at_skip_one h1
  have h3 := at_skip_one h2
  rw [readInt, readByte_at h]
  simp only [ok_bind, readByte_at h1, readByte_at h2, readByte_at h3, hval, pure_eq_ok]
  rw [asI_asU 32, skip_skip, skip_skip, skip_skip]

/-- The two halves of a long, as the reader joins them. -/
private theorem join_halves (i : Int) :
    (asU 64 (asI 32 (i >>> (32 : Nat))) <<< 32) % 2 ^ 64 ||| asU 64 (asI 32 i) &&& 0xFFFFFFFF =
      asU 64 i := by
  have hlow : asU 64 (asI 32 i) &&& 0xFFFFFFFF = asU 32 i := by
    rw [show 0xFFFFFFFF = 2 ^ 32 - 1 by norm_num, Nat.and_two_pow_sub_one_eq_mod, ← asU_asI 32 i]
    have h64 := asU_cast 64 (asI 32 i)
    have h32 := asU_cast 32 (asI 32 i)
    omega
  have hhigh : (asU 64 (asI 32 (i >>> (32 : Nat))) <<< 32) % 2 ^ 64 =
      asU 32 (i >>> (32 : Nat)) * 2 ^ 32 := by
    have h64 := asU_cast 64 (asI 32 (i >>> (32 : Nat)))
    have h32 := asU_cast 32 (asI 32 (i >>> (32 : Nat)))
    norm_num at h64 h32 ⊢
    omega
  rw [hlow, hhigh, mul_comm, ← Nat.two_pow_add_eq_or_of_lt (asU_lt 32 i)]
  have hshift : i >>> (32 : Nat) = i / 4294967296 := by rw [Int.shiftRight_eq_div_pow]; norm_num
  have hi := asU_cast 64 i
  have hl := asU_cast 32 i
  have hh := asU_cast 32 (i >>> (32 : Nat))
  omega

/-- Eight bytes are read back. -/
theorem readLong_at {input : IndexInput} {i : Int}
    (h : At input.bytes input.pos (intLE 8 i)) : input.readLong = .ok (asI 64 i, input.skip 8) := by
  rw [intLE_add 4 4, at_append_iff, intLE_length] at h
  have hhigh : At (input.skip 4).bytes (input.skip 4).pos (intLE 4 (i >>> (32 : Nat))) := h.2
  rw [readLong, readInt_at h.1]
  simp only [ok_bind, readInt_at hhigh, join_halves, skip_skip, pure_eq_ok]
  rw [asI_asU 64]

/-- An `int` in groups is read back. -/
theorem readVInt_at {i : Int} (h : At input.bytes input.pos (vIntBytes i)) :
    input.readVInt = .ok (asI 32 i, input.skip (vIntBytes i).length) := by
  obtain ⟨tail, htail⟩ := h
  have hlt := asU_lt 32 i
  have hread := readV_vBytes_append 32 tail 4 (asU 32 i) 0 0 0 (by omega) (by omega)
    (by omega) (by omega)
  simp only [zero_add, pow_zero, mul_one] at hread
  rw [readVInt, readGroups, ← htail, vIntBytes, hread]
  simp only [asI_asU]

/-- A `long` in groups is read back. -/
theorem readVLong_at {i : Int} (h : At input.bytes input.pos (vLongBytes i)) :
    input.readVLong = .ok (asI 64 i, input.skip (vLongBytes i).length) := by
  obtain ⟨tail, htail⟩ := h
  have hlt := asU_lt 64 i
  have hread := readV_vBytes_append 64 tail 9 (asU 64 i) 0 0 0 (by omega) (by omega)
    (by omega) (by omega)
  simp only [zero_add, pow_zero, mul_one] at hread
  rw [readVLong, readGroups, ← htail, vLongBytes, hread]
  simp only [asI_asU]

/-! The same for an input that is given by its bytes and its position. -/

variable {bytes : Bytes} {pos : Nat} {i : Int}

theorem readByte_mk (h : At bytes pos [b]) : (mk bytes pos).readByte = .ok (b, ⟨bytes, pos + 1⟩) :=
  readByte_at h

theorem readShort_mk (h : At bytes pos (intLE 2 i)) :
    (mk bytes pos).readShort = .ok (asI 16 i, ⟨bytes, pos + 2⟩) :=
  readShort_at h

theorem readInt_mk (h : At bytes pos (intLE 4 i)) :
    (mk bytes pos).readInt = .ok (asI 32 i, ⟨bytes, pos + 4⟩) :=
  readInt_at h

theorem readLong_mk (h : At bytes pos (intLE 8 i)) :
    (mk bytes pos).readLong = .ok (asI 64 i, ⟨bytes, pos + 8⟩) :=
  readLong_at h

theorem readVInt_mk (h : At bytes pos (vIntBytes i)) :
    (mk bytes pos).readVInt = .ok (asI 32 i, ⟨bytes, pos + (vIntBytes i).length⟩) :=
  readVInt_at h

/-- The groups of a value that is an `int` are also those of a `long`. -/
theorem readVLong_vInt (h : At bytes pos (vIntBytes i)) (hnonneg : 0 ≤ i) (hlt : i < 2 ^ 31) :
    (mk bytes pos).readVLong = .ok (i, ⟨bytes, pos + (vIntBytes i).length⟩) := by
  obtain ⟨tail, htail⟩ := h
  obtain ⟨n, rfl⟩ := Int.eq_ofNat_of_zero_le hnonneg
  have hasU : asU 32 (n : Int) = n := asU_of_lt (by omega)
  have hread := readV_vBytes_append 64 tail 4 n 0 0 0 (by omega) (by omega) (by omega) (by omega)
  simp only [zero_add, pow_zero, mul_one] at hread
  have hasI : asI 64 (n : Int) = n := asI_64 (by omega) (by omega)
  rw [readVLong, readGroups]
  rw [← htail, vIntBytes, hasU, hread]
  simp only [hasI]
  rfl

theorem readVLong_mk (h : At bytes pos (vLongBytes i)) :
    (mk bytes pos).readVLong = .ok (asI 64 i, ⟨bytes, pos + (vLongBytes i).length⟩) :=
  readVLong_at h

end IndexInput

/-! ## Absolute reads -/

/-- An input whose reads carry their own position. -/
structure RandomAccessInput where
  bytes : Bytes
  deriving DecidableEq, Repr

namespace RandomAccessInput

/-- Read a byte at a position. -/
def readByte (input : RandomAccessInput) (pos : Nat) : Result UInt8 := do
  let (value, _) ← (IndexInput.mk input.bytes pos).readByte
  return value

/-- Read two bytes at a position. -/
def readShort (input : RandomAccessInput) (pos : Nat) : Result Int := do
  let (value, _) ← (IndexInput.mk input.bytes pos).readShort
  return value

/-- Read four bytes at a position. -/
def readInt (input : RandomAccessInput) (pos : Nat) : Result Int := do
  let (value, _) ← (IndexInput.mk input.bytes pos).readInt
  return value

/-- Read eight bytes at a position. -/
def readLong (input : RandomAccessInput) (pos : Nat) : Result Int := do
  let (value, _) ← (IndexInput.mk input.bytes pos).readLong
  return value

/-- A byte is read back. -/
theorem readByte_at {input : RandomAccessInput} {pos : Nat} {b : UInt8}
    (h : At input.bytes pos [b]) : input.readByte pos = .ok b := by
  rw [readByte, IndexInput.readByte_mk h]
  rfl

/-- Four bytes are read back. -/
theorem readInt_at {input : RandomAccessInput} {pos : Nat} {i : Int}
    (h : At input.bytes pos (intLE 4 i)) : input.readInt pos = .ok (asI 32 i) := by
  rw [readInt, IndexInput.readInt_mk h]
  rfl

/-- Eight bytes are read back. -/
theorem readLong_at {input : RandomAccessInput} {pos : Nat} {i : Int}
    (h : At input.bytes pos (intLE 8 i)) : input.readLong pos = .ok (asI 64 i) := by
  have hread : (IndexInput.mk input.bytes pos).readLong = _ := IndexInput.readLong_at h
  rw [readLong, hread]
  rfl

end RandomAccessInput

/-- A random-access view of part of the file. -/
def IndexInput.randomAccessSlice (input : IndexInput) (offset length : Nat) :
    Result RandomAccessInput := do
  let slice ← input.slice offset length
  return ⟨slice.bytes⟩

/-- A view of a part that lies in the file begins with what stands there. -/
theorem IndexInput.randomAccessSlice_at (h : At input.bytes offset enc) (length : Nat)
    (hlen : enc.length ≤ length) (hle : offset + length ≤ input.bytes.length) :
    ∃ slice, input.randomAccessSlice offset length = .ok slice ∧ At slice.bytes 0 enc := by
  refine ⟨⟨sliceOf input.bytes offset length⟩, ?_, ?_⟩
  · rw [randomAccessSlice, slice, if_pos hle]
    rfl
  · exact List.prefix_take_iff.mpr ⟨h, hlen⟩

end RLucene.Store
