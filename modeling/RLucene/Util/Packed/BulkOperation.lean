import RLucene.Util.Packed.BulkOperationPackedNCorrect

/-!
# Bulk operations of a width

`of` has the operations of a width: those up to 24 bits decode with their own decoders, the others
with the general one, and all of them encode with the general one. There are two types of blocks and
two of values, so that there are four encoders and four decoders. All of them are about one stream
of bits (`encode_spec` and `decode_spec`), so that any of the decoders returns what any of the
encoders wrote (`decode_encode_stream`).
-/

namespace RLucene.Util.Packed

open Lib Store

/-- The types of blocks. -/
inductive BlockForm where
  | u64
  | u8
  deriving DecidableEq, Repr

namespace BlockForm

/-- A block of the form. -/
abbrev Block : BlockForm → Type
  | .u64 => BitVec 64
  | .u8 => UInt8

/-- The bits of a block. -/
def bits : BlockForm → Nat
  | .u64 => 64
  | .u8 => 8

/-- The numbers of some blocks. -/
def nats : {form : BlockForm} → List form.Block → List Nat
  | .u64, blocks => blocks.map BitVec.toNat
  | .u8, blocks => blocks.map UInt8.toNat

theorem nats_fits : {form : BlockForm} → (blocks : List form.Block) → Fits form.bits (nats blocks)
  | .u64, blocks => Packed.nats_fits blocks
  | .u8, blocks => Unrolled.map_fits UInt8.toNat_lt blocks

/-- Blocks that have the same bits, whatever their types. -/
def SameBits {form form' : BlockForm} (blocks : List form.Block) (blocks' : List form'.Block) :
    Prop :=
  Regroups form.bits form'.bits (nats blocks) (nats blocks')

end BlockForm

/-- The types of values. -/
inductive ValueForm where
  | i64
  | i32
  deriving DecidableEq, Repr

/-- The bits of a value. -/
abbrev ValueForm.bits : ValueForm → Nat
  | .i64 => 64
  | .i32 => 32

namespace BulkOperationPacked

/-! ## The general operations -/

/-- The blocks of a group. -/
def blockCount (op : BulkOperationPacked) : BlockForm → Nat
  | .u64 => op.longBlockCount
  | .u8 => op.byteBlockCount

/-- The values of a group. -/
def valueCount (op : BulkOperationPacked) : BlockForm → Nat
  | .u64 => op.longValueCount
  | .u8 => op.byteValueCount

/-- The general encoder of each form. -/
def encode (op : BulkOperationPacked) : {b : BlockForm} → {v : ValueForm} →
    List (BitVec v.bits) → Nat → List b.Block → Nat → Nat → Result (List b.Block)
  | .u64, .i64 => op.encodeI64ToU64
  | .u64, .i32 => op.encodeI32ToU64
  | .u8, .i64 => op.encodeI64ToU8
  | .u8, .i32 => op.encodeI32ToU8

/-- The general decoder of each form. -/
def decode (op : BulkOperationPacked) : {b : BlockForm} → {v : ValueForm} → List b.Block → Nat →
    List (BitVec v.bits) → Nat → Nat → Result (List (BitVec v.bits))
  | .u64, .i64 => op.decodeU64ToI64
  | .u64, .i32 => op.decodeU64ToI32
  | .u8, .i64 => op.decodeU8ToI64
  | .u8, .i32 => op.decodeU8ToI32

section

variable {w : Nat} {b : BlockForm} {v : ValueForm} {values : List (BitVec v.bits)}
  {blocks : List b.Block}
  {valuesOffset blocksOffset iterations : Nat}

/-- Values of 64 bits to words. -/
theorem encodeI64ToU64_spec (hpos : 0 < w) (hle : w ≤ 64) (iterations : Nat) :
    Recodes Packed.nats Packed.nats w 64 ((new w).longValueCount * iterations)
      ((new w).longBlockCount * iterations) fun values valuesOffset blocks blocksOffset =>
        (new w).encodeI64ToU64 values valuesOffset blocks blocksOffset iterations := by
  intro values valuesOffset blocks blocksOffset hvalues hblocks hfits
  have hop := of_new hpos hle
  dsimp only
  rw [encodeI64ToU64, hop.bitsPerValue]
  split
  next hpairs =>
    obtain ⟨-, hwidth, -, -⟩ := hpairs
    rcases hwidth with rfl | rfl
    · have hcount : (new 16).longValueCount = 4 := by decide
      have hblock : (new 16).longBlockCount = 1 := by decide
      rw [hblock, one_mul] at hblocks ⊢
      exact encodePairs_spec hop (by decide) (fun chunk => encodePair16_regroups) iterations hvalues
        hblocks hfits
    · have hcount : (new 32).longValueCount = 2 := by decide
      have hblock : (new 32).longBlockCount = 1 := by decide
      rw [hblock, one_mul] at hblocks ⊢
      exact encodePairs_spec hop (by decide) (fun chunk => encodePair32_regroups) iterations hvalues
        hblocks hfits
  next => exact encodeLongs_spec hop (fun _ _ => ⟨rfl, fun _ _ => rfl⟩)
            (by rw [mul_comm w, mul_right_comm, hop.longs, mul_assoc]) hvalues hblocks hfits

/-- The sign does not reach the low bits. -/
theorem signExtend_mod (x : BitVec 32) {bits : Nat} (h : bits ≤ 32) :
    (x.signExtend 64).toNat % 2 ^ bits = x.toNat % 2 ^ bits := by
  have hwide : (x.setWidth 64).toNat = x.toNat :=
    setWidth_toNat (x.isLt.trans_le (Nat.pow_le_pow_right (by decide) (by decide)))
  rw [BitVec.toNat_signExtend, hwide]
  split
  · obtain ⟨q, hq⟩ : 2 ^ bits ∣ 2 ^ 64 - 2 ^ 32 :=
      Nat.dvd_sub (Nat.pow_dvd_pow 2 (by omega)) (Nat.pow_dvd_pow 2 h)
    rw [hq, Nat.add_mul_mod_self_left]
  · rfl

/-- Values of 32 bits to words. -/
theorem encodeI32ToU64_spec (hpos : 0 < w) (hle : w ≤ 32) (iterations : Nat) :
    Recodes Packed.nats Packed.nats w 64 ((new w).longValueCount * iterations)
      ((new w).longBlockCount * iterations) fun values valuesOffset blocks blocksOffset =>
        (new w).encodeI32ToU64 values valuesOffset blocks blocksOffset iterations := by
  have hop := of_new hpos (hle.trans (by decide))
  refine encodeLongs_spec hop
    (fun x _ => ⟨?_, fun bits hbits => signExtend_mod x (hbits.trans hle)⟩)
    (by rw [mul_comm w, mul_right_comm, hop.longs, mul_assoc])
  refine (Nat.and_two_pow_sub_one_eq_mod _ 32).trans ?_
  rw [signExtend_mod x le_rfl, Nat.mod_eq_of_lt x.isLt]

/-- Every encoder writes the bits of the values. -/
theorem encode_spec (hpos : 0 < w) (hle : w ≤ 64) (hv : w ≤ v.bits) (iterations : Nat) :
    Recodes Packed.nats BlockForm.nats w b.bits ((new w).valueCount b * iterations)
      ((new w).blockCount b * iterations)
      fun (values : List (BitVec v.bits)) valuesOffset (blocks : List b.Block) blocksOffset =>
        (new w).encode values valuesOffset blocks blocksOffset iterations :=
  match b, v, hv with
  | .u64, .i64, _ => encodeI64ToU64_spec hpos hle iterations
  | .u64, .i32, hv => encodeI32ToU64_spec hpos hv iterations
  | .u8, .i64, hv => encodeValues_spec (of_new hpos hle) hv (by decide) iterations
  | .u8, .i32, hv => encodeValues_spec (of_new hpos hle) hv (by decide) iterations

/-- Every decoder reads the bits of the blocks. -/
theorem decode_spec (hpos : 0 < w) (hle : w ≤ 64) (hv : w ≤ v.bits) (iterations : Nat) :
    Recodes BlockForm.nats Packed.nats b.bits w ((new w).blockCount b * iterations)
      ((new w).valueCount b * iterations)
      fun (blocks : List b.Block) blocksOffset (values : List (BitVec v.bits)) valuesOffset =>
        (new w).decode blocks blocksOffset values valuesOffset iterations := by
  have hop := of_new hpos hle
  match b, v, hv with
  | .u64, .i64, hv => exact decodeLongs_spec hop hv iterations
  | .u64, .i32, hv =>
    have hwide : ¬(new w).bitsPerValue > 32 := by
      exact Nat.not_lt.mpr hv
    simp only [decode, decodeU64ToI32, if_neg hwide]
    exact decodeLongs_spec hop hv iterations
  | .u8, .i64, hv => exact decodeBytes_spec hop hv (by decide) hop.mask iterations
  | .u8, .i32, hv => exact decodeBytes_spec hop hv (by decide) (hop.intMask hv) iterations

end

end BulkOperationPacked

/-! ## The operations of a width -/

/-- The general operations, and the decoders of the width if it has its own. -/
structure BulkOperation where
  base : BulkOperationPacked
  decoders : Option Specialised

namespace BulkOperation

open BulkOperationPacked

/-- The operations of the packed format. -/
def of (bitsPerValue : Int) : Result BulkOperation :=
  if 1 ≤ bitsPerValue ∧ bitsPerValue ≤ 64 then
    .ok ⟨new bitsPerValue.toNat, specialised bitsPerValue.toNat⟩
  else .error (.arrayIndexOutOfBounds s!"Invalid bits_per_value for PACKED: {bitsPerValue}")

/-- A byte is made a word of the width of the values. -/
def widenByte (m : Nat) (byte : UInt8) : BitVec m :=
  byte.toBitVec.setWidth m

/-- The decoder of a width, unrolled if there is one. -/
def decode (op : BulkOperation) {b : BlockForm} {v : ValueForm} (blocks : List b.Block)
    (blocksOffset : Nat) (values : List (BitVec v.bits)) (valuesOffset iterations : Nat) :
    Result (List (BitVec v.bits)) :=
  match op.decoders with
  | none => op.base.decode blocks blocksOffset values valuesOffset iterations
  | some s =>
    match b, v with
    | .u64, .i64 => s.u64ToI64.decode id blocks blocksOffset values valuesOffset iterations
    | .u64, .i32 => s.u64ToI32.decode id blocks blocksOffset values valuesOffset iterations
    | .u8, .i64 => s.u8ToI64.decode (widenByte 64) blocks blocksOffset values
        valuesOffset iterations
    | .u8, .i32 => s.u8ToI32.decode (widenByte 32) blocks blocksOffset values
        valuesOffset iterations

/-- The encoder of a width. -/
def encode (op : BulkOperation) {b : BlockForm} {v : ValueForm} (values : List (BitVec v.bits))
    (valuesOffset : Nat) (blocks : List b.Block) (blocksOffset iterations : Nat) :
    Result (List b.Block) :=
  op.base.encode values valuesOffset blocks blocksOffset iterations

/-- Every width up to 64 has its operations. -/
theorem of_eq {w : Nat} (hpos : 0 < w) (hle : w ≤ 64) : of w = .ok ⟨new w, specialised w⟩ :=
  if_pos ⟨by omega, by omega⟩

theorem widenByte_toNat {m : Nat} (hm : 8 ≤ m) (byte : UInt8) :
    (widenByte m byte).toNat = byte.toNat :=
  setWidth_toNat (byte.toNat_lt.trans_le (Nat.pow_le_pow_right (by decide) hm))

/-- Groups that are those of the general decoder. -/
def SameCounts (w : Nat) (s : Specialised) : Prop :=
  s.u64ToI64.blockCount = (new w).longBlockCount ∧ s.u64ToI64.valueCount = (new w).longValueCount ∧
    s.u64ToI32.blockCount = (new w).longBlockCount ∧ s.u64ToI32.valueCount =
      (new w).longValueCount ∧
    s.u8ToI64.blockCount = (new w).byteBlockCount ∧ s.u8ToI64.valueCount = (new w).byteValueCount ∧
    s.u8ToI32.blockCount = (new w).byteBlockCount ∧ s.u8ToI32.valueCount = (new w).byteValueCount

/-- The unrolled decoders take the same groups. -/
theorem specialised_counts {w : Nat} {s : Specialised} (h : specialised w = some s) :
    SameCounts w s := by
  have hall : ∀ w : Fin 25, ∀ s ∈ specialised w, SameCounts w s := by
    unfold SameCounts
    decide +kernel
  obtain ⟨-, hle, -⟩ := specialised_for h
  exact hall ⟨w, by omega⟩ s h

section

variable {w : Nat} {b : BlockForm} {v : ValueForm} {values : List (BitVec v.bits)}
  {blocks : List b.Block}
  {valuesOffset blocksOffset iterations : Nat}

/-- Every general decoder. -/
theorem decode_spec (hpos : 0 < w) (hle : w ≤ 64) (hv : w ≤ v.bits) (iterations : Nat) :
    Recodes BlockForm.nats Packed.nats b.bits w ((new w).blockCount b * iterations)
      ((new w).valueCount b * iterations)
      fun (blocks : List b.Block) blocksOffset (values : List (BitVec v.bits)) valuesOffset =>
        decode ⟨new w, specialised w⟩ blocks blocksOffset values valuesOffset iterations := by
  cases hcase : specialised w with
  | none => exact BulkOperationPacked.decode_spec hpos hle hv iterations
  | some s =>
    obtain ⟨-, -, h1, h2, h3, h4⟩ := specialised_for hcase
    obtain ⟨c1, c2, c3, c4, c5, c6, c7, c8⟩ := specialised_counts hcase
    have hword (block : BitVec 64) : (id block).toNat = block.toNat := rfl
    match b, v, hv with
    | .u64, .i64, hv =>
      simp only [blockCount, valueCount, ← c1, ← c2]
      exact Unrolled.decode_spec h1 hle hv hword BitVec.isLt iterations
    | .u64, .i32, hv =>
      simp only [blockCount, valueCount, ← c3, ← c4]
      exact Unrolled.decode_spec h3 hle hv hword BitVec.isLt iterations
    | .u8, .i64, hv =>
      simp only [blockCount, valueCount, ← c5, ← c6]
      exact Unrolled.decode_spec h2 hv hv (widenByte_toNat (by decide)) UInt8.toNat_lt iterations
    | .u8, .i32, hv =>
      simp only [blockCount, valueCount, ← c7, ← c8]
      exact Unrolled.decode_spec h4 hv hv (widenByte_toNat (by decide)) UInt8.toNat_lt iterations

/-- A decoder of a width returns what the general one returns. -/
theorem decode_eq_base (hpos : 0 < w) (hle : w ≤ 64) (hv : w ≤ v.bits)
    (hblocks : blocksOffset + (new w).blockCount b * iterations ≤ blocks.length)
    (hvalues : valuesOffset + (new w).valueCount b * iterations ≤ values.length) :
    decode ⟨new w, specialised w⟩ blocks blocksOffset values valuesOffset iterations =
      (new w).decode blocks blocksOffset values valuesOffset iterations := by
  have hfits :=
    BlockForm.nats_fits ((blocks.drop blocksOffset).take ((new w).blockCount b * iterations))
  obtain ⟨out, -, hrun, hregroups⟩ := decode_spec hpos hle hv iterations hblocks hvalues hfits
  obtain ⟨out', -, hrun', hregroups'⟩ :=
    BulkOperationPacked.decode_spec hpos hle hv iterations hblocks hvalues hfits
  dsimp only at hrun hrun'
  rw [hrun, hrun', nats_inj (hregroups.unique hpos hregroups')]

end

/-- The values that an encoder of a width takes can be returned from its blocks, and from any blocks
with the same bits, by each of the decoders; and an unrolled decoder does what the general one does.
The values have to have the bits of the width: no operation on `i32` values is for more than 32
bits. -/
theorem decode_encode_stream {w : Nat} (hpos : 0 < w) (hle : w ≤ 64) :
    ∃ op, of w = .ok op ∧
      (∀ (b : BlockForm) (v : ValueForm), w ≤ v.bits →
        ∀ (values : List (BitVec v.bits)) (valuesOffset : Nat) (blocks : List b.Block)
          (blocksOffset iterations : Nat),
        valuesOffset + op.base.valueCount b * iterations ≤ values.length →
        blocksOffset + op.base.blockCount b * iterations ≤ blocks.length →
        Fits w (nats ((values.drop valuesOffset).take (op.base.valueCount b * iterations))) →
        ∃ out : List b.Block,
          op.encode values valuesOffset blocks blocksOffset iterations =
            .ok (splice blocks blocksOffset out) ∧
          Regroups w b.bits
            (nats ((values.drop valuesOffset).take (op.base.valueCount b * iterations)))
            (BlockForm.nats out) ∧
          ∀ (b' : BlockForm) (v' : ValueForm), w ≤ v'.bits →
            ∀ (blocks' : List b'.Block) (blocksOffset' : Nat) (values' : List (BitVec v'.bits))
              (valuesOffset' iterations' : Nat),
            blocksOffset' + op.base.blockCount b' * iterations' ≤ blocks'.length →
            valuesOffset' + op.base.valueCount b' * iterations' ≤ values'.length →
            BlockForm.SameBits out
              ((blocks'.drop blocksOffset').take (op.base.blockCount b' * iterations')) →
            ∃ decoded : List (BitVec v'.bits),
              op.decode blocks' blocksOffset' values' valuesOffset' iterations' =
                .ok (splice values' valuesOffset' decoded) ∧
              nats decoded =
                nats ((values.drop valuesOffset).take (op.base.valueCount b * iterations))) ∧
      ∀ (b : BlockForm) (v : ValueForm), w ≤ v.bits →
        ∀ (blocks : List b.Block) (blocksOffset : Nat) (values : List (BitVec v.bits))
          (valuesOffset iterations : Nat),
        blocksOffset + op.base.blockCount b * iterations ≤ blocks.length →
        valuesOffset + op.base.valueCount b * iterations ≤ values.length →
        op.decode blocks blocksOffset values valuesOffset iterations =
          op.base.decode blocks blocksOffset values valuesOffset iterations := by
  refine ⟨_, of_eq hpos hle, ?_, ?_⟩
  · intro b v hv values valuesOffset blocks blocksOffset iterations hvalues hblocks hfits
    obtain ⟨out, -, hrun, hregroups⟩ :=
      BulkOperationPacked.encode_spec hpos hle hv _ hvalues hblocks
      hfits
    refine ⟨out, hrun, hregroups, ?_⟩
    intro b' v' hv' blocks' blocksOffset' values' valuesOffset' iterations' hblocks' hvalues' hsame
    obtain ⟨decoded, -, hrun', hregroups'⟩ := decode_spec hpos hle hv' _ hblocks' hvalues'
      (BlockForm.nats_fits _)
    exact ⟨decoded, hrun', (hregroups.trans (hsame.trans hregroups')).unique hpos
      ⟨rfl, hfits, hfits, rfl⟩⟩
  · intro b v hv blocks blocksOffset values valuesOffset iterations hblocks hvalues
    exact decode_eq_base hpos hle hv hblocks hvalues

/-- Eight values of five bits as bytes, which an unrolled decoder returns. -/
theorem decode_encode_stream_five : ∃ op, of 5 = .ok op ∧ ∃ out : List UInt8,
    op.encode (b := .u8) (v := .i64) [1, 2, 3, 4, 5, 6, 7, 31] 0 (List.replicate 5 0) 0 1 =
      .ok (splice (List.replicate 5 0) 0 out) ∧
    Regroups 5 8 [1, 2, 3, 4, 5, 6, 7, 31] (byteNats out) := by
  obtain ⟨op, hop, hencode, -⟩ := decode_encode_stream (w := 5) (by decide) (by decide)
  obtain rfl : ⟨new 5, specialised 5⟩ = op :=
    Except.ok.inj ((of_eq (by decide) (by decide)).symm.trans hop)
  obtain ⟨out, hrun, hregroups, -⟩ := hencode .u8 .i64 (by decide) [1, 2, 3, 4, 5, 6, 7, 31] 0
    (List.replicate 5 0) 0 1 (by decide) (by decide) (by unfold Fits; decide)
  exact ⟨_, hop, out, hrun, hregroups⟩

/-- Forty bits of an `i32` value: a shift by 32 bits is none. -/
theorem encode_i32_wide : ∃ op, of 40 = .ok op ∧
    op.encode (b := .u8) (v := .i32) [1] 0 [0, 0, 0, 0, 0] 0 1 = .ok [1, 0, 0, 0, 1] ∧
    op.encode (b := .u8) (v := .i64) [1] 0 [0, 0, 0, 0, 0] 0 1 = .ok [0, 0, 0, 0, 1] :=
  ⟨_, of_eq (by decide) (by decide), by decide +kernel, by decide +kernel⟩

end BulkOperation

end RLucene.Util.Packed
