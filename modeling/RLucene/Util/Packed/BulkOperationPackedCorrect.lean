import RLucene.Lib.Loops
import RLucene.Util.Packed.BulkOperationPacked

/-!
# Bulk operations keep the bits

Every operation regroups the bits it reads: values to blocks, or blocks to values. The operations
that take one digit after the other are runs of `Regrouping`; the one that reads words finds each
value at its place.
-/

namespace RLucene.Util.Packed

open Nat List Lib Store
open BitVec (toNat_or toNat_and toNat_ushiftRight)

/-- The numbers of some words. -/
def nats {m : Nat} (words : List (BitVec m)) : List Nat :=
  words.map BitVec.toNat

/-- The numbers of some bytes. -/
def byteNats (bytes : Bytes) : List Nat :=
  bytes.map UInt8.toNat

section

variable {m : Nat}

@[simp] theorem nats_length (words : List (BitVec m)) : (nats words).length = words.length :=
  length_map _

@[simp] theorem byteNats_length (bytes : Bytes) : (byteNats bytes).length = bytes.length :=
  length_map _

theorem nats_append (a b : List (BitVec m)) : nats (a ++ b) = nats a ++ nats b :=
  map_append

theorem nats_concat (a : List (BitVec m)) (x : BitVec m) : nats (a ++ [x]) = nats a ++ [x.toNat] :=
  map_append

theorem byteNats_concat (a : Bytes) (x : UInt8) : byteNats (a ++ [x]) = byteNats a ++ [x.toNat] :=
  map_append

theorem add_length_concat {α : Type} (n : Nat) (l : List α) (x : α) :
    n + (l ++ [x]).length = n + l.length + 1 := by
  rw [length_append, length_singleton, Nat.add_assoc]

theorem nats_fits (words : List (BitVec m)) : Fits m (nats words) := by
  intro v hv
  obtain ⟨word, -, rfl⟩ := mem_map.mp hv
  exact word.isLt

theorem nats_inj {a b : List (BitVec m)} (h : nats a = nats b) : a = b :=
  map_injective_iff.mpr (fun _ _ => BitVec.eq_of_toNat_eq) h

/-- Bits that lie within one word, of which the low `k` bits are in use. -/
theorem bitsOf_narrow {k : Nat} {words : List (BitVec m)} (h : Fits k (nats words))
    {q pos len : Nat}
    (hq : q < words.length) (hlo : k * q ≤ pos) (hhi : pos + len ≤ k * (q + 1)) :
    bitsOf (k * words.length) (stream k (nats words)) pos len =
      words[q].toNat / 2 ^ (k * (q + 1) - pos - len) % 2 ^ len := by
  have hplace := @bitsOf_digit k (nats words) h q pos len (by rwa [nats_length]) hlo hhi
  simpa only [nats, getElem_map, length_map] using hplace

/-- Bits within one word. -/
theorem bitsOf_word (words : List (BitVec m)) {q pos len : Nat} (hq : q < words.length)
    (hlo : m * q ≤ pos) (hhi : pos + len ≤ m * (q + 1)) :
    bitsOf (m * words.length) (stream m (nats words)) pos len =
      words[q].toNat / 2 ^ (m * (q + 1) - pos - len) % 2 ^ len :=
  bitsOf_narrow (nats_fits words) hq hlo hhi

/-- Lists that are regrouped piece by piece. -/
theorem flatMap_regroups {α : Type} {k w : Nat} {num : α → Nat} {f : List α → List (BitVec m)}
    {parts : List (List α)} (h : ∀ part ∈ parts, Regroups k w (part.map num) (nats (f part))) :
    Regroups k w (parts.flatten.map num) (nats (parts.flatMap f)) := by
  rw [map_flatten, nats, map_flatMap]
  exact Regroups.flatMap h

end

/-! ## Words as numbers -/

section

variable {m : Nat} {x : BitVec m} {n : Nat}

theorem wrappingShr_toNat (h : n < m) : (wrappingShr x n).toNat = x.toNat / 2 ^ n := by
  rw [wrappingShr, mod_eq_of_lt h, toNat_ushiftRight, shiftRight_eq_div_pow]

theorem shiftLeft_toNat (h : x.toNat * 2 ^ n < 2 ^ m) : (x <<< n).toNat = x.toNat * 2 ^ n := by
  rw [BitVec.toNat_shiftLeft, shiftLeft_eq, mod_eq_of_lt h]

theorem wrappingShl_of_lt (h : n < m) : wrappingShl x n = x <<< n := by
  rw [wrappingShl, mod_eq_of_lt h]

/-- The low bits that are shifted by less than the width; if there are none, by whatever. -/
theorem lowBits_shiftLeft {bits : Nat} (hbits : bits < m) (h : bits + n ≤ m) :
    (wrappingShl (x &&& ((1 : BitVec m) <<< bits - 1)) n).toNat = x.toNat % 2 ^ bits * 2 ^ n := by
  have hmask : (x &&& ((1 : BitVec m) <<< bits - 1)).toNat = x.toNat % 2 ^ bits := by
    have hone : ((1 : BitVec m) <<< bits - 1).toNat = 2 ^ bits - 1 := by
      have hpow : 2 ^ bits < 2 ^ m := Nat.pow_lt_pow_right (by decide) hbits
      have hpos : 0 < 2 ^ bits := Nat.two_pow_pos bits
      have hm : 1 < 2 ^ m := by omega
      have hshift : ((1 : BitVec m) <<< bits).toNat = 2 ^ bits := by
        rw [BitVec.toNat_shiftLeft, shiftLeft_eq]
        change 1 % 2 ^ m * 2 ^ bits % 2 ^ m = 2 ^ bits
        rw [mod_eq_of_lt hm, Nat.one_mul, mod_eq_of_lt hpow]
      have hone' : ((1 : BitVec m)).toNat = 1 := by
        exact mod_eq_of_lt hm
      rw [BitVec.toNat_sub_of_le (by rw [BitVec.le_def, hshift, hone']; exact hpos), hshift, hone']
    rw [toNat_and, hone, and_two_pow_sub_one_eq_mod]
  rw [wrappingShl]
  rcases lt_or_ge n m with hn | hn
  · rw [mod_eq_of_lt hn, shiftLeft_toNat, hmask]
    rw [hmask]
    calc x.toNat % 2 ^ bits * 2 ^ n < 2 ^ bits * 2 ^ n :=
          Nat.mul_lt_mul_of_pos_right (mod_lt _ (Nat.two_pow_pos _)) (Nat.two_pow_pos _)
      _ = 2 ^ (bits + n) := (pow_add _ _ _).symm
      _ ≤ 2 ^ m := Nat.pow_le_pow_right (by decide) h
  · obtain rfl : bits = 0 := by omega
    simp [mod_one]

theorem setWidth_toNat {k : Nat} (h : x.toNat < 2 ^ k) : (x.setWidth k).toNat = x.toNat := by
  rw [BitVec.toNat_setWidth, mod_eq_of_lt h]

end

/-! ## Loops over digits -/

/-- A run that takes `n` digits of `a` bits from its source and leaves their bits in its
destination, as `count` digits of `b` bits. -/
def Recodes {α β : Type} (nums : List α → List Nat) (nums' : List β → List Nat) (a b n count : Nat)
    (run : List α → Nat → List β → Nat → Result (List β)) : Prop :=
  ∀ ⦃src offset dst dstOffset⦄, offset + n ≤ src.length → dstOffset + count ≤ dst.length →
    Fits a (nums ((src.drop offset).take n)) → ∃ out, out.length = count ∧
      run src offset dst dstOffset = .ok (splice dst dstOffset out) ∧
      Regroups a b (nums ((src.drop offset).take n)) (nums' out)

/-- A loop that takes one digit after the other of a slice, whose steps regroup it. -/
theorem loop_regroups {α β ρ : Type} {a b p n count offset dstOffset : Nat} {src : List α}
    {dst : List β} {num : α → Nat} {num' : β → Nat} {bits : Nat → ρ}
    {step : BitVec p × ρ × List β × Nat → α → Result (BitVec p × ρ × List β × Nat)}
    (hstep : ∀ x ∈ (src.drop offset).take n,
      ∀ (taken : List Nat) (out : List β) (next : BitVec p) (left : Nat),
      Regrouping a b taken (out.map num') next.toNat left → a * (taken.length + 1) ≤ b * count →
      ∃ (next' : BitVec p) (left' : Nat) (out' : List β),
      Regrouping a b (taken ++ [num x]) (out'.map num') next'.toNat left' ∧
      step (next, bits left, splice dst dstOffset out, dstOffset + out.length) x =
      .ok (next', bits left', splice dst dstOffset out', dstOffset + out'.length)) (hb : 0 < b)
    (hsrc : offset + n ≤ src.length) (htotal : a * n = b * count) :
    ∃ (out : List β) (s : BitVec p × ρ × List β × Nat), out.length = count ∧
      (List.range n).foldlM (fun s k => do step s (← getAt src (offset + k)))
        ((0 : BitVec p), bits b, dst, dstOffset) = .ok s ∧
      s.2.2.1 = splice dst dstOffset out ∧
      Regroups a b (((src.drop offset).take n).map num) (out.map num') := by
  obtain ⟨input, hinput⟩ : ∃ input, input = (src.drop offset).take n := ⟨_, rfl⟩
  have hlen : input.length = n := by
    rw [hinput, length_take, length_drop]
    omega
  rw [← hinput] at hstep ⊢
  obtain ⟨state, hrun, next, left, out, hall, rfl⟩ :=
    @foldlM_range LuceneError _ (fun s k => do step s (← getAt src (offset + k)))
    (fun k state => ∃ (next : BitVec p) (left : Nat) (out : List β),
      Regrouping a b ((input.take k).map num) (out.map num') next.toNat left ∧
      state = (next, bits left, splice dst dstOffset out, dstOffset + out.length))
    n (fun k state hk hstate => by
      obtain ⟨next, left, out, hregroup, rfl⟩ := hstate
      have hinputAt : src[offset + k] = input[k] := by
        simp only [hinput, getElem_take, getElem_drop]
      have hroom : a * (((input.take k).map num).length + 1) ≤ b * count := by
        rw [length_map, length_take_of_le (by omega), ← htotal]
        exact Nat.mul_le_mul_left a hk
      obtain ⟨next', left', out', hregroup', hnext⟩ :=
        hstep input[k] (getElem_mem _) _ out next left hregroup hroom
      refine ⟨_, ?_, next', left', out', ?_, rfl⟩
      · rw [getAt_eq (by omega), ok_bind, hinputAt]
        exact hnext
      · rwa [← take_append_getElem (show k < input.length by omega), map_append])
    ((0 : BitVec p), bits b, dst, dstOffset)
    ⟨0, b, [], by simpa using regrouping_start a hb, by rw [splice_nil]; rfl⟩
  rw [take_of_length_le hlen.le] at hall
  obtain ⟨hout, -, -, hregroups⟩ := hall.regroups (m := count) (by rwa [length_map, hlen])
  exact ⟨out, _, by simpa using hout, hrun, rfl, hregroups⟩

namespace BulkOperationPacked

/-! ## Counts and masks -/

/-- What the operations of one width have. -/
structure Of (op : BulkOperationPacked) (w : Nat) : Prop where
  pos : 0 < w
  le : w ≤ 64
  bitsPerValue : op.bitsPerValue = w
  longs : op.longValueCount * w = 64 * op.longBlockCount
  longBlocks : 0 < op.longBlockCount
  bytes : op.byteValueCount * w = 8 * op.byteBlockCount
  byteBlocks : 0 < op.byteBlockCount
  mask : op.mask.toNat = 2 ^ w - 1
  intMask : w ≤ 32 → op.intMask.toNat = 2 ^ w - 1

/-- The operations of a width. -/
theorem of_new {w : Nat} (hpos : 0 < w) (hle : w ≤ 64) : Of (new w) w := by
  have hall : ∀ w : Fin 65, 0 < w.val → (new w).longValueCount * w = 64 * (new w).longBlockCount ∧
      0 < (new w).longBlockCount ∧ (new w).byteValueCount * w = 8 * (new w).byteBlockCount ∧
      0 < (new w).byteBlockCount ∧ (new w).mask.toNat = 2 ^ w.val - 1 ∧
      (w.val ≤ 32 → (new w).intMask.toNat = 2 ^ w.val - 1) := by
    decide +kernel
  obtain ⟨hlongs, hblocks, hbytes, hbyteBlocks, hmask, hintMask⟩ := hall ⟨w, by omega⟩ hpos
  exact ⟨hpos, hle, rfl, hlongs, hblocks, hbytes, hbyteBlocks, hmask, hintMask⟩

/-! ## Words to values -/

section

variable {op : BulkOperationPacked} {w m : Nat} {blocks : List (BitVec 64)}
  {values : List (BitVec m)} {blocksOffset valuesOffset q : Nat} {bitsLeft : Nat}

/-- A value within one block. -/
theorem decodeLong_within (hop : Of op w) (hbits : w ≤ bitsLeft) (hm : w ≤ m)
    (hq : q < blocks.length) {out : List (BitVec m)}
    (hout : valuesOffset + out.length < values.length) : ∃ value :
      BitVec m, value.toNat = blocks[q].toNat / 2 ^ (bitsLeft - w) % 2 ^ w ∧
        decodeLong op blocks ((bitsLeft : Int), q, splice values valuesOffset out,
          valuesOffset + out.length) =
        .ok (((bitsLeft - w : Nat) : Int), q, splice values valuesOffset (out ++ [value]),
          valuesOffset + (out ++ [value]).length) := by
  have hnat : (blocks[q] >>> (bitsLeft - w) &&& op.mask).toNat =
      blocks[q].toNat / 2 ^ (bitsLeft - w) % 2 ^ w := by
    rw [toNat_and, hop.mask, and_two_pow_sub_one_eq_mod, toNat_ushiftRight, shiftRight_eq_div_pow]
  refine ⟨(blocks[q] >>> (bitsLeft - w) &&& op.mask).setWidth m, ?_, ?_⟩
  · rw [setWidth_toNat, hnat]
    rw [hnat]
    exact (mod_lt _ (Nat.two_pow_pos w)).trans_le (Nat.pow_le_pow_right (by decide) hm)
  · have hsub : (bitsLeft : Int) - (w : Int) = ((bitsLeft - w : Nat) : Int) := by omega
    rw [decodeLong, hop.bitsPerValue]
    rw [hsub, if_neg (by omega), getAt_eq hq, ok_bind, Int.toNat_natCast,
      setAt_splice hout, ok_bind, add_length_concat]
    rfl

/-- A value that begins in one block and ends in the next. -/
theorem decodeLong_across (hop : Of op w) (hbits : bitsLeft < w) (hm : w ≤ m)
    (hq : q + 1 < blocks.length) {out : List (BitVec m)}
    (hout : valuesOffset + out.length < values.length) :
    ∃ value : BitVec m, value.toNat = blocks[q].toNat % 2 ^ bitsLeft * 2 ^ (w - bitsLeft) +
        blocks[q + 1].toNat / 2 ^ (64 - (w - bitsLeft)) ∧
      decodeLong op blocks ((bitsLeft : Int), q, splice values valuesOffset out,
          valuesOffset + out.length) =
        .ok (((64 - (w - bitsLeft) : Nat) : Int), q + 1,
          splice values valuesOffset (out ++ [value]), valuesOffset + (out ++ [value]).length) := by
  have hle := hop.le
  have hlow : (wrappingShl (blocks[q] &&& (wrappingShl 1 bitsLeft - 1)) (w - bitsLeft)).toNat =
      blocks[q].toNat % 2 ^ bitsLeft * 2 ^ (w - bitsLeft) := by
    rw [wrappingShl_of_lt (n := bitsLeft) (by omega)]
    exact lowBits_shiftLeft (by omega) (by omega)
  have hhighLt := div_two_pow_lt blocks[q + 1].isLt (show w - bitsLeft ≤ 64 by omega)
  have hnat : (wrappingShl (blocks[q] &&& (wrappingShl 1 bitsLeft - 1)) (w - bitsLeft) |||
      wrappingShr blocks[q + 1] (64 - (w - bitsLeft))).toNat =
      blocks[q].toNat % 2 ^ bitsLeft * 2 ^ (w - bitsLeft) +
        blocks[q + 1].toNat / 2 ^ (64 - (w - bitsLeft)) := by
    rw [toNat_or, hlow, wrappingShr_toNat (by omega), mul_comm, ← two_pow_add_eq_or_of_lt hhighLt]
  have hlt := mul_add_two_pow_lt (mod_lt blocks[q].toNat (Nat.two_pow_pos bitsLeft)) hhighLt
  rw [Nat.add_sub_cancel' hbits.le] at hlt
  refine ⟨(wrappingShl (blocks[q] &&& (wrappingShl 1 bitsLeft - 1)) (w - bitsLeft) |||
    wrappingShr blocks[q + 1] (64 - (w - bitsLeft))).setWidth m, ?_, ?_⟩
  · rw [setWidth_toNat, hnat]
    rw [hnat]
    exact hlt.trans_le (Nat.pow_le_pow_right (by decide) hm)
  · have hneg : (bitsLeft : Int) - (w : Int) = -((w - bitsLeft : Nat) : Int) := by omega
    have hlen1 : ((w : Int) + -((w - bitsLeft : Nat) : Int)).toNat = bitsLeft := by omega
    have hlen2 : (- -((w - bitsLeft : Nat) : Int)).toNat = w - bitsLeft := by omega
    have hlen3 : ((64 : Int) + -((w - bitsLeft : Nat) : Int)).toNat =
      64 - (w - bitsLeft) := by omega
    have hnew : -((w - bitsLeft : Nat) : Int) + 64 = ((64 - (w - bitsLeft) : Nat) : Int) := by omega
    rw [decodeLong, hop.bitsPerValue]
    dsimp only
    rw [hneg, if_pos (by omega), getAt_eq (by omega), ok_bind, getAt_eq hq, ok_bind, hlen1, hlen2,
      hlen3, hnew, setAt_splice hout, ok_bind, add_length_concat]
    rfl

/-- After `k` values of `w` bits: they are at their places, and the next one begins in word `q`, of
which `bitsLeft` bits are left. -/
structure Decoding (w : Nat) (input : List (BitVec 64)) (k q bitsLeft : Nat)
    (out : List (BitVec m)) : Prop where
  bitsLeft_le : bitsLeft ≤ 64
  place : w * k + bitsLeft = 64 * (q + 1)
  length_eq : out.length = k
  values : ∀ i (hi : i < out.length), out[i].toNat =
    bitsOf (64 * input.length) (stream 64 (nats input)) (w * i) w

section

variable {input : List (BitVec 64)} {k : Nat} {out : List (BitVec m)}
  (h : Decoding w input k q bitsLeft out)

include h

/-- One more value at its place. -/
theorem Decoding.concat {value : BitVec m} {q' bitsLeft' : Nat}
    (hvalue : value.toNat = bitsOf (64 * input.length) (stream 64 (nats input)) (w * k) w)
    (hle : bitsLeft' ≤ 64) (hplace : w * (k + 1) + bitsLeft' = 64 * (q' + 1)) :
    Decoding w input (k + 1) q' bitsLeft' (out ++ [value]) := by
  have hlen := h.length_eq
  refine ⟨hle, hplace, by simp [hlen], fun i hi => ?_⟩
  rw [length_append, length_singleton] at hi
  rw [getElem_append]
  split
  next hlt => exact h.values i hlt
  next hge =>
    obtain rfl : i = k := by omega
    simpa using hvalue

/-- The bits of a value that goes on in the next word. -/
theorem Decoding.bitsOf_across (hw : w ≤ 64) (hlt : bitsLeft < w) (hq : q + 1 < input.length) :
    bitsOf (64 * input.length) (stream 64 (nats input)) (w * k) w =
      input[q].toNat % 2 ^ bitsLeft * 2 ^ (w - bitsLeft) +
        input[q + 1].toNat / 2 ^ (64 - (w - bitsLeft)) := by
  have hplace := h.place
  have hfirst := @bitsOf_word 64 input q (w * k) bitsLeft (by omega) (by omega) (by omega)
  have hsecond := @bitsOf_word 64 input (q + 1) (w * k + bitsLeft) (w - bitsLeft) hq (by omega)
    (by omega)
  have hwhole := @bitsOf_append (64 * input.length) (w * k) bitsLeft (w - bitsLeft)
    (stream 64 (nats input)) (by omega)
  have hlow : 64 * (q + 1) - w * k - bitsLeft = 0 := by omega
  have hhigh : 64 * (q + 1 + 1) - (w * k + bitsLeft) - (w - bitsLeft) = 64 - (w - bitsLeft) := by
    omega
  have hsmall := div_two_pow_lt input[q + 1].isLt (show w - bitsLeft ≤ 64 by omega)
  rw [hlow, pow_zero, Nat.div_one] at hfirst
  rw [hhigh, mod_eq_of_lt hsmall] at hsecond
  rw [Nat.add_sub_cancel' hlt.le, hfirst, hsecond] at hwhole
  exact hwhole.symm

/-- The bits of a value within its word. -/
theorem Decoding.bitsOf_within (hge : w ≤ bitsLeft) (hq : q < input.length) :
    bitsOf (64 * input.length) (stream 64 (nats input)) (w * k) w =
      input[q].toNat / 2 ^ (bitsLeft - w) % 2 ^ w := by
  have hle := h.bitsLeft_le
  have hplace := h.place
  have hexp : 64 * (q + 1) - w * k - w = bitsLeft - w := by omega
  rw [← hexp]
  exact bitsOf_word input hq (by omega) (by omega)

/-- One value. -/
theorem Decoding.step (hop : Of op w) (hm : w ≤ m) (hroom : w * k + w ≤ 64 * input.length)
    (hblocks : blocksOffset + input.length ≤ blocks.length)
    (hinput : ∀ q (hq : q < input.length), blocks[blocksOffset + q] = input[q])
    (hout : valuesOffset + k < values.length) :
    ∃ (q' bitsLeft' : Nat) (out' : List (BitVec m)), decodeLong op blocks ((bitsLeft : Int),
        blocksOffset + q, splice values valuesOffset out, valuesOffset + out.length) =
      .ok ((bitsLeft' : Int), blocksOffset + q', splice values valuesOffset out',
        valuesOffset + out'.length) ∧ Decoding w input (k + 1) q' bitsLeft' out' := by
  have hle := h.bitsLeft_le
  have hplace := h.place
  have hw := hop.le
  have hpos := hop.pos
  have hlen := h.length_eq
  rcases lt_or_ge bitsLeft w with hlt | hge
  · have hq : q + 1 < input.length := by omega
    obtain ⟨value, hvalue, hstep⟩ := @decodeLong_across op w m blocks values valuesOffset
      (blocksOffset + q) bitsLeft hop hlt hm (by omega) out (by omega)
    rw [hinput q (by omega)] at hvalue
    refine ⟨q + 1, 64 - (w - bitsLeft), out ++ [value], hstep,
      h.concat (hvalue.trans ?_) (by omega) (by rw [mul_succ w]; omega)⟩
    rw [h.bitsOf_across hw hlt hq, ← hinput (q + 1) hq]
    rfl
  · have hq : q < input.length := by omega
    obtain ⟨value, hvalue, hstep⟩ := @decodeLong_within op w m blocks values valuesOffset
      (blocksOffset + q) bitsLeft hop hge hm (by omega) out (by omega)
    rw [hinput q hq] at hvalue
    exact ⟨q, bitsLeft - w, out ++ [value], hstep,
      h.concat (hvalue.trans (h.bitsOf_within hge hq).symm) (by omega) (by rw [mul_succ w]; omega)⟩

end

/-- Words are decoded. -/
theorem decodeLongs_spec (hop : Of op w) (hm : w ≤ m) (iterations : Nat) :
    Recodes nats nats 64 w (op.longBlockCount * iterations) (op.longValueCount * iterations)
      fun blocks blocksOffset (values : List (BitVec m)) valuesOffset =>
        decodeLongs op blocks blocksOffset values valuesOffset iterations := by
  intro blocks blocksOffset values valuesOffset hblocks hvalues _
  have hpos := hop.pos
  obtain ⟨input, hinput⟩ : ∃ input, input =
      (blocks.drop blocksOffset).take (op.longBlockCount * iterations) := ⟨_, rfl⟩
  have hlen : input.length = op.longBlockCount * iterations := by
    rw [hinput, length_take, length_drop]
    omega
  have hinputAt (q : Nat) (hq : q < input.length) : blocks[blocksOffset + q] = input[q] := by
    simp only [hinput, getElem_take, getElem_drop]
  have htotal : 64 * input.length = w * (op.longValueCount * iterations) := by
    rw [hlen, ← mul_assoc, ← hop.longs]
    ring
  rw [← hinput]
  obtain ⟨state, hrun, q, bitsLeft, out, hall, rfl⟩ :=
    @foldlM_range LuceneError (Int × Nat × List (BitVec m) × Nat)
    (fun state _ => decodeLong op blocks state)
    (fun k state => ∃ q bitsLeft out, Decoding w input k q bitsLeft out ∧
      state = ((bitsLeft : Int), blocksOffset + q, splice values valuesOffset out,
        valuesOffset + out.length))
    (op.longValueCount * iterations) (fun k state hk hstate => by
      obtain ⟨q, bitsLeft, out, h, rfl⟩ := hstate
      have hroom : w * k + w ≤ 64 * input.length := by
        rw [htotal, ← mul_succ]
        exact Nat.mul_le_mul_left w hk
      obtain ⟨q', bitsLeft', out', hstep, h'⟩ :=
        h.step hop hm hroom (by omega) hinputAt (show valuesOffset + k < values.length by omega)
      exact ⟨_, hstep, q', bitsLeft', out', h', rfl⟩)
    ((64 : Int), blocksOffset, values, valuesOffset)
    ⟨0, 64, [], ⟨le_rfl, by omega, rfl, by simp⟩, by rw [splice_nil]; rfl⟩
  have hcount := hall.length_eq
  refine ⟨out, hcount, ?_, regroups_of_bitsOf (nats_fits input) (by simpa [hcount] using htotal) ?_⟩
  · simp only [decodeLongs, hrun, ok_bind]
    rfl
  · intro i hi
    rw [nats_length] at hi ⊢
    rw [← hall.values i hi]
    simp [nats]

end

/-! ## Values to words -/

section

variable {op : BulkOperationPacked} {w m : Nat} {blocks : List (BitVec 64)}
  {blocksOffset count : Nat}
  {taken : List Nat} {out : List (BitVec 64)} {next value rest : BitVec 64} {left : Nat}

/-- One value. The bits for the next block may come from another word with the same low bits. -/
theorem encodeLong_spec (hop : Of op w)
    (h : Regrouping w 64 taken (nats out) next.toNat left) (hvalue : value.toNat < 2 ^ w)
    (hrest : ∀ bits ≤ w, rest.toNat % 2 ^ bits = value.toNat % 2 ^ bits)
    (hroom : w * (taken.length + 1) ≤ 64 * count) (hblocks : blocksOffset + count ≤ blocks.length) :
    ∃ (next' : BitVec 64) (left' : Nat) (out' : List (BitVec 64)),
      Regrouping w 64 (taken ++ [value.toNat]) (nats out') next'.toNat left' ∧
      encodeLong op value rest (next, (left : Int), splice blocks blocksOffset out,
          blocksOffset + out.length) =
        .ok (next', (left' : Int), splice blocks blocksOffset out',
          blocksOffset + out'.length) := by
  have hle := hop.le
  have hleft := h.left_le
  have hleftPos := h.left_pos
  rcases lt_or_ge w left with hkeep | hflush
  · -- The value does not fill the block.
    have hfits := mul_two_pow_lt hvalue hkeep.le
    have hnat : (next ||| value <<< (left - w)).toNat = next.toNat + value.toNat * 2 ^
      (left - w) := by
      rw [toNat_or, shiftLeft_toNat (hfits.trans_le (Nat.pow_le_pow_right (by decide) hleft)),
        h.or_eq_add hfits]
    refine ⟨next ||| value <<< (left - w), left - w, out, ?_, ?_⟩
    · rw [hnat]
      exact h.keep hvalue hkeep
    · have hsub : (left : Int) - (w : Int) = ((left - w : Nat) : Int) := by omega
      rw [encodeLong, hop.bitsPerValue]
      rw [hsub, if_neg (by omega), if_pos (by omega), Int.toNat_natCast]
      rfl
  · obtain ⟨hlt, hflushing⟩ := h.flush hvalue hflush
    have hout : out.length < count := by
      simpa using hflushing.length_lt (by decide) (by simpa using hroom)
    have hrestoring := hflushing.rest (show w - left < 64 by omega)
    rcases Nat.eq_or_lt_of_le hflush with heq | hmore
    · -- It fills the block to the end.
      subst heq
      have hnat : (next ||| value).toNat = next.toNat + value.toNat / 2 ^ (left - left) := by
        rw [toNat_or, Nat.sub_self, pow_zero, Nat.div_one, h.or_eq_add hvalue]
      refine ⟨0, 64, out ++ [next ||| value], ?_, ?_⟩
      · rw [nats_concat, hnat]
        simpa [mod_one] using hrestoring
      · rw [encodeLong, hop.bitsPerValue]
        rw [sub_self, if_pos rfl, setAt_splice (by omega), ok_bind, add_length_concat]
        rfl
    · -- It goes on in the next block.
      have hnat : (next ||| wrappingShr value (w - left)).toNat =
          next.toNat + value.toNat / 2 ^ (w - left) := by
        rw [toNat_or, wrappingShr_toNat (by omega), h.or_eq_add (div_two_pow_lt hvalue hflush)]
      have hnext : (wrappingShl (rest &&& (wrappingShl 1 (w - left) - 1)) (64 - (w - left))).toNat =
          value.toNat % 2 ^ (w - left) * 2 ^ (64 - (w - left)) := by
        rw [wrappingShl_of_lt (n := w - left) (by omega), lowBits_shiftLeft (by omega) (by omega),
          hrest _ (by omega)]
      refine ⟨wrappingShl (rest &&& (wrappingShl 1 (w - left) - 1)) (64 - (w - left)),
        64 - (w - left), out ++ [next ||| wrappingShr value (w - left)], ?_, ?_⟩
      · rw [nats_concat, hnext, hnat]
        exact hrestoring
      · have hneg : (left : Int) - (w : Int) = -((w - left : Nat) : Int) := by omega
        have hbits : (- -((w - left : Nat) : Int)).toNat = w - left := by omega
        have hshift : ((64 : Int) + -((w - left : Nat) : Int)).toNat = 64 - (w - left) := by omega
        have hnew : -((w - left : Nat) : Int) + 64 = ((64 - (w - left) : Nat) : Int) := by omega
        rw [encodeLong, hop.bitsPerValue]
        rw [hneg, if_neg (by omega), if_neg (by omega), hbits, hshift, hnew,
          setAt_splice (by omega), ok_bind, add_length_concat]
        rfl

/-- Values are encoded to words. -/
theorem encodeLongs_spec (hop : Of op w) {wide : BitVec m → BitVec 64 × BitVec 64}
    (hwide : ∀ v : BitVec m, v.toNat < 2 ^ w →
      (wide v).1.toNat = v.toNat ∧ ∀ bits ≤ w, (wide v).2.toNat % 2 ^ bits = v.toNat % 2 ^ bits)
    {n : Nat} (hcount : w * n = 64 * count) :
    Recodes nats nats w 64 n count fun values valuesOffset blocks blocksOffset =>
      encodeLongs op wide values valuesOffset blocks blocksOffset n := by
  intro values valuesOffset blocks blocksOffset hvalues hblocks hfits
  obtain ⟨out, s, hout, hrun, hs, hregroups⟩ :=
    @loop_regroups (BitVec m) (BitVec 64) Int w 64 64 n count
    valuesOffset blocksOffset values blocks BitVec.toNat BitVec.toNat Nat.cast
    (fun state v => encodeLong op (wide v).1 (wide v).2 state)
      (fun v hv taken out next left h hroom => by
      have hlt : v.toNat < 2 ^ w := hfits _ (mem_map_of_mem hv)
      obtain ⟨hvalue, hrest⟩ := hwide v hlt
      have hnext := @encodeLong_spec op w blocks blocksOffset count taken out next
        (wide v).1 (wide v).2
        left hop h (by rwa [hvalue]) (by rwa [hvalue]) hroom hblocks
      rwa [hvalue] at hnext) (by decide) hvalues hcount
  refine ⟨out, hout, ?_, hregroups⟩
  rw [← hs]
  exact bind_eq_ok.mpr ⟨s, hrun, rfl⟩

/-! Values of 16 and of 32 bits, two words at a time. -/

/-- Bits above others. -/
theorem shiftLeft_or_toNat {x y : BitVec 64} {a n : Nat} (hx : x.toNat < 2 ^ a)
    (hy : y.toNat < 2 ^ n)
    (h : a + n ≤ 64) :
    (x <<< n ||| y).toNat = x.toNat * 2 ^ n + y.toNat ∧ (x <<< n ||| y).toNat < 2 ^ (a + n) := by
  have hlt := mul_add_two_pow_lt hx hy
  have hfits : x.toNat * 2 ^ n < 2 ^ 64 :=
    (Nat.le_add_right _ _).trans_lt (hlt.trans_le (Nat.pow_le_pow_right (by decide) h))
  have heq : (x <<< n ||| y).toNat = x.toNat * 2 ^ n + y.toNat := by
    rw [toNat_or, shiftLeft_toNat hfits, mul_comm, ← two_pow_add_eq_or_of_lt hy]
  exact ⟨heq, by rwa [heq]⟩

/-- A word of four values. -/
theorem word16_regroups {a b c d : BitVec 64} (h : Fits 16 (nats [a, b, c, d])) :
    Regroups 16 64 (nats [a, b, c, d]) (nats [a <<< 48 ||| b <<< 32 ||| c <<< 16 ||| d]) := by
  have hfits := h
  simp only [Fits, nats, map_cons, map_nil, mem_cons, not_mem_nil, or_false, forall_eq_or_imp,
    forall_eq] at hfits
  obtain ⟨ha, hb, hc, hd⟩ := hfits
  obtain ⟨hcd, hcd'⟩ := @shiftLeft_or_toNat c d 16 16 hc hd (by decide)
  obtain ⟨hbcd, hbcd'⟩ := @shiftLeft_or_toNat b (c <<< 16 ||| d) 16 32 hb hcd' (by decide)
  obtain ⟨habcd, -⟩ := @shiftLeft_or_toNat a (b <<< 32 ||| (c <<< 16 ||| d)) 16
    48 ha hbcd' (by decide)
  refine ⟨rfl, h, nats_fits _, ?_⟩
  rw [BitVec.or_assoc, BitVec.or_assoc, show nats [a, b, c, d] =
    [] ++ [a.toNat] ++ [b.toNat] ++ [c.toNat] ++ [d.toNat] from rfl, stream_concat, stream_concat,
    stream_concat, stream_concat, stream_nil, nats, map_singleton, stream_singleton,
    habcd, hbcd, hcd]
  ring

/-- A word of two values. -/
theorem word32_regroups {a b : BitVec 64} (h : Fits 32 (nats [a, b])) :
    Regroups 32 64 (nats [a, b]) (nats [a <<< 32 ||| b]) := by
  have hfits := h
  simp only [Fits, nats, map_cons, map_nil, mem_cons, not_mem_nil, or_false, forall_eq_or_imp,
    forall_eq] at hfits
  obtain ⟨ha, hb⟩ := hfits
  obtain ⟨hab, -⟩ := shiftLeft_or_toNat ha hb (by decide)
  refine ⟨rfl, h, nats_fits _, ?_⟩
  rw [show nats [a, b] = [a.toNat] ++ [b.toNat] from rfl, stream_concat, stream_singleton, nats,
    map_singleton, stream_singleton, hab]

/-- Two words of four values. -/
theorem encodePair16_regroups {chunk : List (BitVec 64)} (hlen : chunk.length = 8)
    (h : Fits 16 (nats chunk)) : Regroups 16 64 (nats chunk) (nats (encodePair16 chunk)) := by
  match chunk, hlen with
  | [a, b, c, d, e, f, g, i], _ =>
    rw [show [a, b, c, d, e, f, g, i] = [a, b, c, d] ++ [e, f, g, i] from rfl, nats_append,
      Fits.append_iff] at h
    exact (word16_regroups h.1).append (word16_regroups h.2)

/-- Two words of two values. -/
theorem encodePair32_regroups {chunk : List (BitVec 64)} (hlen : chunk.length = 4)
    (h : Fits 32 (nats chunk)) : Regroups 32 64 (nats chunk) (nats (encodePair32 chunk)) := by
  match chunk, hlen with
  | [a, b, c, d], _ =>
    rw [show [a, b, c, d] = [a, b] ++ [c, d] from rfl, nats_append, Fits.append_iff] at h
    exact (word32_regroups h.1).append (word32_regroups h.2)

/-- Pairs of words first, and then what is left for one word. -/
theorem encodePairs_spec (hop : Of op w) {per : Nat} (hper : per * w = 64)
    {pair : List (BitVec 64) → List (BitVec 64)}
    (hpair : ∀ chunk : List (BitVec 64), chunk.length = 2 * per → Fits w (nats chunk) →
      Regroups w 64 (nats chunk) (nats (pair chunk))) (iterations : Nat) :
    Recodes nats nats w 64 (per * iterations) iterations fun values valuesOffset
      blocks blocksOffset =>
      encodeLongs op (fun v => (v, v)) values (valuesOffset + iterations / 2 * 2 * per)
        (splice blocks blocksOffset (((chunksExact (2 * per)
          ((values.drop valuesOffset).take (per * iterations))).flatMap pair).take
          (iterations / 2 * 2)))
        (blocksOffset + iterations / 2 * 2) (per * iterations - iterations / 2 * 2 * per) := by
  intro values valuesOffset blocks blocksOffset hvalues hblocks hfits
  obtain ⟨input, hinput⟩ : ∃ input, input = (values.drop valuesOffset).take (per * iterations) :=
    ⟨_, rfl⟩
  have hperPos : 0 < per := Nat.pos_of_ne_zero fun h => by simp [h] at hper
  have hlen : input.length = per * iterations := by
    rw [hinput, length_take, length_drop]
    omega
  have hcount : input.length / (2 * per) = iterations / 2 := by
    rw [hlen, mul_comm 2, Nat.mul_div_mul_left _ _ hperPos]
  have hconsumed : iterations / 2 * 2 * per = 2 * per * (iterations / 2) := by ring
  have hroom : 2 * per * (iterations / 2) ≤ per * iterations := by
    rw [mul_comm 2, mul_assoc]
    exact Nat.mul_le_mul_left per (mul_div_le iterations 2)
  dsimp only
  rw [← hinput] at hfits ⊢
  have hsplit : input.take (2 * per * (iterations / 2)) ++
      input.drop (2 * per * (iterations / 2)) = input :=
    take_append_drop _ _
  rw [← hsplit, nats_append, Fits.append_iff] at hfits
  -- The words of the pairs.
  have hparts : ∀ part ∈ chunksExact (2 * per) input, part.length = 2 * per := fun part hpart => by
    rw [chunksExact, hcount] at hpart
    exact length_of_mem_pieces (by omega) hpart
  have hflatten : (chunksExact (2 * per) input).flatten =
    input.take (2 * per * (iterations / 2)) := by
    rw [chunksExact, pieces_flatten, hcount]
  have hpairs : Regroups w 64 (nats (input.take (2 * per * (iterations / 2))))
      (nats ((chunksExact (2 * per) input).flatMap pair)) := by
    rw [← hflatten]
    refine flatMap_regroups fun part hpart => hpair part (hparts part hpart) fun v hv => ?_
    obtain ⟨x, hx, rfl⟩ := mem_map.mp hv
    have hmem : x ∈ input.take (2 * per * (iterations / 2)) := by
      rw [← hflatten]
      exact mem_flatten.mpr ⟨part, hpart, hx⟩
    exact hfits.1 _ (mem_map_of_mem hmem)
  obtain ⟨pairs, hpairsEq⟩ : ∃ pairs, pairs = (chunksExact (2 * per) input).flatMap pair := ⟨_, rfl⟩
  rw [← hpairsEq] at hpairs ⊢
  have hwritten : pairs.length = iterations / 2 * 2 := by
    have hbits := hpairs.length
    rw [nats_length, nats_length, length_take_of_le (by omega),
      show w * (2 * per * (iterations / 2)) = per * w * (iterations / 2 * 2) by ring, hper] at hbits
    omega
  rw [take_of_length_le hwritten.le, hconsumed]
  -- The word that may be left.
  have hrest : (values.drop (valuesOffset + 2 * per * (iterations / 2))).take
      (per * iterations - 2 * per * (iterations / 2)) = input.drop
      (2 * per * (iterations / 2)) := by
    rw [hinput, drop_take, drop_drop]
  obtain ⟨out, hout, hrun, hregroups⟩ :=
    @encodeLongs_spec op w 64 (iterations - iterations / 2 * 2) hop
    (fun v => (v, v)) (fun v _ => ⟨rfl, fun _ _ => rfl⟩)
    (per * iterations - 2 * per * (iterations / 2))
    (by
      rw [Nat.mul_sub, Nat.mul_sub, ← hper]
      congr 1 <;> ring) values (valuesOffset + 2 * per * (iterations / 2))
    (splice blocks blocksOffset pairs) (blocksOffset + iterations / 2 * 2) (by omega)
    (by
      rw [splice_length (by omega)]
      omega)
    (by rw [hrest]; exact hfits.2)
  rw [hrest] at hregroups
  dsimp only at hrun
  refine ⟨pairs ++ out, by rw [length_append]; omega, ?_, ?_⟩
  · rw [hrun, ← hwritten, splice_append (by omega)]
  · rw [← hsplit, nats_append, nats_append]
    exact hpairs.append hregroups

end

/-! ## Bytes to values -/

section

variable {op : BulkOperationPacked} {w m : Nat} {mask : BitVec m} {values : List (BitVec m)}
  {valuesOffset count : Nat} {taken : List Nat}

/-- The values within a byte. -/
theorem decodeWithin_spec (hop : Of op w) (hmask : mask.toNat = 2 ^ w - 1)
    {byte : BitVec m} {fuel bits : Nat} (hfuel : bits < fuel + 1) {out : List (BitVec m)}
    (h : Flushing 8 w taken (nats out) byte.toNat bits) (hroom : 8 * taken.length ≤ w * count)
    (hvalues : valuesOffset + count ≤ values.length) :
    ∃ (bits' : Nat) (out' : List (BitVec m)), bits' < w ∧ bits' ≤ bits ∧
      Flushing 8 w taken (nats out') byte.toNat bits' ∧
      decodeWithin op mask byte fuel bits (splice values valuesOffset out)
          (valuesOffset + out.length) =
        .ok (bits', splice values valuesOffset out', valuesOffset + out'.length) := by
  have hpos := hop.pos
  induction fuel generalizing bits out with
  | zero => exact ⟨bits, out, by omega, le_rfl, h, rfl⟩
  | succ fuel ih =>
    rw [decodeWithin, hop.bitsPerValue]
    split
    next hmore =>
      have hput := h.put hmore
      have hnat : (byte >>> (bits - w) &&& mask).toNat = byte.toNat / 2 ^ (bits - w) % 2 ^ w := by
        rw [toNat_and, hmask, and_two_pow_sub_one_eq_mod, toNat_ushiftRight, shiftRight_eq_div_pow]
      have hout : out.length < count := by simpa using hput.length_lt hpos hroom
      obtain ⟨bits', out', hlt, -, hflushing, hrun⟩ := @ih (bits - w) (by omega)
        (out ++ [byte >>> (bits - w) &&& mask]) (by
          rw [nats_concat, hnat]
          exact hput)
      refine ⟨bits', out', hlt, by omega, hflushing, ?_⟩
      dsimp only
      rw [setAt_splice (by omega), ok_bind]
      rw [add_length_concat] at hrun
      exact hrun
    next hless => exact ⟨bits, out, by omega, le_rfl, h, rfl⟩

/-- One byte. -/
theorem decodeByte_spec (hop : Of op w) (hm : w ≤ m) (hm8 : 8 ≤ m) (hmask : mask.toNat = 2 ^ w - 1)
    {next : BitVec m} {left : Nat} {out : List (BitVec m)} {block : UInt8}
    (h : Regrouping 8 w taken (nats out) next.toNat left)
    (hroom : 8 * (taken.length + 1) ≤ w * count) (hvalues : valuesOffset + count ≤ values.length) :
    ∃ (next' : BitVec m) (left' : Nat) (out' : List (BitVec m)),
      Regrouping 8 w (taken ++ [block.toNat]) (nats out') next'.toNat left' ∧
      decodeByte op mask (next, left, splice values valuesOffset out,
        valuesOffset + out.length) block = .ok (next', left', splice values valuesOffset out',
          valuesOffset + out'.length) := by
  have hpos := hop.pos
  have hleft := h.left_le
  have hblock : block.toNat < 2 ^ 8 := block.toNat_lt
  have hbyte : (block.toBitVec.setWidth m).toNat = block.toNat :=
    setWidth_toNat (hblock.trans_le (Nat.pow_le_pow_right (by decide) hm8))
  rw [decodeByte]
  dsimp only
  split
  next hkeep =>
    have hfits := mul_two_pow_lt hblock hkeep.le
    have hnat : (next ||| wrappingShl (block.toBitVec.setWidth m) (left - 8)).toNat =
        next.toNat + block.toNat * 2 ^ (left - 8) := by
      have hpow : 2 ^ left ≤ 2 ^ m := Nat.pow_le_pow_right (by decide) (by omega)
      rw [toNat_or, wrappingShl_of_lt (by omega), shiftLeft_toNat (by rw [hbyte]; omega),
        hbyte, h.or_eq_add hfits]
    refine ⟨_, left - 8, out, ?_, rfl⟩
    rw [hnat]
    exact h.keep hblock hkeep
  next hflush =>
    obtain ⟨-, hflushing⟩ := h.flush hblock (show left ≤ 8 by omega)
    have hhigh := div_two_pow_lt hblock (show left ≤ 8 by omega)
    have hnat : (next ||| block.toBitVec.setWidth m >>> (8 - left)).toNat =
        next.toNat + block.toNat / 2 ^ (8 - left) := by
      rw [toNat_or, toNat_ushiftRight, shiftRight_eq_div_pow, hbyte, h.or_eq_add hhigh]
    have hout : out.length < count := by
      simpa using hflushing.length_lt hpos (by simpa using hroom)
    obtain ⟨bits, out', hbits, -, hflushed, hrun⟩ := @decodeWithin_spec op w m mask values
      valuesOffset count (taken ++ [block.toNat]) hop hmask (block.toBitVec.setWidth m) 8 (8 - left)
      (by omega) (out ++ [next ||| block.toBitVec.setWidth m >>> (8 - left)])
      (by
        rw [nats_concat, hnat, hbyte]
        exact hflushing)
      (by rwa [length_append, length_singleton]) hvalues
    rw [hbyte] at hflushed
    have hrest := hflushed.rest hbits
    refine ⟨wrappingShl (block.toBitVec.setWidth m &&& ((1 : BitVec m) <<< bits - 1)) (w - bits),
      w - bits, out', ?_, ?_⟩
    · rw [lowBits_shiftLeft (by omega) (by omega), hbyte]
      exact hrest
    · rw [setAt_splice (by omega), ok_bind]
      rw [add_length_concat] at hrun
      rw [hrun, ok_bind, hop.bitsPerValue]
      rfl

/-- Bytes are decoded. -/
theorem decodeBytes_spec (hop : Of op w) (hm : w ≤ m) (hm8 : 8 ≤ m) (hmask : mask.toNat = 2 ^ w - 1)
    (iterations : Nat) :
    Recodes byteNats nats 8 w (op.byteBlockCount * iterations) (op.byteValueCount * iterations)
      fun blocks blocksOffset values valuesOffset =>
        decodeBytes op mask blocks blocksOffset values valuesOffset iterations := by
  intro blocks blocksOffset values valuesOffset hblocks hvalues _
  have htotal : 8 * (iterations * op.byteBlockCount) = w * (op.byteValueCount * iterations) := by
    rw [Nat.mul_left_comm, ← hop.bytes]
    ring
  rw [mul_comm op.byteBlockCount] at hblocks ⊢
  obtain ⟨out, s, hout, hrun, hs, hregroups⟩ := @loop_regroups UInt8 (BitVec m) Nat 8 w m
    (iterations * op.byteBlockCount)
    (op.byteValueCount * iterations) blocksOffset valuesOffset blocks
    values UInt8.toNat BitVec.toNat id (decodeByte op mask)
      (fun block _ taken out next left h hroom => decodeByte_spec hop hm hm8 hmask h hroom hvalues)
      hop.pos hblocks htotal
  refine ⟨out, hout, ?_, hregroups⟩
  dsimp only
  rw [decodeBytes, hop.bitsPerValue, ← hs]
  exact bind_eq_ok.mpr ⟨s, hrun, rfl⟩

end

/-! ## Values to bytes -/

section

variable {op : BulkOperationPacked} {w m : Nat} {blocks : Bytes} {blocksOffset count : Nat}
  {taken : List Nat}

/-- The bytes within a value. -/
theorem encodeWithin_spec (hm : w ≤ m) {value : BitVec m} {fuel bits : Nat}
    (hfuel : bits < 8 * (fuel + 1))
    (hbits : bits < w ∨ bits = 0) {out : Bytes}
    (h : Flushing w 8 taken (byteNats out) value.toNat bits) (hroom : w * taken.length ≤ 8 * count)
    (hblocks : blocksOffset + count ≤ blocks.length) :
    ∃ (bits' : Nat) (out' : Bytes), bits' < 8 ∧
      Flushing w 8 taken (byteNats out') value.toNat bits' ∧
        encodeWithin value fuel bits (splice blocks blocksOffset out) (blocksOffset + out.length) =
          .ok (bits', splice blocks blocksOffset out', blocksOffset + out'.length) := by
  induction fuel generalizing bits out with
  | zero => exact ⟨bits, out, by omega, h, rfl⟩
  | succ fuel ih =>
    rw [encodeWithin]
    split
    next hmore =>
      have hput := h.put hmore
      have hnat : (UInt8.ofBitVec ((wrappingShr value (bits - 8)).setWidth 8)).toNat =
          value.toNat / 2 ^ (bits - 8) % 2 ^ 8 := by
        change ((wrappingShr value (bits - 8)).setWidth 8).toNat = _
        rw [BitVec.toNat_setWidth, wrappingShr_toNat (by omega)]
      have hout : out.length < count := by simpa using hput.length_lt (by decide) hroom
      obtain ⟨bits', out', hlt, hflushing, hrun⟩ := @ih (bits - 8) (by omega) (by omega)
        (out ++ [UInt8.ofBitVec ((wrappingShr value (bits - 8)).setWidth 8)]) (by
          rw [byteNats_concat, hnat]
          exact hput)
      refine ⟨bits', out', hlt, hflushing, ?_⟩
      dsimp only
      rw [setAt_splice (by omega), ok_bind]
      rw [add_length_concat] at hrun
      exact hrun
    next hless => exact ⟨bits, out, by omega, h, rfl⟩

/-- One value. -/
theorem encodeValue_spec (hop : Of op w) (hm : w ≤ m) (hm32 : 32 ≤ m)
    {next : BitVec 32} {left : Nat}
    {out : Bytes} {value : BitVec m} (h : Regrouping w 8 taken (byteNats out) next.toNat left)
    (hvalue : value.toNat < 2 ^ w) (hroom : w * (taken.length + 1) ≤ 8 * count)
    (hblocks : blocksOffset + count ≤ blocks.length) :
    ∃ (next' : BitVec 32) (left' : Nat) (out' : Bytes),
      Regrouping w 8 (taken ++ [value.toNat]) (byteNats out') next'.toNat left' ∧
      encodeValue op (next, left, splice blocks blocksOffset out, blocksOffset + out.length) value =
        .ok (next', left', splice blocks blocksOffset out', blocksOffset + out'.length) := by
  have hle := hop.le
  have hleft := h.left_le
  have hleftPos := h.left_pos
  have h8 : 2 ^ 8 ≤ 2 ^ m := Nat.pow_le_pow_right (by decide) (by omega)
  have hleft8 : 2 ^ left ≤ 2 ^ 8 := Nat.pow_le_pow_right (by decide) hleft
  rw [encodeValue, hop.bitsPerValue]
  dsimp only
  split
  next hkeep =>
    -- the byte has room for more
    have hfits := mul_two_pow_lt hvalue hkeep.le
    have hshift : (value <<< (left - w)).toNat = value.toNat * 2 ^ (left - w) :=
      shiftLeft_toNat (by omega)
    have hnat : (next ||| (value <<< (left - w)).setWidth 32).toNat =
        next.toNat + value.toNat * 2 ^ (left - w) := by
      rw [toNat_or, setWidth_toNat (by rw [hshift]; omega), hshift, h.or_eq_add hfits]
    refine ⟨next ||| (value <<< (left - w)).setWidth 32, left - w, out, ?_, rfl⟩
    rw [hnat]
    exact h.keep hvalue hkeep
  next hflush =>
    -- the byte is full, and more of them may be
    obtain ⟨hlt, hflushing⟩ := h.flush hvalue (show left ≤ w by omega)
    have hhigh := div_two_pow_lt hvalue (show left ≤ w by omega)
    have hnextLt := h.next_lt
    have hextend : (next.signExtend m).toNat = next.toNat := by
      have hmsb : next.msb = false := by
        rw [BitVec.msb_eq_false_iff_two_mul_lt]
        omega
      rw [BitVec.signExtend_eq_setWidth_of_msb_false hmsb, setWidth_toNat (by omega)]
    obtain ⟨byte, hbyteEq⟩ : ∃ byte, byte =
        UInt8.ofBitVec ((next.signExtend m ||| wrappingShr value (w - left)).setWidth 8) := ⟨_, rfl⟩
    have hnat : byte.toNat = next.toNat + value.toNat / 2 ^ (w - left) := by
      rw [hbyteEq]
      change ((next.signExtend m ||| wrappingShr value (w - left)).setWidth 8).toNat = _
      have hor : (next.signExtend m ||| wrappingShr value (w - left)).toNat =
          next.toNat + value.toNat / 2 ^ (w - left) := by
        rw [toNat_or, hextend, wrappingShr_toNat (by omega), h.or_eq_add hhigh]
      rw [setWidth_toNat (by rwa [hor]), hor]
    have hout : out.length < count := by
      simpa using hflushing.length_lt (by decide) (by simpa using hroom)
    obtain ⟨bits, out', hbits, hflushed, hrun⟩ := @encodeWithin_spec w m blocks blocksOffset count
      (taken ++ [value.toNat]) hm value 8 (w - left) (by omega) (by omega) (out ++ [byte])
      (by
        rw [byteNats_concat, hnat]
        exact hflushing)
      (by rwa [length_append, length_singleton]) hblocks
    have hrest := hflushed.rest hbits
    have hnext : (((value &&& ((1 : BitVec m) <<< bits - 1)) <<< (8 - bits)).setWidth 32).toNat =
        value.toNat % 2 ^ bits * 2 ^ (8 - bits) := by
      have hlow : ((value &&& ((1 : BitVec m) <<< bits - 1)) <<< (8 - bits)).toNat =
          value.toNat % 2 ^ bits * 2 ^ (8 - bits) := by
        rw [← wrappingShl_of_lt (by omega), lowBits_shiftLeft (by omega) (by omega)]
      rw [setWidth_toNat, hlow]
      rw [hlow]
      exact hrest.next_lt.trans_le (by decide)
    refine ⟨((value &&& ((1 : BitVec m) <<< bits - 1)) <<< (8 - bits)).setWidth 32,
      8 - bits, out', ?_, ?_⟩
    · rw [hnext]
      exact hrest
    · rw [← hbyteEq, setAt_splice (by omega), ok_bind]
      rw [add_length_concat] at hrun
      rw [hrun, ok_bind]
      rfl

/-- Values are encoded to bytes. -/
theorem encodeValues_spec (hop : Of op w) (hm : w ≤ m) (hm32 : 32 ≤ m) (iterations : Nat) :
    Recodes nats byteNats w 8 (op.byteValueCount * iterations) (op.byteBlockCount * iterations)
      fun (values : List (BitVec m)) valuesOffset blocks blocksOffset =>
        encodeValues op values valuesOffset blocks blocksOffset iterations := by
  intro values valuesOffset blocks blocksOffset hvalues hblocks hfits
  have htotal : w * (op.byteValueCount * iterations) = 8 * (op.byteBlockCount * iterations) := by
    rw [← mul_assoc, ← mul_assoc, ← hop.bytes, mul_comm w]
  obtain ⟨out, s, hout, hrun, hs, hregroups⟩ := @loop_regroups (BitVec m) UInt8 Nat w 8 32
    (op.byteValueCount * iterations)
    (op.byteBlockCount * iterations) valuesOffset blocksOffset values
    blocks BitVec.toNat UInt8.toNat id (encodeValue op)
      (fun value hvalue taken out next left h hroom => encodeValue_spec hop hm hm32 h
        (hfits _ (mem_map_of_mem hvalue)) hroom hblocks) (by decide)
    hvalues htotal
  refine ⟨out, hout, ?_, hregroups⟩
  rw [← hs]
  exact bind_eq_ok.mpr ⟨s, hrun, rfl⟩

end

end BulkOperationPacked

end RLucene.Util.Packed
