import RLucene.Util.Packed.BulkOperationPackedCorrect
import RLucene.Util.Packed.BulkOperationPackedN

/-!
# Specialised decoders keep the bits

Whether the table of a width is right is decided: the pieces of each value are the bits of the
stream from the place of the value on, without gaps and in their order (`Tabulates`). A group that
is read by such a table regroups its blocks (`readGroup_regroups`), and so do the groups one after
the other, whichever way a decoder takes them (`Unrolled.decode_spec`).
-/

namespace RLucene.Util.Packed

open Nat List Lib Store

/-! ## Pieces -/

namespace BlockPart

/-- The piece is the `len` bits from `pos` on, of blocks of `k` bits each. -/
def Takes (k pos len : Nat) (piece : BlockPart) : Prop :=
  piece.shr + len ≤ k ∧ pos + piece.shr + len = k * (piece.block + 1) ∧
    match piece.mask with
    | some mask => mask + 1 = 2 ^ len
    | none => piece.shr + len = k

/-- Whether a part gives these bits can be decided. -/
instance (k pos len : Nat) (piece : BlockPart) : Decidable (piece.Takes k pos len) := by
  unfold Takes
  cases piece.mask <;> infer_instance

variable {k n pos len : Nat} {piece : BlockPart} {words : List (BitVec n)}

/-- What a part gives. -/
theorem Takes.read_toNat (h : piece.Takes k pos len) (hwords : Fits k (nats words))
    (hblock : piece.block < words.length) (hlen : len + piece.shl ≤ n) :
    (piece.read words).toNat =
      bitsOf (k * words.length) (stream k (nats words)) pos len * 2 ^ piece.shl := by
  obtain ⟨hle, hplace, hmask⟩ := h
  have hword : words[piece.block].toNat < 2 ^ k := hwords _ (mem_map_of_mem (getElem_mem _))
  have hbits := bitsOf_narrow hwords hblock
    (show k * piece.block ≤ pos by rw [mul_succ] at hplace; omega)
    (show pos + len ≤ k * (piece.block + 1) by omega)
  rw [show k * (piece.block + 1) - pos - len = piece.shr by omega] at hbits
  have hlt : bitsOf (k * words.length) (stream k (nats words)) pos len * 2 ^ piece.shl < 2 ^ n := by
    calc _ < 2 ^ len * 2 ^ piece.shl :=
          Nat.mul_lt_mul_of_pos_right (bitsOf_lt _ _ _ _) (Nat.two_pow_pos _)
      _ = 2 ^ (len + piece.shl) := (pow_add _ _ _).symm
      _ ≤ 2 ^ n := Nat.pow_le_pow_right (by decide) hlen
  rw [read, getD_eq_getElem _ _ hblock]
  cases hcase : piece.mask with
  | some mask =>
    rw [hcase] at hmask
    obtain rfl : mask = 2 ^ len - 1 := by omega
    have hpow : 2 ^ len - 1 < 2 ^ n :=
      (sub_lt (Nat.two_pow_pos _) Nat.one_pos).trans_le
        (Nat.pow_le_pow_right (by decide) (by omega))
    have hread : (words[piece.block] >>> piece.shr &&& BitVec.ofNat n (2 ^ len - 1)).toNat =
        bitsOf (k * words.length) (stream k (nats words)) pos len := by
      rw [BitVec.toNat_and, BitVec.toNat_ushiftRight, shiftRight_eq_div_pow, BitVec.toNat_ofNat,
        mod_eq_of_lt hpow, and_two_pow_sub_one_eq_mod, hbits]
    rw [shiftLeft_toNat (by rwa [hread]), hread]
  | none =>
    rw [hcase] at hmask
    have hread : (words[piece.block] >>> piece.shr).toNat =
        bitsOf (k * words.length) (stream k (nats words)) pos len := by
      have hsmall : words[piece.block].toNat / 2 ^ piece.shr < 2 ^ len := by
        rw [Nat.div_lt_iff_lt_mul (Nat.two_pow_pos _), ← pow_add, add_comm len, hmask]
        exact hword
      rw [BitVec.toNat_ushiftRight, shiftRight_eq_div_pow, hbits, mod_eq_of_lt hsmall]
    rw [shiftLeft_toNat (by rwa [hread]), hread]

/-- The number of bits of a piece, of blocks of `k` bits each. -/
def width (k : Nat) (piece : BlockPart) : Nat :=
  match piece.mask with
  | some mask => Nat.log2 (mask + 1)
  | none => k - piece.shr

end BlockPart

/-- The pieces are the `left` bits from `pos` on: each one stands above those behind it. -/
def Covers (k count : Nat) : (pos left : Nat) → List BlockPart → Prop
  | _, left, [] => left = 0
  | pos, left, piece :: pieces =>
    piece.Takes k pos (piece.width k) ∧ piece.block < count ∧ piece.width k + piece.shl = left ∧
      Covers k count (pos + piece.width k) piece.shl pieces

/-- Whether parts give these bits can be decided. -/
instance (k count : Nat) : (pos left : Nat) → (pieces : List BlockPart) →
    Decidable (Covers k count pos left pieces)
  | _, _, [] => inferInstanceAs (Decidable (_ = 0))
  | pos, _, piece :: pieces =>
    haveI := instDecidableCovers k count (pos + piece.width k) piece.shl pieces
    inferInstanceAs (Decidable (_ ∧ _ ∧ _ ∧ _))

section

variable {k n m w : Nat} {words : List (BitVec n)}

/-- What some parts give together. -/
theorem readValue_toNat (hwords : Fits k (nats words)) {pieces : List BlockPart} {pos left : Nat}
    (h : Covers k words.length pos left pieces) (hleft : left ≤ n)
    (hroom : pos + left ≤ k * words.length) :
    (readValue words pieces).toNat = bitsOf (k * words.length)
    (stream k (nats words)) pos left := by
  induction pieces generalizing pos left with
  | nil =>
    obtain rfl : left = 0 := h
    simp [readValue, bitsOf, mod_one]
  | cons piece pieces ih =>
    obtain ⟨htakes, hblock, rfl, hrest⟩ := h
    have hhigh := htakes.read_toNat hwords hblock hleft
    have hlow := ih hrest (by omega) (by omega)
    have hlt := bitsOf_lt (k * words.length) (stream k (nats words)) (pos + piece.width k) piece.shl
    change (piece.read words ||| readValue words pieces).toNat = _
    rw [BitVec.toNat_or, hhigh, hlow, mul_comm, ← two_pow_add_eq_or_of_lt hlt, mul_comm,
      bitsOf_append _ (by omega)]

/-- A table for groups of `count` blocks of `k` bits, with values of `w` bits. -/
def Tabulates (k w count : Nat) (group : List (List BlockPart)) : Prop :=
  w * group.length = k * count ∧ ∀ entry ∈ group.zipIdx, Covers k count (w * entry.2) w entry.1

/-- Whether a table is right can be decided. -/
instance (k w count : Nat) (group : List (List BlockPart)) :
    Decidable (Tabulates k w count group) :=
  inferInstanceAs (Decidable (_ ∧ _))

/-- A group is decoded. -/
theorem readGroup_regroups {group : List (List BlockPart)} (h : Tabulates k w words.length group)
    (hwords : Fits k (nats words)) (hn : w ≤ n) (hm : w ≤ m) :
    Regroups k w (nats words) (nats (readGroup m group words)) := by
  obtain ⟨hlen, hcovers⟩ := h
  refine regroups_of_bitsOf hwords (by simpa [readGroup] using hlen.symm) ?_
  intro i hi
  have hi' : i < group.length := by simpa [readGroup] using hi
  have hroom : w * i + w ≤ k * words.length := by
    rw [← hlen, ← mul_succ]
    exact Nat.mul_le_mul_left w hi'
  have hvalue := readValue_toNat hwords (hcovers (group[i], i) (by
    rw [mem_zipIdx_iff_getElem?]
    exact getElem?_eq_getElem hi')) hn hroom
  have hlt := bitsOf_lt (k * words.length) (stream k (nats words)) (w * i) w
  simp only [nats, readGroup, getElem_map, length_map]
  rw [setWidth_toNat, hvalue]
  · rfl
  · rw [hvalue]
    exact hlt.trans_le (Nat.pow_le_pow_right (by decide) hm)

end

/-! ## Decoders -/

namespace Unrolled

section

variable {α : Type} {decoder : Unrolled} {k n m w : Nat} {widen : α → BitVec n} {num : α → Nat}

/-- The values of some blocks: group by group, as the table has them. -/
def decoded (decoder : Unrolled) (widen : α → BitVec n) (m iterations : Nat) (blocks : List α) :
    List (BitVec m) :=
  (pieces iterations decoder.blockCount blocks).flatMap fun chunk =>
    readGroup m decoder.group (chunk.map widen)

theorem decoded_length (iterations : Nat) (blocks : List α) :
    (decoded decoder widen m iterations blocks).length = decoder.valueCount * iterations := by
  rw [decoded, length_flatMap, pieces, map_map]
  have hconst : ((fun chunk : List α => (readGroup m decoder.group (chunk.map widen)).length) ∘
      fun i => (blocks.drop (decoder.blockCount * i)).take decoder.blockCount) =
        fun _ => decoder.valueCount := by
    funext i
    simp [readGroup, valueCount]
  rw [hconst]
  simp [mul_comm]

/-- One group more. -/
theorem decoded_succ (iterations : Nat) (blocks : List α) :
    decoded decoder widen m (iterations + 1) blocks =
      decoded decoder widen m iterations blocks ++ readGroup m decoder.group
        (((blocks.drop (decoder.blockCount * iterations)).take decoder.blockCount).map widen) := by
  simp [decoded, pieces, range_succ]

theorem map_fits (hnum : ∀ block, num block < 2 ^ k) (blocks : List α) :
    Fits k (blocks.map num) := by
  intro v hv
  obtain ⟨block, -, rfl⟩ := mem_map.mp hv
  exact hnum block

/-- All groups are decoded. -/
theorem decoded_regroups (h : Tabulates k w decoder.blockCount decoder.group)
    (hn : w ≤ n) (hm : w ≤ m)
    (hwiden : ∀ block, (widen block).toNat = num block) (hnum : ∀ block, num block < 2 ^ k)
    {iterations : Nat} {blocks : List α} (hlen : blocks.length = decoder.blockCount * iterations) :
    Regroups k w (blocks.map num) (nats (decoded decoder widen m iterations blocks)) := by
  have hall : (pieces iterations decoder.blockCount blocks).flatten = blocks := by
    rw [pieces_flatten, ← hlen, take_length]
  have hnats (chunk : List α) : nats (chunk.map widen) = chunk.map num := by
    rw [nats, map_map]
    exact map_congr_left fun block _ => hwiden block
  have hgroups : Regroups k w ((pieces iterations decoder.blockCount blocks).flatten.map num)
      (nats (decoded decoder widen m iterations blocks)) := by
    refine flatMap_regroups fun chunk hchunk => ?_
    rw [← hnats]
    refine readGroup_regroups ?_ ?_ hn hm
    · rwa [length_map, length_of_mem_pieces hlen.ge hchunk]
    · rw [hnats]
      exact map_fits hnum chunk
  rwa [hall] at hgroups

end

section

variable {α : Type} {decoder : Unrolled} {n m : Nat} {widen : α → BitVec n} {blocks : List α}
  {values : List (BitVec m)} {blocksOffset valuesOffset iterations : Nat}

/-- The loop over groups. -/
theorem decodeGroups_eq (hblocks : blocksOffset + decoder.blockCount * iterations ≤ blocks.length)
    (hvalues : valuesOffset + decoder.valueCount * iterations ≤ values.length) :
    decodeGroups decoder widen blocks blocksOffset values valuesOffset iterations =
      .ok (splice values valuesOffset (decoded decoder widen m iterations
        (blocks.drop blocksOffset))) := by
  refine foldlM_range_eq (fun k =>
      splice values valuesOffset (decoded decoder widen m k (blocks.drop blocksOffset)))
    (fun k hk => ?_) (by simp [decoded, pieces, splice_nil])
  have hblock : decoder.blockCount * k + decoder.blockCount ≤ decoder.blockCount * iterations := by
    exact Nat.mul_le_mul_left _ hk
  have hvalue : decoder.valueCount * k + decoder.valueCount ≤ decoder.valueCount * iterations := by
    exact Nat.mul_le_mul_left _ hk
  have hlen := @decoded_length α decoder n m widen k (blocks.drop blocksOffset)
  have hgroup (words : List (BitVec n)) :
      (readGroup m decoder.group words).length = decoder.valueCount := by
      simp [readGroup, valueCount]
  rw [decodeGroup, getRange_eq (by omega), ok_bind, ← hlen, setRange_splice (by
    rw [hlen, hgroup]
    omega), decoded_succ, drop_drop]

/-- The loop over chunks. -/
theorem decodeChunks_eq (hblock : 0 < decoder.blockCount) (hvalue : 0 < decoder.valueCount)
    (hblocks : blocks.length = decoder.blockCount * iterations)
    (hvalues : values.length = decoder.valueCount * iterations) :
    decodeChunks decoder widen blocks values = .ok (decoded decoder widen m iterations blocks) := by
  have hzip := @mapM_ok (List α × List (BitVec m)) (List (BitVec m))
    ((chunksExact decoder.blockCount blocks).zip (chunksExact decoder.valueCount values))
    (fun pair => decodeGroup decoder widen pair.1 0 pair.2 0)
    (fun pair => readGroup m decoder.group (pair.1.map widen)) (by
      rintro ⟨chunk, out⟩ hmem
      obtain ⟨hchunk, hout⟩ := of_mem_zip hmem
      have hlen := length_of_mem_chunksExact hblock hblocks hchunk
      have hlen' := length_of_mem_chunksExact hvalue hvalues hout
      have hgroup : (readGroup m decoder.group (chunk.map widen)).length = out.length := by
        rw [hlen']
        simp [readGroup, valueCount]
      dsimp only
      rw [decodeGroup, getRange_eq (by omega), ok_bind, drop_zero, take_of_length_le hlen.le,
        setRange_eq (by omega), splice_all hgroup])
  rw [decodeChunks, hzip, ok_bind, pure_eq_ok]
  have hfst :
      ((chunksExact decoder.blockCount blocks).zip (chunksExact decoder.valueCount values)).map
      Prod.fst = chunksExact decoder.blockCount blocks := by
    refine map_fst_zip ?_
    simp [chunksExact, hblocks, hvalues, Nat.mul_div_cancel_left _ hblock,
      Nat.mul_div_cancel_left _ hvalue]
  have hmap :
      ((chunksExact decoder.blockCount blocks).zip (chunksExact decoder.valueCount values)).map
      (fun pair => readGroup m decoder.group (pair.1.map widen)) =
        (chunksExact decoder.blockCount blocks).map fun chunk =>
          readGroup m decoder.group (chunk.map widen) := by
    conv_rhs => rw [← hfst, map_map]
    rfl
  rw [hmap, decoded, chunksExact, hblocks, Nat.mul_div_cancel_left _ hblock, List.flatMap]

end

section

variable {α : Type} {n m : Nat} {widen : α → BitVec n} {num : α → Nat}

/-- The bytes of a word, the first one highest. -/
theorem foldl_bytes_toNat (hwiden : ∀ block, (widen block).toNat = num block)
    (hnum : ∀ block, num block < 2 ^ 8) {blocks : List α} (hlen : blocks.length ≤ 8) :
    (blocks.foldl (fun (bits : BitVec 64) block => bits <<< 8 |||
      (widen block).setWidth 64) 0).toNat = stream 8 (blocks.map num) := by
  induction blocks using List.reverseRecOn with
  | nil => rfl
  | append_singleton blocks block ih =>
    rw [length_append, length_singleton] at hlen
    have hhigh := stream_lt (map_fits hnum blocks)
    rw [length_map] at hhigh
    have hlt : stream 8 (blocks.map num) * 2 ^ 8 < 2 ^ 64 := by
      calc stream 8 (blocks.map num) * 2 ^ 8 < 2 ^ (8 * blocks.length) * 2 ^ 8 :=
            Nat.mul_lt_mul_of_pos_right hhigh (by decide)
        _ = 2 ^ (8 * (blocks.length + 1)) := by rw [← pow_add, mul_succ]
        _ ≤ 2 ^ 64 := Nat.pow_le_pow_right (by decide) (by omega)
    have hlow := hnum block
    have hblock : ((widen block).setWidth 64).toNat = num block := by
      rw [setWidth_toNat (by rw [hwiden]; omega), hwiden]
    have hrest := ih (by omega)
    rw [foldl_append, foldl_cons, foldl_nil, BitVec.toNat_or, hblock,
      shiftLeft_toNat (by rwa [hrest]), hrest, map_append, map_singleton, stream_concat, mul_comm,
      ← two_pow_add_eq_or_of_lt hlow]

/-- The groups of width fourteen. -/
theorem decodeWord14_regroups (hwiden : ∀ block, (widen block).toNat = num block)
    (hnum : ∀ block, num block < 2 ^ 8) (hm : 14 ≤ m) {blocks : List α} (hlen : blocks.length = 7) :
    Regroups 8 14 (blocks.map num) (nats (decodeWord14 (m := m) widen blocks)) := by
  have hword := foldl_bytes_toNat hwiden hnum (show blocks.length ≤ 8 by omega)
  refine regroups_of_bitsOf (map_fits hnum blocks) (by simp [decodeWord14, hlen]) ?_
  intro i hi
  have hi' : i < [42, 28, 14, 0].length := by simpa [decodeWord14] using hi
  have hshift : [42, 28, 14, 0][i] = 56 - 14 * i - 14 := by
    revert hi'
    simp only [length_cons, length_nil]
    intro hi'
    obtain rfl | rfl | rfl | rfl : i = 0 ∨ i = 1 ∨ i = 2 ∨ i = 3 := by omega
    all_goals rfl
  have hvalue (bits : BitVec 64) (shift : Nat) :
      (bits >>> shift &&& 16383).toNat = bits.toNat / 2 ^ shift % 2 ^ 14 := by
    rw [BitVec.toNat_and, BitVec.toNat_ushiftRight, shiftRight_eq_div_pow]
    exact and_two_pow_sub_one_eq_mod _ 14
  have hsmall : ∀ x : Nat, x % 2 ^ 14 < 2 ^ m := fun x =>
    (mod_lt x (by decide)).trans_le (Nat.pow_le_pow_right (by decide) hm)
  simp only [nats, decodeWord14, getElem_map, length_map, hlen]
  rw [setWidth_toNat (by rw [hvalue]; exact hsmall _), hvalue, hword, hshift, bitsOf]

end

/-- A decoder of values of `w` bits, from blocks of `k` bits. -/
structure For (decoder : Unrolled) (k w : Nat) : Prop where
  table : Tabulates k w decoder.blockCount decoder.group
  blocks : 0 < decoder.blockCount
  values : 0 < decoder.valueCount
  packed14 : decoder.complete = .packed14 → k = 8 ∧ w = 14 ∧ decoder.blockCount = 7

/-- Whether a decoder is right can be decided. -/
instance (decoder : Unrolled) (k w : Nat) : Decidable (decoder.For k w) :=
  decidable_of_iff (Tabulates k w decoder.blockCount decoder.group ∧ 0 < decoder.blockCount ∧
      0 < decoder.valueCount ∧
      (decoder.complete = .packed14 → k = 8 ∧ w = 14 ∧ decoder.blockCount = 7))
    ⟨fun ⟨table, blocks, values, packed14⟩ => ⟨table, blocks, values, packed14⟩,
      fun h => ⟨h.table, h.blocks, h.values, h.packed14⟩⟩

/-- Whichever way the groups are taken, the values are the bits of the blocks. -/
theorem decode_spec {α : Type} {decoder : Unrolled} {k w n m : Nat}
    (h : decoder.For k w) (hn : w ≤ n)
    (hm : w ≤ m) {widen : α → BitVec n} {num : α → Nat}
    (hwiden : ∀ block, (widen block).toNat = num block) (hnum : ∀ block, num block < 2 ^ k)
    (iterations : Nat) :
    Recodes (List.map num) nats k w (decoder.blockCount * iterations)
      (decoder.valueCount * iterations)
      fun blocks blocksOffset (values : List (BitVec m)) valuesOffset =>
        decode decoder widen blocks blocksOffset values valuesOffset iterations := by
  intro blocks blocksOffset values valuesOffset hblocks hvalues _
  obtain ⟨input, hinput⟩ : ∃ input, input =
      (blocks.drop blocksOffset).take (decoder.blockCount * iterations) := ⟨_, rfl⟩
  have hlen : input.length = decoder.blockCount * iterations := by
    rw [hinput, length_take, length_drop]
    omega
  have hlen' : ((values.drop valuesOffset).take (decoder.valueCount * iterations)).length =
      decoder.valueCount * iterations := by
    rw [length_take, length_drop]
    omega
  have hregroups := decoded_regroups (m := m) h.table hn hm hwiden hnum hlen
  have hgroups : decodeGroups decoder widen blocks blocksOffset values valuesOffset iterations =
      .ok (splice values valuesOffset (decoded decoder widen m iterations input)) := by
    rw [decodeGroups_eq hblocks hvalues, hinput, decoded, decoded, pieces_of_take]
  dsimp only
  rw [decode, ← hinput, mul_comm iterations, mul_comm iterations, ← hinput]
  cases hcase : decoder.complete with
  | never => exact ⟨_, decoded_length _ _, hgroups, hregroups⟩
  | atLeast least =>
    refine ⟨_, decoded_length _ _, ?_, hregroups⟩
    dsimp only
    split
    · rw [decodeChunks_eq h.blocks h.values hlen hlen', ok_bind]
      rfl
    · exact hgroups
  | packed14 =>
    obtain ⟨rfl, rfl, hseven⟩ := h.packed14 hcase
    dsimp only
    split
    · have hparts : ∀ part ∈ chunksExact 7 input, part.length = 7 := fun part hpart =>
        length_of_mem_chunksExact (by decide) (by rw [hlen, hseven]) hpart
      have hwords := @flatMap_regroups m α 8 14 num (decodeWord14 widen) (chunksExact 7 input)
        fun part hpart => decodeWord14_regroups hwiden hnum hm (hparts part hpart)
      rw [chunksExact_flatten (n := iterations) (by decide) (by rw [hlen, hseven])] at hwords
      have hcount := hwords.length.symm.trans hregroups.length
      rw [nats_length, nats_length, decoded_length] at hcount
      exact ⟨_, Nat.eq_of_mul_eq_mul_left (by decide) hcount, rfl, hwords⟩
    · exact ⟨_, decoded_length _ _, hgroups, hregroups⟩

end Unrolled

/-- Every table is right. -/
theorem specialised_for {w : Nat} {s : Specialised} (h : specialised w = some s) :
    0 < w ∧ w ≤ 24 ∧ s.u64ToI64.For 64 w ∧ s.u8ToI64.For 8 w ∧ s.u64ToI32.For 64 w ∧
      s.u8ToI32.For 8 w := by
  have hall : ∀ w : Fin 25, ∀ s ∈ specialised w, 0 < w.val ∧ s.u64ToI64.For 64 w ∧
      s.u8ToI64.For 8 w ∧ s.u64ToI32.For 64 w ∧ s.u8ToI32.For 8 w := by
    decide +kernel
  have hle : w ≤ 24 := by
    by_contra hgt
    have hnone : specialised w = none := by
      unfold specialised
      split <;> first | omega | rfl
    rw [hnone] at h
    cases h
  obtain ⟨hpos, h1, h2, h3, h4⟩ := hall ⟨w, by omega⟩ s h
  exact ⟨hpos, hle, h1, h2, h3, h4⟩

end RLucene.Util.Packed
