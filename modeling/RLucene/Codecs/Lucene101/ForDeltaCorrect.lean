import RLucene.Codecs.Lucene101.ForDeltaSums
import RLucene.Codecs.Lucene101.ForUtilCorrect
import RLucene.Lib.Lists

/-!
# Deltas are decoded to their running sums

`decode_encodeDeltas`: the bytes of a block of deltas decode to the base plus the running sums, and
the sums in the packed lanes are those of the deltas in them.
-/

namespace RLucene.Codecs.Lucene101

open List Finset Lib Store Util.Packed Internal.Vectorization ForUtil

/-! ## All equal -/

variable {i bits : Nat} {arr : List I32}

theorem all_eq_iff_intAt {v : List I32} {first : I32} (h : v.all (· == first) = true)
    (hi : i < v.length) : intAt v i = first := by
  rw [intAt_eq_getElem hi]
  exact beq_iff_eq.mp (all_eq_true.mp h _ (getElem_mem hi))

theorem intAt_drop_take {start count : Nat} (hi : i < count) :
    intAt ((arr.drop start).take count) i = intAt arr (start + i) := by
  rw [intAt_eq_getElem?, intAt_eq_getElem?, getElem?_take, if_pos hi, getElem?_drop]

/-- The vectors cover the block. -/
theorem PForUtil.allEqual_sound (hlen : arr.length = blockSize) :
    ∃ equal, PForUtil.allEqual arr = .ok equal ∧
      (equal = true → ∀ i < blockSize, intAt arr i = intAt arr 0) := by
  rw [blockSize] at hlen
  rw [PForUtil.allEqual, getInt_eq (by omega), ok_bind]
  simp only [show arr.length ≥ blockSize from hlen.ge, if_true]
  refine ⟨_, rfl, fun hequal i hi => ?_⟩
  rw [Bool.and_eq_true, Bool.and_eq_true] at hequal
  obtain ⟨⟨hhead, hgroups⟩, htail⟩ := hequal
  rw [blockSize] at hi
  rcases lt_or_ge i 8 with hlt | hge
  · have := all_eq_iff_intAt hhead (i := i) (by rw [length_take]; omega)
    rwa [← drop_zero (l := arr), intAt_drop_take hlt, zero_add] at this
  · rcases lt_or_ge i 120 with hlt | hge'
    · have hgroup := all_eq_true.mp hgroups ((i - 8) / 16) (List.mem_range.mpr (by omega))
      have := all_eq_iff_intAt hgroup (i := (i - 8) % 16) (by rw [length_take, length_drop]; omega)
      rwa [intAt_drop_take (by omega), show 8 + 16 * ((i - 8) / 16) + (i - 8) % 16 = i by omega]
        at this
    · have := all_eq_iff_intAt htail (i := i - 120)
        (by rw [length_take, length_drop]; omega)
      rwa [intAt_drop_take (by omega), show 120 + (i - 120) = i by omega] at this

namespace ForDeltaUtil

/-! ## Widths -/

section

variable {deltas : List I32}

theorem toInt_eq_toNat {x : I32} (h : x.toNat < 2 ^ 31) : x.toInt = x.toNat :=
  BitVec.toInt_eq_toNat_of_lt (by omega)

/-- Every delta fits into the width. -/
theorem bitsFor_spec (hsmall : ∀ delta ∈ deltas, delta.toNat < 2 ^ 31) :
    ∃ bits, bitsFor deltas = .ok bits ∧ 1 ≤ bits ∧ bits ≤ 31 ∧
      ∀ delta ∈ deltas, delta.toNat < 2 ^ bits := by
  have hfold : (deltas.foldl (· ||| ·) (0 : I32)).toNat =
      deltas.foldl (fun n v => n ||| v.toNat) 0 :=
    (foldl_hom BitVec.toNat fun _ _ => (BitVec.toNat_or ..).symm).symm
  have hlt := foldl_or_lt BitVec.toNat (show 0 < 2 ^ 31 by decide) hsmall
  have hle := (le_foldl_or BitVec.toNat deltas 0).2
  rw [← hfold] at hlt hle
  generalize hor : deltas.foldl (· ||| ·) (0 : I32) = or at hlt hle
  have hasU : asU 64 (or.toNat : Int) = or.toNat := asU_of_lt (by omega)
  have hsize : Nat.size or.toNat ≤ 31 := Nat.size_le.mpr hlt
  refine ⟨max 1 (Nat.size or.toNat), ?_, Nat.le_max_left _ _, by omega, fun delta hdelta => ?_⟩
  · rw [bitsFor, hor, toInt_eq_toNat hlt, PackedInts.bitsRequired, if_neg (by omega),
      PackedInts.unsignedBitsRequired, hasU]
  · calc delta.toNat ≤ or.toNat := hle delta hdelta
      _ < 2 ^ Nat.size or.toNat := Nat.lt_size_self _
      _ ≤ 2 ^ max 1 (Nat.size or.toNat) :=
        Nat.pow_le_pow_right (by decide) (Nat.le_max_right _ _)

/-- The shape of a block of deltas of the given width. -/
def shapeOf (bits : Nat) (hpos : 1 ≤ bits) (hle : bits ≤ 31) : Shape :=
  .ofLimits 3 10 bits (Nat.le_add_left 3 5) (Nat.le_add_left 10 6) hpos hle

end

/-! ## Decoding -/

section

variable {s : Shape} {words ints tmp : List I32} {I : Type} [IntInput I] {input input' : I}

/-- Every width has a decoder for its lanes. -/
theorem decodeLanes_spec (h : Decoding s words tmp ints input input')
    (hsize : s.size = primitiveFor s.bits) (hhigh : s.bits < 32) :
    Decoded s words ints input' (decodeLanes s.bits input tmp ints) := by
  have hlanes {bits : Nat} (hbits : s.bits = bits) : s.size = primitiveFor bits :=
    hsize.trans (congrArg primitiveFor hbits)
  unfold decodeLanes
  split
  case h_1 hbits | h_2 hbits | h_4 hbits | h_8 hbits | h_16 hbits =>
    exact h.splitSame hbits (hlanes hbits) rfl (by decide)
  case h_3 hbits | h_5 hbits | h_6 hbits | h_7 hbits | h_9 hbits | h_10 hbits | h_11 hbits |
      h_12 hbits | h_13 hbits | h_14 hbits | h_15 hbits =>
    exact h.decodeDiff hbits (hlanes hbits) rfl (by decide) (by decide +kernel) rfl rfl
  case h_17 =>
    have hlow : 17 ≤ s.bits := by
      have := s.bits_pos
      simp only [imp_false] at *
      omega
    have hwide : s.size = 32 := by
      rw [hsize, primitiveFor, if_neg (by omega), if_neg (by omega)]
    exact h.decodeSlow hwide hlow hhigh

/-- The sums of a collapsed block. -/
theorem prefixSum_spec {deltas : List I32} (hlen : arr.length = blockSize)
    (hcollapsed : Collapsed (primitiveFor bits) deltas arr)
    (hsmall : ∀ q, (intAt deltas q).toNat < 2 ^ bits) (base : I32) :
    GivesBlock (prefixSum bits arr base) fun p => base + ∑ q ∈ range (p + 1), intAt deltas q := by
  have hmono {k : Nat} (hk : bits ≤ k) (q : Nat) : (intAt deltas q).toNat < 2 ^ k :=
    (hsmall q).trans_le (Nat.pow_le_pow_right (by decide) hk)
  rw [prefixSum]
  rw [primitiveFor] at hcollapsed
  split
  · rename_i hbits
    rw [if_pos hbits] at hcollapsed
    exact prefixSum8_spec hlen hcollapsed (hmono hbits) base
  · rename_i hbits
    rw [if_neg hbits] at hcollapsed
    split
    · rename_i hbits'
      rw [if_pos hbits'] at hcollapsed
      exact prefixSum16_spec hlen hcollapsed (hmono hbits') base
    · rename_i hbits'
      rw [if_neg hbits'] at hcollapsed
      obtain ⟨out, hrun, houtLen, hout⟩ := prefixSum32_spec hlen base
      refine ⟨out, hrun, houtLen, fun p hp => ?_⟩
      rw [hout p hp]
      dsimp only
      congr 1
      refine sum_congr rfl fun q hq => BitVec.eq_of_toNat_eq ?_
      have hq' := Finset.mem_range.mp hq
      have hlane := hcollapsed q (by rw [blockSize] at hp; omega) 0 (by decide)
      rw [Nat.zero_mul, zero_add] at hlane
      rw [← hlane]
      exact ((congrArg (· % 2 ^ 32) (Nat.div_one _)).trans
        (Nat.mod_eq_of_lt (intAt arr q).isLt)).symm

/-- The base and one for each entry. -/
theorem prefixSumOfOnes_spec (hlen : arr.length = blockSize) (base : I32) :
    GivesBlock (prefixSumOfOnes arr base) fun p => base + BitVec.ofNat 32 (p + 1) := by
  refine ⟨_, if_pos hlen.ge, ?_, fun p hp => ?_⟩
  · rw [length_append, length_map, length_range, length_drop, hlen, Nat.sub_self]
    rfl
  · rw [intAt_append, length_map, length_range, if_pos hp,
      intAt_eq_getElem (by rwa [length_map, length_range]), getElem_map,
      getElem_range]

end

/-! ## Blocks -/

section

variable {deltas ints : List I32} {base : I32}

/-- The running sums of ones. -/
theorem sum_ones (h : ∀ i < blockSize, intAt deltas i = 1) {p : Nat} (hp : p < blockSize) :
    ∑ q ∈ range (p + 1), intAt deltas q = BitVec.ofNat 32 (p + 1) := by
  have hone : ∀ n ≤ p + 1, ∑ q ∈ range n, intAt deltas q = BitVec.ofNat 32 n := by
    intro n hn
    induction n with
    | zero => rfl
    | succ n ih =>
      rw [Finset.sum_range_succ, ih (by omega), h n (by omega), BitVec.ofNat_add]
      rfl
  exact hone _ le_rfl

/-- Machine sums that are in range are the running sums. -/
theorem map_toInt_eq_runningSums (hlen : deltas.length = blockSize)
    (hpos : ∀ delta ∈ deltas, 0 < delta.toInt)
    (hsums : ∀ sum ∈ runningSums base.toInt (deltas.map BitVec.toInt), sum < 2 ^ 31)
    (hints : ints.length = blockSize)
    (hat : ∀ p < blockSize, intAt ints p = base + ∑ q ∈ range (p + 1), intAt deltas q) :
    ints.map BitVec.toInt = runningSums base.toInt (deltas.map BitVec.toInt) := by
  have hnonneg : ∀ q, 0 ≤ (intAt deltas q).toInt := by
    intro q
    rcases lt_or_ge q deltas.length with hq | hq
    · rw [intAt_eq_getElem hq]
      exact (hpos _ (getElem_mem hq)).le
    · rw [intAt_eq_getElem?, getElem?_eq_none hq]
      decide
  have hget : ∀ q, (deltas.map BitVec.toInt).getD q 0 = (intAt deltas q).toInt := by
    intro q
    rw [getD_eq_getElem?_getD, getElem?_map, intAt_eq_getElem?]
    cases deltas[q]? <;> rfl
  apply ext_getElem?
  intro p
  rcases lt_or_ge p blockSize with hp | hp
  · have hrun := runningSums_getElem? base.toInt (deltas.map BitVec.toInt)
      (show p < (deltas.map BitVec.toInt).length by rwa [length_map, hlen])
    simp only [hget] at hrun
    have hlow := BitVec.le_toInt base
    have hsumNonneg : 0 ≤ ∑ q ∈ range (p + 1), (intAt deltas q).toInt :=
      sum_nonneg fun q _ => hnonneg q
    rw [hrun, getElem?_map, getElem?_eq_getElem (by omega), Option.map_some,
      ← intAt_eq_getElem, hat p hp, toInt_add_sum (by decide) (by omega)]
    exact hsums _ (mem_of_getElem? hrun)
  · rw [getElem?_eq_none (by rw [length_map]; omega),
      getElem?_eq_none (by rw [runningSums_length, length_map]; omega)]

/-- The bytes decode to the base plus the running sums, wherever they stand in a file. -/
def DecodesToSums (deltas : List I32) (base : I32) (tmp dest : List I32) (bytes : Bytes) : Prop :=
  ∀ file pos, At file pos bytes → ∃ ints,
    decodeAndPrefixSum ⟨file, pos⟩ base tmp dest = .ok (ints, ⟨file, pos + bytes.length⟩) ∧
      ints.length = blockSize ∧
      ∀ p < blockSize, intAt ints p = base + ∑ q ∈ range (p + 1), intAt deltas q

variable {tmp tmp' dest : List I32}

/-- A block of ones is a single byte. -/
theorem decodesToSums_ones (hones : ∀ i < blockSize, intAt deltas i = 1)
    (hdest : dest.length = blockSize) : DecodesToSums deltas base tmp' dest [0] := by
  intro file pos hat
  obtain ⟨ints, hrun, hlen, hsum⟩ := prefixSumOfOnes_spec hdest base
  refine ⟨ints, ?_, hlen, fun p hp => by rw [hsum p hp, sum_ones hones hp]⟩
  rw [decodeAndPrefixSum, IndexInput.readByte_mk hat, ok_bind]
  simp only [if_true, hrun, ok_bind, pure_eq_ok, length_singleton]

/-- The packed deltas decode to their running sums. -/
theorem encodePacked_spec (hlen : deltas.length = blockSize)
    (hsmall : ∀ delta ∈ deltas, delta.toNat < 2 ^ 31) (htmp : tmp.length = blockSize)
    (htmp' : tmp'.length = blockSize) (hdest : dest.length = blockSize) (base : I32) (out : Bytes) :
    ∃ bytes, encodePacked deltas tmp out = .ok (out ++ bytes) ∧
      DecodesToSums deltas base tmp' dest bytes := by
  obtain ⟨bits, hbits, hpos, hle, hfit⟩ := bitsFor_spec hsmall
  let s := shapeOf bits hpos hle
  have hfew : s.words ≤ blockSize := by
    show 4 * bits ≤ 128
    omega
  obtain ⟨arr, hcollapse, hvalues, -, hcollapsed⟩ := @collapse_spec s deltas hlen hfit
  obtain ⟨words, hwords, hpacked⟩ := encodeWithTmp_packed hvalues (hfew.trans htmp.ge)
  refine ⟨UInt8.ofNat bits :: wordBytes words, ?_, fun file pos hat => ?_⟩
  · change collapse (primitiveFor bits) deltas = _ at hcollapse
    change encodeWithTmp arr bits (primitiveFor bits) tmp = _ at hwords
    simp only [encodePacked, hbits, hcollapse, hwords, ok_bind, pure_eq_ok, writeInts_eq_append,
      writeByte, append_assoc, singleton_append]
  · rw [← singleton_append, at_append_iff] at hat
    have hints : s.ints ≤ dest.length := by
      have hsize := size_le s
      rw [hdest]
      show 4 * s.size ≤ 128
      omega
    obtain ⟨dest', hrun, hlen', hunpacked⟩ := decodeLanes_spec
      ⟨supplies_of_at hat.2, hpacked.length, hfew.trans htmp'.ge, hints⟩
      (show s.size = primitiveFor s.bits from rfl) (show bits < 32 by omega)
    obtain ⟨ints, hsum, hintsLen, hat'⟩ := prefixSum_spec (hlen'.trans hdest)
      (hcollapsed.of_unpacked hvalues hpacked hunpacked)
      (intAt_lt (Nat.two_pow_pos bits) hfit) base
    have hbyte : (UInt8.ofNat bits).toNat = bits := by
      exact Nat.mod_eq_of_lt (by omega)
    refine ⟨ints, ?_, hintsLen, hat'⟩
    rw [decodeAndPrefixSum, IndexInput.readByte_mk hat.1, ok_bind]
    simp only [show UInt8.ofNat bits ≠ 0 from fun h => by
      rw [h] at hbyte
      exact absurd hbyte (by rw [UInt8.toNat_zero]; omega), if_false]
    rw [hbyte, decodeAndPrefixSumWithBits, show bits = s.bits from rfl]
    rw [length_singleton] at hrun
    rw [hrun, ok_bind]
    simp only [show s.bits = bits from rfl, hsum, ok_bind, pure_eq_ok, length_cons,
      wordBytes_length]
    rw [show pos + 1 + 4 * words.length = pos + (4 * words.length + 1) by omega]

end

/-- The bytes of a block of positive deltas decode to the base plus their running sums, if these are
in range. In lanes that hold several deltas the sums do not reach the next lane. -/
theorem decode_encodeDeltas {deltas : List I32} (hlen : deltas.length = blockSize)
    (hpos : ∀ delta ∈ deltas, 0 < delta.toInt) (base : I32)
    (hsums : ∀ sum ∈ runningSums base.toInt (deltas.map BitVec.toInt), sum < 2 ^ 31)
    {tmp tmp' dest : List I32} (htmp : tmp.length = blockSize) (htmp' : tmp'.length = blockSize)
    (hdest : dest.length = blockSize) (out : Bytes) :
    (∃ bytes, encodeDeltas deltas tmp out = .ok (out ++ bytes) ∧
      ∀ file pos, At file pos bytes → ∃ ints,
        decodeAndPrefixSum ⟨file, pos⟩ base tmp' dest = .ok (ints, ⟨file, pos + bytes.length⟩) ∧
          ints.map BitVec.toInt = runningSums base.toInt (deltas.map BitVec.toInt)) ∧
    ∃ bits, bitsFor deltas = .ok bits ∧
      (bits ≤ 3 → ∃ arr sums, collapse8 deltas = .ok arr ∧ innerPrefixSum8 arr = .ok sums ∧
        ∀ i < 32, ∀ k < 4, laneOf 8 (intAt sums i) k =
          ∑ j ∈ range (i + 1), (intAt deltas (k * 32 + j)).toNat) ∧
      (4 ≤ bits ∧ bits ≤ 10 → ∃ arr sums, collapse16 deltas = .ok arr ∧
        innerPrefixSum16 arr = .ok sums ∧
        ∀ i < 64, ∀ k < 2, laneOf 16 (intAt sums i) k =
          ∑ j ∈ range (i + 1), (intAt deltas (k * 64 + j)).toNat) := by
  have hsmall : ∀ delta ∈ deltas, delta.toNat < 2 ^ 31 := fun delta hdelta =>
    toNat_lt_of_toInt ⟨(hpos delta hdelta).le, BitVec.toInt_lt⟩
  constructor
  · have hbytes : ∃ bytes, encodeDeltas deltas tmp out = .ok (out ++ bytes) ∧
        DecodesToSums deltas base tmp' dest bytes := by
      have hpacked := encodePacked_spec hlen hsmall htmp htmp' hdest base out
      obtain ⟨equal, hequal, hall⟩ := PForUtil.allEqual_sound hlen
      rw [encodeDeltas, getInt_eq (by rw [hlen]; decide), ok_bind]
      by_cases hone : intAt deltas 0 = 1
      · rw [if_pos hone, hequal, ok_bind]
        cases equal with
        | true =>
          refine ⟨[0], rfl, decodesToSums_ones (fun i hi => ?_) hdest⟩
          rw [hall rfl i hi, hone]
        | false => exact hpacked
      · rw [if_neg hone]
        exact hpacked
    obtain ⟨bytes, hrun, hdecodes⟩ := hbytes
    refine ⟨bytes, hrun, fun file pos hat => ?_⟩
    obtain ⟨ints, hdecode, hintsLen, hsum⟩ := hdecodes file pos hat
    exact ⟨ints, hdecode, map_toInt_eq_runningSums hlen hpos hsums hintsLen hsum⟩
  · obtain ⟨bits, hbits, hone, hle, hfit⟩ := bitsFor_spec hsmall
    have hmono {k : Nat} (hk : bits ≤ k) (q : Nat) : (intAt deltas q).toNat < 2 ^ k :=
      (intAt_lt (Nat.two_pow_pos bits) hfit q).trans_le (Nat.pow_le_pow_right (by decide) hk)
    have hinner {size c : Nat} (hsize : primitiveFor bits = size) (hroom : 4 * size ≤ blockSize)
        (hlanes : size * (32 / size) = 32) (hfits : 4 * size * c < 2 ^ size)
        (hc : ∀ q, (intAt deltas q).toNat ≤ c) : ∃ arr sums, collapse size deltas = .ok arr ∧
          innerPrefixSum (4 * size) arr = .ok sums ∧ ∀ i < 4 * size, ∀ k < 32 / size,
          laneOf size (intAt sums i) k =
            ∑ j ∈ range (i + 1), (intAt deltas (k * (4 * size) + j)).toNat := by
      subst hsize
      obtain ⟨arr, hcollapse, -, harrLen, hcollapsed⟩ :=
        @collapse_spec (shapeOf bits hone hle) deltas
        hlen hfit
      obtain ⟨sums, hsums, -, hat⟩ := innerPrefixSum_spec (harrLen ▸ hroom)
      refine ⟨arr, sums, hcollapse, hsums, fun i hi k hk => ?_⟩
      rw [hat i hi]
      exact laneOf_inner hlanes hcollapsed hfits hc hi hk
    refine ⟨bits, hbits, fun hthree => ?_, fun hten => ?_⟩
    · exact hinner (c := 7) (if_pos hthree) (by decide) rfl (by decide) fun q =>
        Nat.le_of_lt_succ (hmono hthree q)
    · exact hinner (c := 1023) ((if_neg (by omega)).trans (if_pos hten.2))
        (by decide) rfl (by decide)
        fun q => Nat.le_of_lt_succ (hmono hten.2 q)

/-- A block of equal deltas, and one whose sums overflow a lane. -/
theorem decode_encodeDeltas_replicate :
    (∃ bytes, encodeDeltas (replicate 128 5) (replicate 128 0) [] = .ok ([] ++ bytes) ∧
      ∀ file pos, At file pos bytes → ∃ ints,
        decodeAndPrefixSum ⟨file, pos⟩ 100 (replicate 128 1) (replicate 128 2) =
            .ok (ints, ⟨file, pos + bytes.length⟩) ∧
          ints.map BitVec.toInt =
            runningSums (100 : I32).toInt ((replicate 128 (5 : I32)).map BitVec.toInt)) ∧
    ∃ bits, bitsFor (replicate 128 5) = .ok bits ∧
      (bits ≤ 3 → ∃ arr sums, collapse8 (replicate 128 5) = .ok arr ∧
        innerPrefixSum8 arr = .ok sums ∧
        ∀ i < 32, ∀ k < 4, laneOf 8 (intAt sums i) k =
          ∑ j ∈ range (i + 1), (intAt (replicate 128 5) (k * 32 + j)).toNat) ∧
      (4 ≤ bits ∧ bits ≤ 10 → ∃ arr sums, collapse16 (replicate 128 5) = .ok arr ∧
        innerPrefixSum16 arr = .ok sums ∧
        ∀ i < 64, ∀ k < 2, laneOf 16 (intAt sums i) k =
          ∑ j ∈ range (i + 1), (intAt (replicate 128 5) (k * 64 + j)).toNat) :=
  decode_encodeDeltas length_replicate
    (fun delta hdelta => by
      rw [eq_of_mem_replicate hdelta]
      decide)
    100 (by decide +kernel) length_replicate length_replicate length_replicate []

end ForDeltaUtil

end RLucene.Codecs.Lucene101
