import RLucene.Codecs.Lucene101.ForUtilEncode

/-!
# Collapsing and expanding lanes

Collapsing puts the integers of each quarter, or half, of a block into one lane, and expanding takes
them out again. `laneOf` is the number in a lane, the first from the top: a collapsed block has in
lane `k` of word `i` the integer `i` of part `k`.
-/

namespace RLucene.Codecs.Lucene101

open List Nat Lib Store Internal.Vectorization

namespace ForUtil

/-- The number in a lane, from the top. -/
def laneOf (size : Nat) (x : I32) (k : Nat) : Nat :=
  x.toNat / 2 ^ (32 - (k + 1) * size) % 2 ^ size

/-- The words have the integers of the block in their lanes. -/
def Collapsed (size : Nat) (block arr : List I32) : Prop :=
  ∀ i < 4 * size, ∀ k < 32 / size,
    laneOf size (intAt arr i) k = (intAt block (k * (4 * size) + i)).toNat

/-! ## Words of lanes -/

variable {k : Nat}

section

variable {a b c d x y : I32} {bits size : Nat}

/-- Disjoint bits add up. -/
theorem toNat_or_of_dvd (hx : 2 ^ k ∣ x.toNat) (hy : y.toNat < 2 ^ k) :
    (x ||| y).toNat = x.toNat + y.toNat := by
  obtain ⟨n, hn⟩ := hx
  rw [BitVec.toNat_or, hn, two_pow_add_eq_or_of_lt hy]

theorem toNat_shiftLeft_of_lt (hx : x.toNat * 2 ^ k < 2 ^ 32) :
    (x <<< k).toNat = x.toNat * 2 ^ k := by
  rw [BitVec.toNat_shiftLeft, shiftLeft_eq, mod_eq_of_lt hx]

/-- Two lanes of sixteen bits are the digits of the word. -/
theorem toNat_join16 (ha : a.toNat < 2 ^ 16) (hb : b.toNat < 2 ^ 16) :
    (a <<< 16 ||| b).toNat = a.toNat * 2 ^ 16 + b.toNat := by
  have ha' := toNat_shiftLeft_of_lt (x := a) (k := 16) (by omega)
  rw [toNat_or_of_dvd (k := 16) (by rw [ha']; exact Nat.dvd_mul_left _ _) hb, ha']

/-- Four lanes of eight bits are the digits of the word. -/
theorem toNat_join8 (ha : a.toNat < 2 ^ 8) (hb : b.toNat < 2 ^ 8) (hc : c.toNat < 2 ^ 8)
    (hd : d.toNat < 2 ^ 8) :
    (a <<< 24 ||| b <<< 16 ||| c <<< 8 ||| d).toNat =
      a.toNat * 2 ^ 24 + b.toNat * 2 ^ 16 + c.toNat * 2 ^ 8 + d.toNat := by
  have ha' := toNat_shiftLeft_of_lt (x := a) (k := 24) (by omega)
  have hb' := toNat_shiftLeft_of_lt (x := b) (k := 16) (by omega)
  have hc' := toNat_shiftLeft_of_lt (x := c) (k := 8) (by omega)
  have hab : (a <<< 24 ||| b <<< 16).toNat = a.toNat * 2 ^ 24 + b.toNat * 2 ^ 16 := by
    rw [toNat_or_of_dvd (k := 24) (by omega) (by omega), ha', hb']
  have habc : (a <<< 24 ||| b <<< 16 ||| c <<< 8).toNat =
      a.toNat * 2 ^ 24 + b.toNat * 2 ^ 16 + c.toNat * 2 ^ 8 := by
    rw [toNat_or_of_dvd (k := 16) (by omega) (by omega), hab, hc']
  rw [toNat_or_of_dvd (k := 8) (by omega) hd, habc]

theorem laneOf_sum16 {a b : Nat} (hb : b < 2 ^ 16) (hx : x.toNat = a * 2 ^ 16 + b) :
    laneOf 16 x 0 = a ∧ laneOf 16 x 1 = b := by
  simp only [laneOf, hx, Nat.reduceAdd, Nat.reduceMul, Nat.reduceSub, Nat.reducePow, Nat.div_one]
  omega

theorem laneOf_sum8 {a b c d : Nat} (hb : b < 2 ^ 8) (hc : c < 2 ^ 8) (hd : d < 2 ^ 8)
    (hx : x.toNat = a * 2 ^ 24 + b * 2 ^ 16 + c * 2 ^ 8 + d) :
    laneOf 8 x 0 = a ∧ laneOf 8 x 1 = b ∧ laneOf 8 x 2 = c ∧ laneOf 8 x 3 = d := by
  simp only [laneOf, hx, Nat.reduceAdd, Nat.reduceMul, Nat.reduceSub, Nat.reducePow, Nat.div_one]
  omega

/-- A small number is narrow in the lane it is shifted to. -/
theorem narrow_shiftLeft_lane (hx : x.toNat < 2 ^ bits) (k : Nat) :
    Narrow size bits (x <<< (k * size)) := by
  intro lane bit hle hlt
  rw [laneBit, BitVec.getLsbD_shiftLeft]
  rcases lt_or_ge lane k with hlane | hlane
  · simp only [row_lt hlane hlt, decide_true, Bool.not_true, Bool.and_false, Bool.false_and]
  · have hhigh : bits ≤ lane * size + bit - k * size := by
      have := Nat.mul_le_mul_right size hlane
      omega
    have hbit : x.getLsbD (lane * size + bit - k * size) = false := by
      rw [BitVec.getLsbD, testBit_lt_two_pow]
      exact hx.trans_le (Nat.pow_le_pow_right (by decide) hhigh)
    rw [hbit, Bool.and_false]

theorem narrow_of_lt (hx : x.toNat < 2 ^ bits) : Narrow size bits x := by
  have h : Narrow size bits (x <<< (0 * size)) := narrow_shiftLeft_lane hx 0
  rwa [zero_mul, BitVec.shiftLeft_zero] at h

theorem narrow_join8 (ha : a.toNat < 2 ^ bits) (hb : b.toNat < 2 ^ bits) (hc : c.toNat < 2 ^ bits)
    (hd : d.toNat < 2 ^ bits) : Narrow 8 bits (a <<< 24 ||| b <<< 16 ||| c <<< 8 ||| d) :=
  (((narrow_shiftLeft_lane ha 3).or (narrow_shiftLeft_lane hb 2)).or
    (narrow_shiftLeft_lane hc 1)).or (narrow_of_lt hd)

theorem narrow_join16 (ha : a.toNat < 2 ^ bits) (hb : b.toNat < 2 ^ bits) :
    Narrow 16 bits (a <<< 16 ||| b) :=
  (narrow_shiftLeft_lane ha 1).or (narrow_of_lt hb)

theorem toNat_ushiftRight_and (k n : Nat) {mask : I32} (hmask : mask.toNat = 2 ^ n - 1) :
    (x >>> k &&& mask).toNat = x.toNat / 2 ^ k % 2 ^ n := by
  rw [BitVec.toNat_and, BitVec.toNat_ushiftRight, hmask, and_two_pow_sub_one_eq_mod,
    shiftRight_eq_div_pow]

theorem toNat_and_mask (n : Nat) {mask : I32} (hmask : mask.toNat = 2 ^ n - 1) :
    (x &&& mask).toNat = x.toNat % 2 ^ n := by
  rw [BitVec.toNat_and, hmask, and_two_pow_sub_one_eq_mod]

end

/-! ## The loops -/

/-- A run that gives a block with these integers. -/
abbrev GivesBlock (run : Result (List I32)) (f : Nat → I32) : Prop :=
  ∃ arr, run = .ok arr ∧ arr.length = blockSize ∧ ∀ p < blockSize, intAt arr p = f p

section

variable {arr : List I32} {n : Nat}

/-- A loop that sets each integer from those that it has not set yet. -/
theorem collapseLoop_spec {f : List I32 → Nat → I32} {step : List I32 → Nat → Result (List I32)}
    (hlen : arr.length = blockSize)
    (hstep : ∀ arr' : List I32, ∀ i < n, arr'.length = blockSize →
      (∀ p, i ≤ p → intAt arr' p = intAt arr p) → step arr' i = .ok (arr'.set i (f arr i)))
    (hn : n ≤ blockSize) :
    ∃ arr', (List.range n).foldlM step arr = .ok arr' ∧ arr'.length = blockSize ∧
      ∀ p, intAt arr' p = if p < n then f arr p else intAt arr p := by
  refine foldlM_range (I := fun n arr' => arr'.length = blockSize ∧
      ∀ p, intAt arr' p = if p < n then f arr p else intAt arr p) (fun n mid hlt ⟨hmidLen, hat⟩ =>
    ⟨mid.set n (f arr n), hstep mid n hlt hmidLen fun p hp => by rw [hat p, if_neg (by omega)],
      length_set.trans hmidLen, fun p => ?_⟩)
    ⟨hlen, fun p => (if_neg (not_lt_zero p)).symm⟩
  rw [intAt_set (by omega)]
  by_cases heq : p = n
  · rw [if_pos heq, if_pos (by omega), heq]
  · rw [if_neg heq, hat p]
    exact if_congr (by omega) rfl rfl

/-- What each word holds after the loop. -/
theorem collapse8_eq (hlen : arr.length = blockSize) :
    ∃ arr', collapse8 arr = .ok arr' ∧ arr'.length = blockSize ∧
      ∀ p, intAt arr' p = if p < 32 then
        intAt arr p <<< 24 ||| intAt arr (32 + p) <<< 16 ||| intAt arr (64 + p) <<< 8 |||
          intAt arr (96 + p)
        else intAt arr p := by
  refine @collapseLoop_spec arr 32 (fun arr p => intAt arr p <<< 24 |||
    intAt arr (32 + p) <<< 16 ||| intAt arr (64 + p) <<< 8 ||| intAt arr (96 + p)) _ hlen
      (fun arr' i hi hlen' hsame => ?_)
    (by decide)
  rw [blockSize] at hlen'
  simp only [getInt_eq (show i < arr'.length by omega),
    getInt_eq (show 32 + i < arr'.length by omega), getInt_eq (show 64 + i < arr'.length by omega),
    getInt_eq (show 96 + i < arr'.length by omega), setInt_eq (show i < arr'.length by omega),
    ok_bind, hsame i le_rfl, hsame (32 + i) (by omega), hsame (64 + i) (by omega),
    hsame (96 + i) (by omega)]

/-- What each word holds after the loop. -/
theorem collapse16_eq (hlen : arr.length = blockSize) :
    ∃ arr', collapse16 arr = .ok arr' ∧ arr'.length = blockSize ∧
      ∀ p, intAt arr' p = if p < 64 then intAt arr p <<< 16 ||| intAt arr (64 + p)
        else intAt arr p := by
  refine @collapseLoop_spec arr 64 (fun arr p => intAt arr p <<< 16 ||| intAt arr (64 + p)) _ hlen
    (fun arr' i hi hlen' hsame => ?_) (by decide)
  rw [blockSize] at hlen'
  simp only [getInt_eq (show i < arr'.length by omega),
    getInt_eq (show 64 + i < arr'.length by omega), setInt_eq (show i < arr'.length by omega),
    ok_bind, hsame i le_rfl, hsame (64 + i) (by omega)]

/-- A loop over the first part that sets the integer at the same place of every part. -/
theorem expandLoop_spec {part : Nat} {f : I32 → Nat → I32}
    {step : List I32 → Nat → Result (List I32)} (hlen : arr.length = blockSize)
    (hstep : ∀ arr' : List I32, ∀ i < part, arr'.length = blockSize →
      GivesBlock (step arr' i) fun p =>
        if p % part = i then f (intAt arr' i) (p / part) else intAt arr' p)
    (hn : n ≤ part) (hpart : part ≤ blockSize) :
    GivesBlock ((List.range n).foldlM step arr) fun p =>
      if p % part < n then f (intAt arr (p % part)) (p / part) else intAt arr p := by
  refine foldlM_range (I := fun n arr' => arr'.length = blockSize ∧ ∀ p < blockSize, intAt arr' p =
      if p % part < n then f (intAt arr (p % part)) (p / part) else intAt arr p)
    (fun n mid hlt ⟨hmidLen, hat⟩ => ?_) ⟨hlen, fun p _ => (if_neg (not_lt_zero _)).symm⟩
  have hin := hlt.trans_le hn
  obtain ⟨arr', hrun, hlen', hat'⟩ := hstep mid n hin hmidLen
  refine ⟨arr', hrun, hlen', fun p hp => ?_⟩
  rw [hat' p hp]
  dsimp only
  by_cases heq : p % part = n
  · rw [if_pos heq, if_pos (by omega), heq, hat n (by omega), mod_eq_of_lt hin,
      if_neg (Nat.lt_irrefl n)]
  · rw [if_neg heq, hat p hp]
    exact if_congr (by omega) rfl rfl

/-- The lanes of eight bits as they are taken out, from the top. -/
def lane8 (l : I32) (k : Nat) : I32 :=
  if k = 3 then l &&& 0xFF else if k = 2 then l >>> 8 &&& 0xFF
  else if k = 1 then l >>> 16 &&& 0xFF else l >>> 24 &&& 0xFF

/-- A lane of sixteen bits. -/
def lane16 (l : I32) (k : Nat) : I32 :=
  if k = 1 then l &&& 0xFFFF else l >>> 16 &&& 0xFFFF

/-- The bits that are masked out are the lane. -/
theorem toNat_lane8 (l : I32) (hk : k < 4) : (lane8 l k).toNat = laneOf 8 l k := by
  have hmask : (0xFF : I32).toNat = 2 ^ 8 - 1 := rfl
  match k, hk with
  | 0, _ => exact toNat_ushiftRight_and 24 8 hmask
  | 1, _ => exact toNat_ushiftRight_and 16 8 hmask
  | 2, _ => exact toNat_ushiftRight_and 8 8 hmask
  | 3, _ => exact (toNat_and_mask 8 hmask).trans (by rw [laneOf, Nat.pow_zero, Nat.div_one])

/-- The bits that are masked out are the lane. -/
theorem toNat_lane16 (l : I32) (hk : k < 2) : (lane16 l k).toNat = laneOf 16 l k := by
  have hmask : (0xFFFF : I32).toNat = 2 ^ 16 - 1 := rfl
  match k, hk with
  | 0, _ => exact toNat_ushiftRight_and 16 16 hmask
  | 1, _ => exact (toNat_and_mask 16 hmask).trans (by rw [laneOf, Nat.pow_zero, Nat.div_one])

section

variable {mid : List I32} {i : Nat} (hmid : mid.length = blockSize)

include hmid

/-- Setting the integer at the same place of the four quarters. -/
theorem setFourths_spec (hi : i < 32) (v : Nat → I32) :
    GivesBlock (do
        let arr ← setInt mid i (v 0)
        let arr ← setInt arr (32 + i) (v 1)
        let arr ← setInt arr (64 + i) (v 2)
        setInt arr (96 + i) (v 3)) fun p => if p % 32 = i then v (p / 32) else intAt mid p := by
  rw [blockSize] at hmid
  let arr1 := mid.set i (v 0)
  let arr2 := arr1.set (32 + i) (v 1)
  let arr3 := arr2.set (64 + i) (v 2)
  have h1 : arr1.length = 128 := length_set.trans hmid
  have h2 : arr2.length = 128 := length_set.trans h1
  have h3 : arr3.length = 128 := length_set.trans h2
  refine ⟨arr3.set (96 + i) (v 3), ?_, length_set.trans h3, fun p hp => ?_⟩
  · rw [setInt_eq (by omega), ok_bind, setInt_eq (show 32 + i < arr1.length by omega), ok_bind,
      setInt_eq (show 64 + i < arr2.length by omega), ok_bind,
      setInt_eq (show 96 + i < arr3.length by omega)]
  · rw [blockSize] at hp
    rw [intAt_set (by omega), show intAt arr3 p = _ from intAt_set (by omega),
      show intAt arr2 p = _ from intAt_set (by omega),
      show intAt arr1 p = _ from intAt_set (by omega)]
    dsimp only
    by_cases hmod : p % 32 = i
    · have hparts : p = 96 + i ∨ p = 64 + i ∨ p = 32 + i ∨ p = i := by omega
      rw [if_pos hmod]
      rcases hparts with rfl | rfl | rfl | rfl
      · rw [if_pos rfl, show (96 + i) / 32 = 3 by omega]
      · rw [if_neg (by omega), if_pos rfl, show (64 + i) / 32 = 2 by omega]
      · rw [if_neg (by omega), if_neg (by omega), if_pos rfl, show (32 + i) / 32 = 1 by omega]
      · rw [if_neg (by omega), if_neg (by omega), if_neg (by omega), if_pos rfl, div_eq_of_lt hi]
    · rw [if_neg hmod, if_neg (by omega), if_neg (by omega), if_neg (by omega), if_neg (by omega)]

/-- Two entries are set. -/
theorem setHalves_spec (hi : i < 64) (v : Nat → I32) :
    GivesBlock (do
        let arr ← setInt mid i (v 0)
        setInt arr (64 + i) (v 1)) fun p => if p % 64 = i then v (p / 64) else intAt mid p := by
  rw [blockSize] at hmid
  let arr1 := mid.set i (v 0)
  have h1 : arr1.length = 128 := length_set.trans hmid
  refine ⟨arr1.set (64 + i) (v 1), ?_, length_set.trans h1, fun p hp => ?_⟩
  · rw [setInt_eq (by omega), ok_bind, setInt_eq (show 64 + i < arr1.length by omega)]
  · rw [blockSize] at hp
    rw [intAt_set (by omega), show intAt arr1 p = _ from intAt_set (by omega)]
    dsimp only
    by_cases hmod : p % 64 = i
    · have hparts : p = 64 + i ∨ p = i := by omega
      rw [if_pos hmod]
      rcases hparts with rfl | rfl
      · rw [if_pos rfl, show (64 + i) / 64 = 1 by omega]
      · rw [if_neg (by omega), if_pos rfl, div_eq_of_lt hi]
    · rw [if_neg hmod, if_neg (by omega), if_neg (by omega)]

end

/-- What each entry holds after the loop. -/
theorem expand8_eq (hlen : arr.length = blockSize) :
    GivesBlock (expand8 arr) fun p =>
      if p % 32 < 32 then lane8 (intAt arr (p % 32)) (p / 32) else intAt arr p := by
  refine expandLoop_spec hlen (fun mid i hi hmid => ?_) le_rfl (by decide)
  rw [getInt_eq (by rw [hmid, blockSize]; omega), ok_bind]
  exact setFourths_spec hmid hi (lane8 (intAt mid i))

/-- What each entry holds after the loop. -/
theorem expand16_eq (hlen : arr.length = blockSize) :
    GivesBlock (expand16 arr) fun p =>
      if p % 64 < 64 then lane16 (intAt arr (p % 64)) (p / 64) else intAt arr p := by
  refine expandLoop_spec hlen (fun mid i hi hmid => ?_) le_rfl (by decide)
  rw [getInt_eq (by rw [hmid, blockSize]; omega), ok_bind]
  exact setHalves_spec hmid hi (lane16 (intAt mid i))

end

/-! ## Blocks -/

variable {s : Shape} {block arr : List I32}

theorem intAt_lt {bound : Nat} (hbound : 0 < bound) (h : ∀ value ∈ block, value.toNat < bound)
    (i : Nat) : (intAt block i).toNat < bound := by
  rcases lt_or_ge i block.length with hi | hi
  · rw [intAt_eq_getElem hi]
    exact h _ (getElem_mem hi)
  · rw [intAt_eq_getElem?, getElem?_eq_none hi]
    exact hbound

/-- Collapsing a block of small integers. -/
theorem collapse_spec (hlen : block.length = blockSize)
    (hsmall : ∀ value ∈ block, value.toNat < 2 ^ s.bits) :
    ∃ arr, collapse s.size block = .ok arr ∧ Values s arr ∧ arr.length = blockSize ∧
      Collapsed s.size block arr := by
  have hat := intAt_lt (Nat.two_pow_pos s.bits) hsmall
  have hlane (i : Nat) : (intAt block i).toNat < 2 ^ s.size :=
    (hat i).trans_le (Nat.pow_le_pow_right (by decide) s.bits_le)
  have hints : s.ints = 4 * s.size := rfl
  rw [collapse]
  rcases s.lanes with hsize | hsize | hsize
  · rw [if_pos hsize]
    rw [hsize] at hlane
    obtain ⟨arr, hrun, hlen', heq⟩ := collapse8_eq hlen
    refine ⟨arr, hrun, ⟨by rw [hlen', hints, hsize]; decide, fun i => ?_⟩,
      hlen', fun i hi k hk => ?_⟩
    · rw [heq i, hsize]
      split
      · exact narrow_join8 (hat _) (hat _) (hat _) (hat _)
      · exact narrow_of_lt (hat i)
    · rw [hsize] at hi hk ⊢
      rw [heq i, if_pos hi]
      have hlanes := laneOf_sum8 (hlane (32 + i)) (hlane (64 + i)) (hlane (96 + i))
        (toNat_join8 (hlane i) (hlane (32 + i)) (hlane (64 + i)) (hlane (96 + i)))
      match k, hk with
      | 0, _ =>
        rw [zero_mul, zero_add]
        exact hlanes.1
      | 1, _ => exact hlanes.2.1
      | 2, _ => exact hlanes.2.2.1
      | 3, _ => exact hlanes.2.2.2
  · rw [if_neg (by omega), if_pos hsize]
    rw [hsize] at hlane
    obtain ⟨arr, hrun, hlen', heq⟩ := collapse16_eq hlen
    refine ⟨arr, hrun, ⟨by rw [hlen', hints, hsize]; decide, fun i => ?_⟩,
      hlen', fun i hi k hk => ?_⟩
    · rw [heq i, hsize]
      split
      · exact narrow_join16 (hat _) (hat _)
      · exact narrow_of_lt (hat i)
    · rw [hsize] at hi hk ⊢
      rw [heq i, if_pos hi]
      have hlanes := laneOf_sum16 (hlane (64 + i)) (toNat_join16 (hlane i) (hlane (64 + i)))
      match k, hk with
      | 0, _ =>
        rw [zero_mul, zero_add]
        exact hlanes.1
      | 1, _ => exact hlanes.2
  · rw [if_neg (by omega), if_neg (by omega)]
    refine ⟨block, rfl, ⟨by rw [hlen, hints, hsize]; decide, fun i => narrow_of_lt (hat i)⟩, hlen,
      fun i hi k hk => ?_⟩
    rw [hsize] at hlane hk ⊢
    obtain rfl : k = 0 := lt_one_iff.mp hk
    rw [zero_mul, zero_add]
    exact (congrArg (· % 2 ^ 32) (Nat.div_one _)).trans (mod_eq_of_lt (hlane i))

/-- Expanding takes the lanes out. -/
theorem expand_spec (s : Shape) (hlen : arr.length = blockSize) :
    ∃ out, expand s.size arr = .ok out ∧ out.length = blockSize ∧
      ∀ p < blockSize, (intAt out p).toNat = laneOf s.size (intAt arr (p % s.ints))
        (p / s.ints) := by
  rw [expand, Shape.ints]
  rcases s.lanes with hsize | hsize | hsize
  · rw [if_pos hsize, hsize]
    obtain ⟨out, hrun, hlen', heq⟩ := expand8_eq hlen
    refine ⟨out, hrun, hlen', fun p hp => ?_⟩
    rw [heq p hp]
    dsimp only
    rw [if_pos (mod_lt _ (by decide))]
    exact toNat_lane8 _ (by rw [blockSize] at hp; omega)
  · rw [if_neg (by omega), if_pos hsize, hsize]
    obtain ⟨out, hrun, hlen', heq⟩ := expand16_eq hlen
    refine ⟨out, hrun, hlen', fun p hp => ?_⟩
    rw [heq p hp]
    dsimp only
    rw [if_pos (mod_lt _ (by decide))]
    exact toNat_lane16 _ (by rw [blockSize] at hp; omega)
  · rw [if_neg (by omega), if_neg (by omega), hsize]
    refine ⟨arr, rfl, hlen, fun p hp => ?_⟩
    rw [blockSize] at hp
    rw [mod_eq_of_lt hp, div_eq_of_lt hp]
    exact ((congrArg (· % 2 ^ 32) (Nat.div_one _)).trans (mod_eq_of_lt (intAt arr p).isLt)).symm

/-- Words with the lanes of a collapsed block expand to the block. -/
theorem expand_of_collapsed (hlen : arr.length = blockSize) (hblock : block.length = blockSize)
    (h : Collapsed s.size block arr) : expand s.size arr = .ok block := by
  obtain ⟨out, hrun, houtLen, hat⟩ := expand_spec s hlen
  rw [hrun]
  congr 1
  refine ext_intAt (houtLen.trans hblock.symm) fun p hp => BitVec.eq_of_toNat_eq ?_
  rw [houtLen] at hp
  have hpos : 0 < s.ints := mul_pos (by decide) s.size_pos
  rw [hat p hp, h (p % s.ints) (mod_lt _ hpos) (p / s.ints) ?_]
  · rw [show 4 * s.size = s.ints from rfl, Nat.mul_comm, div_add_mod]
  · rw [Shape.ints, Nat.div_lt_iff_lt_mul (mul_pos (by decide) s.size_pos)]
    rw [blockSize] at hp
    rcases s.lanes with hsize | hsize | hsize <;> rw [hsize] <;> omega

end ForUtil

end RLucene.Codecs.Lucene101
