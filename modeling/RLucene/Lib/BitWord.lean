import RLucene.Lib.Bytes
import RLucene.Lib.Lists

/-!
# Words as sets of bit positions

A 64-bit word is read as the increasing list of its set bit positions, and a bitmap, a list of
words, as the increasing list of the positions set in it. Counting ones, counting trailing zeros,
clearing the lowest one and shifting are then list operations, and a rank query is a `countP`.
-/

namespace RLucene.Lib

open Nat List

/-! ## Set bits of a number -/

/-- The set bits of `n` below `width`, in increasing order. -/
def bitsBelow (width n : Nat) : List Nat :=
  (range width).filter n.testBit

variable {n p k i : Nat} {w : Word} {ws : List Word}

theorem mem_bitsBelow {width : Nat} : p ∈ bitsBelow width n ↔ p < width ∧ n.testBit p := by
  simp [bitsBelow]

theorem bitsBelow_increasing (width n : Nat) : Increasing (bitsBelow width n) :=
  (Increasing.range width).filter _

/-- The number of set bits below `width`. -/
def popCount (width n : Nat) : Nat :=
  (bitsBelow width n).length

theorem popCount_le (width n : Nat) : popCount width n ≤ width := by
  have h := length_filter_le n.testBit (range width)
  rwa [length_range] at h

/-- The bits of a number are its low bits followed by those of the shifted number. -/
theorem bitsBelow_add (low high n : Nat) :
    bitsBelow (low + high) n = bitsBelow low n ++ (bitsBelow high (n >>> low)).map (low + ·) := by
  rw [bitsBelow, range_add, filter_append, bitsBelow, bitsBelow, filter_map]
  congr 2
  apply filter_congr
  intro p _
  simp [testBit_shiftRight]

/-- The bits of two parts. -/
theorem popCount_add (low high n : Nat) :
    popCount (low + high) n = popCount low n + popCount high (n >>> low) := by
  rw [popCount, bitsBelow_add, length_append, length_map, popCount, popCount]

theorem bitsBelow_mod (width n : Nat) : bitsBelow width (n % 2 ^ width) = bitsBelow width n := by
  apply filter_congr
  intro p hp
  simp [testBit_mod_two_pow, mem_range.mp hp]

/-- The ones of a word are the ones of its bytes. -/
theorem sum_popCount_leBytes (k n : Nat) :
    ((leBytes k n).map (fun b => popCount 8 b.toNat)).sum = popCount (8 * k) n := by
  induction k generalizing n with
  | zero => rfl
  | succ k ih =>
    have hbyte : (UInt8.ofNat n).toNat = n % 2 ^ 8 := by simp
    rw [leBytes, map_cons, sum_cons, ih, hbyte, popCount, bitsBelow_mod, ← popCount,
      show 8 * (k + 1) = 8 + 8 * k by ring, popCount_add, shiftRight_eq_div_pow]

/-! ## Words -/

/-- A 64-bit word. -/
abbrev Word := BitVec 64

/-- The set bits of a word, in increasing order. -/
def setBits (w : Word) : List Nat :=
  bitsBelow 64 w.toNat

/-- How many bits are set. -/
def countOnes (w : Word) : Nat :=
  popCount 64 w.toNat

/-- The position of the lowest set bit, and 64 for the zero word. -/
def trailingZeros (w : Word) : Nat :=
  (setBits w).headD 64

theorem mem_setBits : p ∈ setBits w ↔ w.getLsbD p := by
  rw [setBits, mem_bitsBelow]
  constructor
  · exact fun h => h.2
  · exact fun h => ⟨BitVec.lt_of_getLsbD h, h⟩

theorem setBits_increasing (w : Word) : Increasing (setBits w) :=
  bitsBelow_increasing 64 _

theorem lt_of_mem_setBits (h : p ∈ setBits w) : p < 64 :=
  (mem_bitsBelow.mp h).1

theorem setBits_length (w : Word) : (setBits w).length = countOnes w := rfl

theorem countOnes_le (w : Word) : countOnes w ≤ 64 :=
  popCount_le 64 _

theorem setBits_eq_nil_iff : setBits w = [] ↔ w = 0 := by
  constructor
  · intro h
    apply BitVec.eq_of_getLsbD_eq
    intro p _
    have hp : ¬ p ∈ setBits w := by simp [h]
    simpa [mem_setBits] using hp
  · rintro rfl
    simp [setBits, bitsBelow]

/-- A nonzero number is an odd multiple of a power of two, the power of its lowest set bit. -/
private theorem exists_lowest_bit (hk : n.testBit k = true) (hlow : ∀ p < k, n.testBit p = false) :
    ∃ m, n = 2 ^ k * (2 * m + 1) := by
  have hmod : n % 2 ^ k = 0 := by
    apply eq_of_testBit_eq
    intro p
    by_cases hp : p < k
    · simp [testBit_mod_two_pow, hlow p hp]
    · simp [testBit_mod_two_pow, hp]
  obtain ⟨a, rfl⟩ := dvd_of_mod_eq_zero hmod
  rw [testBit_two_pow_mul] at hk
  simp only [ge_iff_le, le_refl, decide_true, Nat.sub_self, Bool.true_and, testBit_zero,
    decide_eq_true_eq] at hk
  exact ⟨a / 2, by congr 1; omega⟩

/-- Subtracting one from a number clears its lowest set bit and leaves the higher ones. -/
private theorem testBit_sub_one {m : Nat} (hp : k ≤ p) :
    (2 ^ k * (2 * m + 1) - 1).testBit p = ((2 * m + 1).testBit (p - k) && decide (k < p)) := by
  have hpow := Nat.two_pow_pos k
  have hsub : 2 ^ k * (2 * m + 1) - 1 = 2 ^ k * (2 * m) + (2 ^ k - 1) := by
    rw [mul_add, mul_one]
    omega
  rw [hsub, testBit_two_pow_mul_add _ (by omega), if_neg (by omega)]
  obtain ⟨j, rfl⟩ := Nat.exists_eq_add_of_le hp
  cases j with
  | zero => simp
  | succ j =>
    rw [Nat.add_sub_cancel_left, testBit_succ, testBit_succ]
    have hdiv : (2 * m + 1) / 2 = 2 * m / 2 := by omega
    simp [hdiv]

/-- The set bits of a nonzero word are its lowest one followed by those of the word with its lowest
one cleared. -/
theorem setBits_eq_cons (hw : w ≠ 0) : setBits w = trailingZeros w :: setBits (w &&& (w - 1)) := by
  obtain ⟨k, tail, hlist⟩ := exists_cons_of_ne_nil (mt setBits_eq_nil_iff.mp hw)
  have hinc : Increasing (k :: tail) := hlist ▸ setBits_increasing w
  have hmin := (pairwise_cons.mp hinc).1
  have hmem (p : Nat) : w.toNat.testBit p ↔ p = k ∨ p ∈ tail := by
    rw [← mem_cons, ← hlist, mem_setBits]
    rfl
  have hlow : ∀ p < k, w.toNat.testBit p = false := by
    intro p hp
    rw [Bool.eq_false_iff, ne_eq, hmem]
    rintro (rfl | htail)
    · omega
    · exact absurd (hmin p htail) (by omega)
  obtain ⟨m, hm⟩ := exists_lowest_bit ((hmem k).mpr (.inl rfl)) hlow
  have hone : (w - 1).toNat = w.toNat - 1 := by
    have hpos : 0 < w.toNat := by
      rw [hm]
      exact mul_pos (Nat.two_pow_pos k) (by omega)
    have hunit : (1 : Word).toNat = 1 := rfl
    rw [BitVec.toNat_sub, hunit]
    omega
  have htail : tail = setBits (w &&& (w - 1)) := by
    refine Increasing.ext (pairwise_cons.mp hinc).2 (setBits_increasing _) fun p => ?_
    rw [mem_setBits, BitVec.getLsbD_and, Bool.and_eq_true, BitVec.getLsbD, BitVec.getLsbD, hone]
    constructor
    · intro hp
      have hlt := hmin p hp
      have hbit := (hmem p).mpr (.inr hp)
      refine ⟨hbit, ?_⟩
      rw [hm, testBit_sub_one (by omega)]
      rw [hm, testBit_two_pow_mul, Bool.and_eq_true] at hbit
      simp [hbit.2, hlt]
    · rintro ⟨hbit, hsub⟩
      rcases (hmem p).mp hbit with rfl | hp
      · rw [hm, testBit_sub_one le_rfl] at hsub
        simp at hsub
      · exact hp
  rw [trailingZeros, hlist, headD_cons, htail]

/-- Clearing the lowest bit leaves one less. -/
theorem countOnes_eq_succ (hw : w ≠ 0) : countOnes w = countOnes (w &&& (w - 1)) + 1 := by
  rw [← setBits_length, setBits_eq_cons hw, length_cons, setBits_length]

/-- The lowest bit is set. -/
theorem trailingZeros_mem (hw : w ≠ 0) : trailingZeros w ∈ setBits w := by
  rw [setBits_eq_cons hw]
  exact mem_cons_self

theorem trailingZeros_lt (hw : w ≠ 0) : trailingZeros w < 64 :=
  lt_of_mem_setBits (trailingZeros_mem hw)

/-- No lower bit is set. -/
theorem trailingZeros_le (hp : p ∈ setBits w) : trailingZeros w ≤ p := by
  have hinc := setBits_increasing w
  rw [trailingZeros]
  cases hlist : setBits w with
  | nil => simp [hlist] at hp
  | cons k tail =>
    rw [hlist] at hp hinc
    rcases mem_cons.mp hp with rfl | htail
    · simp
    · exact le_of_lt ((pairwise_cons.mp hinc).1 p htail)

theorem getLsbD_bit (hk : k < 64) : (1#64 <<< k).getLsbD p = decide (p = k) := by
  rw [BitVec.getLsbD_shiftLeft, BitVec.getLsbD_one, Bool.eq_iff_iff]
  simp only [Bool.and_eq_true, decide_eq_true_eq, Bool.not_eq_true', decide_eq_false_iff_not]
  omega

/-- Adding a bit for each element of a list that passes a test. -/
theorem mem_setBits_foldl {α : Type} {P : α → Prop} [DecidablePred P] {f : α → Nat} {l : List α}
    (hf : ∀ x ∈ l, f x < 64) :
    p ∈ setBits (l.foldl (fun mask x => if P x then mask ||| 1#64 <<< f x else mask) w) ↔
      p ∈ setBits w ∨ ∃ x ∈ l, P x ∧ p = f x := by
  induction l generalizing w with
  | nil => simp
  | cons x l ih =>
    have hstep : p ∈ setBits (if P x then w ||| 1#64 <<< f x else w) ↔
        p ∈ setBits w ∨ P x ∧ p = f x := by
      split
      · rename_i hx
        rw [mem_setBits, BitVec.getLsbD_or, Bool.or_eq_true, getLsbD_bit (hf x mem_cons_self),
          decide_eq_true_eq, ← mem_setBits, and_iff_right hx]
      · rename_i hx
        simp [hx]
    rw [foldl_cons, ih fun y hy => hf y (mem_cons_of_mem x hy), hstep, or_assoc]
    simp only [mem_cons, exists_eq_or_imp]

/-- The mask of the elements of a list that pass a test. -/
theorem mem_setBits_zipIdx {α : Type} {P : α → Prop} [DecidablePred P] {l : List α}
    (hlen : l.length ≤ 64) :
    p ∈ setBits (l.zipIdx.foldl (fun mask x => if P x.1 then mask ||| 1#64 <<< x.2 else mask) 0) ↔
      ∃ x, l[p]? = some x ∧ P x := by
  rw [mem_setBits_foldl fun x hx => (snd_lt_of_mem_zipIdx hx).trans_le (by omega),
    setBits_eq_nil_iff.mpr rfl]
  simp [mem_zipIdx_iff_getElem?]

theorem mem_setBits_ushiftRight : p ∈ setBits (w >>> k) ↔ k + p ∈ setBits w := by
  rw [mem_setBits, mem_setBits, BitVec.getLsbD_ushiftRight]

theorem and_one_ne_zero : w &&& 1 ≠ 0 ↔ w.getLsbD 0 := by
  constructor
  · intro hne
    by_contra hbit
    apply hne
    apply BitVec.eq_of_getLsbD_eq
    intro i hi
    rw [BitVec.getLsbD_and]
    cases i with
    | zero => rw [Bool.eq_false_of_not_eq_true hbit, Bool.false_and]; rfl
    | succ i => simp [BitVec.getLsbD_one]
  · intro hbit hzero
    have h0 : (w &&& 1).getLsbD 0 = (0 : Word).getLsbD 0 := by rw [hzero]
    rw [BitVec.getLsbD_and, hbit] at h0
    simp at h0

/-- The ones left after a shift are those at or above the shift. -/
theorem countOnes_ushiftRight (w : Word) (k : Nat) :
    countOnes (w >>> k) = (setBits w).countP (k ≤ ·) := by
  have hfilter : (setBits (w >>> k)).map (k + ·) = (setBits w).filter (k ≤ ·) := by
    refine Increasing.ext ((setBits_increasing _).map_add k) ((setBits_increasing w).filter _)
      fun p => ?_
    simp only [mem_map, mem_setBits_ushiftRight, mem_filter, decide_eq_true_eq]
    constructor
    · rintro ⟨a, ha, rfl⟩
      exact ⟨ha, by omega⟩
    · rintro ⟨hp, hk⟩
      exact ⟨p - k, by rwa [Nat.add_sub_cancel' hk], by omega⟩
  rw [← setBits_length, countP_eq_length_filter, ← hfilter, length_map]

/-- The bits below a place, and those from there on. -/
theorem countOnes_eq_countP_add (w : Word) (k : Nat) :
    (setBits w).countP (· < k) + countOnes (w >>> k) = countOnes w := by
  rw [countOnes_ushiftRight, countP_lt_add_countP_le, setBits_length]

/-- A set bit with no set bit below it is the number of trailing zeros. -/
theorem trailingZeros_eq_of_least (hk : k ∈ setBits w) (hlow : ∀ p < k, p ∉ setBits w) :
    trailingZeros w = k := by
  have hle := trailingZeros_le hk
  have hne : w ≠ 0 := by
    rintro rfl
    exact absurd hk (not_mem_nil)
  by_contra hlt
  exact hlow _ (by omega) (trailingZeros_mem hne)

/-- Searching the set bits from a position on is shifting and counting trailing zeros. -/
theorem find_setBits (w : Word) (k : Nat) :
    (setBits w).find? (k ≤ ·) =
      if w >>> k = 0 then none else some (k + trailingZeros (w >>> k)) := by
  split
  · rename_i hzero
    rw [find?_eq_none]
    intro p hp
    have hempty : setBits (w >>> k) = [] := setBits_eq_nil_iff.mpr hzero
    simp only [decide_eq_true_eq, not_le]
    by_contra hge
    have hmem : p - k ∈ setBits (w >>> k) := by
      rw [mem_setBits_ushiftRight, Nat.add_sub_cancel' (by omega)]
      exact hp
    simp [hempty] at hmem
  · rename_i hne
    have hmem := trailingZeros_mem hne
    rw [mem_setBits_ushiftRight] at hmem
    cases hfind : (setBits w).find? (k ≤ ·) with
    | none =>
      rw [find?_eq_none] at hfind
      exact absurd (hfind _ hmem) (by simp)
    | some p =>
      obtain ⟨hk, before, after, hlist, hbefore⟩ := find?_eq_some_iff_append.mp hfind
      simp only [decide_eq_true_eq] at hk
      have hp : p ∈ setBits w := by simp [hlist]
      have hle : trailingZeros (w >>> k) ≤ p - k := by
        apply trailingZeros_le
        rw [mem_setBits_ushiftRight, Nat.add_sub_cancel' hk]
        exact hp
      have hge : p ≤ k + trailingZeros (w >>> k) := by
        have hinc := setBits_increasing w
        rw [hlist, mem_append, mem_cons] at hmem
        rcases hmem with hmem | hmem | hmem
        · have := hbefore _ hmem
          simp at this
        · omega
        · rw [hlist] at hinc
          have htail := (pairwise_append.mp hinc).2.1
          exact le_of_lt ((pairwise_cons.mp htail).1 _ hmem)
      congr 1
      omega

/-! ## Bitmaps -/

/-- The last position of the word of a position. -/
theorem or_63 (n : Nat) : n ||| 63 = 64 * (n / 64) + 63 := by
  have hsplit : n = 2 ^ 6 * (n / 64) ||| n % 64 := by
    rw [← two_pow_add_eq_or_of_lt (mod_lt n (by omega))]
    omega
  have hlow : ∀ r : Fin 64, r.val ||| 63 = 63 := by decide
  rw [hsplit, Nat.or_assoc, hlow ⟨n % 64, mod_lt n (by omega)⟩,
    ← two_pow_add_eq_or_of_lt (by omega : 63 < 2 ^ 6)]
  rw [← hsplit]

/-- The bit at position `p` of a list of words. -/
def bitAt (ws : List Word) (p : Nat) : Bool :=
  (ws.getD (p / 64) 0).getLsbD (p % 64)

/-- The positions set in a list of words, in increasing order. -/
def positions : List Word → List Nat
  | [] => []
  | w :: ws => setBits w ++ (positions ws).map (64 + ·)

theorem bitAt_cons_of_lt (hp : p < 64) : bitAt (w :: ws) p = w.getLsbD p := by
  simp [bitAt, div_eq_of_lt hp, mod_eq_of_lt hp]

theorem bitAt_cons_add : bitAt (w :: ws) (64 + p) = bitAt ws p := by
  simp [bitAt, add_div_left]

theorem mem_positions : p ∈ positions ws ↔ bitAt ws p := by
  induction ws generalizing p with
  | nil => simp [positions, bitAt]
  | cons w ws ih =>
    rw [positions, mem_append, mem_map, mem_setBits]
    by_cases hp : p < 64
    · rw [bitAt_cons_of_lt hp]
      constructor
      · rintro (h | ⟨q, _, rfl⟩)
        · exact h
        · omega
      · exact .inl
    · obtain ⟨q, rfl⟩ := Nat.exists_eq_add_of_le (Nat.le_of_not_lt hp)
      rw [bitAt_cons_add, ← ih]
      constructor
      · rintro (h | ⟨r, hr, heq⟩)
        · exact absurd (BitVec.lt_of_getLsbD h) hp
        · rwa [← Nat.add_left_cancel heq]
      · exact fun h => .inr ⟨q, h, rfl⟩

theorem lt_of_mem_positions (h : p ∈ positions ws) : p < 64 * ws.length := by
  rw [mem_positions, bitAt] at h
  by_contra hge
  have hdiv : ws.length ≤ p / 64 := by omega
  rw [getD_eq_default _ _ hdiv] at h
  simp at h

theorem positions_increasing (ws : List Word) : Increasing (positions ws) := by
  induction ws with
  | nil => exact List.Pairwise.nil
  | cons w ws ih =>
    rw [positions, Increasing, pairwise_append]
    refine ⟨setBits_increasing w, Increasing.map_add ih 64, ?_⟩
    intro a ha b hb
    obtain ⟨c, _, rfl⟩ := mem_map.mp hb
    have := lt_of_mem_setBits ha
    omega

/-- The positions of some words after others. -/
theorem positions_append (a b : List Word) :
    positions (a ++ b) = positions a ++ (positions b).map (64 * a.length + ·) := by
  induction a with
  | nil => simp [positions]
  | cons w a ih =>
    rw [cons_append, positions, positions, ih, map_append, map_add_map_add,
      append_assoc, length_cons, Nat.mul_add_one, add_comm]

/-- How many bits are set. -/
theorem positions_length (ws : List Word) : (positions ws).length = (ws.map countOnes).sum := by
  induction ws with
  | nil => rfl
  | cons w ws ih =>
    rw [positions, length_append, length_map, ih, map_cons, sum_cons, setBits_length]

/-- The words before, at and after an index contribute three consecutive runs of positions. -/
theorem positions_split (hi : i < ws.length) :
    positions ws = positions (ws.take i) ++ ((setBits ws[i]).map (64 * i + ·) ++
      (positions (ws.drop (i + 1))).map (64 * (i + 1) + ·)) := by
  conv_lhs => rw [← take_append_drop i ws, drop_eq_getElem_cons hi]
  rw [positions_append, positions, map_append, map_add_map_add, length_take,
    min_eq_left (le_of_lt hi), Nat.mul_add_one]

/-- The positions below a point of word `i`: those of earlier words and the lower ones of it. -/
theorem countP_positions {j : Nat} (hi : i < ws.length) (hj : j ≤ 64) :
    (positions ws).countP (· < 64 * i + j) =
      (positions (ws.take i)).length + (setBits ws[i]).countP (· < j) := by
  have hbefore : (positions (ws.take i)).countP (· < 64 * i + j) =
      (positions (ws.take i)).length := by
    apply countP_lt_eq_length
    intro p hp
    have := lt_of_mem_positions hp
    rw [length_take] at this
    omega
  have hafter : ((positions (ws.drop (i + 1))).map (64 * (i + 1) + ·)).countP (· < 64 * i + j) =
      0 := by
    apply countP_lt_eq_zero
    intro p hp
    obtain ⟨q, _, rfl⟩ := mem_map.mp hp
    omega
  rw [positions_split hi, countP_append, countP_append, hbefore, hafter, countP_lt_map_add]
  rfl

/-- The positions from a word on are those of the word and those from the next word on. -/
theorem filter_positions (hi : i < ws.length) :
    (positions ws).filter (64 * i ≤ ·) =
      (setBits ws[i]).map (64 * i + ·) ++ (positions ws).filter (64 * (i + 1) ≤ ·) := by
  have hsplit := positions_split hi
  have hbefore (p : Nat) (hp : p ∈ positions (ws.take i)) : p < 64 * i := by
    have := lt_of_mem_positions hp
    rw [length_take] at this
    omega
  have hword (p : Nat) (hp : p ∈ (setBits ws[i]).map (64 * i + ·)) :
      64 * i ≤ p ∧ p < 64 * (i + 1) := by
    obtain ⟨q, hq, rfl⟩ := mem_map.mp hp
    have := lt_of_mem_setBits hq
    omega
  have hafter (p : Nat) (hp : p ∈ (positions (ws.drop (i + 1))).map (64 * (i + 1) + ·)) :
      64 * (i + 1) ≤ p := by
    obtain ⟨q, _, rfl⟩ := mem_map.mp hp
    omega
  have hnone (k : Nat) (hk : i ≤ k) : (positions (ws.take i)).filter (64 * k ≤ ·) = [] := by
    rw [filter_eq_nil_iff]
    intro p hp
    have := hbefore p hp
    simp only [decide_eq_true_eq]
    omega
  have hall (k : Nat) (hk : k ≤ i + 1) :
      ((positions (ws.drop (i + 1))).map (64 * (i + 1) + ·)).filter (64 * k ≤ ·) =
        (positions (ws.drop (i + 1))).map (64 * (i + 1) + ·) := by
    rw [filter_eq_self]
    intro p hp
    have := hafter p hp
    simp only [decide_eq_true_eq]
    omega
  have hself : ((setBits ws[i]).map (64 * i + ·)).filter (64 * i ≤ ·) =
      (setBits ws[i]).map (64 * i + ·) := by
    rw [filter_eq_self]
    intro p hp
    simpa using (hword p hp).1
  have hskip : ((setBits ws[i]).map (64 * i + ·)).filter (64 * (i + 1) ≤ ·) = [] := by
    rw [filter_eq_nil_iff]
    intro p hp
    have := hword p hp
    simp only [decide_eq_true_eq]
    omega
  rw [hsplit, filter_append, filter_append, filter_append, filter_append, hnone i le_rfl,
    hnone (i + 1) (by omega), hall i (by omega), hall (i + 1) le_rfl, hself, hskip]
  simp

/-- The positions of a bitmap, word by word. -/
theorem positions_eq_flatMap (ws : List Word) :
    positions ws = (range ws.length).flatMap
      (fun i => (setBits (ws.getD i 0)).map (64 * i + ·)) := by
  induction ws with
  | nil => rfl
  | cons w ws ih =>
    rw [positions, ih, length_cons, range_succ_eq_map, flatMap_cons, flatMap_map, map_flatMap]
    congr 1
    · simp
    · congr 1
      funext i
      rw [map_map, getD_cons_succ]
      congr 1
      funext p
      simp only [Function.comp_apply, succ_eq_add_one]
      ring

/-- The ones of the first words are the positions below their end. -/
theorem positions_take_length (hi : i ≤ ws.length) :
    (positions (ws.take i)).length = (positions ws).countP (· < 64 * i) := by
  have hlen : (ws.take i).length = i := by
    rw [length_take]
    omega
  have hbefore : (positions (ws.take i)).countP (· < 64 * i) = (positions (ws.take i)).length := by
    apply countP_lt_eq_length
    intro p hp
    have := lt_of_mem_positions hp
    omega
  have hafter : ((positions (ws.drop i)).map (64 * i + ·)).countP (· < 64 * i) = 0 := by
    apply countP_lt_eq_zero
    intro p hp
    obtain ⟨q, _, rfl⟩ := mem_map.mp hp
    omega
  conv_rhs => rw [← take_append_drop i ws]
  rw [positions_append, countP_append, hlen, hbefore, hafter]
  rfl

end RLucene.Lib
