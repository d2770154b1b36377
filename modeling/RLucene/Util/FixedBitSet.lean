import RLucene.Search.DocIdSetIterator

/-!
# Fixed bit sets

`FixedBitSet` and the `BitSetIterator` over it. The set is specified by the increasing list of its
positions: `set` and `clearRange` change single positions, and the word scan of `nextSetBitImpl`,
with its separate first word and its groups of sixteen words, finds the least position from a given
one on.
-/

namespace RLucene.Util

open List Lib Store Search

/-- The number of 64-bit words that hold the given number of bits. -/
def bits2words (numBits : Nat) : Nat :=
  (numBits + 63) / 64

/-- A bit set of a fixed number of bits. The word array may be longer than needed. -/
structure FixedBitSet where
  bits : List Word
  numBits : Nat
  words_le : bits2words numBits ≤ bits.length

variable {bits words : List Word} {i p start : Nat}

namespace FixedBitSet

/-- No bit is set. -/
def new (numBits : Nat) : FixedBitSet :=
  ⟨replicate (bits2words numBits) 0, numBits, by simp⟩

/-- Read a word of the array. -/
def wordAt (bits : List Word) (i : Nat) : Result Word :=
  match bits[i]? with
  | some w => .ok w
  | none => .error .indexOutOfBounds

/-- Overwrite a word of the array. -/
def setWord (s : FixedBitSet) (i : Nat) (w : Word) : FixedBitSet :=
  { s with bits := s.bits.set i w, words_le := by simpa using s.words_le }

@[simp] theorem setWord_numBits (s : FixedBitSet) (i : Nat) (w : Word) :
    (s.setWord i w).numBits = s.numBits := rfl

@[simp] theorem setWord_bits (s : FixedBitSet) (i : Nat) (w : Word) :
    (s.setWord i w).bits = s.bits.set i w := rfl

theorem wordAt_eq (h : i < bits.length) : wordAt bits i = .ok bits[i] := by
  rw [wordAt, getElem?_eq_getElem h]

/-- Overwriting a word changes exactly its 64 positions. -/
theorem bitAt_set (h : i < bits.length) (w : Word) (p : Nat) :
    bitAt (bits.set i w) p = if p / 64 = i then w.getLsbD (p % 64) else bitAt bits p := by
  unfold bitAt
  by_cases hp : p / 64 = i
  · simp [hp, h]
  · simp [hp, Ne.symm hp]

theorem bitAt_of_lt (h : p / 64 < bits.length) : bitAt bits p = bits[p / 64].getLsbD (p % 64) := by
  rw [bitAt, getD_eq_getElem _ _ h]

theorem bitAt_getElem (hi : i < bits.length) (hp : p < 64) :
    bitAt bits (64 * i + p) = bits[i].getLsbD p := by
  have hdiv : (64 * i + p) / 64 = i := by omega
  have hmod : (64 * i + p) % 64 = p := by omega
  rw [bitAt_of_lt (by rwa [hdiv])]
  simp only [hdiv, hmod]

/-- Every position of the set lies in a stored word. -/
theorem div_lt_length (s : FixedBitSet) (hp : p < s.numBits) : p / 64 < s.bits.length := by
  have hle := s.words_le
  unfold bits2words at hle
  omega

/-! ## Updates -/

/-- Set a bit. -/
def set (s : FixedBitSet) (i : Nat) : Result FixedBitSet := do
  let wordNum := i >>> 6
  let bitMask : Word := 1#64 <<< (i % 64)
  let word ← wordAt s.bits wordNum
  return s.setWord wordNum (word ||| bitMask)

/-- Clear all bits. -/
def clear (s : FixedBitSet) : FixedBitSet :=
  { s with bits := s.bits.map (fun _ => 0), words_le := by simpa using s.words_le }

/-- Store a word, failing outside the array. -/
def storeWord (s : FixedBitSet) (i : Nat) (w : Word) : Result FixedBitSet :=
  if i < s.bits.length then .ok (s.setWord i w) else .error .indexOutOfBounds

/-- The complement of the mask of the bits from the start index on. -/
def startMask (startIndex : Nat) : Word :=
  ~~~(BitVec.allOnes 64 <<< (startIndex % 64))

/-- The complement of the mask of the bits below the end index. -/
def endMask (endIndex : Nat) : Word :=
  ~~~(BitVec.allOnes 64 >>> ((2 ^ 64 - endIndex % 2 ^ 64) % 2 ^ 64 &&& 63))

/-- Clear a range of bits. -/
def clearRange (s : FixedBitSet) (startIndex endIndex : Nat) : Result FixedBitSet :=
  if endIndex ≤ startIndex then .ok s
  else do
    let startWord := startIndex >>> 6
    let endWord := (endIndex - 1) >>> 6
    let first ← wordAt s.bits startWord
    if startWord = endWord then
      return s.setWord startWord (first &&& (startMask startIndex ||| endMask endIndex))
    let s := s.setWord startWord (first &&& startMask startIndex)
    let s ← (range' (startWord + 1) (endWord - (startWord + 1))).foldlM
      (fun s i => s.storeWord i 0) s
    let last ← wordAt s.bits endWord
    return s.setWord endWord (last &&& endMask endIndex)

theorem shiftRight_six (n : Nat) : n >>> 6 = n / 64 := by
  rw [Nat.shiftRight_eq_div_pow]

/-- Setting a bit of a word adds one position. -/
theorem bitAt_set_bit (hi : i / 64 < bits.length) (p : Nat) :
    bitAt (bits.set (i / 64) (bits[i / 64] ||| 1#64 <<< (i % 64))) p =
      (bitAt bits p || decide (p = i)) := by
  rw [bitAt_set hi]
  split
  · rename_i hp
    rw [BitVec.getLsbD_or, getLsbD_bit (Nat.mod_lt i (by omega))]
    have hword : bitAt bits p = bits[i / 64].getLsbD (p % 64) := by
      rw [bitAt_of_lt (by omega)]
      simp only [hp]
    rw [hword]
    congr 1
    simp only [decide_eq_decide]
    omega
  · rename_i hp
    have hne : p ≠ i := by
      rintro rfl
      exact hp rfl
    simp [hne]

/-- `set` adds one position. -/
theorem set_ok (s : FixedBitSet) (hi : i < s.numBits) :
    ∃ s', s.set i = .ok s' ∧ s'.numBits = s.numBits ∧ s'.bits.length = s.bits.length ∧
      ∀ p, bitAt s'.bits p = (bitAt s.bits p || decide (p = i)) := by
  have hlen := s.div_lt_length hi
  refine ⟨s.setWord (i / 64) (s.bits[i / 64] ||| 1#64 <<< (i % 64)), ?_, rfl, by simp,
    bitAt_set_bit hlen⟩
  simp only [set, shiftRight_six, wordAt_eq hlen, ok_bind, pure_eq_ok]

/-- All bits are cleared. -/
theorem clear_bitAt (s : FixedBitSet) (p : Nat) : bitAt s.clear.bits p = false := by
  unfold bitAt clear
  cases s.bits[p / 64]? <;> simp

theorem storeWord_ok {s : FixedBitSet} (w : Word) (h : i < s.bits.length) :
    s.storeWord i w = .ok (s.setWord i w) := by
  rw [storeWord, if_pos h]

/-- Zeroing the words of a range clears exactly their positions. -/
private theorem foldlM_storeWord_zero (start n : Nat) (s : FixedBitSet)
    (h : start + n ≤ s.bits.length) :
    ∃ s', (range' start n).foldlM (fun s i => s.storeWord i 0) s = .ok s' ∧
      s'.numBits = s.numBits ∧ s'.bits.length = s.bits.length ∧
      ∀ p, bitAt s'.bits p =
        (bitAt s.bits p && !(decide (start ≤ p / 64) && decide (p / 64 < start + n))) := by
  induction n generalizing start s with
  | zero =>
    refine ⟨s, rfl, rfl, rfl, fun p => ?_⟩
    have : (decide (start ≤ p / 64) && decide (p / 64 < start + 0)) = false := by
      simp only [Bool.and_eq_false_iff, decide_eq_false_iff_not]
      omega
    rw [this]
    simp
  | succ n ih =>
    obtain ⟨s', hfold, hnum, hlen, hbits⟩ := ih (start + 1) (s.setWord start 0) (by simp; omega)
    refine ⟨s', ?_, hnum, by simpa using hlen, fun p => ?_⟩
    · rw [range'_succ, foldlM_cons, storeWord_ok 0 (by omega), ok_bind, hfold]
    · rw [hbits, setWord_bits, bitAt_set (by omega)]
      by_cases hp : p / 64 = start
      · simp [hp]
      · rw [if_neg hp]
        have hiff : start ≤ p / 64 ↔ start + 1 ≤ p / 64 := by omega
        have hiff' : p / 64 < start + 1 + n ↔ p / 64 < start + (n + 1) := by omega
        simp only [hiff, hiff']

/-- The bits before the range. -/
theorem getLsbD_startMask (hp : p < 64) : (startMask i).getLsbD p = decide (p < i % 64) := by
  rw [startMask, BitVec.getLsbD_not, BitVec.getLsbD_shiftLeft, BitVec.getLsbD_allOnes]
  by_cases h : p < i % 64
  · simp [hp, h]
  · have : p - i % 64 < 64 := by omega
    simp [hp, h, this]

/-- The bits behind the range. -/
theorem getLsbD_endMask {e : Nat} (he : 0 < e) (hp : p < 64) :
    (endMask e).getLsbD p = decide ((e - 1) % 64 < p) := by
  have hshift : ((2 ^ 64 - e % 2 ^ 64) % 2 ^ 64 &&& 63) = 63 - (e - 1) % 64 := by
    rw [show 63 = 2 ^ 6 - 1 by norm_num, Nat.and_two_pow_sub_one_eq_mod]
    omega
  rw [endMask, hshift, BitVec.getLsbD_not, BitVec.getLsbD_ushiftRight, BitVec.getLsbD_allOnes]
  by_cases h : (e - 1) % 64 < p
  · have : ¬ (63 - (e - 1) % 64 + p < 64) := by omega
    simp [hp, h, this]
  · have : 63 - (e - 1) % 64 + p < 64 := by omega
    simp [hp, h, this]

private theorem outside_range {a b : Nat} (h : p < a ∨ b ≤ p) (bit : Bool) :
    (bit && !(decide (a ≤ p) && decide (p < b))) = bit := by
  have : (decide (a ≤ p) && decide (p < b)) = false := by
    simp only [Bool.and_eq_false_iff, decide_eq_false_iff_not]
    omega
  rw [this, Bool.not_false, Bool.and_true]

/-- `clearRange` removes exactly the positions of the range. -/
theorem clearRange_ok (s : FixedBitSet) {startIndex endIndex : Nat} (hend : endIndex ≤ s.numBits) :
    ∃ s', s.clearRange startIndex endIndex = .ok s' ∧ s'.numBits = s.numBits ∧
      s'.bits.length = s.bits.length ∧
      ∀ p, bitAt s'.bits p =
        (bitAt s.bits p && !(decide (startIndex ≤ p) && decide (p < endIndex))) := by
  by_cases hle : endIndex ≤ startIndex
  · refine ⟨s, by rw [clearRange, if_pos hle], rfl, rfl, fun p => ?_⟩
    rw [outside_range (by omega)]
  have hlenS := s.div_lt_length (show startIndex < s.numBits by omega)
  have hlenE := s.div_lt_length (show endIndex - 1 < s.numBits by omega)
  have hmod (p : Nat) : p % 64 < 64 := Nat.mod_lt p (by omega)
  by_cases hsame : startIndex / 64 = (endIndex - 1) / 64
  · -- the range lies in one word, and both masks apply to it
    refine ⟨s.setWord (startIndex / 64) (s.bits[startIndex / 64] &&&
      (startMask startIndex ||| endMask endIndex)), ?_, rfl, by simp, fun p => ?_⟩
    · simp only [clearRange, if_neg hle, shiftRight_six, wordAt_eq hlenS, ok_bind, if_pos hsame,
        pure_eq_ok]
    · rw [setWord_bits, bitAt_set hlenS]
      split
      · rename_i hp
        rw [BitVec.getLsbD_and, BitVec.getLsbD_or, getLsbD_startMask (hmod p),
          getLsbD_endMask (by omega) (hmod p), bitAt_of_lt (by omega)]
        simp only [hp]
        congr 1
        rw [Bool.eq_iff_iff]
        simp only [Bool.or_eq_true, decide_eq_true_eq, Bool.not_eq_true', Bool.and_eq_false_iff,
          decide_eq_false_iff_not]
        omega
      · rw [outside_range (by omega)]
  · -- the first and last word are masked and those between them zeroed
    obtain ⟨s₂, hfold, hnum, hlen, hbits⟩ := foldlM_storeWord_zero (startIndex / 64 + 1)
      ((endIndex - 1) / 64 - (startIndex / 64 + 1))
      (s.setWord (startIndex / 64) (s.bits[startIndex / 64] &&& startMask startIndex))
      (by simp; omega)
    have hlen₂ : s₂.bits.length = s.bits.length := by simpa using hlen
    have hlast : (endIndex - 1) / 64 < s₂.bits.length := by omega
    refine ⟨s₂.setWord ((endIndex - 1) / 64) (s₂.bits[(endIndex - 1) / 64] &&& endMask endIndex),
      ?_, by simpa using hnum, by simpa using hlen, fun p => ?_⟩
    · simp only [clearRange, if_neg hle, shiftRight_six, wordAt_eq hlenS,
        ok_bind, if_neg hsame, hfold, wordAt_eq hlast, pure_eq_ok]
    · have hword : bitAt s₂.bits p = (bitAt s.bits p && !(decide (startIndex ≤ p) &&
          decide (p / 64 < (endIndex - 1) / 64))) := by
        rw [hbits, setWord_bits, bitAt_set hlenS]
        split
        · rename_i hp
          rw [BitVec.getLsbD_and, getLsbD_startMask (hmod p), bitAt_of_lt (by omega)]
          simp only [hp, Bool.and_assoc]
          congr 1
          rw [Bool.eq_iff_iff]
          simp only [Bool.and_eq_true, decide_eq_true_eq, Bool.not_eq_true',
            Bool.and_eq_false_iff, decide_eq_false_iff_not]
          omega
        · congr 1
          rw [Bool.eq_iff_iff]
          simp only [Bool.not_eq_true', Bool.and_eq_false_iff, decide_eq_false_iff_not]
          omega
      rw [setWord_bits, bitAt_set hlast]
      split
      · rename_i hp
        rw [BitVec.getLsbD_and, getLsbD_endMask (by omega) (hmod p)]
        rw [bitAt_of_lt (by omega)] at hword
        simp only [hp] at hword
        rw [hword, Bool.and_assoc]
        congr 1
        rw [Bool.eq_iff_iff]
        simp only [Bool.and_eq_true, decide_eq_true_eq, Bool.not_eq_true', Bool.and_eq_false_iff,
          decide_eq_false_iff_not]
        omega
      · rw [hword]
        congr 1
        rw [Bool.eq_iff_iff]
        simp only [Bool.not_eq_true', Bool.and_eq_false_iff, decide_eq_false_iff_not]
        omega

/-! ## The scan for the next set bit -/

/-- The lowest set bit of the first nonzero word; the words are numbered from `i`. -/
def scanWords (i : Nat) : List Word → Option Nat
  | [] => none
  | word :: words =>
    if word ≠ 0 then some ((i <<< 6) + trailingZeros word) else scanWords (i + 1) words

/-- Scan group by group. A full group whose words are all zero is skipped by one test. -/
def scanGroups (i : Nat) : List (List Word) → Option Nat
  | [] => none
  | group :: groups =>
    if group.length < 16 ∨ group.foldl (fun all word => all ||| word) 0 ≠ 0 then
      match scanWords i group with
      | some p => some p
      | none => scanGroups (i + group.length) groups
    else scanGroups (i + group.length) groups

/-- The scan word by word, for the indices that the groups do not cover. -/
def scanFrom (bits : List Word) (i : Nat) : Nat → Result Nat
  | 0 => .ok noMoreDocs
  | n + 1 => do
    let word ← wordAt bits i
    if word ≠ 0 then return (i <<< 6) + trailingZeros word
    else scanFrom bits (i + 1) n

/-- The next bit that is set, word by word. -/
def nextSetBitImpl (s : FixedBitSet) (start upperBound : Nat) : Result Nat := do
  let i := start >>> 6
  let word ← wordAt s.bits i
  let word := word.sshiftRight (start % 64)
  if word ≠ 0 then return start + trailingZeros word
  let limit :=
    if upperBound = s.numBits then bits2words s.numBits else bits2words upperBound
  let i := i + 1
  let next ← if i < limit then wordAt s.bits i else pure 0
  if next ≠ 0 then return (i <<< 6) + trailingZeros next
  let i := if i < limit then i + 1 else i
  let scanLimit := min limit s.bits.length
  let region := (s.bits.take scanLimit).drop (min i scanLimit)
  match scanGroups i (chunks 16 region) with
  | some p => return p
  | none =>
    let i := i + region.length
    scanFrom s.bits i (limit - i)

/-- The next bit that is set before `last`. -/
def nextSetBitRange (s : FixedBitSet) (start last : Nat) : Result Nat := do
  let res ← s.nextSetBitImpl start last
  return if res < last then res else noMoreDocs

/-- The next bit that is set. -/
def nextSetBit (s : FixedBitSet) (index : Nat) : Result Nat :=
  s.nextSetBitRange index s.numBits

/-- The scan finds the first bit that is set. -/
theorem scanWords_eq (i : Nat) (words : List Word) :
    scanWords i words = (positions words).head?.map (64 * i + ·) := by
  induction words generalizing i with
  | nil => rfl
  | cons word words ih =>
    rw [scanWords, positions]
    by_cases hw : word = 0
    · rw [if_neg (by simpa using hw), ih, setBits_eq_nil_iff.mpr hw, nil_append, head?_map,
        Option.map_map]
      congr 1
      funext p
      simp only [Function.comp_apply]
      ring
    · rw [if_pos hw, setBits_eq_cons hw, cons_append, head?_cons, Option.map_some, Nat.shiftLeft_eq]
      congr 1
      ring

/-- Some words after others. -/
theorem scanWords_append (i : Nat) (a b : List Word) :
    scanWords i (a ++ b) = (scanWords i a).or (scanWords (i + a.length) b) := by
  induction a generalizing i with
  | nil => rfl
  | cons word a ih =>
    rw [cons_append, scanWords, scanWords, ih, length_cons,
      show i + 1 + a.length = i + (a.length + 1) by ring]
    split <;> rfl

/-- A disjunction of words is zero only if every word is. -/
private theorem foldl_or_eq_zero {acc : Word}
    (h : words.foldl (fun all word => all ||| word) acc = 0) :
    acc = 0 ∧ ∀ word ∈ words, word = 0 := by
  induction words generalizing acc with
  | nil => exact ⟨h, by simp⟩
  | cons word words ih =>
    obtain ⟨hor, hrest⟩ := ih h
    obtain ⟨hacc, hword⟩ := BitVec.or_eq_zero_iff.mp hor
    refine ⟨hacc, fun v hv => ?_⟩
    rcases mem_cons.mp hv with rfl | hv
    · exact hword
    · exact hrest v hv

private theorem scanWords_zero (i : Nat) (h : ∀ word ∈ words, word = 0) :
    scanWords i words = none := by
  induction words generalizing i with
  | nil => rfl
  | cons word words ih =>
    rw [scanWords, if_neg (by simpa using h word (by simp))]
    exact ih (i + 1) (forall_mem_cons.mp h).2

/-- Skipping all-zero groups does not change what is found. -/
theorem scanGroups_eq (i : Nat) (groups : List (List Word)) :
    scanGroups i groups = scanWords i groups.flatten := by
  induction groups generalizing i with
  | nil => rfl
  | cons group groups ih =>
    rw [scanGroups, flatten_cons, scanWords_append, ih]
    split
    · cases scanWords i group <;> rfl
    · rename_i hskip
      have hzero := (foldl_or_eq_zero (by_contra (fun h => hskip (.inr h)))).2
      rw [scanWords_zero i hzero]
      rfl

/-- An arithmetic shift keeps the trailing zeros of the logical one. -/
theorem sshiftRight_scan (w : Word) {k : Nat} (hk : k < 64) :
    (w.sshiftRight k = 0 ↔ w >>> k = 0) ∧
      (w >>> k ≠ 0 → trailingZeros (w.sshiftRight k) = trailingZeros (w >>> k)) := by
  have hlow {p : Nat} (hp : k + p < 64) : (w.sshiftRight k).getLsbD p = (w >>> k).getLsbD p := by
    rw [BitVec.getLsbD_sshiftRight, BitVec.getLsbD_ushiftRight, if_pos hp]
    simp only [Bool.and_eq_right_iff_imp, Bool.not_eq_true', decide_eq_false_iff_not]
    omega
  have htz (hne : w >>> k ≠ 0) : trailingZeros (w.sshiftRight k) = trailingZeros (w >>> k) := by
    have hmem := trailingZeros_mem hne
    have hbound := lt_of_mem_setBits (mem_setBits_ushiftRight.mp hmem)
    apply trailingZeros_eq_of_least
    · rw [mem_setBits, hlow hbound, ← mem_setBits]
      exact hmem
    · intro p hp hcontra
      rw [mem_setBits, hlow (by omega), ← mem_setBits] at hcontra
      exact absurd (trailingZeros_le hcontra) (by omega)
  refine ⟨⟨fun hzero => ?_, fun hzero => ?_⟩, htz⟩
  · by_contra hne
    have hmem := trailingZeros_mem hne
    have hbound := lt_of_mem_setBits (mem_setBits_ushiftRight.mp hmem)
    rw [mem_setBits, ← hlow hbound, hzero] at hmem
    simp at hmem
  · -- the sign bit is one of the bits the logical shift keeps
    have hmsb : w.msb = false := by
      have h63 := congrArg (fun v => v.getLsbD (63 - k)) hzero
      simp only [BitVec.getLsbD_ushiftRight, show k + (63 - k) = 63 by omega] at h63
      rw [BitVec.msb_eq_getLsbD_last]
      simpa using h63
    apply BitVec.eq_of_getLsbD_eq
    intro p _
    by_cases hkp : k + p < 64
    · rw [hlow hkp, hzero]
    · rw [BitVec.getLsbD_sshiftRight, if_neg hkp, hmsb]
      simp

/-- Searching the positions from a point on is searching its word and then the words after it. -/
theorem find_positions (h : start / 64 < bits.length) :
    (positions bits).find? (start ≤ ·) =
      if bits[start / 64] >>> (start % 64) = 0 then
        scanWords (start / 64 + 1) (bits.drop (start / 64 + 1))
      else some (start + trailingZeros (bits[start / 64] >>> (start % 64))) := by
  have hbefore : (positions (bits.take (start / 64))).find? (start ≤ ·) = none := by
    rw [find?_eq_none]
    intro p hp
    have := lt_of_mem_positions hp
    rw [length_take] at this
    simp only [decide_eq_true_eq]
    omega
  have hword : ((setBits bits[start / 64]).map (64 * (start / 64) + ·)).find? (start ≤ ·) =
      ((setBits bits[start / 64]).find? (start % 64 ≤ ·)).map (64 * (start / 64) + ·) := by
    rw [find?_map]
    congr 2
    funext p
    simp only [Function.comp_apply, decide_eq_decide]
    omega
  have hafter : ((positions (bits.drop (start / 64 + 1))).map (64 * (start / 64 + 1) + ·)).find?
      (start ≤ ·) = scanWords (start / 64 + 1) (bits.drop (start / 64 + 1)) := by
    rw [scanWords_eq]
    cases positions (bits.drop (start / 64 + 1)) with
    | nil => rfl
    | cons p rest =>
      rw [map_cons, find?_cons_of_pos]
      · rfl
      · simp only [decide_eq_true_eq]
        omega
  rw [positions_split h, find?_append, find?_append, hbefore, hword, hafter, find_setBits]
  split
  · rfl
  · rw [Option.map_some, Option.some_or, Option.none_or]
    congr 1
    omega

/-- The scan finds the least position from the start on among the words below the limit. -/
theorem nextSetBitImpl_eq (s : FixedBitSet) {upperBound : Nat} (hstart : start < upperBound)
    (hupper : upperBound ≤ s.numBits) :
    s.nextSetBitImpl start upperBound =
      .ok (((positions (s.bits.take (bits2words upperBound))).find? (start ≤ ·)).getD
        noMoreDocs) := by
  obtain ⟨limit, hlimit⟩ : ∃ limit, limit = bits2words upperBound := ⟨_, rfl⟩
  have hselect : (if upperBound = s.numBits then bits2words s.numBits else bits2words upperBound) =
      limit := by
    split
    · rename_i heq
      rw [hlimit, heq]
    · exact hlimit.symm
  have hlen : limit ≤ s.bits.length := by
    have := s.words_le
    unfold bits2words at this hlimit
    omega
  have hfirst : start / 64 < limit := by
    unfold bits2words at hlimit
    omega
  have htake : (s.bits.take limit).length = limit := by
    rw [length_take]
    omega
  have hword : start / 64 < (s.bits.take limit).length := by omega
  have hshift := sshiftRight_scan s.bits[start / 64] (Nat.mod_lt start (by omega : 0 < 64))
  rw [← hlimit, find_positions hword, getElem_take]
  simp only [nextSetBitImpl, shiftRight_six, wordAt_eq (show start / 64 < s.bits.length by omega),
    ok_bind, pure_eq_ok, hselect]
  by_cases hfound : s.bits[start / 64] >>> (start % 64) = 0
  · rw [if_neg (by simpa using hshift.1.mpr hfound), if_pos hfound]
    by_cases hnext : start / 64 + 1 < limit
    · -- the second word is tested on its own, the others in groups
      have hdrop : (s.bits.take limit).drop (start / 64 + 1) =
          s.bits[start / 64 + 1] :: (s.bits.take limit).drop (start / 64 + 1 + 1) := by
        rw [drop_eq_getElem_cons (by omega), getElem_take]
      rw [if_pos hnext, if_pos hnext, wordAt_eq (by omega), ok_bind, hdrop, scanWords]
      split
      · rfl
      · rw [Nat.min_eq_left hlen, Nat.min_eq_left (by omega), scanGroups_eq,
          chunks_flatten (by omega)]
        cases scanWords (start / 64 + 1 + 1) ((s.bits.take limit).drop (start / 64 + 1 + 1)) with
        | some p => rfl
        | none =>
          have hdone : limit - (start / 64 + 1 + 1 +
              ((s.bits.take limit).drop (start / 64 + 1 + 1)).length) = 0 := by
            rw [length_drop, htake]
            omega
          simp only [hdone, scanFrom, Option.getD_none]
    · have hempty : (s.bits.take limit).drop (start / 64 + 1) = [] := by
        rw [drop_eq_nil_iff, htake]
        omega
      have hdone : limit - (start / 64 + 1 + ([] : List Word).length) = 0 := by
        omega
      rw [if_neg hnext, if_neg hnext, if_neg (by simp), Nat.min_eq_left hlen,
        show min (start / 64 + 1) limit = start / 64 + 1 by omega, hempty, scanGroups_eq,
        chunks_flatten (by omega)]
      simp only [scanWords, hdone, scanFrom, Option.getD_none]
  · rw [if_pos (by simpa using mt hshift.1.mp hfound), if_neg hfound, hshift.2 hfound]
    rfl

/-- In an increasing list the bounded search is the unbounded one with its result checked. -/
private theorem find_range {l : List Nat} (hl : Increasing l) (start last : Nat) :
    l.find? (fun p => start ≤ p ∧ p < last) = (l.find? (start ≤ ·)).filter (· < last) := by
  induction l with
  | nil => rfl
  | cons a l ih =>
    obtain ⟨ha, hl⟩ := pairwise_cons.mp hl
    by_cases hstart : start ≤ a
    · have hfound : (a :: l).find? (start ≤ ·) = some a :=
        find?_cons_of_pos (by simpa using hstart)
      rw [hfound, Option.filter_some]
      by_cases hlast : a < last
      · rw [find?_cons_of_pos (by simp [hstart, hlast]), if_pos (by simpa using hlast)]
      · rw [find?_cons_of_neg (by simp [hlast]), if_neg (by simpa using hlast), find?_eq_none]
        intro p hp
        have := ha p hp
        simp only [decide_eq_true_eq, not_and]
        omega
    · have hskip : (a :: l).find? (start ≤ ·) = l.find? (start ≤ ·) :=
        find?_cons_of_neg (by simpa using hstart)
      rw [hskip, find?_cons_of_neg (by simp [hstart]), ih hl]

/-- `nextSetBitRange` returns the least position of the range, or `noMoreDocs` if it has none. -/
theorem nextSetBitRange_eq (s : FixedBitSet) {last : Nat} (hstart : start < last)
    (hlast : last ≤ s.numBits) :
    s.nextSetBitRange start last =
      .ok (((positions s.bits).find? (fun p => start ≤ p ∧ p < last)).getD noMoreDocs) := by
  have hsplit : positions s.bits = positions (s.bits.take (bits2words last)) ++
      (positions (s.bits.drop (bits2words last))).map
        (64 * (s.bits.take (bits2words last)).length + ·) := by
    rw [← positions_append, take_append_drop]
  have hbound : last ≤ 64 * (s.bits.take (bits2words last)).length := by
    have := s.words_le
    rw [length_take]
    unfold bits2words at this ⊢
    omega
  rw [nextSetBitRange, nextSetBitImpl_eq s hstart hlast, ok_bind, pure_eq_ok,
    find_range (positions_increasing _), hsplit, find?_append]
  cases (positions (s.bits.take (bits2words last))).find? (start ≤ ·) with
  | some p =>
    rw [Option.some_or, Option.getD_some, Option.filter_some]
    by_cases hp : p < last
    · simp [hp]
    · simp [hp]
  | none =>
    -- what the later words hold lies beyond the range
    rw [Option.none_or, Option.getD_none, ite_self]
    cases hfind : ((positions (s.bits.drop (bits2words last))).map
        (64 * (s.bits.take (bits2words last)).length + ·)).find? (start ≤ ·) with
    | none => rfl
    | some p =>
      obtain ⟨q, _, rfl⟩ := mem_map.mp (mem_of_find?_eq_some hfind)
      rw [Option.filter_some, if_neg]
      · rfl
      · simp only [decide_eq_true_eq]
        omega

/-- The next bit that is set. -/
theorem nextSetBit_eq (s : FixedBitSet) (hstart : start < s.numBits)
    (hghost : ∀ p ∈ positions s.bits, p < s.numBits) :
    s.nextSetBit start = .ok (leastFrom (positions s.bits) start) := by
  rw [nextSetBit, nextSetBitRange_eq s hstart le_rfl, find_range (positions_increasing _),
    leastFrom]
  cases hfind : (positions s.bits).find? (start ≤ ·) with
  | none => rfl
  | some p =>
    rw [Option.filter_some, if_pos]
    simpa using hghost p (mem_of_find?_eq_some hfind)

end FixedBitSet

/-! ## Iteration -/

/-- An iterator over the set bits. -/
structure BitSetIterator where
  bits : FixedBitSet
  length : Nat
  doc : Int

namespace BitSetIterator

/-- The cost is nonnegative where the iterator is created here, so creation cannot fail. -/
def new (bits : FixedBitSet) : BitSetIterator :=
  ⟨bits, bits.numBits, -1⟩

/-- Put the iterator on a document. -/
def setDocId (iter : BitSetIterator) (doc : Int) : BitSetIterator :=
  { iter with doc := doc }

/-- The next document from the target on. -/
def advance (iter : BitSetIterator) (target : Int) : Result (Int × BitSetIterator) :=
  if (iter.length : Int) ≤ target then .ok (noMoreDocs, { iter with doc := noMoreDocs })
  else do
    let doc ← iter.bits.nextSetBit target.toNat
    return ((doc : Int), { iter with doc := doc })

/-- The next document. -/
def nextDoc (iter : BitSetIterator) : Result (Int × BitSetIterator) :=
  iter.advance (iter.doc + 1)

/-- `nextDoc` moves to the least position beyond the current document. -/
theorem nextDoc_eq (iter : BitSetIterator) (hlen : iter.length = iter.bits.numBits)
    (hghost : ∀ p ∈ positions iter.bits.bits, p < iter.bits.numBits) (hdoc : -1 ≤ iter.doc) :
    iter.nextDoc = .ok ((leastFrom (positions iter.bits.bits) (iter.doc + 1).toNat : Int),
      iter.setDocId (leastFrom (positions iter.bits.bits) (iter.doc + 1).toNat)) := by
  rw [nextDoc, advance]
  split
  · rw [leastFrom_eq_noMoreDocs]
    · rfl
    · intro p hp
      have := hghost p hp
      omega
  · rw [iter.bits.nextSetBit_eq (by omega) hghost]
    rfl

end BitSetIterator

end RLucene.Util
