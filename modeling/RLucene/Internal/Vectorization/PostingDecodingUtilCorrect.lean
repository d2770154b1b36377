import Mathlib.Data.List.Basic
import RLucene.Internal.Vectorization.PostingDecodingUtil
import RLucene.Lib.Loops

/-!
# What a split does

All versions of the loop do the same (`splitInts_spec`): every plane has the integers shifted and
masked, and where they were read to they are masked. The loops go over the integers in vectors; what
one vector does is `splitVector_spec`, and `SplitTo` says how far the split has come.
-/

namespace RLucene.Internal.Vectorization

open List Lib Store

/-! ## Slices of integers -/

/-- The integer at an index. -/
def intAt (ints : List I32) (i : Nat) : I32 :=
  ints.getD i 0

section

variable {ints piece : List I32} {i j start count : Nat} {value : I32}

theorem intAt_eq_getElem (h : i < ints.length) : intAt ints i = ints[i] :=
  getD_eq_getElem _ _ h

theorem intAt_eq_getElem? (ints : List I32) (i : Nat) : intAt ints i = ints[i]?.getD 0 :=
  getD_eq_getElem?_getD

/-- Arrays are the same if their entries are. -/
theorem ext_intAt {ints' : List I32} (hlen : ints.length = ints'.length)
    (h : ∀ i < ints.length, intAt ints i = intAt ints' i) : ints = ints' := by
  apply ext_getElem hlen
  intro i hi hi'
  have hat := h i hi
  rwa [intAt_eq_getElem hi, intAt_eq_getElem hi'] at hat

theorem getInt_eq (h : i < ints.length) : getInt ints i = .ok (intAt ints i) := by
  rw [getInt, getElem?_eq_getElem h, intAt_eq_getElem h]

theorem setInt_eq (h : i < ints.length) : setInt ints i value = .ok (ints.set i value) :=
  if_pos h

theorem intAt_set (h : i < ints.length) :
    intAt (ints.set i value) j = if j = i then value else intAt ints j := by
  rw [intAt_eq_getElem?, intAt_eq_getElem?, getElem?_set]
  by_cases hij : i = j
  · subst hij
    rw [if_pos rfl, if_pos rfl, if_pos h, Option.getD_some]
  · rw [if_neg hij, if_neg (Ne.symm hij)]

theorem intAt_append {a b : List I32} {i : Nat} :
    intAt (a ++ b) i = if i < a.length then intAt a i else intAt b (i - a.length) := by
  rw [intAt_eq_getElem?, intAt_eq_getElem?, intAt_eq_getElem?, getElem?_append]
  split <;> rfl

theorem intAt_map (f : I32 → I32) (h : i < ints.length) :
    intAt (ints.map f) i = f (intAt ints i) := by
  rw [intAt_eq_getElem (by rwa [length_map]), getElem_map, intAt_eq_getElem h]

theorem zero_or_int (x : I32) : (0 : I32) ||| x = x :=
  BitVec.zero_or

/-- A slice has the integers from its start on. -/
theorem sliceInts_eq (h : start + count ≤ ints.length) :
    ∃ slice, sliceInts ints start count = .ok slice ∧ slice.length = count ∧
      ∀ k < count, intAt slice k = intAt ints (start + k) := by
  have hlen : ((ints.drop start).take count).length = count := by
    rw [length_take, length_drop]
    omega
  refine ⟨_, if_pos h, hlen, fun k hk => ?_⟩
  rw [intAt_eq_getElem (by omega), intAt_eq_getElem (by omega), getElem_take, getElem_drop]

section

variable (h : start + piece.length ≤ ints.length)

include h

theorem copyInts_eq : copyInts ints start piece = .ok (splice ints start piece) :=
  if_pos h

/-- An entry after a copy. -/
theorem intAt_splice :
    intAt (splice ints start piece) j =
      if start ≤ j ∧ j < start + piece.length then intAt piece (j - start) else intAt ints j := by
  rw [intAt_eq_getElem?, splice_getElem h]
  split <;> rw [intAt_eq_getElem?]

theorem intAt_splice_add (hi : i < piece.length) :
    intAt (splice ints start piece) (start + i) = intAt piece i := by
  rw [intAt_splice h, if_pos (by omega), Nat.add_sub_cancel_left]

end

end

/-! ## The arrays -/

namespace Arrays

/-- Whether there is one array only. -/
def isSame : Arrays → Bool
  | same _ => true
  | diff _ _ => false

variable {arrays : Arrays} {start stop cIndex : Nat} {piece : List I32}

theorem b_eq_c (h : arrays.isSame = true) : arrays.b = arrays.c := by
  cases arrays with
  | same bAndC => rfl
  | diff b c => cases h

/-- The planes fit. -/
theorem length_of_hasRoom (h : arrays.hasRoom stop cIndex = true) : stop ≤ arrays.b.length := by
  cases arrays with
  | same bAndC =>
    simp only [hasRoom, Bool.and_eq_true, decide_eq_true_eq] at h
    exact h.1
  | diff b c => exact of_decide_eq_true h

/-- Copying into the planes leaves the integers. -/
theorem copyB_spec (hroom : arrays.hasRoom stop cIndex = true) (hle : start + piece.length ≤ stop) :
    ∃ arrays', arrays.copyB start piece = .ok arrays' ∧ arrays'.b = splice arrays.b start piece ∧
      (∀ p, cIndex ≤ p → intAt arrays'.c p = intAt arrays.c p) ∧
      arrays'.c.length = arrays.c.length ∧ arrays'.isSame = arrays.isSame ∧
      arrays'.hasRoom stop cIndex = true := by
  have hlen := length_of_hasRoom hroom
  cases arrays with
  | same bAndC =>
    have hfit : start + piece.length ≤ bAndC.length := hle.trans hlen
    simp only [hasRoom, Bool.and_eq_true, decide_eq_true_eq] at hroom
    refine ⟨same (splice bAndC start piece), ?_, rfl, fun p hp => ?_, splice_length hfit, rfl, ?_⟩
    · rw [copyB, copyInts_eq hfit]
      rfl
    · show intAt (splice bAndC start piece) p = intAt bAndC p
      rw [intAt_splice hfit, if_neg (by omega)]
    · simp only [hasRoom, splice_length hfit, hroom, decide_true, Bool.and_self]
  | diff b c =>
    have hfit : start + piece.length ≤ b.length := hle.trans hlen
    refine ⟨diff (splice b start piece) c, ?_, rfl, fun p _ => rfl, rfl, rfl, ?_⟩
    · rw [copyB, copyInts_eq hfit]
      rfl
    · simp only [hasRoom, splice_length hfit]
      exact hroom

/-- Copying over the integers leaves the planes. -/
theorem copyC_spec (hroom : arrays.hasRoom stop cIndex = true) (hstart : cIndex ≤ start)
    (hfit : start + piece.length ≤ arrays.c.length) :
    ∃ arrays', arrays.copyC start piece = .ok arrays' ∧ arrays'.c = splice arrays.c start piece ∧
      (∀ p < stop, intAt arrays'.b p = intAt arrays.b p) ∧ arrays'.b.length = arrays.b.length ∧
      arrays'.isSame = arrays.isSame ∧ arrays'.hasRoom stop cIndex = true := by
  cases arrays with
  | same bAndC =>
    replace hfit : start + piece.length ≤ bAndC.length := hfit
    simp only [hasRoom, Bool.and_eq_true, decide_eq_true_eq] at hroom
    refine ⟨same (splice bAndC start piece), ?_, rfl, fun p hp => ?_, splice_length hfit, rfl, ?_⟩
    · rw [copyC, copyInts_eq hfit]
      rfl
    · show intAt (splice bAndC start piece) p = intAt bAndC p
      rw [intAt_splice hfit, if_neg (by omega)]
    · simp only [hasRoom, splice_length hfit, hroom, decide_true, Bool.and_self]
  | diff b c =>
    replace hfit : start + piece.length ≤ c.length := hfit
    refine ⟨diff b (splice c start piece), ?_, rfl, fun p _ => rfl, rfl, rfl, hroom⟩
    rw [copyC, copyInts_eq hfit]
    rfl

end Arrays

/-! ## The split -/

section

variable {count bShift dec maxIter : Nat} {bMask cMask : I32} {cIndex : Nat} {values : Nat → I32}

/-- All planes for the integers at `i`. -/
def allPlanes (count bShift dec maxIter i : Nat) : List (Nat × Nat) :=
  (range (maxIter + 1)).map fun j => (count * j + i, bShift - j * dec)

/-- The first `done` integers are split, the others are as they were read. -/
structure SplitTo (count bShift dec maxIter : Nat) (bMask cMask : I32) (cIndex : Nat)
    (values : Nat → I32) (start : Arrays) (done : Nat) (arrays : Arrays) : Prop where
  room : arrays.hasRoom ((maxIter + 1) * count) cIndex = true
  inside : cIndex + count ≤ arrays.c.length
  bLength : arrays.b.length = start.b.length
  cLength : arrays.c.length = start.c.length
  kind : arrays.isSame = start.isSame
  planes : ∀ j ≤ maxIter, ∀ i < done,
    intAt arrays.b (count * j + i) = (values i).sshiftRight (bShift - j * dec) &&& bMask
  masked : ∀ i < done, intAt arrays.c (cIndex + i) = values i &&& cMask
  unread : ∀ i, done ≤ i → i < count → intAt arrays.c (cIndex + i) = values i

variable {start arrays : Arrays} {done : Nat}

/-- Writing the planes of one vector. -/
theorem copyPlanes_spec {vector : List I32} {size i : Nat} (hlen : vector.length = size)
    (hle : i + size ≤ count) (hroom : arrays.hasRoom ((maxIter + 1) * count) cIndex = true)
    {n : Nat}
    (hn : n ≤ maxIter + 1) :
    ∃ arrays', ((range n).map fun j => (count * j + i, bShift - j * dec)).foldlM
        (fun arrays p => arrays.copyB p.1 (plane bMask vector p.2)) arrays = .ok arrays' ∧
      (∀ p, intAt arrays'.b p =
        if p / count < n ∧ i ≤ p % count ∧ p % count < i + size then
          (intAt vector (p % count - i)).sshiftRight (bShift - p / count * dec) &&& bMask
        else intAt arrays.b p) ∧
      (∀ p, cIndex ≤ p → intAt arrays'.c p = intAt arrays.c p) ∧
      arrays'.b.length = arrays.b.length ∧ arrays'.c.length = arrays.c.length ∧
      arrays'.isSame = arrays.isSame ∧ arrays'.hasRoom ((maxIter + 1) * count) cIndex = true := by
  induction n with
  | zero =>
    exact ⟨arrays, rfl, fun p => (if_neg fun h => Nat.not_lt_zero _ h.1).symm, fun p _ => rfl, rfl,
      rfl, rfl, hroom⟩
  | succ n ih =>
    obtain ⟨mid, hfold, hb, hc, hblen, hclen, hkind, hmid⟩ := ih (by omega)
    have hplane : (plane bMask vector (bShift - n * dec)).length = size := by
      rw [plane, length_map, hlen]
    have hstop : count * n + count ≤ (maxIter + 1) * count :=
      mul_comm n count ▸ row_end_le hn
    obtain ⟨arrays', hcopy, hb', hc', hclen', hkind', hroom'⟩ :=
      @Arrays.copyB_spec mid (count * n + i) _ cIndex (plane bMask vector (bShift - n * dec)) hmid
        (by rw [hplane]; omega)
    have hfit := Arrays.length_of_hasRoom hmid
    refine ⟨arrays', ?_, fun p => ?_, fun p hp => (hc' p hp).trans (hc p hp), ?_,
      hclen'.trans hclen, hkind'.trans hkind, hroom'⟩
    · rw [range_succ, map_append, foldlM_append, hfold, ok_bind]
      simp only [map_cons, map_nil, foldlM_cons, foldlM_nil, hcopy, ok_bind, pure_eq_ok]
    · rw [hb', intAt_splice (by rw [hplane]; omega), hplane, hb p]
      -- the plane of `p` is `p / count`
      rcases Nat.eq_zero_or_pos count with rfl | hcount
      · rw [if_neg (by omega), if_neg (by omega), if_neg (by omega)]
      · have hdiv := Nat.div_add_mod p count
        by_cases hplaneOf : p / count = n
        · subst hplaneOf
          by_cases hin : i ≤ p % count ∧ p % count < i + size
          · rw [if_pos (by omega), if_pos (by omega), plane,
              intAt_map _ (by rw [hlen]; omega)]
            rw [show p - (count * (p / count) + i) = p % count - i by omega]
          · rw [if_neg (by omega), if_neg (by omega), if_neg (by omega)]
        · have hne : ¬ (count * n + i ≤ p ∧ p < count * n + i + size) := by
            rintro ⟨hlo, hhi⟩
            apply hplaneOf
            rw [Nat.div_eq_iff hcount]
            rw [mul_comm count] at hlo hhi
            exact ⟨by omega, by omega⟩
          rw [if_neg hne]
          exact if_congr (by omega) rfl rfl
    · rw [hb', splice_length (by rw [hplane]; omega), hblen]

/-- One vector more is split. -/
theorem splitVector_spec {size : Nat} (hle : done + size ≤ count)
    (h : SplitTo count bShift dec maxIter bMask cMask cIndex values start done arrays) :
    ∃ arrays', splitVector bMask cMask cIndex (allPlanes count bShift dec maxIter done) size done
        arrays = .ok arrays' ∧
      SplitTo count bShift dec maxIter bMask cMask cIndex values start (done + size) arrays' := by
  have hinside := h.inside
  obtain ⟨vector, hslice, hlen, hvector⟩ :=
    @sliceInts_eq arrays.c (cIndex + done) size (by omega)
  obtain ⟨mid, hfold, hb, hc, hblen, hclen, hkind, hroom⟩ :=
    @copyPlanes_spec count bShift dec maxIter bMask cIndex arrays vector size done hlen hle h.room
      (maxIter + 1) le_rfl
  have hmapped : (vector.map (· &&& cMask)).length = size := by rw [length_map, hlen]
  obtain ⟨arrays', hcopy, hc', hb', hblen', hkind', hroom'⟩ :=
    @Arrays.copyC_spec mid (cIndex + done) _ cIndex (vector.map (· &&& cMask)) hroom (by omega)
      (by rw [hmapped, hclen]; omega)
  have hfit : cIndex + done + (vector.map (· &&& cMask)).length ≤ mid.c.length := by
    omega
  have hvalue : ∀ k < size, intAt vector k = values (done + k) := by
    intro k hk
    rw [hvector k hk, Nat.add_assoc]
    exact h.unread (done + k) (by omega) (by omega)
  refine ⟨arrays', ?_, hroom', ?_, hblen'.trans (hblen.trans h.bLength), ?_,
    hkind'.trans (hkind.trans h.kind), ?_, ?_, ?_⟩
  · rw [splitVector, hslice, ok_bind, allPlanes, hfold, ok_bind, hcopy]
  · rw [hc', splice_length hfit, hclen]
    exact hinside
  · rw [hc', splice_length hfit, hclen, h.cLength]
  · intro j hj i hi
    have hindex : count * j + i < (maxIter + 1) * count :=
      mul_comm j count ▸ row_lt (by omega) (by omega)
    have hdiv : (count * j + i) / count = j := by
      rw [Nat.mul_add_div (by omega), Nat.div_eq_of_lt (by omega), Nat.add_zero]
    have hmod : (count * j + i) % count = i := by
      rw [Nat.mul_add_mod, Nat.mod_eq_of_lt (by omega)]
    rw [hb' _ hindex, hb, hdiv, hmod]
    by_cases hnew : done ≤ i
    · rw [if_pos (by omega), hvalue _ (by omega), Nat.add_sub_cancel' hnew]
    · rw [if_neg (by omega)]
      exact h.planes j hj i (by omega)
  · intro i hi
    rw [hc', intAt_splice hfit, hmapped]
    by_cases hnew : done ≤ i
    · rw [if_pos (by omega), show cIndex + i - (cIndex + done) = i - done by omega,
        intAt_map _ (by omega), hvalue _ (by omega), Nat.add_sub_cancel' hnew]
    · rw [if_neg (by omega), hc _ (by omega)]
      exact h.masked i (by omega)
  · intro i hi hlt
    rw [hc', intAt_splice hfit, hmapped, if_neg (by omega), hc _ (by omega)]
    exact h.unread i (by omega) hlt

/-- The vectors of eight. -/
theorem splitEights_spec {planes : Nat → List (Nat × Nat)}
    (hplanes : ∀ i, planes i = allPlanes count bShift dec maxIter i)
    (h : SplitTo count bShift dec maxIter bMask cMask cIndex values start 0 arrays) :
    ∃ arrays', splitEights count bMask cMask cIndex planes arrays = .ok arrays' ∧
      SplitTo count bShift dec maxIter bMask cMask cIndex values start (count / 8 * 8) arrays' := by
  rw [mul_comm]
  refine foldlM_range (I := fun k => SplitTo count bShift dec maxIter bMask cMask
    cIndex values start (8 * k))
    (fun k mid hk hmid => ?_) h
  rw [hplanes]
  exact splitVector_spec (show 8 * k + 8 ≤ count by omega) hmid

/-- No plane has a shift of zero. -/
theorem planesAt_eq (hshift : 1 ≤ bShift) (hdec : 0 < dec) (i : Nat) :
    planesAt count bShift dec ((bShift - 1) / dec) i =
      allPlanes count bShift dec ((bShift - 1) / dec) i := by
  rw [planesAt, allPlanes, filterMap_eq_map_iff_forall_eq_some]
  intro j hj
  have hle : j * dec ≤ bShift - 1 :=
    (Nat.le_div_iff_mul_le hdec).mp (Nat.lt_succ_iff.mp (mem_range.mp hj))
  rw [if_pos (by omega)]

/-- Two or three planes, written out. -/
theorem fewPlanes_eq (hfew : (bShift - 1) / dec = 1 ∨ (bShift - 1) / dec = 2) (i : Nat) :
    (if ((bShift - 1) / dec == 1) = true then [(i, bShift), (count + i, bShift - dec)]
      else [(i, bShift), (count + i, bShift - dec), (count * 2 + i, bShift - 2 * dec)]) =
      allPlanes count bShift dec ((bShift - 1) / dec) i := by
  rcases hfew with hone | htwo
  · simp [hone, allPlanes, range_succ]
  · simp [htwo, allPlanes, range_succ]

/-- What is left after the vectors of eight is a vector of four. -/
theorem splitFour_spec (hcount : count % 4 = 0) (hmore : count / 8 * 8 < count)
    (h : SplitTo count bShift dec maxIter bMask cMask cIndex values start (count / 8 * 8) arrays) :
    ∃ arrays', splitVector bMask cMask cIndex (allPlanes count bShift dec maxIter (count / 8 * 8))
        4 (count / 8 * 8) arrays = .ok arrays' ∧
      SplitTo count bShift dec maxIter bMask cMask cIndex values start count arrays' := by
  have hfour := splitVector_spec (show count / 8 * 8 + 4 ≤ count by omega) h
  rwa [show count / 8 * 8 + 4 = count by omega] at hfour

/-- The branch of two or three planes. -/
theorem splitFew_spec (hcount : count % 4 = 0) {planes : Nat → List (Nat × Nat)}
    (hplanes : ∀ i, planes i = allPlanes count bShift dec maxIter i)
    (h : SplitTo count bShift dec maxIter bMask cMask cIndex values start 0 arrays) :
    ∃ arrays', (do
        let arrays ← splitEights count bMask cMask cIndex planes arrays
        if count / 8 * 8 < count then
          splitVector bMask cMask cIndex (planes (count / 8 * 8)) 4 (count / 8 * 8) arrays
        else return arrays) = Except.ok arrays' ∧
      SplitTo count bShift dec maxIter bMask cMask cIndex values start count arrays' := by
  obtain ⟨mid, heights, hmid⟩ := splitEights_spec hplanes h
  rw [heights, ok_bind, hplanes]
  split
  next hmore => exact splitFour_spec hcount hmore hmid
  next hdone =>
    rw [show count / 8 * 8 = count by omega] at hmid
    exact ⟨mid, rfl, hmid⟩

/-- The branch of any number of planes: nothing is left for the integers one by one. -/
theorem splitMany_spec (hcount : count % 4 = 0) {planes : Nat → List (Nat × Nat)}
    (hplanes : ∀ i, planes i = allPlanes count bShift dec maxIter i)
    (h : SplitTo count bShift dec maxIter bMask cMask cIndex values start 0 arrays)
    (splitOne : Arrays → Nat → Result Arrays) :
    ∃ arrays', (do
        let arrays ← splitEights count bMask cMask cIndex planes arrays
        if count - count / 8 * 8 ≥ 4 then
          let arrays ← splitVector bMask cMask cIndex
            (allPlanes count bShift dec maxIter (count / 8 * 8)) 4 (count / 8 * 8) arrays
          (range' (count / 8 * 8 + 4) (count - (count / 8 * 8 + 4))).foldlM splitOne arrays
        else (range' (count / 8 * 8) (count - count / 8 * 8)).foldlM splitOne arrays) =
          Except.ok arrays' ∧
      SplitTo count bShift dec maxIter bMask cMask cIndex values start count arrays' := by
  obtain ⟨mid, heights, hmid⟩ := splitEights_spec hplanes h
  rw [heights, ok_bind]
  split
  next hmore =>
    obtain ⟨arrays', hfour, hsplit⟩ := splitFour_spec hcount (by omega) hmid
    refine ⟨arrays', ?_, hsplit⟩
    rw [hfour, ok_bind, show count - (count / 8 * 8 + 4) = 0 by omega]
    rfl
  next hdone =>
    rw [show count / 8 * 8 = count by omega] at hmid
    refine ⟨mid, ?_, hmid⟩
    rw [show count - count / 8 * 8 = 0 by omega]
    rfl

/-- Every version of the loop splits all the integers. -/
theorem splitInts_spec (hshift : 1 ≤ bShift) (hlt : bShift < 32) (hdec : 0 < dec)
    (hcount : count % 4 = 0)
    (hroom : arrays.hasRoom (((bShift - 1) / dec + 1) * count) cIndex = true)
    (hinside : cIndex + count ≤ arrays.c.length) :
    ∃ arrays', splitInts count bShift dec bMask cMask cIndex arrays = .ok arrays' ∧
      SplitTo count bShift dec ((bShift - 1) / dec) bMask cMask cIndex
        (fun i => intAt arrays.c (cIndex + i)) arrays count arrays' := by
  have h0 : SplitTo count bShift dec ((bShift - 1) / dec) bMask cMask cIndex
      (fun i => intAt arrays.c (cIndex + i)) arrays 0 arrays :=
    ⟨hroom, hinside, rfl, rfl, rfl, nofun, nofun, fun _ _ _ => rfl⟩
  have hwhole := splitVector_spec (show 0 + count ≤ count by omega) h0
  have hregular : (decide (1 ≤ bShift) && decide (bShift < 32) && decide (dec > 0) &&
      arrays.hasRoom (((bShift - 1) / dec + 1) * count) cIndex &&
      decide (cIndex + count ≤ arrays.c.length)) = true := by
    simp only [hshift, hlt, hdec, hroom, hinside, decide_true, Bool.and_self]
  rw [splitInts]
  simp only []
  split
  next hcase =>
    -- seven planes of four
    simp only [Bool.and_eq_true, beq_iff_eq] at hcase
    obtain ⟨⟨⟨⟨rfl, rfl⟩, rfl⟩, -⟩, -⟩ := hcase
    exact hwhole
  split
  next hcase =>
    -- three planes of eight
    simp only [Bool.and_eq_true, beq_iff_eq] at hcase
    obtain ⟨⟨⟨⟨rfl, rfl⟩, rfl⟩, -⟩, -⟩ := hcase
    exact hwhole
  rw [hregular]
  simp only [Bool.and_true, and_true]
  split
  next hzero =>
    -- one plane
    rw [beq_iff_eq] at hzero
    rw [hzero] at hwhole ⊢
    simpa [allPlanes] using hwhole
  split
  next hcase =>
    simp only [Bool.and_eq_true, beq_iff_eq, Bool.or_eq_true] at hcase
    exact splitFew_spec hcount (fewPlanes_eq hcase.2) h0
  next => exact splitMany_spec hcount (planesAt_eq hshift hdec) h0 _

end

/-! ## Reading and splitting -/

/-- The input has the words next: they can be read to anywhere. -/
def Supplies {I : Type} [IntInput I] (input : I) (words : List I32) (input' : I) : Prop :=
  ∀ dst offset, offset + words.length ≤ dst.length →
    IntInput.readInts input dst offset words.length = .ok (splice dst offset words, input')

section

variable {I : Type} [IntInput I] {input input' : I} {words b c : List I32}
  {count bShift dec cIndex : Nat} (hsupplies : Supplies input words input')
  (hlen : words.length = count) (hshift : 1 ≤ bShift) (hlt : bShift < 32) (hdec : 0 < dec)
  (hcount : count % 4 = 0)

include hsupplies hlen hshift hlt hdec hcount

/-- With two arrays. -/
theorem splitIntsDiff_spec (hroom : ((bShift - 1) / dec + 1) * count ≤ b.length)
    (hinside : cIndex + count ≤ c.length)
    (bMask cMask : I32) :
    ∃ b' c', splitIntsDiff input count b bShift dec bMask c cIndex cMask = .ok (b', c', input') ∧
      b'.length = b.length ∧ c'.length = c.length ∧
      (∀ j ≤ (bShift - 1) / dec, ∀ i < count,
        intAt b' (count * j + i) = (intAt words i).sshiftRight (bShift - j * dec) &&& bMask) ∧
      ∀ i < count, intAt c' (cIndex + i) = intAt words i &&& cMask := by
  subst hlen
  obtain ⟨arrays, hrun, hsplit⟩ := @splitInts_spec words.length bShift dec bMask cMask cIndex
    (.diff b (splice c cIndex words)) hshift hlt hdec hcount (decide_eq_true hroom)
    (by rw [Arrays.c, splice_length hinside]; exact hinside)
  refine ⟨arrays.b, arrays.c, ?_, hsplit.bLength, hsplit.cLength.trans (splice_length hinside),
    fun j hj i hi => ?_, fun i hi => ?_⟩
  · rw [splitIntsDiff, hsupplies c cIndex hinside, ok_bind]
    simp only [hrun, ok_bind, pure_eq_ok]
  · rw [hsplit.planes j hj i hi, ← intAt_splice_add hinside hi]
    rfl
  · rw [hsplit.masked i hi, ← intAt_splice_add hinside hi]
    rfl

/-- With one array. -/
theorem splitIntsSame_spec (hroom : ((bShift - 1) / dec + 1) * count ≤ cIndex)
    (hinside : cIndex + count ≤ b.length)
    (bMask cMask : I32) :
    ∃ b', splitIntsSame input count b bShift dec bMask cIndex cMask = .ok (b', input') ∧
      b'.length = b.length ∧
      (∀ j ≤ (bShift - 1) / dec, ∀ i < count,
        intAt b' (count * j + i) = (intAt words i).sshiftRight (bShift - j * dec) &&& bMask) ∧
      ∀ i < count, intAt b' (cIndex + i) = intAt words i &&& cMask := by
  subst hlen
  have hfit : cIndex + words.length ≤ (splice b cIndex words).length := by
    rw [splice_length hinside]
    exact hinside
  obtain ⟨arrays, hrun, hsplit⟩ := @splitInts_spec words.length bShift dec bMask cMask cIndex
    (.same (splice b cIndex words)) hshift hlt hdec hcount
    (by
      simp only [Arrays.hasRoom, Bool.and_eq_true, decide_eq_true_eq]
      omega) hfit
  refine ⟨arrays.c, ?_, hsplit.cLength.trans (splice_length hinside), fun j hj i hi => ?_,
    fun i hi => ?_⟩
  · rw [splitIntsSame, hsupplies b cIndex hinside, ok_bind]
    simp only [hrun, ok_bind, pure_eq_ok]
  · rw [← Arrays.b_eq_c hsplit.kind, hsplit.planes j hj i hi, ← intAt_splice_add hinside hi]
    rfl
  · rw [hsplit.masked i hi, ← intAt_splice_add hinside hi]
    rfl

end

end RLucene.Internal.Vectorization
