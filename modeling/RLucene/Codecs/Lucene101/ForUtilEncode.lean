import RLucene.Codecs.Lucene101.ForLines

/-!
# Encoding packs

Whatever width and lanes: the words that are written are packed (`encodeWithTmp_packed`). The lanes
are filled run by run (`Filled`); then the bits that are left are filled word by word from the
stream of the remaining values (`StreamedTo`). The widths with code of their own are lines that pass
the check for that stream.
-/

namespace RLucene.Codecs.Lucene101.ForUtil

open Nat List Lib Store Internal.Vectorization

variable {s : Shape} {ints tmp : List I32} {m fuel t i : Nat} {v w group : List I32} {f : Nat → I32}

/-- Integers that are values of the shape, collapsed. -/
structure Values (s : Shape) (ints : List I32) : Prop where
  length : s.ints ≤ ints.length
  narrow : ∀ i, Narrow s.size s.bits (intAt ints i)

/-! ## Filling the lanes -/

/-- The first entries are combined. -/
theorem zipInto_spec {f : I32 → I32 → I32} {n : Nat} {rest : List I32} (htmp : n ≤ tmp.length)
    (hrest : n ≤ rest.length) :
    (zipInto f n tmp rest).length = tmp.length ∧
      ∀ i < n, intAt (zipInto f n tmp rest) i = f (intAt tmp i) (intAt rest i) := by
  induction n generalizing tmp rest with
  | zero =>
    rw [zipInto]
    · exact ⟨rfl, nofun⟩
    · intro n t tmp l rest hn
      cases hn
  | succ n ih =>
    obtain ⟨t, tmp, rfl⟩ := exists_cons_of_length_pos (show 0 < tmp.length by omega)
    obtain ⟨l, rest, rfl⟩ := exists_cons_of_length_pos (show 0 < rest.length by omega)
    rw [length_cons] at htmp hrest
    obtain ⟨hlen, hat⟩ := ih (show n ≤ tmp.length by omega) (show n ≤ rest.length by omega)
    rw [zipInto]
    refine ⟨by rw [length_cons, length_cons, hlen], fun i hi => ?_⟩
    cases i with
    | zero => rfl
    | succ i => exact hat i (by omega)

theorem intsFrom_eq {idx : Nat} (h : idx ≤ ints.length) :
    ∃ rest, intsFrom ints idx = .ok rest ∧ rest.length = ints.length - idx ∧
      ∀ k < ints.length - idx, intAt rest k = intAt ints (idx + k) :=
  sliceInts_eq (by omega)

/-- The lanes hold the values of the first `m` runs, and nothing else. -/
def Filled (s : Shape) (ints : List I32) (m : Nat) (tmp : List I32) : Prop :=
  ∀ word < s.words, ∀ lane top, top < s.size →
    topBit s.size s.size (intAt tmp word) lane top =
      (decide (top < m * s.bits) &&
        topBit s.size s.bits (intAt ints (top / s.bits * s.words + word)) lane (top % s.bits))

/-- A value shifted to the place of run `m`. -/
theorem topBit_shiftLeft {x : I32} (hx : Narrow s.size s.bits x) {m lane top : Nat}
    (hm : (m + 1) * s.bits ≤ s.size) (htop : top < s.size) :
    topBit s.size s.size (x <<< (s.size - (m + 1) * s.bits)) lane top =
      (decide (top / s.bits = m) && topBit s.size s.bits x lane (top % s.bits)) := by
  rw [succ_mul] at hm ⊢
  have hdiv := div_add_mod top s.bits
  have hmod := mod_lt top s.bits_pos
  rw [topBit, laneBit_shiftLeft s.size_dvd hx (by omega) (by omega)]
  by_cases hrun : top / s.bits = m
  · rw [hrun, mul_comm] at hdiv
    rw [decide_eq_true hrun, decide_eq_true (by omega), topBit]
    congr 2
    omega
  · rw [decide_eq_false hrun, Bool.false_and]
    by_cases hle : s.size - (m * s.bits + s.bits) ≤ s.size - 1 - top
    · -- an earlier run: the shifted value ends before
      have hbefore : top < m * s.bits := by
        by_contra hge
        apply hrun
        rw [Nat.div_eq_iff s.bits_pos]
        omega
      rw [hx lane _ (by omega) (by omega), Bool.and_false]
    · rw [decide_eq_false hle, Bool.false_and]

theorem div_lt_iff_lt_mul_succ {top : Nat} :
    (decide (top < (m + 1) * s.bits)) =
    (decide (top < m * s.bits) || decide (top / s.bits = m)) := by
  rw [← Bool.decide_or, decide_eq_decide, succ_mul, Nat.div_eq_iff s.bits_pos]
  have := s.bits_pos
  omega

/-- The values of one run, over lanes that have the runs before. -/
theorem Filled.next (h : Filled s ints m tmp) (hvalues : Values s ints)
    (hm : (m + 1) * s.bits ≤ s.size) (htmp : s.words ≤ tmp.length) :
    ∃ rest, intsFrom ints (m * s.words) = .ok rest ∧
      let next := zipInto (fun t l => t ||| l <<< (s.size - (m + 1) * s.bits)) s.words tmp rest
      Filled s ints (m + 1) next ∧ next.length = tmp.length := by
  have hidx : m * s.words + s.words ≤ s.ints := by
    have h4 := Nat.mul_le_mul_left 4 hm
    rw [← succ_mul, Shape.words, Shape.ints]
    calc (m + 1) * (4 * s.bits) = 4 * ((m + 1) * s.bits) := by ring
      _ ≤ 4 * s.size := h4
  have hlen := hvalues.length
  obtain ⟨rest, hrest, hrestLen, hat⟩ := @intsFrom_eq ints (m * s.words) (by omega)
  obtain ⟨hzipLen, hzip⟩ := @zipInto_spec tmp
    (fun t l => t ||| l <<< (s.size - (m + 1) * s.bits)) s.words rest htmp (by omega)
  refine ⟨rest, hrest, fun word hword lane top htop => ?_, hzipLen⟩
  rw [hzip word hword, topBit, laneBit_or, ← topBit, ← topBit, h word hword lane top htop,
    topBit_shiftLeft (by rw [hat word (by omega)]; exact hvalues.narrow _) hm htop,
    div_lt_iff_lt_mul_succ, hat word (by omega)]
  by_cases hrun : top / s.bits = m
  · rw [hrun]
    generalize topBit s.size s.bits (intAt ints (m * s.words + word)) lane (top % s.bits) = value
    cases value <;> simp
  · rw [decide_eq_false hrun, Bool.false_and, Bool.or_false, Bool.or_false]

/-- The first run overwrites what is in the lanes. -/
theorem filled_first (hvalues : Values s ints) (htmp : s.words ≤ tmp.length) :
    ∃ first, intsFrom ints 0 = .ok first ∧
      let next := zipInto (fun _ l => l <<< (s.size - s.bits)) s.words tmp first
      Filled s ints 1 next ∧ next.length = tmp.length := by
  have hlen := hvalues.length
  have hle : s.words ≤ s.ints := Nat.mul_le_mul_left 4 s.bits_le
  obtain ⟨first, hfirst, hfirstLen, hat⟩ := @intsFrom_eq ints 0 (by omega)
  obtain ⟨hzipLen, hzip⟩ := @zipInto_spec tmp (fun _ l => l <<< (s.size - s.bits)) s.words first
    htmp (by omega)
  refine ⟨first, hfirst, fun word hword lane top htop => ?_, hzipLen⟩
  have hshift := @topBit_shiftLeft s (intAt ints word) (hvalues.narrow _) 0 lane top
    (by have := s.bits_le; omega) htop
  rw [zero_add, one_mul] at hshift
  rw [hzip word hword, hat word (by omega), zero_add, hshift, div_lt_iff_lt_mul_succ, zero_mul,
    decide_eq_false (not_lt_zero top), Bool.false_or]
  by_cases hrun : top / s.bits = 0
  · rw [hrun, zero_mul, zero_add]
  · rw [decide_eq_false hrun, Bool.false_and, Bool.false_and]

/-- All runs are filled. -/
theorem fillLanes_spec (h : Filled s ints m tmp) (hvalues : Values s ints) (hm : m ≤ s.perLane)
    (htmp : s.words ≤ tmp.length) (hfuel : s.perLane < m + fuel) :
    ∃ tmp', fillLanes ints s.bits s.words fuel (m * s.words)
        ((s.size : Int) - ((m + 1) * s.bits : Nat)) tmp =
          .ok (s.perLane * s.words, (s.size : Int) - ((s.perLane + 1) * s.bits : Nat), tmp') ∧
      Filled s ints s.perLane tmp' ∧ tmp'.length = tmp.length := by
  induction fuel generalizing m tmp with
  | zero => omega
  | succ fuel ih =>
    rw [fillLanes]
    by_cases hroom : (m + 1) * s.bits ≤ s.size
    · have hnext : m + 1 ≤ s.perLane := (Nat.le_div_iff_mul_le s.bits_pos).mpr hroom
      obtain ⟨rest, hrest, hfilled, hlen⟩ := h.next hvalues hroom htmp
      obtain ⟨tmp', hfill, hfilled', hlen'⟩ := ih hfilled hnext (by omega) (by omega)
      refine ⟨tmp', ?_, hfilled', hlen'.trans hlen⟩
      rw [if_pos (by omega), hrest, ok_bind]
      rw [show ((s.size : Int) - ((m + 1) * s.bits : Nat)).toNat = s.size - (m + 1) * s.bits
          by omega, show m * s.words + s.words = (m + 1) * s.words by ring,
        show (s.size : Int) - ((m + 1) * s.bits : Nat) - s.bits =
          (s.size : Int) - ((m + 1 + 1) * s.bits : Nat) by push_cast; ring]
      exact hfill
    · have hdone : m = s.perLane := by
        have hlt : s.size < (m + 1) * s.bits := by omega
        have := (Nat.div_lt_iff_lt_mul s.bits_pos).mpr hlt
        rw [← Shape.perLane] at this
        omega
      subst hdone
      rw [if_neg (by omega)]
      exact ⟨tmp, rfl, h, rfl⟩

/-! ## Filling what is left of the lanes -/

/-- The bits below the runs are filled for the first `done` words, and not set for the others. -/
structure StreamedTo (s : Shape) (ints : List I32) (done : Nat) (tmp : List I32) : Prop where
  length : s.words ≤ tmp.length
  runs : ∀ word < s.words, ∀ lane top, top < s.perLane * s.bits →
    topBit s.size s.size (intAt tmp word) lane top =
      topBit s.size s.bits (intAt ints (top / s.bits * s.words + word)) lane (top % s.bits)
  filled : ∀ word < done, ∀ lane t, t < s.rest →
    topBit s.size s.rest (intAt tmp word) lane t =
      topBit s.size s.bits (intAt ints (s.perLane * s.words + (word * s.rest + t) / s.bits)) lane
        ((word * s.rest + t) % s.bits)
  unset : ∀ word, done ≤ word → word < s.words → ∀ lane t, t < s.rest →
    topBit s.size s.rest (intAt tmp word) lane t = false

/-- After the runs nothing of the rests is filled. -/
theorem Filled.streamedTo (h : Filled s ints s.perLane tmp) (htmp : s.words ≤ tmp.length) :
    StreamedTo s ints 0 tmp where
  length := htmp
  runs word hword lane top htop := by
    rw [h word hword lane top (by have := s.size_eq; omega), decide_eq_true htop, Bool.true_and]
  filled word hword := absurd hword (not_lt_zero word)
  unset word _ hword lane t ht := by
    rw [topBit_low, h word hword lane _ (by have := s.size_eq; omega),
      decide_eq_false (by omega), Bool.false_and]

/-- The words are packed when all of them are filled. -/
theorem StreamedTo.packed (h : StreamedTo s ints s.words tmp) :
    Packed s ints (tmp.take s.words) := by
  have hlen := h.length
  have hat : ∀ word < s.words, intAt (tmp.take s.words) word = intAt tmp word := by
    intro word hword
    rw [intAt_eq_getElem (by rw [length_take]; omega), intAt_eq_getElem (by omega), getElem_take]
  refine ⟨by rw [length_take]; omega, fun word hword lane top htop => ?_⟩
  rw [hat word hword]
  rcases lt_or_ge top (s.perLane * s.bits) with hlt | hge
  · rw [h.runs word hword lane top hlt, Shape.source_of_lt hlt]
  · obtain ⟨t, rfl⟩ := Nat.exists_eq_add_of_le hge
    have ht : t < s.rest := by
      have := s.size_eq
      omega
    rw [← topBit_low, h.filled word hword lane t ht, Shape.source_of_ge]

/-- Or bits into the next `n` words. -/
theorem StreamedTo.extend {done n : Nat} (h : StreamedTo s ints done tmp)
    (hdone : done + n ≤ s.words) {tmp' : List I32} (hlen : tmp'.length = tmp.length)
    (value : Nat → I32)
    (hat : ∀ word < s.words, intAt tmp' word = if done ≤ word ∧ word < done + n
      then intAt tmp word ||| value (word - done) else intAt tmp word)
    (hnarrow : ∀ o < n, Narrow s.size s.rest (value o))
    (hvalue : ∀ o < n, ∀ lane t, t < s.rest →
      topBit s.size s.rest (value o) lane t =
      topBit s.size s.bits (intAt ints (s.perLane * s.words + ((done + o) * s.rest + t) / s.bits))
      lane (((done + o) * s.rest + t) % s.bits)) :
    StreamedTo s ints (done + n) tmp' := by
  have hsize := s.size_eq
  refine ⟨by rw [hlen]; exact h.length, fun word hword lane top htop => ?_,
    fun word hword lane t ht => ?_, fun word hle hword lane t ht => ?_⟩
  · rw [hat word hword]
    split
    · rw [topBit, laneBit_or, ← topBit, h.runs word hword lane top htop,
        hnarrow _ (by omega) lane _ (by omega) (by omega), Bool.or_false]
    · exact h.runs word hword lane top htop
  · rw [hat word (by omega)]
    split
    · rw [topBit, laneBit_or, ← topBit, ← topBit, h.unset word (by omega) (by omega) lane t ht,
        Bool.false_or, hvalue _ (by omega) lane t ht, Nat.add_sub_cancel' (by omega)]
    · exact h.filled word (by omega) lane t ht
  · rw [hat word hword, if_neg (by omega)]
    exact h.unset word (by omega) hword lane t ht

/-- Or bits into the first word that is not yet filled. -/
theorem StreamedTo.set {done : Nat} (h : StreamedTo s ints done tmp) (hdone : done < s.words)
    {value : I32} (hnarrow : Narrow s.size s.rest value)
    (hvalue : ∀ lane t, t < s.rest → topBit s.size s.rest value lane t =
      topBit s.size s.bits (intAt ints (s.perLane * s.words + (done * s.rest + t) / s.bits)) lane
      ((done * s.rest + t) % s.bits)) :
    StreamedTo s ints (done + 1) (tmp.set done (intAt tmp done ||| value)) := by
  have hlen := h.length
  refine h.extend hdone length_set (fun _ => value) (fun word _ => ?_) (fun _ _ => hnarrow)
    (fun o ho => ?_)
  · rw [intAt_set (by omega)]
    by_cases heq : word = done
    · rw [if_pos heq, if_pos (by omega), heq]
    · rw [if_neg heq, if_neg (by omega)]
  · obtain rfl : o = 0 := by omega
    exact hvalue

/-! ## Piece by piece -/

theorem numInts_eq (s : Shape) : blockSize * s.size / 32 = s.ints := by
  rw [blockSize, Shape.ints]
  omega

/-- The loop has come to the top `rem` bits of value `j`, and the words are filled that far. -/
structure AtBit (s : Shape) (j rem tmpIdx : Nat) : Prop where
  rem_pos : 0 < rem
  rem_le : rem ≤ s.bits
  stream : j * s.bits + (s.bits - rem) = tmpIdx * s.rest
  inside : j < 4 * s.rest ∨ j = 4 * s.rest ∧ rem = s.bits

variable {j rem tmpIdx : Nat}

section

variable (h : AtBit s j rem tmpIdx)

include h

/-- There is a word to fill. -/
theorem AtBit.word_lt (hj : j < 4 * s.rest) : tmpIdx < s.words := by
  have hrem := h.rem_pos
  have hle := h.rem_le
  have hstream := @Shape.stream_lt s (s.bits - rem) j hj (by omega)
  rw [h.stream] at hstream
  exact Nat.lt_of_mul_lt_mul_right hstream

/-- All words are filled when the values end. -/
theorem AtBit.done (hj : ¬ j < 4 * s.rest) (hrest : 0 < s.rest) : tmpIdx = s.words := by
  obtain ⟨rfl, rfl⟩ := h.inside.resolve_left hj
  have hstream := h.stream
  rw [Nat.sub_self, Nat.add_zero] at hstream
  apply eq_of_mul_eq_mul_right hrest
  rw [← hstream, Shape.words]
  ring

/-- The next bits of the stream, up to the end of the value. -/
theorem AtBit.position (ht : t < rem) :
    (tmpIdx * s.rest + t) / s.bits = j ∧ (tmpIdx * s.rest + t) % s.bits = s.bits - rem + t := by
  have hle := h.rem_le
  rw [← h.stream, add_assoc]
  exact Shape.mul_add_div_mod (by omega)

/-- The bits behind the end of the value are of the next one. -/
theorem AtBit.position_next (ht : rem ≤ t) (hlt : t < s.bits) :
    (tmpIdx * s.rest + t) / s.bits = j + 1 ∧ (tmpIdx * s.rest + t) % s.bits = t - rem := by
  rw [← h.stream, show j * s.bits + (s.bits - rem) + t = (j + 1) * s.bits + (t - rem) by
    rw [succ_mul]
    omega]
  exact Shape.mul_add_div_mod (by omega)

/-- A word that needs more bits finds another value. -/
theorem AtBit.next_lt (hj : j < 4 * s.rest) (hrem : rem < s.rest) : j + 1 < 4 * s.rest := by
  have hword := Nat.mul_le_mul_right s.rest (h.word_lt hj)
  have hstream := h.stream
  rw [succ_mul] at hword
  have hlt : (j + 1) * s.bits < 4 * s.rest * s.bits := by
    calc (j + 1) * s.bits < tmpIdx * s.rest + s.rest := by
          rw [succ_mul]
          omega
      _ ≤ s.words * s.rest := hword
      _ = 4 * s.rest * s.bits := by
          rw [Shape.words]
          ring
  exact Nat.lt_of_mul_lt_mul_right hlt

/-- A word that takes the rest of a value ends where the next value starts. -/
theorem AtBit.step_end (hj : j < 4 * s.rest) (hrem : rem = s.rest) :
    AtBit s (j + 1) s.bits (tmpIdx + 1) := by
  have hstream := h.stream
  have hle := h.rem_le
  refine ⟨s.bits_pos, le_rfl, ?_, ?_⟩
  · rw [succ_mul, succ_mul]
    omega
  · rcases lt_or_ge (j + 1) (4 * s.rest) with hlt | hge
    · exact .inl hlt
    · exact .inr ⟨by omega, rfl⟩

/-- A word that takes less than what is left of a value stays with the value. -/
theorem AtBit.step_inside (hj : j < 4 * s.rest) (hrem : s.rest < rem) :
    AtBit s j (rem - s.rest) (tmpIdx + 1) := by
  have hstream := h.stream
  have hle := h.rem_le
  refine ⟨by omega, by omega, ?_, .inl hj⟩
  rw [succ_mul]
  omega

/-- A word that takes more than what is left of a value goes on with the next. -/
theorem AtBit.step_across (hj : j < 4 * s.rest) (hrem : rem < s.rest) :
    AtBit s (j + 1) (rem + s.bits - s.rest) (tmpIdx + 1) := by
  have hstream := h.stream
  have hle := h.rem_le
  have hbits := s.rest_lt
  refine ⟨by omega, by have := h.rem_pos; omega, ?_, .inl (h.next_lt hj hrem)⟩
  rw [succ_mul, succ_mul]
  omega

end

/-- The bits of a word that come from one value. -/
def wholeBits (s : Shape) (ints : List I32) (j rem : Nat) : I32 :=
  intAt ints (s.perLane * s.words + j) >>> (rem - s.rest) &&& maskFor s.size s.rest

/-- The bits of a word that come from the end of one value and the start of the next. -/
def acrossBits (s : Shape) (ints : List I32) (j rem : Nat) : I32 :=
  (intAt ints (s.perLane * s.words + j) &&& maskFor s.size rem) <<< (s.rest - rem) |||
    intAt ints (s.perLane * s.words + j + 1) >>> (rem + s.bits - s.rest) &&&
      maskFor s.size (s.rest - rem)

/-- A word that is filled from one value. -/
theorem StreamedTo.set_whole (h : StreamedTo s ints tmpIdx tmp) (hat : AtBit s j rem tmpIdx)
    (hword : tmpIdx < s.words) (hrem : s.rest ≤ rem) :
    StreamedTo s ints (tmpIdx + 1)
      (tmp.set tmpIdx (intAt tmp tmpIdx ||| wholeBits s ints j rem)) := by
  have hbits := s.rest_lt
  have hbitsLe := s.bits_le
  have hle := hat.rem_le
  obtain ⟨-, hmask⟩ := masksFor_spec s.lanes (show s.rest < s.size by omega)
  refine h.set hword (narrow_and_mask hmask) fun lane t ht => ?_
  obtain ⟨hdiv, hmod⟩ := hat.position (show t < rem by omega)
  rw [hdiv, hmod, topBit, topBit, wholeBits, laneBit_ushiftRight_and hmask (by omega),
    decide_eq_true (by omega), Bool.true_and]
  congr 1
  omega

/-- The bits of two values stay within the rest of the lane. -/
theorem narrow_acrossBits (hrem : rem < s.rest) :
    Narrow s.size s.rest (acrossBits s ints j rem) := by
  have hbits := s.rest_lt
  have hbitsLe := s.bits_le
  obtain ⟨-, hmask1⟩ := masksFor_spec s.lanes (show rem < s.size by omega)
  obtain ⟨-, hmask2⟩ := masksFor_spec s.lanes (show s.rest - rem < s.size by omega)
  have hhigh := (narrow_and_mask (x := intAt ints (s.perLane * s.words + j)) hmask1).shiftLeft
    s.size_dvd (show rem + (s.rest - rem) ≤ s.size by omega)
  rw [show rem + (s.rest - rem) = s.rest by omega] at hhigh
  exact hhigh.or ((narrow_and_mask hmask2).mono (by omega))

/-- A word that is filled from two values. -/
theorem StreamedTo.set_across (h : StreamedTo s ints tmpIdx tmp) (hat : AtBit s j rem tmpIdx)
    (hword : tmpIdx < s.words) (hrem : rem < s.rest) :
    StreamedTo s ints (tmpIdx + 1)
      (tmp.set tmpIdx (intAt tmp tmpIdx ||| acrossBits s ints j rem)) := by
  have hbits := s.rest_lt
  have hbitsLe := s.bits_le
  have hle := hat.rem_le
  obtain ⟨-, hmask1⟩ := masksFor_spec s.lanes (show rem < s.size by omega)
  obtain ⟨-, hmask2⟩ := masksFor_spec s.lanes (show s.rest - rem < s.size by omega)
  refine h.set hword (narrow_acrossBits hrem) fun lane t ht => ?_
  rw [topBit, acrossBits, laneBit_or, laneBit_shiftLeft s.size_dvd (narrow_and_mask hmask1)
      (show rem + (s.rest - rem) ≤ s.size by omega) (by omega),
    laneBit_and_mask hmask1 (by omega), laneBit_ushiftRight_and hmask2 (by omega)]
  rcases lt_or_ge t rem with hlt | hge
  · -- a bit of the value that ends
    obtain ⟨hdiv, hmod⟩ := hat.position hlt
    rw [hdiv, hmod, decide_eq_true (by omega), decide_eq_true (by omega),
      decide_eq_false (show ¬ s.rest - 1 - t < s.rest - rem by omega), Bool.true_and,
      Bool.true_and, Bool.false_and, Bool.or_false, topBit]
    congr 1
    omega
  · -- a bit of the next one
    obtain ⟨hdiv, hmod⟩ := hat.position_next hge (by omega)
    rw [hdiv, hmod, decide_eq_false (show ¬ s.rest - rem ≤ s.rest - 1 - t by omega),
      decide_eq_true (show s.rest - 1 - t < s.rest - rem by omega), Bool.true_and,
      Bool.false_and, Bool.false_or, topBit, add_assoc]
    congr 1
    omega

/-- The generic loop fills all words. -/
theorem splitBits_spec (hvalues : Values s ints) (h : StreamedTo s ints tmpIdx tmp)
    (hat : AtBit s j rem tmpIdx) (hrest : 0 < s.rest) (hfuel : s.words < tmpIdx + fuel) :
    ∃ tmp', splitBits ints s.bits s.ints s.rest (masksFor s.size) fuel (s.perLane * s.words + j)
        tmpIdx rem tmp = .ok tmp' ∧ StreamedTo s ints s.words tmp' := by
  have hbits := s.rest_lt
  have hbitsLe := s.bits_le
  have hints := s.ints_eq
  have hlen := hvalues.length
  have hmaskLt : ∀ m < s.size, m < (masksFor s.size).length := fun m hm =>
    (masksFor_spec s.lanes hm).1
  induction fuel generalizing j rem tmpIdx tmp with
  | zero =>
    rcases lt_or_ge j (4 * s.rest) with hj | hj
    · have := hat.word_lt hj
      omega
    · have := hat.done (by omega) hrest
      omega
  | succ fuel ih =>
    rw [splitBits]
    by_cases hj : j < 4 * s.rest
    · have hword := hat.word_lt hj
      have htmp : tmpIdx < tmp.length := hword.trans_le h.length
      have hold := getInt_eq htmp
      have hvalue := getInt_eq (show s.perLane * s.words + j < ints.length by omega)
      rw [if_pos (by omega)]
      by_cases hge : rem ≥ s.rest
      · have hnext := h.set_whole hat hword hge
        rw [if_pos hge]
        simp only [getInt_eq (hmaskLt s.rest (by omega)), hold, hvalue, ok_bind, setInt_eq htmp]
        by_cases hzero : rem - s.rest = 0
        · rw [if_pos hzero, add_assoc]
          exact ih hnext (hat.step_end hj (by omega)) (by omega)
        · rw [if_neg hzero]
          exact ih hnext (hat.step_inside hj (by omega)) (by omega)
      · have hnextLt := hat.next_lt hj (by omega)
        have hset : ∀ value, tmpIdx < (tmp.set tmpIdx value).length := fun value => by
          rwa [length_set]
        rw [if_neg hge]
        simp only [getInt_eq (hmaskLt rem (by omega)),
          getInt_eq (hmaskLt (s.rest - rem) (by omega)),
          getInt_eq (show s.perLane * s.words + j + 1 < ints.length by omega), hold, hvalue,
          ok_bind, setInt_eq htmp, getInt_eq (hset _), setInt_eq (hset _), set_set]
        rw [intAt_set htmp, if_pos rfl, BitVec.or_assoc, add_assoc]
        exact ih (h.set_across hat hword (by omega)) (hat.step_across hj (by omega)) (by omega)
    · rw [if_neg (by omega)]
      have := hat.done hj hrest
      subst this
      exact ⟨tmp, rfl, h⟩

/-! ## Tails with code of their own -/

theorem orV_spec (h : v.length = w.length) :
    (orV v w).length = v.length ∧ ∀ i < v.length, intAt (orV v w) i = intAt v i ||| intAt w i := by
  have hlen : (orV v w).length = v.length := by
    rw [orV, length_zipWith]
    omega
  refine ⟨hlen, fun i hi => ?_⟩
  rw [intAt_eq_getElem (by omega), intAt_eq_getElem hi, intAt_eq_getElem (by omega)]
  exact getElem_zipWith

/-- Groups of lines that pass the check fill all words. -/
theorem orTails_spec (hvalues : Values s ints) {width groups : Nat} {lines : List (List Piece)}
    {tail : List I32 → List I32}
    (htail : ∀ group : List I32, group.length = width →
      tail group = lines.map (lineValue s.size (intAt group)))
    (hcheck : checkLines s.size s.bits s.rest s.bits width lines = true)
    (hstream : lines.length * s.rest = width * s.bits) (hwords : lines.length * groups = s.words)
    (hgroups : width * groups = 4 * s.rest) (h : StreamedTo s ints 0 tmp) :
    ∃ tmp', orTails ints width lines.length (s.perLane * s.words) groups tail tmp = .ok tmp' ∧
      StreamedTo s ints s.words tmp' := by
  have hlen := hvalues.length
  have hints := s.ints_eq
  have hrestLe : s.rest ≤ s.size := (s.rest_lt.trans_le s.bits_le).le
  obtain ⟨tmp', hfold, hstreamed⟩ : ∃ tmp', orTails ints width lines.length
      (s.perLane * s.words) groups
      tail tmp = .ok tmp' ∧ StreamedTo s ints (lines.length * groups) tmp' := by
    refine foldlM_range (I := fun n => StreamedTo s ints (lines.length * n))
      (fun n mid hn hmid => ?_) h
    have htmpLen := hmid.length
    have hwidth : width * n + width ≤ 4 * s.rest := by
      rw [← mul_succ, ← hgroups]
      exact Nat.mul_le_mul_left _ hn
    have hword : lines.length * n + lines.length ≤ s.words := by
      rw [← mul_succ, ← hwords]
      exact Nat.mul_le_mul_left _ hn
    obtain ⟨group, hgroup, hgroupLen, hgroupAt⟩ :=
      @sliceInts_eq ints (s.perLane * s.words + width * n) width (by omega)
    obtain ⟨packed, hpacked, hpackedLen, hpackedAt⟩ :=
      @sliceInts_eq mid (lines.length * n) lines.length (by omega)
    have hnarrow : ∀ i, Narrow s.size s.bits (intAt group i) := by
      intro i
      rcases lt_or_ge i width with hi | hi
      · rw [hgroupAt i hi]
        exact hvalues.narrow _
      · rw [intAt_eq_getElem?, getElem?_eq_none (by omega)]
        exact fun _ _ _ _ => laneBit_zero
    have htailLen : (tail group).length = lines.length := by
      rw [htail group hgroupLen, length_map]
    obtain ⟨horLen, horAt⟩ := orV_spec (hpackedLen.trans htailLen.symm)
    have hfit : lines.length * n + (orV packed (tail group)).length ≤ mid.length := by
      omega
    have htailAt : ∀ o (ho : o < lines.length),
        intAt (tail group) o = lineValue s.size (intAt group) lines[o] := by
      intro o ho
      rw [intAt_eq_getElem (by omega)]
      simp only [htail group hgroupLen, getElem_map]
    refine ⟨splice mid (lines.length * n) (orV packed (tail group)), ?_, ?_⟩
    · simp only [hgroup, hpacked, ok_bind, copyInts_eq hfit]
    · refine hmid.extend hword (splice_length hfit) (intAt (tail group))
        (fun word _ => ?_) (fun o ho => ?_) (fun o ho lane t ht => ?_)
      · rw [intAt_splice hfit, horLen, hpackedLen]
        split
        · rw [horAt _ (by omega), hpackedAt _ (by omega), Nat.add_sub_cancel' (by omega)]
        · rfl
      · rw [htailAt o ho]
        exact (lineValue_spec s.lanes hcheck hnarrow ho).1
      · have hline := (lineValue_spec s.lanes hcheck hnarrow ho).2 lane t ht hrestLe
        rw [htailAt o ho, hline]
        -- the groups before take whole values of the stream
        have hpos : (lines.length * n + o) * s.rest + t =
            (o * s.rest + t) + s.bits * (width * n) := by
          calc (lines.length * n + o) * s.rest + t
              = lines.length * s.rest * n + (o * s.rest + t) := by ring
            _ = (o * s.rest + t) + s.bits * (width * n) := by
                rw [hstream]
                ring
        have hbound : (o * s.rest + t) / s.bits < width := by
          rw [Nat.div_lt_iff_lt_mul s.bits_pos, ← hstream]
          exact row_lt ho ht
        rw [hpos, add_mul_div_left _ _ s.bits_pos, add_mul_mod_self_left, hgroupAt _ hbound]
        congr 2
        omega
  exact ⟨tmp', hfold, hwords ▸ hstreamed⟩

section

open Piece

/-- The tail of width eighteen. -/
def lines18 : List (List Piece) := [
  [high 0 4 14],
  [low 0 4 10, high 1 8 10],
  [low 1 8 6, high 2 12 6],
  [low 2 12 2, high 3 16 2],
  [high 3 2 14],
  [low 3 2 12, high 4 6 12],
  [low 4 6 8, high 5 10 8],
  [low 5 10 4, high 6 14 4],
  [low 6 14 0]]

/-- The tail of width nine. -/
def lines9 : List (List Piece) := [
  [high 0 2 7],
  [low 0 2 5, high 1 4 5],
  [low 1 4 3, high 2 6 3],
  [low 2 6 1, high 3 8 1],
  [high 3 1 7],
  [low 3 1 6, high 4 3 6],
  [low 4 3 4, high 5 5 4],
  [low 5 5 2, high 6 7 2],
  [low 6 7 0]]

/-- The tail of width ten. -/
def lines10 : List (List Piece) := [
  [high 0 4 6],
  [low 0 4 2, high 1 8 2],
  [high 1 2 6],
  [low 1 2 4, high 2 6 4],
  [low 2 6 0]]

theorem zero_and_int (x : I32) : (0 : I32) &&& x = 0 :=
  BitVec.zero_and

/-- Masking after a shift is masking fewer bits before it. -/
theorem shiftLeft_and_mask (x : I32) {k m : Nat} (h : k + m = 14) :
    x <<< k &&& (0x3fff : I32) = (x &&& mask32 m) <<< k := by
  obtain ⟨-, -, hbits⟩ := masks_getLsbD
  apply BitVec.eq_of_getLsbD_eq
  intro i hi
  rw [show (0x3fff : I32) = mask32 14 from rfl, BitVec.getLsbD_and, BitVec.getLsbD_shiftLeft,
    BitVec.getLsbD_shiftLeft, BitVec.getLsbD_and, hbits 14 (by decide) i hi,
    hbits m (by omega) (i - k) (by omega), mod_eq_of_lt hi, mod_eq_of_lt (by omega)]
  by_cases hlt : i < k
  · simp [hlt]
  · rw [show (decide (i < 14)) = decide (i - k < m) by rw [decide_eq_decide]; omega, Bool.and_assoc]

/-- The code for width eighteen is the table. -/
theorem tail18_eq (h : group.length = 7) :
    tail18 group = lines18.map (lineValue 32 (intAt group)) := by
  match group, h with
  | [a, b, c, d, e, f, g], _ =>
    have ha := shiftLeft_and_mask a (show 10 + 4 = 14 from rfl)
    have hb := shiftLeft_and_mask b (show 6 + 8 = 14 from rfl)
    have hc := shiftLeft_and_mask c (show 2 + 12 = 14 from rfl)
    have hd := shiftLeft_and_mask d (show 12 + 2 = 14 from rfl)
    have he := shiftLeft_and_mask e (show 8 + 6 = 14 from rfl)
    have hf := shiftLeft_and_mask f (show 4 + 10 = 14 from rfl)
    simp only [tail18, orV, andV, shlV, shrV, zipWith_cons_cons, zipWith_nil_right, ha,
      hb, hc, hd, he, hf, lines18, lineValue, map_cons, map_nil, foldl_cons,
      foldl_nil, value, zero_or_int, BitVec.shiftLeft_zero, zero_and_int, cons_append, nil_append]
    rfl

/-- The code for width nine is the table. -/
theorem tail9_eq (h : group.length = 7) :
    tail9 group = lines9.map (lineValue 16 (intAt group)) := by
  match group, h with
  | [a, b, c, d, e, f, g], _ =>
    simp only [tail9, orV, andV, shlV, shrV, zipWith_cons_cons, zipWith_nil_right,
      lines9, lineValue, map_cons, map_nil, foldl_cons, foldl_nil, value, zero_or_int,
      BitVec.shiftLeft_zero, zero_and_int, cons_append, nil_append]
    rfl

/-- The code for width ten is the table. -/
theorem tail10_eq (h : group.length = 3) :
    tail10 group = lines10.map (lineValue 16 (intAt group)) := by
  match group, h with
  | [a, b, c], _ =>
    simp only [tail10, orV, andV, shlV, shrV, zipWith_cons_cons, zipWith_nil_right,
      lines10, lineValue, map_cons, map_nil, foldl_cons, foldl_nil, value, zero_or_int,
      BitVec.shiftLeft_zero, zero_and_int, cons_append, nil_append]
    rfl

end

/-- Without rests there is nothing to fill. -/
theorem StreamedTo.of_rest_eq_zero (h : StreamedTo s ints 0 tmp) (hrest : s.rest = 0) (done : Nat) :
    StreamedTo s ints done tmp where
  length := h.length
  runs := h.runs
  filled _ _ _ t ht := absurd ht (by omega)
  unset _ _ _ _ t ht := absurd ht (by omega)

theorem words_eq (s : Shape) : s.bits * 4 = s.words :=
  mul_comm s.bits 4

/-- The generic tail fills all words. -/
theorem encodeBits_spec (hvalues : Values s ints) (h : StreamedTo s ints 0 tmp) :
    ∃ tmp', encodeBits ints s.bits s.size (s.perLane * s.words) s.rest tmp = .ok tmp' ∧
      StreamedTo s ints s.words tmp' := by
  rw [encodeBits, numInts_eq, words_eq]
  rcases Nat.eq_zero_or_pos s.rest with hrest | hrest
  · refine ⟨tmp, ?_, h.of_rest_eq_zero hrest _⟩
    have hints := s.ints_eq
    rw [splitBits, if_neg (by omega)]
  · have hat : AtBit s 0 s.bits 0 := ⟨s.bits_pos, le_rfl, by simp, .inl (by omega)⟩
    exact splitBits_spec hvalues h hat hrest (by omega)

/-- The tails with code of their own fill the words as the generic loop does. -/
theorem encodeTail_spec (hvalues : Values s ints) (h : StreamedTo s ints 0 tmp) :
    ∃ tmp', encodeTail ints s.bits s.size (s.perLane * s.words) s.rest tmp = .ok tmp' ∧
      StreamedTo s ints s.words tmp' := by
  have htails {bits size n width : Nat} {lines : List (List Piece)} {tail : List I32 → List I32}
      (hbits : s.bits = bits) (hsize : s.size = size)
      (htail : ∀ group : List I32, group.length = width →
        tail group = lines.map (lineValue size (intAt group)))
      (hcheck : checkLines size bits (size % bits) bits width lines = true)
      (hstream : lines.length * (size % bits) = width * bits) (hwords : lines.length * n = 4 * bits)
      (hrest : width * n = 4 * (size % bits))
      (hn : min ((blockSize * size / 32 - size / bits * (4 * bits)) / width)
        (bits * 4 / lines.length) = n) :
      ∃ tmp', orTails ints width lines.length (s.perLane * s.words)
          (min ((blockSize * s.size / 32 - s.perLane * s.words) / width)
            (s.bits * 4 / lines.length))
          tail tmp = .ok tmp' ∧ StreamedTo s ints s.words tmp' := by
    subst hbits hsize
    have hspec := orTails_spec hvalues htail hcheck hstream hwords hrest h
    rwa [← hn] at hspec
  rw [encodeTail]
  split
  next hcase =>
    exact htails (n := 8) hcase.1 hcase.2.1 (fun _ => tail18_eq) (by decide +kernel) rfl rfl rfl rfl
  next =>
    split
    next hcase =>
      exact htails (n := 4) hcase.1 hcase.2.1 (fun _ => tail9_eq)
        (by decide +kernel) rfl rfl rfl rfl
    next =>
      split
      next hcase =>
        exact htails (n := 8) hcase.1 hcase.2.1 (fun _ => tail10_eq) (by decide +kernel) rfl rfl
          rfl rfl
      next => exact encodeBits_spec hvalues h

/-- With a tail that fills the words, they are packed. -/
theorem encodeLanes_packed (hvalues : Values s ints) (htmp : s.words ≤ tmp.length)
    {tail : Nat → Nat → List I32 → Result (List I32)}
    (htail : ∀ tmp, StreamedTo s ints 0 tmp →
      ∃ tmp', tail (s.perLane * s.words) s.rest tmp = .ok tmp' ∧ StreamedTo s ints s.words tmp') :
    ∃ words, encodeLanes ints tail s.bits s.size tmp = .ok words ∧ Packed s ints words := by
  have hsize := s.size_eq
  have hfew : s.perLane ≤ s.size := Nat.div_le_self _ _
  obtain ⟨first, hfirst, hfilled, hlen⟩ := filled_first hvalues htmp
  obtain ⟨tmp', hfill, hfilled', hlen'⟩ := fillLanes_spec hfilled hvalues s.perLane_pos (by omega)
    (show s.perLane < 1 + (s.size + 1) by omega)
  obtain ⟨tmp'', htailEq, hstreamed⟩ := htail tmp' (hfilled'.streamedTo (by omega))
  have hmaskLt := (masksFor_spec s.lanes (s.rest_lt.trans_le s.bits_le)).1
  refine ⟨tmp''.take s.words, ?_, hstreamed.packed⟩
  rw [one_mul, show (s.size : Int) - ((1 + 1) * s.bits : Nat) =
    (s.size : Int) - s.bits - s.bits by push_cast; ring] at hfill
  rw [encodeLanes, words_eq]
  simp only [hfirst, ok_bind, show ((s.size : Int) - s.bits).toNat = s.size - s.bits by omega,
    hfill]
  rw [show ((s.size : Int) - ((s.perLane + 1) * s.bits : Nat) + s.bits).toNat = s.rest by
    rw [succ_mul]
    omega, getInt_eq hmaskLt, ok_bind, htailEq, ok_bind, pure_eq_ok]

/-! ## Widths without a tail -/

/-- A vector of four given lane by lane. -/
def IsVector (v : List I32) (f : Nat → I32) : Prop :=
  v.length = 4 ∧ ∀ k < 4, intAt v k = f k

theorem IsVector.shl (h : IsVector v f) (n : Nat) :
    IsVector (ForUtil.shl v n) fun k => f k <<< n := by
  refine ⟨by rw [ForUtil.shl, length_map, h.1], fun k hk => ?_⟩
  rw [ForUtil.shl, intAt_map _ (by rw [h.1]; exact hk), h.2 k hk]

theorem IsVector.or {g : Nat → I32} (hv : IsVector v f) (hw : IsVector w g) :
    IsVector (orV v w) fun k => f k ||| g k := by
  obtain ⟨hlen, hat⟩ := orV_spec (hv.1.trans hw.1.symm)
  exact ⟨hlen.trans hv.1, fun k hk => by
    rw [hat k (by rw [hv.1]; exact hk), hv.2 k hk, hw.2 k hk]⟩

/-- The vector at a place of a longer list. -/
theorem IsVector.at_chunk {chunk : Nat} (h : IsVector v fun k => f (4 * chunk + k))
    (hle : 4 * chunk ≤ i) (hlt : i < 4 * chunk + 4) : intAt v (i - 4 * chunk) = f i := by
  have hat := h.2 (i - 4 * chunk) (by omega)
  simp only [Nat.add_sub_cancel' hle] at hat
  exact hat

/-- Four integers as a vector. -/
theorem lanes_eq (hlen : 32 ≤ ints.length) {i : Nat} (hi : i < 8) :
    ∃ v, lanes ints i = .ok v ∧ IsVector v fun k => intAt ints (4 * i + k) :=
  sliceInts_eq (by omega)

section

open Piece

/-- Words that are a line over the runs are packed, when the runs fill the lanes. -/
theorem packed_of_line {line : List Piece} {words : List I32} {bits size : Nat}
    (hbits : s.bits = bits) (hsize : s.size = size) (hrest : size % bits = 0)
    (hvalues : Values s ints) (hcheck : checkLines size bits size bits (size / bits) [line] = true)
    (hlen : words.length = 4 * bits)
    (hat : ∀ i < 4 * bits, intAt words i =
      lineValue size (fun m => intAt ints (m * (4 * bits) + i)) line) : Packed s ints words := by
  subst hbits hsize
  refine ⟨hlen, fun word hword lane top htop => ?_⟩
  have hfull : s.perLane * s.bits + s.size % s.bits = s.size := s.size_eq
  have hline := (lineValue_spec s.lanes hcheck (fun m => hvalues.narrow (m * s.words + word))
    (show 0 < [line].length from Nat.one_pos)).2 lane top htop le_rfl
  rw [zero_mul, zero_add] at hline
  rw [hat word hword, Shape.source_of_lt (by omega)]
  exact hline

/-- A word of one bit each. -/
def line1 : List Piece :=
  [whole 0 7, whole 1 6, whole 2 5, whole 3 4, whole 4 3, whole 5 2, whole 6 1, whole 7 0]

/-- A word of two bits each. -/
def line2 : List Piece :=
  [whole 0 6, whole 1 4, whole 2 2, whole 3 0]

/-- A word of four bits each. -/
def line4 : List Piece :=
  [whole 0 4, whole 1 0]

/-- The line over the integers that are `run` apart. -/
def lineAt (ints : List I32) (run : Nat) (line : List Piece) (i : Nat) : I32 :=
  lineValue 8 (fun m => intAt ints (m * run + i)) line

section

variable (hlen : 32 ≤ ints.length)

include hlen

/-- A vector of width one. -/
theorem encode1_vector : ∃ v, encode1 ints = .ok v ∧ IsVector v fun k => lineAt ints 4 line1 k := by
  obtain ⟨v0, h0, hv0⟩ := lanes_eq hlen (show 0 < 8 by decide)
  obtain ⟨v1, h1, hv1⟩ := lanes_eq hlen (show 1 < 8 by decide)
  obtain ⟨v2, h2, hv2⟩ := lanes_eq hlen (show 2 < 8 by decide)
  obtain ⟨v3, h3, hv3⟩ := lanes_eq hlen (show 3 < 8 by decide)
  obtain ⟨v4, h4, hv4⟩ := lanes_eq hlen (show 4 < 8 by decide)
  obtain ⟨v5, h5, hv5⟩ := lanes_eq hlen (show 5 < 8 by decide)
  obtain ⟨v6, h6, hv6⟩ := lanes_eq hlen (show 6 < 8 by decide)
  obtain ⟨v7, h7, hv7⟩ := lanes_eq hlen (show 7 < 8 by decide)
  have hv := ((((((((hv0.shl 7).or (hv1.shl 6)).or (hv2.shl 5)).or (hv3.shl 4)).or (hv4.shl 3)).or
    (hv5.shl 2)).or (hv6.shl 1)).or hv7)
  refine ⟨_, ?_, hv.1, fun k hk => (hv.2 k hk).trans ?_⟩
  · simp only [encode1, h0, h1, h2, h3, h4, h5, h6, h7, ok_bind, pure_eq_ok]
  · simp only [lineAt, lineValue, line1, foldl_cons, foldl_nil, value, zero_or_int,
      BitVec.shiftLeft_zero]

/-- A vector of width two. -/
theorem encode2_vector (hi : i < 2) :
    ∃ v, encode2 ints i = .ok v ∧ IsVector v fun k => lineAt ints 8 line2 (4 * i + k) := by
  obtain ⟨v0, h0, hv0⟩ := @lanes_eq ints hlen i (by omega)
  obtain ⟨v1, h1, hv1⟩ := @lanes_eq ints hlen (2 + i) (by omega)
  obtain ⟨v2, h2, hv2⟩ := @lanes_eq ints hlen (4 + i) (by omega)
  obtain ⟨v3, h3, hv3⟩ := @lanes_eq ints hlen (6 + i) (by omega)
  have hv := ((hv0.shl 6).or (hv1.shl 4)).or (hv2.shl 2) |>.or hv3
  refine ⟨_, ?_, hv.1, fun k hk => (hv.2 k hk).trans ?_⟩
  · simp only [encode2, h0, h1, h2, h3, ok_bind, pure_eq_ok]
  · simp only [lineAt, lineValue, line2, foldl_cons, foldl_nil, value, zero_or_int,
      BitVec.shiftLeft_zero, mul_add, Nat.reduceMul, zero_add, add_assoc]

/-- A vector of width four. -/
theorem encode4_vector (hi : i < 4) :
    ∃ v, encode4 ints i = .ok v ∧ IsVector v fun k => lineAt ints 16 line4 (4 * i + k) := by
  obtain ⟨v0, h0, hv0⟩ := @lanes_eq ints hlen i (by omega)
  obtain ⟨v1, h1, hv1⟩ := @lanes_eq ints hlen (4 + i) (by omega)
  have hv := (hv0.shl 4).or hv1
  refine ⟨_, ?_, hv.1, fun k hk => (hv.2 k hk).trans ?_⟩
  · simp only [encode4, h0, h1, ok_bind, pure_eq_ok]
  · simp only [lineAt, lineValue, line4, foldl_cons, foldl_nil, value, zero_or_int,
      BitVec.shiftLeft_zero, mul_add, Nat.reduceMul, zero_add, add_assoc]

/-- Both vectors of width two. -/
theorem encode2_eq :
    ∃ v, (do return (← encode2 ints 0) ++ (← encode2 ints 1) : Result (List I32)) = .ok v ∧
      v.length = 8 ∧
      ∀ i < 8, intAt v i = lineAt ints 8 line2 i := by
  obtain ⟨v0, h0, hvec0⟩ := encode2_vector hlen (show 0 < 2 by decide)
  obtain ⟨v1, h1, hvec1⟩ := encode2_vector hlen (show 1 < 2 by decide)
  refine ⟨v0 ++ v1, by simp only [h0, h1, ok_bind, pure_eq_ok],
    by rw [length_append, hvec0.1, hvec1.1], fun i hi => ?_⟩
  rw [intAt_append, hvec0.1]
  split
  · exact hvec0.at_chunk (zero_le i) (by omega)
  · exact hvec1.at_chunk (by omega) (by omega)

/-- All vectors of width four. -/
theorem encode4_eq :
    ∃ v, (do return (← encode4 ints 0) ++ (← encode4 ints 1) ++ (← encode4 ints 2) ++
        (← encode4 ints 3) : Result (List I32)) = .ok v ∧
      v.length = 16 ∧
      ∀ i < 16, intAt v i = lineAt ints 16 line4 i := by
  obtain ⟨v0, h0, hvec0⟩ := encode4_vector hlen (show 0 < 4 by decide)
  obtain ⟨v1, h1, hvec1⟩ := encode4_vector hlen (show 1 < 4 by decide)
  obtain ⟨v2, h2, hvec2⟩ := encode4_vector hlen (show 2 < 4 by decide)
  obtain ⟨v3, h3, hvec3⟩ := encode4_vector hlen (show 3 < 4 by decide)
  refine ⟨v0 ++ v1 ++ v2 ++ v3, by simp only [h0, h1, h2, h3, ok_bind, pure_eq_ok],
    by simp only [length_append, hvec0.1, hvec1.1, hvec2.1, hvec3.1], fun i hi => ?_⟩
  simp only [intAt_append, length_append, hvec0.1, hvec1.1, hvec2.1]
  split
  · split
    · split
      · exact hvec0.at_chunk (zero_le i) (by omega)
      · exact hvec1.at_chunk (by omega) (by omega)
    · exact hvec2.at_chunk (by omega) (by omega)
  · exact hvec3.at_chunk (by omega) (by omega)

end

end

/-- What is written is packed, for every width and every size of the lanes. -/
theorem encodeWithTmp_packed (hvalues : Values s ints) (htmp : s.words ≤ tmp.length) :
    ∃ words, encodeWithTmp ints s.bits s.size tmp = .ok words ∧ Packed s ints words := by
  have hlanes := encodeLanes_packed hvalues htmp (fun _ h => encodeTail_spec hvalues h)
  unfold encodeWithTmp
  dsimp only
  split
  · rename_i hcase
    obtain ⟨-, hsize, hints, -⟩ := hcase
    split
    · rename_i hbits
      obtain ⟨v, hv, hvec⟩ := encode1_vector hints
      exact ⟨v, hv, packed_of_line hbits hsize rfl hvalues (by decide +kernel) hvec.1 hvec.2⟩
    · rename_i hbits
      obtain ⟨v, hv, hlen, hat⟩ := encode2_eq hints
      exact ⟨v, hv, packed_of_line hbits hsize rfl hvalues (by decide +kernel) hlen hat⟩
    · rename_i hbits
      obtain ⟨v, hv, hlen, hat⟩ := encode4_eq hints
      exact ⟨v, hv, packed_of_line hbits hsize rfl hvalues (by decide +kernel) hlen hat⟩
    · exact hlanes
  · exact hlanes

/-- The words are those of the generic loop. -/
theorem encodeWithTmp_eq_generic (hvalues : Values s ints) (htmp : s.words ≤ tmp.length) :
    encodeWithTmp ints s.bits s.size tmp =
      encodeLanes ints (encodeBits ints s.bits s.size) s.bits s.size tmp := by
  obtain ⟨words, hwords, hpacked⟩ := encodeWithTmp_packed hvalues htmp
  obtain ⟨words', hwords', hpacked'⟩ :=
    encodeLanes_packed hvalues htmp (fun _ h => encodeBits_spec hvalues h)
  rw [hwords, hwords', hpacked.unique hpacked']

end RLucene.Codecs.Lucene101.ForUtil
