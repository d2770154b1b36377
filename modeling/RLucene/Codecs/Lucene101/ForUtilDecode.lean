import RLucene.Codecs.Lucene101.ForLines

/-!
# Decoding unpacks

The decoders first split the packed words into runs of whole values (`Decoding.splitDiff`,
`Decoding.splitSame`), and then join the values that are cut into pieces, by the unrolled lines
(`decodeGroups_spec`) or by the generic loop (`joinInts_spec`). `UnpackedTo` says how many of the
values are what the words hold.
-/

namespace RLucene.Codecs.Lucene101

open Nat List Lib Store Internal.Vectorization

variable {s : Shape} {words ints tmp : List I32} {n t size width groups bits : Nat}

/-- One more integer. -/
theorem UnpackedTo.set (h : UnpackedTo s words n ints) (hn : n < ints.length) {value : I32}
    (hvalue : Holds s words n value) : UnpackedTo s words (n + 1) (ints.set n value) := by
  intro int hint
  rw [intAt_set hn]
  split
  · rename_i heq
    rw [heq]
    exact hvalue
  · exact h int (by omega)

namespace ForUtil

/-! ## Runs of whole values -/

/-- A word shifted right and masked is a value of its run. -/
theorem holds_plane (hlt : s.bits < s.size) {int : Nat} (h : int < s.perLane * s.words) :
    Holds s words int ((intAt words (int % s.words)).sshiftRight
      (s.size - s.bits - int / s.words * s.bits) &&& maskFor s.size s.bits) := by
  have hmask := (masksFor_spec s.lanes hlt).2
  refine ⟨narrow_and_mask hmask, fun lane top htop => ?_⟩
  have hsize := s.size_eq
  have hrun := Shape.run_lt h (show s.bits - 1 < s.bits by omega)
  rw [topBit, laneBit_sshiftRight_and s.size_dvd hmask (by omega) (by omega),
    decide_eq_true (by omega), Bool.true_and, Shape.slot_of_lt h, topBit]
  congr 1
  omega

/-! ## Lines -/

/-- The low bits of the words of `tmp` are the bits of the packed words below the whole values. Of
the others, only `inWidth` may be set. -/
structure Tails (s : Shape) (words : List I32) (inWidth : Nat) (tmp : List I32) : Prop where
  length : s.words ≤ tmp.length
  narrow : ∀ i < s.words, Narrow s.size inWidth (intAt tmp i)
  bit : ∀ i < s.words, ∀ lane t, t < s.rest → topBit s.size s.rest (intAt tmp i) lane t =
    topBit s.size s.size (intAt words i) lane (s.perLane * s.bits + t)

/-- The rests of words that were masked. -/
theorem tails_masked (hlen : s.words ≤ tmp.length)
    (hat : ∀ i < s.words, intAt tmp i = intAt words i &&& maskFor s.size s.rest) :
    Tails s words s.rest tmp := by
  have hrest := s.rest_lt.trans_le s.bits_le
  have hmask := (masksFor_spec s.lanes hrest).2
  refine ⟨hlen, fun i hi => ?_, fun i hi lane t ht => ?_⟩
  · rw [hat i hi]
    exact narrow_and_mask hmask
  · rw [hat i hi, ← topBit_low, topBit, laneBit_and_mask hmask (by omega),
      decide_eq_true (by omega), Bool.true_and, topBit]

/-- The rests of words that were not. -/
theorem tails_unmasked (hlen : s.words ≤ tmp.length)
    (hat : ∀ i < s.words, intAt tmp i = intAt words i) : Tails s words s.size tmp :=
  ⟨hlen, fun _ _ => narrow_size _, fun i hi lane _ _ => by rw [hat i hi, topBit_low]⟩

section

variable {inWidth stride : Nat} {lines : List (List Piece)} {word : Nat → I32}

/-- The values of the lines are those that the words hold. -/
theorem holds_line (hrest : 0 < s.rest)
    (hcheck : checkLines s.size inWidth s.bits s.rest stride lines = true)
    (hstream : lines.length * s.bits = stride * s.rest)
    (hnarrow : ∀ k, Narrow s.size inWidth (word k)) {group : Nat}
    (hword : ∀ k < stride, ∀ lane t, t < s.rest →
      topBit s.size s.rest (word k) lane t =
      topBit s.size s.size (intAt words (group * stride + k)) lane (s.perLane * s.bits + t))
    {o : Nat} (ho : o < lines.length) :
    Holds s words (s.perLane * s.words + (group * lines.length + o))
      (lineValue s.size word lines[o]) := by
  obtain ⟨hnarrowLine, hbit⟩ := lineValue_spec s.lanes hcheck hnarrow ho
  refine ⟨hnarrowLine, fun lane top htop => ?_⟩
  have hin : o * s.bits + top < stride * s.rest := by
    rw [← hstream]
    exact row_lt ho htop
  have hpos : (group * lines.length + o) * s.bits + top =
      o * s.bits + top + group * stride * s.rest := by
    rw [add_mul, mul_assoc, hstream]
    ring
  rw [hbit lane top htop s.bits_le, hword _ ((Nat.div_lt_iff_lt_mul hrest).mpr hin) lane _
    (mod_lt _ hrest), Shape.slot_of_ge, hpos, add_mul_div_right _ _ hrest,
    add_mul_mod_self_right, add_comm (group * stride)]

/-- What a piece gives. -/
theorem Piece.eval_eq (hsize : size = 8 ∨ size = 16 ∨ size = 32) {piece : Piece}
    (hfits : piece.fits size width = true) (hlen : t + piece.index < tmp.length)
    (hword : word piece.index = intAt tmp (t + piece.index)) :
    piece.eval (masksFor size) tmp t = .ok (piece.value size word) := by
  have hmask {bits : Nat} (hbits : bits < size) :
      getInt (masksFor size) bits = .ok (maskFor size bits) :=
    getInt_eq (masksFor_spec hsize hbits).1
  have hget : getInt tmp (t + piece.index) = .ok (word piece.index) := by
    rw [getInt_eq hlen, hword]
  cases piece with
  | whole index left =>
    simp only [Piece.index] at hget
    simp only [eval, hget, ok_bind, pure_eq_ok, value]
  | low index bits left =>
    rw [fits, Bool.and_eq_true, decide_eq_true_eq] at hfits
    simp only [Piece.index] at hget
    simp only [eval, hget, hmask hfits.1, ok_bind, pure_eq_ok, value]
  | high index right bits =>
    rw [fits, Bool.and_eq_true, decide_eq_true_eq] at hfits
    simp only [Piece.index] at hget
    simp only [eval, hget, hmask hfits.1, ok_bind, pure_eq_ok, value]
  | highLong index right bits =>
    rw [fits, Bool.and_eq_true, decide_eq_true_eq] at hfits
    simp only [Piece.index] at hget
    simp only [eval, hget, hmask hfits.1, ok_bind, pure_eq_ok, value]

/-- What a line gives. -/
theorem evalLine_eq (hsize : size = 8 ∨ size = 16 ∨ size = 32) {line : List Piece}
    (hfits : ∀ piece ∈ line, piece.fits size width = true ∧ piece.index < stride)
    (hlen : t + stride ≤ tmp.length) (hword : ∀ k < stride, word k = intAt tmp (t + k)) :
    evalLine (masksFor size) tmp t line = .ok (lineValue size word line) := by
  rw [evalLine, lineValue]
  generalize (0 : I32) = value
  induction line generalizing value with
  | nil => rfl
  | cons piece line ih =>
    obtain ⟨hfit, hindex⟩ := hfits piece mem_cons_self
    rw [foldlM_cons, Piece.eval_eq hsize hfit (by omega) (hword _ hindex), ok_bind, pure_eq_ok,
      ok_bind, foldl_cons]
    exact ih (forall_mem_cons.mp hfits).2 _

/-- One group goes on where the values unpacked so far end. -/
theorem decodeGroup_spec {masks : List I32} {t : Nat} {value : List Piece → I32}
    (hline : ∀ line ∈ lines, evalLine masks tmp t line = .ok (value line)) {n : Nat}
    (hholds : ∀ o, (ho : o < lines.length) → Holds s words (n + o) (value lines[o]))
    (hfit : n + lines.length ≤ ints.length) (h : UnpackedTo s words n ints) :
    ∃ ints', decodeGroup masks tmp t n lines ints = .ok ints' ∧ ints'.length = ints.length ∧
      UnpackedTo s words (n + lines.length) ints' := by
  induction lines generalizing n ints with
  | nil => exact ⟨ints, rfl, rfl, h⟩
  | cons line lines ih =>
    rw [length_cons] at hfit
    have hset := h.set (show n < ints.length by omega) (hholds 0 (succ_pos _))
    obtain ⟨ints', hrun, hlen, hto⟩ := ih
      (forall_mem_cons.mp hline).2
      (fun o ho => by
        rw [add_assoc, add_comm 1 o]
        exact hholds (o + 1) (succ_lt_succ ho))
      (by rw [length_set]; omega) hset
    refine ⟨ints', ?_, hlen.trans length_set, ?_⟩
    · rw [decodeGroup, hline line mem_cons_self, ok_bind, setInt_eq (by omega), ok_bind]
      exact hrun
    · rwa [length_cons, add_comm lines.length, ← add_assoc]

/-- The groups unpack all values that are cut into pieces. -/
theorem decodeGroups_spec (hrest : 0 < s.rest)
    (hcheck : checkLines s.size inWidth s.bits s.rest stride lines = true)
    (hstream : lines.length * s.bits = stride * s.rest)
    (hgroups : groups * lines.length = 4 * s.rest) (htails : Tails s words inWidth tmp)
    (hints : s.ints ≤ ints.length) (h : UnpackedTo s words (s.perLane * s.words) ints) :
    ∃ ints', decodeGroups (masksFor s.size) tmp groups stride (s.perLane * s.words) lines ints =
        .ok ints' ∧ ints'.length = ints.length ∧ UnpackedTo s words s.ints ints' := by
  have hwords : groups * stride = s.words := by
    apply eq_of_mul_eq_mul_right hrest
    rw [mul_assoc, ← hstream, ← mul_assoc, hgroups, Shape.words]
    ring
  rw [s.ints_eq] at hints ⊢
  rw [← hgroups]
  refine foldlM_range (I := fun n ints' => ints'.length = ints.length ∧
      UnpackedTo s words (s.perLane * s.words + n * lines.length) ints')
    (fun n mid hn hmid => ?_) ⟨rfl, by rwa [zero_mul, add_zero]⟩
  obtain ⟨hmidLen, hmidTo⟩ := hmid
  have hin : n * stride + stride ≤ s.words := hwords ▸ row_end_le hn
  have hroom : n * lines.length + lines.length ≤ 4 * s.rest := hgroups ▸ row_end_le hn
  let word : Nat → I32 := fun k => if k < stride then intAt tmp (n * stride + k) else 0
  have hword : ∀ k < stride, word k = intAt tmp (n * stride + k) := fun k hk => if_pos hk
  obtain ⟨ints', hrun, hlen, hto⟩ := @decodeGroup_spec s words mid tmp lines (masksFor s.size)
    (n * stride) (lineValue s.size word)
    (fun line hline => evalLine_eq s.lanes
      (fun piece hpiece => checkLines_fits hcheck hline hpiece)
      (hin.trans htails.length) hword)
    (s.perLane * s.words + n * lines.length)
    (fun o ho => by
      rw [add_assoc]
      refine holds_line hrest hcheck hstream (fun k => ?_) (fun k hk lane t ht => ?_) ho
      · show Narrow s.size inWidth (if k < stride then intAt tmp (n * stride + k) else 0)
        split
        · exact htails.narrow _ (by omega)
        · exact fun _ _ _ _ => laneBit_zero
      · rw [hword k hk]
        exact htails.bit _ (by omega) lane t ht)
    (by omega) hmidTo
  refine ⟨ints', hrun, hlen.trans hmidLen, ?_⟩
  rwa [succ_mul, ← add_assoc]

end

/-! ## Splits -/

section

variable {I : Type} [IntInput I] {input input' : I}

theorem bits_lt_of_rest (hrest : 0 < s.rest) : s.bits < s.size := by
  rcases lt_or_eq_of_le s.bits_le with h | h
  · exact h
  · rw [Shape.rest, ← h, mod_self] at hrest
    exact absurd hrest (lt_irrefl 0)

theorem size_le (s : Shape) : s.size ≤ 32 :=
  le_of_dvd (by decide) s.size_dvd

/-- Runs of values in planes from the shift of the first one on. -/
theorem unpackedTo_planes (hlt : s.bits < s.size) {dec n : Nat} (hn : n ≤ s.perLane)
    (hdec : ∀ j < n, j * dec = j * s.bits)
    (hplanes : ∀ j < n, ∀ i < s.words,
      intAt ints (s.words * j + i) = (intAt words i).sshiftRight
      (s.size - s.bits - j * dec) &&& maskFor s.size s.bits) :
    UnpackedTo s words (n * s.words) ints := by
  intro int hint
  have hj : int / s.words < n := (Nat.div_lt_iff_lt_mul s.words_pos).mpr hint
  have hat := hplanes _ hj _ (mod_lt int s.words_pos)
  rw [div_add_mod, hdec _ hj] at hat
  rw [hat]
  exact holds_plane hlt (hint.trans_le (Nat.mul_le_mul_right _ hn))

/-- The words are next in the input, and there is room for them and for what they unpack to. -/
structure Decoding (s : Shape) (words tmp ints : List I32) (input input' : I) : Prop where
  supplies : Supplies input words input'
  length : words.length = s.words
  tmp_room : s.words ≤ tmp.length
  ints_room : s.ints ≤ ints.length

/-- The result of a decoder: the integers are unpacked, and the words are read. -/
def Decoded (s : Shape) (words ints : List I32) (input' : I) (result : Result (List I32 × I)) :
    Prop :=
  ∃ ints', result = .ok (ints', input') ∧ ints'.length = ints.length ∧
    UnpackedTo s words s.ints ints'

section

variable (h : Decoding s words tmp ints input input')

include h

/-- The split of words with a tail leaves it in `tmp`. -/
theorem Decoding.splitDiff (hrest : 0 < s.rest) {dec : Nat}
    (hdec : dec = s.bits ∨ s.perLane = 1 ∧ s.size ≤ dec) (cMask : I32) :
    ∃ ints' tmp', splitIntsDiff input s.words ints (s.size - s.bits) dec
      (maskFor s.size s.bits) tmp 0
        cMask = .ok (ints', tmp', input') ∧ ints'.length = ints.length ∧
      tmp'.length = tmp.length ∧ UnpackedTo s words (s.perLane * s.words) ints' ∧
      ∀ i < s.words, intAt tmp' i = intAt words i &&& cMask := by
  have hlt := bits_lt_of_rest hrest
  have hsize := s.size_eq
  have hlane := s.perLane_pos
  have hpos := s.bits_pos
  have hle := size_le s
  have hplanes : (s.size - s.bits - 1) / dec + 1 = s.perLane := by
    rcases hdec with rfl | ⟨hone, hdec⟩
    · obtain ⟨n, hn⟩ : ∃ n, s.perLane = n + 1 := ⟨s.perLane - 1, by omega⟩
      rw [hn, succ_mul] at hsize
      rw [hn, show s.size - s.bits - 1 = n * s.bits + (s.rest - 1) by omega,
        (Shape.mul_add_div_mod (by have := s.rest_lt; omega)).1]
    · rw [div_eq_of_lt (by omega), hone]
  have hsame : ∀ j < s.perLane, j * dec = j * s.bits := by
    intro j hj
    rcases hdec with rfl | ⟨hone, -⟩
    · rfl
    · rw [show j = 0 by omega, zero_mul, zero_mul]
  have hints := h.ints_room
  rw [s.ints_eq] at hints
  obtain ⟨ints', tmp', hrun, hlen, hlen', hat, htail⟩ := @splitIntsDiff_spec I _ input input' words
    ints tmp s.words (s.size - s.bits) dec 0 h.supplies h.length (by omega) (by omega)
    (by rcases hdec with rfl | ⟨-, h⟩ <;> omega) (mul_mod_right 4 s.bits)
    (by rw [hplanes]; omega) (by rw [zero_add]; exact h.tmp_room) (maskFor s.size s.bits) cMask
  refine ⟨ints', tmp', hrun, hlen, hlen', ?_, fun i hi => ?_⟩
  · exact unpackedTo_planes hlt le_rfl hsame fun j hj i hi => hat j (by omega) i hi
  · have := htail i hi
    rwa [zero_add] at this

/-- The split of words without a tail is all there is to do. -/
theorem Decoding.splitSame (hbits : s.bits = bits)
    (hsize : s.size = size) (hmod : size % bits = 0) (hlt : bits < size) :
    Decoded s words ints input' (splitIntsSame input (4 * bits) ints (size - bits) bits
      (maskFor size bits) ((size / bits - 1) * (4 * bits)) (maskFor size bits)) := by
  subst hbits hsize
  have hrest : s.rest = 0 := hmod
  have hsize := s.size_eq
  have hpos := s.bits_pos
  have hle := size_le s
  obtain ⟨n, hn⟩ : ∃ n, s.perLane = n + 2 := by
    have h1 : s.perLane ≠ 1 := by
      intro h
      rw [h] at hsize
      omega
    exact ⟨s.perLane - 2, by have := s.perLane_pos; omega⟩
  have hplanes : (s.size - s.bits - 1) / s.bits = n := by
    rw [hn, succ_mul, succ_mul] at hsize
    rw [show s.size - s.bits - 1 = n * s.bits + (s.bits - 1) by omega,
      (Shape.mul_add_div_mod (by omega)).1]
  have hall : s.ints = (n + 1) * s.words + s.words := by
    rw [s.ints_eq, hrest, hn]
    ring
  obtain ⟨ints', hrun, hlen, hat, hlast⟩ := @splitIntsSame_spec I _ input input' words ints s.words
    (s.size - s.bits) s.bits ((n + 1) * s.words) h.supplies h.length (by omega) (by omega) hpos
    (mul_mod_right 4 s.bits) (by rw [hplanes]) (hall ▸ h.ints_room) (maskFor s.size s.bits)
    (maskFor s.size s.bits)
  refine ⟨ints', ?_, hlen, ?_⟩
  · rwa [show s.size / s.bits - 1 = n + 1 from Nat.sub_eq_of_eq_add hn]
  rw [hall, ← succ_mul]
  refine @unpackedTo_planes s words ints' hlt s.bits _ (by omega)
    (fun _ _ => rfl) fun j hj i hi => ?_
  rcases lt_or_eq_of_le (le_of_lt_succ hj) with hj' | rfl
  · exact hat j (by omega) i hi
  · have hend : s.size - s.bits - (n + 1) * s.bits = 0 := by
      rw [hn, succ_mul] at hsize
      omega
    rw [mul_comm, hlast i hi, hend, BitVec.sshiftRight_zero]

/-- Words that are the values. -/
theorem Decoding.readInts (hbits : s.bits = bits) (hfull : s.bits = s.size) :
    Decoded s words ints input' (IntInput.readInts input ints 0 (4 * bits)) := by
  subst hbits
  have hall : s.ints = s.words := by
    rw [Shape.ints, Shape.words, hfull]
  have hone : s.perLane = 1 := by
    rw [Shape.perLane, hfull, Nat.div_self s.size_pos]
  have hfit : 0 + words.length ≤ ints.length := by
    rw [zero_add, h.length, ← hall]
    exact h.ints_room
  have hreads := h.supplies ints 0 hfit
  rw [h.length] at hreads
  refine ⟨splice ints 0 words, hreads, splice_length hfit,
    fun int hint => ⟨?_, fun lane top htop => ?_⟩⟩
  · rw [hfull]
    exact narrow_size _
  · rw [hall] at hint
    rw [intAt_splice hfit, if_pos (by rw [h.length]; omega), Nat.sub_zero,
      Shape.slot_of_lt (by rwa [hone, one_mul]), mod_eq_of_lt hint, div_eq_of_lt hint, zero_mul,
      zero_add, hfull]

/-- The unrolled decoders. -/
theorem Decoding.decodeDiff {rest : Nat} (hbits : s.bits = bits) (hsize : s.size = size)
    (hmod : size % bits = rest) (hpos : 0 < rest) {stride : Nat} {lines : List (List Piece)}
    (hcheck : checkLines size rest bits rest stride lines = true)
    (hstream : lines.length * bits = stride * rest) (hgroups : groups * lines.length = 4 * rest) :
    Decoded s words ints input' (decodeDiff (masksFor size) (4 * bits)
      (size - bits) bits bits rest groups stride (size / bits * (4 * bits))
        lines input tmp ints) := by
  subst hbits hsize hmod
  have hrest : 0 < s.rest := hpos
  obtain ⟨mid, tmp', hsplit, hmidLen, htmpLen, hmid, htail⟩ :=
    h.splitDiff hrest (.inl rfl) (maskFor s.size s.rest)
  obtain ⟨ints', hrun, hlen, hto⟩ := decodeGroups_spec hrest hcheck hstream hgroups
    (tails_masked (htmpLen ▸ h.tmp_room) htail) (hmidLen ▸ h.ints_room) hmid
  refine ⟨ints', ?_, hlen.trans hmidLen, hto⟩
  show ForUtil.decodeDiff (masksFor s.size) s.words (s.size - s.bits) s.bits
    s.bits s.rest groups stride
    (s.perLane * s.words) lines input tmp ints = _
  rw [ForUtil.decodeDiff, getInt_eq (masksFor_spec s.lanes (bits_lt_of_rest hrest)).1,
    getInt_eq (masksFor_spec s.lanes (s.rest_lt.trans_le s.bits_le)).1, ok_bind, ok_bind]
  rw [maskFor, maskFor] at hsplit
  rw [hsplit, ok_bind]
  simp only [hrun, ok_bind, pure_eq_ok]

end

end

/-! ## The generic loop -/

/-- A value of which the low `b` bits are missing. -/
structure Joined (s : Shape) (words : List I32) (j b : Nat) (l : I32) : Prop where
  narrow : Narrow s.size s.bits l
  bit : ∀ lane top, top + b < s.bits → topBit s.size s.bits l lane top =
    topBit s.size s.size (intAt words (s.slot (s.perLane * s.words + j) top).1) lane
      (s.slot (s.perLane * s.words + j) top).2
  low : ∀ lane bit, bit < b → laneBit s.size l lane bit = false

namespace Joined

variable {j b b' k off : Nat} {l piece : I32}

/-- No bit has been joined yet. -/
theorem empty (s : Shape) (words : List I32) (j : Nat) : Joined s words j s.bits 0 :=
  ⟨fun _ _ _ _ => laneBit_zero, fun _ _ h => absurd h (by omega), fun _ _ _ => laneBit_zero⟩

/-- A value with all its bits. -/
theorem holds (h : Joined s words j 0 l) : Holds s words (s.perLane * s.words + j) l :=
  ⟨h.narrow, h.bit⟩

/-- The bits from `b'` up to `b`, of the word `k` from `off` on. -/
theorem or (h : Joined s words j b l) (hb : b ≤ s.bits) (hb' : b' ≤ b)
    (hpiece : ∀ lane bit, bit < s.size →
      laneBit s.size piece lane bit = (decide (b' ≤ bit ∧ bit < b) &&
      laneBit s.size (intAt words k) lane (bit - b' + off)))
    (hat : j * s.bits + (s.bits - b') + off = k * s.rest + s.rest) (hin : off + (b - b') ≤ s.rest) :
    Joined s words j b' (l ||| piece) := by
  have hbits := s.bits_le
  have hsize := s.size_eq
  refine ⟨h.narrow.or fun lane bit hle hlt => ?_, fun lane top htop => ?_, fun lane bit hbit => ?_⟩
  · rw [hpiece lane bit hlt, decide_eq_false (by omega), Bool.false_and]
  · rw [topBit, laneBit_or, hpiece lane _ (by omega)]
    rcases lt_or_ge (top + b) s.bits with hlt | hge
    · rw [decide_eq_false (by omega), Bool.false_and, Bool.or_false]
      exact h.bit lane top hlt
    · rw [h.low lane _ (by omega), Bool.false_or, decide_eq_true (by omega), Bool.true_and,
        Shape.slot_of_ge]
      have hpos : j * s.bits + top = k * s.rest + (s.rest - 1 - (s.bits - 1 - top - b' + off)) := by
        omega
      obtain ⟨hdiv, hmod⟩ := @Shape.mul_add_div_mod k s.rest
        (s.rest - 1 - (s.bits - 1 - top - b' + off)) (by omega)
      rw [hpos, hdiv, hmod, topBit]
      congr 1
      omega
  · rw [laneBit_or, h.low lane bit (by omega), Bool.false_or]
    rcases lt_or_ge bit s.size with hlt | hge
    · rw [hpiece lane bit hlt, decide_eq_false (by omega), Bool.false_and]
    · omega

/-- The low bits of a word, shifted to where bits are missing. -/
theorem or_low (h : Joined s words j b l) (hb : b ≤ s.bits) (hn : n ≤ b) (hrest : n ≤ s.rest)
    (hat : j * s.bits + (s.bits - (b - n)) = k * s.rest + s.rest) :
    Joined s words j (b - n) (l ||| (intAt words k &&& maskFor s.size n) <<< (b - n)) := by
  have hbits := s.bits_le
  have hmask := (masksFor_spec s.lanes (hrest.trans_lt (s.rest_lt.trans_le hbits))).2
  refine h.or (k := k) hb (sub_le b n) (fun lane bit hbit => ?_)
    (show j * s.bits + (s.bits - (b - n)) + 0 = _ from hat) (by omega)
  rw [laneBit_shiftLeft s.size_dvd (narrow_and_mask hmask) (by omega) hbit, add_zero]
  rcases lt_or_ge bit (b - n) with hlt | hge
  · rw [decide_eq_false (by omega), decide_eq_false (by omega), Bool.false_and, Bool.false_and]
  · rw [decide_eq_true (by omega), Bool.true_and, laneBit_and_mask hmask (by omega)]
    congr 1
    rw [decide_eq_decide]
    omega

/-- The high bits of a tail, for the bits that are missing at the end. -/
theorem or_high (h : Joined s words j b l) (hrest : b < s.rest)
    (hat : j * s.bits + (s.bits - b) = k * s.rest) :
    Joined s words j 0 (l ||| (intAt words k).sshiftRight (s.rest - b) &&& maskFor s.size b) := by
  have hbits := s.bits_le
  have hlt := s.rest_lt
  have hmask := (masksFor_spec s.lanes (show b < s.size by omega)).2
  refine h.or (k := k) (by omega) (zero_le b) (fun lane bit hbit => ?_)
    (show j * s.bits + (s.bits - 0) + (s.rest - b) = k * s.rest + s.rest by omega) (by omega)
  rw [laneBit_sshiftRight_and s.size_dvd hmask (by omega) hbit, Nat.sub_zero]
  congr 1
  rw [decide_eq_decide]
  omega

end Joined

section

variable {j b tmpIdx remaining : Nat} {l : I32}

/-- The place in the words is before their end. -/
theorem word_lt_of_at (hj : j < 4 * s.rest) (hn : 0 < n)
    (hat : j * s.bits + s.bits = tmpIdx * s.rest + n) : tmpIdx < s.words := by
  have hstream := Shape.stream_lt hj (show s.bits - 1 < s.bits by have := s.bits_pos; omega)
  by_contra hge
  have := Nat.mul_le_mul_right s.rest (Nat.not_lt.mp hge)
  omega

variable (hsize : s.size = 32) (hlen : s.words ≤ tmp.length)
  (htmp : ∀ i < s.words, intAt tmp i = intAt words i)

include hsize hlen htmp

/-- The loop joins the bits of a value. -/
theorem joinBits_spec (hrest : 0 < s.rest) (hj : j < 4 * s.rest) {fuel : Nat} (hfuel : b < fuel)
    (hb : b ≤ s.bits) (h : Joined s words j b l)
    (hat : j * s.bits + (s.bits - b) = tmpIdx * s.rest) :
    ∃ b' tmpIdx' l', joinBits tmp s.rest fuel b tmpIdx l = .ok (b', tmpIdx', l') ∧ b' < s.rest ∧
      Joined s words j b' l' ∧ j * s.bits + (s.bits - b') = tmpIdx' * s.rest := by
  induction fuel generalizing b tmpIdx l with
  | zero => exact absurd hfuel (not_lt_zero b)
  | succ fuel ih =>
    rw [joinBits]
    split
    · rename_i hge
      have hword : tmpIdx < s.words :=
        word_lt_of_at hj (show 0 < b by omega) (by omega)
      have hmask := (masksFor_spec s.lanes (s.rest_lt.trans_le s.bits_le)).1
      rw [hsize] at hmask
      have hnext := h.or_low hb hge le_rfl (show _ = tmpIdx * s.rest + s.rest by omega)
      rw [maskFor, hsize] at hnext
      rw [getInt_eq (hword.trans_le hlen), ok_bind,
        getInt_eq (show s.rest < masks32.length from hmask), ok_bind, htmp _ hword]
      exact ih (by omega) (by omega) hnext (by rw [succ_mul]; omega)
    · exact ⟨b, tmpIdx, l, rfl, by omega, h, hat⟩

/-- The values that are cut into pieces, one after the other. -/
theorem joinInts_spec (hrest : s.rest = 32 - s.bits) (hpos : 0 < s.rest) {count : Nat}
    (hcount : j + count = 4 * s.rest) (hremaining : 0 < remaining) (hle : remaining ≤ s.rest)
    (hat : j * s.bits + remaining = tmpIdx * s.rest + s.rest) (hints : s.ints ≤ ints.length)
    (h : UnpackedTo s words (s.perLane * s.words + j) ints) :
    ∃ ints', joinInts s.bits tmp count (s.perLane * s.words + j) tmpIdx remaining ints = .ok ints' ∧
      ints'.length = ints.length ∧ UnpackedTo s words s.ints ints' := by
  have hall := s.ints_eq
  have hbits := s.rest_lt
  induction count generalizing j tmpIdx remaining ints with
  | zero =>
    refine ⟨ints, rfl, rfl, ?_⟩
    rwa [hall, ← hcount]
  | succ count ih =>
    have hmask {n : Nat} (hn : n ≤ s.rest) : n < masks32.length := by
      have := (masksFor_spec s.lanes (hn.trans_lt (hbits.trans_le s.bits_le))).1
      rwa [hsize] at this
    have hword : tmpIdx < s.words :=
      word_lt_of_at (show j < 4 * s.rest by omega) (show 0 < s.rest + (s.bits - remaining) by omega)
        (by omega)
    have hfirst := (Joined.empty s words j).or_low le_rfl (n := remaining) (k := tmpIdx) (by omega)
      hle (by omega)
    rw [zero_or_int, maskFor, hsize] at hfirst
    obtain ⟨b, next, l, hrun, hb, hjoined, hnext⟩ := joinBits_spec hsize hlen htmp hpos
      (show j < 4 * s.rest by omega) (show s.bits - remaining < s.bits + 1 by omega) (by omega)
      hfirst (show _ = (tmpIdx + 1) * s.rest by rw [succ_mul]; omega)
    rw [joinInts]
    simp only [← hrest, getInt_eq (hword.trans_le hlen), getInt_eq (hmask hle),
      ok_bind, htmp _ hword]
    rw [show intAt masks32 remaining = intAt (masksFor 32) remaining from rfl, hrun, ok_bind]
    split
    · rename_i hbpos
      have hin : next < s.words := word_lt_of_at (show j < 4 * s.rest by omega) hbpos (by omega)
      have hdone := (hjoined.or_high hb hnext).holds
      rw [maskFor, hsize] at hdone
      rw [getInt_eq (hin.trans_le hlen), ok_bind, getInt_eq (hmask hb.le), ok_bind,
        setInt_eq (by omega), ok_bind, htmp _ hin]
      obtain ⟨ints', hrest', hlen', hto⟩ := ih (by omega) (show 0 < s.rest - b by omega) (by omega)
        (show (j + 1) * s.bits + (s.rest - b) = next * s.rest + s.rest by rw [succ_mul]; omega)
        (by rwa [length_set]) (h.set (by omega) hdone)
      exact ⟨ints', hrest', hlen'.trans length_set, hto⟩
    · obtain rfl : b = 0 := by omega
      rw [setInt_eq (by omega), ok_bind]
      obtain ⟨ints', hrest', hlen', hto⟩ := ih (by omega) hpos le_rfl
        (show (j + 1) * s.bits + s.rest = next * s.rest + s.rest by rw [succ_mul]; omega)
        (by rwa [length_set]) (h.set (by omega) hjoined.holds)
      exact ⟨ints', hrest', hlen'.trans length_set, hto⟩

end

/-! ## The decoders -/

section

variable {I : Type} [IntInput I] {input input' : I}

/-- The unrolled lines of the widths above 16 pass the check, on words that were not masked. -/
def slowChecked (bits : Nat) : Bool :=
  match slowGroups bits with
  | some (groups, stride, lines) =>
    checkLines 32 32 bits (32 - bits) stride lines &&
      decide (lines.length * bits = stride * (32 - bits)) &&
      decide (groups * lines.length = 4 * (32 - bits))
  | none => true

/-- The shape of every width from seventeen on is right. -/
theorem slowChecked_all : ∀ bits < 32, slowChecked bits = true := by
  decide +kernel

/-- The loop for wide values. -/
theorem Decoding.decodeSlow (h : Decoding s words tmp ints input input') (hsize : s.size = 32)
    (hlow : 17 ≤ s.bits) (hhigh : s.bits < 32) :
    Decoded s words ints input' (decodeSlow s.bits input tmp ints) := by
  have hone : s.perLane = 1 := by
    exact Nat.div_eq_of_lt_le (by omega) (by omega)
  have hrest : s.rest = 32 - s.bits := by
    have := s.size_eq
    rw [hone] at this
    omega
  have hcount : s.bits <<< 2 = s.words := by
    rw [shiftLeft_eq, Shape.words]
    omega
  have hall : s.ints = 128 := by
    rw [Shape.ints, hsize]
  have hmask {n : Nat} (hn : n < 32) : getInt masks32 n = .ok (maskFor 32 n) :=
    getInt_eq (masksFor_spec (.inr (.inr rfl)) hn).1
  obtain ⟨mid, tmp', hsplit, hmidLen, htmpLen, hmid, htail⟩ :=
    h.splitDiff (by omega) (.inr ⟨hone, hsize.le⟩) (BitVec.allOnes 32)
  have hsame : ∀ i < s.words, intAt tmp' i = intAt words i := fun i hi => by
    rw [htail i hi, BitVec.and_allOnes]
  have htmp := htmpLen ▸ h.tmp_room
  have hints := hmidLen ▸ h.ints_room
  unfold Decoded
  rw [← hmidLen]
  rw [hsize] at hsplit
  unfold ForUtil.decodeSlow
  rw [hcount, hmask hhigh, ok_bind, hsplit, ok_bind]
  dsimp only
  rw [if_pos ⟨hall ▸ hints, htmp⟩]
  cases htable : slowGroups s.bits with
  | some table =>
    have hchecked := slowChecked_all s.bits hhigh
    simp only [slowChecked, htable, Bool.and_eq_true, decide_eq_true_eq] at hchecked
    obtain ⟨⟨hcheck, hstream⟩, hgroups⟩ := hchecked
    rw [← hrest] at hcheck hstream hgroups
    have htails := tails_unmasked htmp hsame
    obtain ⟨ints', hrun, hlen, hto⟩ := decodeGroups_spec (by omega)
      (by rw [hsize]; exact hcheck) hstream hgroups (hsize ▸ htails) hints hmid
    rw [hsize, hone, one_mul] at hrun
    refine ⟨ints', ?_, hlen, hto⟩
    simp only [show masksFor 32 = masks32 from rfl] at hrun
    simp only [hrun, ok_bind, pure_eq_ok]
  | none =>
    obtain ⟨ints', hrun, hlen, hto⟩ := @joinInts_spec s words mid tmp' 0 0 s.rest hsize htmp hsame
      hrest (by omega) (blockSize - s.words)
      (by rw [blockSize, ← hall, s.ints_eq, hone]; omega) (by omega) le_rfl (by omega) hints hmid
    rw [hone, one_mul, add_zero, hrest] at hrun
    refine ⟨ints', ?_, hlen, hto⟩
    simp only [hmask (show 32 - s.bits < 32 by omega), hrun, ok_bind, pure_eq_ok]

/-- Every width has a decoder for the smallest lanes it fits into. -/
theorem Decoding.decodeCollapsed (h : Decoding s words tmp ints input input')
    (hsize : s.size = primitiveFor s.bits) (hhigh : s.bits < 32) :
    Decoded s words ints input' (decodeCollapsed s.bits input tmp ints) := by
  have hlanes {bits : Nat} (hbits : s.bits = bits) : s.size = primitiveFor bits :=
    hsize.trans (congrArg primitiveFor hbits)
  unfold ForUtil.decodeCollapsed
  split
  case h_1 hbits | h_2 hbits | h_4 hbits =>
    exact h.splitSame hbits (hlanes hbits) rfl (by decide)
  case h_8 hbits | h_16 hbits => exact h.readInts hbits (hbits.trans (hlanes hbits).symm)
  case h_3 hbits | h_5 hbits | h_6 hbits | h_7 hbits | h_9 hbits | h_10 hbits | h_11 hbits |
      h_12 hbits | h_13 hbits | h_14 hbits | h_15 hbits =>
    exact h.decodeDiff hbits (hlanes hbits) rfl (by decide) (by decide +kernel) rfl rfl
  case h_17 =>
    have hlow : 17 ≤ s.bits := by
      have := s.bits_pos
      simp only [imp_false] at *
      omega
    have hlanes : s.size = 32 := by
      rw [hsize, primitiveFor, if_neg (by omega), if_neg (by omega)]
    exact h.decodeSlow hlanes hlow hhigh

end

end ForUtil

end RLucene.Codecs.Lucene101
