import RLucene.Internal.Vectorization.PostingDecodingUtilCorrect
import RLucene.Lib.Lanes

/-!
# Where the bits of a block are

A shape says how wide the values and how large the lanes are. The packed words hold in each lane,
from the top, one value of each of several runs; the bits that are left at the bottom of the lanes,
taken one word after the other, are the remaining values one after the other. `source` says for a
bit of a packed word which bit of which value it is, and `slot` the other way round. Encoders are to
produce words that are `Packed`, decoders values that are `Unpacked`; both together restore the
values.
-/

namespace RLucene.Codecs.Lucene101

open Nat Lib Internal.Vectorization

/-- Values of `bits` bits in lanes of `size` bits. -/
structure Shape where
  bits : Nat
  size : Nat
  bits_pos : 0 < bits
  bits_le : bits ≤ size
  lanes : size = 8 ∨ size = 16 ∨ size = 32

namespace Shape

/-- Lanes of eight bits up to a limit, and of sixteen up to another one, are wide enough. -/
theorem limits_spec {low high bits : Nat} (hlow : low ≤ 8) (hhigh : high ≤ 16) (hle : bits ≤ 31) :
    let size := if bits ≤ low then 8 else if bits ≤ high then 16 else 32
    bits ≤ size ∧ (size = 8 ∨ size = 16 ∨ size = 32) := by
  split_ifs <;> omega

/-- The shape of a width, in the lanes that two limits give. -/
def ofLimits (low high bits : Nat) (hlow : low ≤ 8) (hhigh : high ≤ 16) (hpos : 1 ≤ bits)
    (hle : bits ≤ 31) : Shape where
  bits := bits
  size := if bits ≤ low then 8 else if bits ≤ high then 16 else 32
  bits_pos := hpos
  bits_le := (limits_spec hlow hhigh hle).1
  lanes := (limits_spec hlow hhigh hle).2

variable (s : Shape)

/-- The number of whole values in a lane. -/
def perLane : Nat := s.size / s.bits

/-- The bits that are left in a lane. -/
def rest : Nat := s.size % s.bits

/-- The number of packed words. -/
def words : Nat := 4 * s.bits

/-- The number of words of values, when the lanes are collapsed. -/
def ints : Nat := 4 * s.size

/-- The value, and its bit from the top, that is at a bit from the top of a packed word. -/
def source (word top : Nat) : Nat × Nat :=
  if top < s.perLane * s.bits then (top / s.bits * s.words + word, top % s.bits)
  else
    let pos := word * s.rest + (top - s.perLane * s.bits)
    (s.perLane * s.words + pos / s.bits, pos % s.bits)

/-- The packed word, and its bit from the top, that has a bit from the top of a value. -/
def slot (int top : Nat) : Nat × Nat :=
  if int < s.perLane * s.words then (int % s.words, int / s.words * s.bits + top)
  else
    let pos := (int - s.perLane * s.words) * s.bits + top
    (pos / s.rest, s.perLane * s.bits + pos % s.rest)

/-- Whole values and the rest fill a lane. -/
theorem size_eq : s.perLane * s.bits + s.rest = s.size := by
  rw [perLane, rest, mul_comm]
  exact div_add_mod s.size s.bits

theorem rest_lt : s.rest < s.bits :=
  mod_lt _ s.bits_pos

theorem size_pos : 0 < s.size :=
  s.bits_pos.trans_le s.bits_le

theorem words_pos : 0 < s.words :=
  mul_pos (by decide) s.bits_pos

theorem perLane_pos : 0 < s.perLane :=
  Nat.div_pos s.bits_le s.bits_pos

theorem size_dvd : s.size ∣ 32 := by
  rcases s.lanes with h | h | h <;> rw [h] <;> decide

/-- The values that fit whole, and those in the rests. -/
theorem ints_eq : s.ints = s.perLane * s.words + 4 * s.rest := by
  rw [ints, words, ← s.size_eq]
  ring

variable {s} {int top : Nat}

/-- A bit of a whole value. -/
theorem source_of_lt {word : Nat} (h : top < s.perLane * s.bits) :
    s.source word top = (top / s.bits * s.words + word, top % s.bits) := by
  rw [source, if_pos h]

/-- A bit below the whole values, in the stream of the remaining ones. -/
theorem source_of_ge {word t : Nat} :
    s.source word (s.perLane * s.bits + t) =
      (s.perLane * s.words + (word * s.rest + t) / s.bits, (word * s.rest + t) % s.bits) := by
  rw [source, if_neg (by omega), Nat.add_sub_cancel_left]

/-- Where a whole value is. -/
theorem slot_of_lt (h : int < s.perLane * s.words) :
    s.slot int top = (int % s.words, int / s.words * s.bits + top) := by
  rw [slot, if_pos h]

/-- Where a value in the rests is. -/
theorem slot_of_ge {j : Nat} :
    s.slot (s.perLane * s.words + j) top =
      ((j * s.bits + top) / s.rest, s.perLane * s.bits + (j * s.bits + top) % s.rest) := by
  rw [slot, if_neg (by omega), Nat.add_sub_cancel_left]

theorem run_lt (h : int < s.perLane * s.words) (htop : top < s.bits) :
    int / s.words * s.bits + top < s.perLane * s.bits :=
  row_lt ((Nat.div_lt_iff_lt_mul s.words_pos).mpr h) htop

/-- The values in the rests fit there. -/
theorem stream_lt {j : Nat} (hj : j < 4 * s.rest) (htop : top < s.bits) :
    j * s.bits + top < s.words * s.rest := by
  calc j * s.bits + top < 4 * s.rest * s.bits := row_lt hj htop
    _ = s.words * s.rest := by
        rw [words]
        ring

/-- Every bit of a value has a place in the packed words. -/
theorem slot_lt (hint : int < s.ints) (htop : top < s.bits) :
    (s.slot int top).1 < s.words ∧ (s.slot int top).2 < s.size := by
  have hsize := s.size_eq
  rcases lt_or_ge int (s.perLane * s.words) with hlt | hge
  · rw [slot_of_lt hlt]
    have := run_lt hlt htop
    exact ⟨mod_lt _ s.words_pos, by show _ < s.size; omega⟩
  · obtain ⟨j, rfl⟩ := Nat.exists_eq_add_of_le hge
    rw [ints_eq] at hint
    have hstream := stream_lt (show j < 4 * s.rest by omega) htop
    have hrest : 0 < s.rest := by
      by_contra h0
      omega
    rw [slot_of_ge]
    refine ⟨(Nat.div_lt_iff_lt_mul hrest).mpr hstream, ?_⟩
    have := mod_lt (j * s.bits + top) hrest
    omega

theorem mul_add_div_mod {a b c : Nat} (h : c < b) : (a * b + c) / b = a ∧ (a * b + c) % b = c := by
  have hb : 0 < b := by omega
  constructor
  · rw [add_comm, add_mul_div_right _ _ hb, div_eq_of_lt h, zero_add]
  · rw [add_comm, add_mul_mod_self_right, mod_eq_of_lt h]

/-- What is at the place of a bit is that bit. -/
theorem source_slot (hint : int < s.ints) (htop : top < s.bits) :
    s.source (s.slot int top).1 (s.slot int top).2 = (int, top) := by
  rcases lt_or_ge int (s.perLane * s.words) with hlt | hge
  · obtain ⟨hdiv, hmod⟩ := @mul_add_div_mod (int / s.words) _ _ htop
    rw [slot_of_lt hlt, source_of_lt (run_lt hlt htop), hdiv, hmod, mul_comm, div_add_mod]
  · obtain ⟨j, rfl⟩ := Nat.exists_eq_add_of_le hge
    obtain ⟨hdiv, hmod⟩ := @mul_add_div_mod j _ _ htop
    rw [slot_of_ge, source_of_ge, mul_comm _ s.rest, div_add_mod, hdiv, hmod]

end Shape

/-! ## Packed words -/

/-- A bit of a number of `width` bits in a lane, from the top. -/
def topBit (size width : Nat) (x : I32) (lane top : Nat) : Bool :=
  laneBit size x lane (width - 1 - top)

/-- The words hold the values where the shape says. -/
structure Packed (s : Shape) (ints words : List I32) : Prop where
  length : words.length = s.words
  bit : ∀ word < s.words, ∀ lane top, top < s.size →
    topBit s.size s.size (intAt words word) lane top =
      topBit s.size s.bits (intAt ints (s.source word top).1) lane (s.source word top).2

/-- A value is what the words hold for its index. -/
structure Holds (s : Shape) (words : List I32) (int : Nat) (value : I32) : Prop where
  narrow : Narrow s.size s.bits value
  bit : ∀ lane top, top < s.bits → topBit s.size s.bits value lane top =
    topBit s.size s.size (intAt words (s.slot int top).1) lane (s.slot int top).2

/-- The first `stop` values are what the words hold. -/
def UnpackedTo (s : Shape) (words : List I32) (stop : Nat) (ints : List I32) : Prop :=
  ∀ int < stop, Holds s words int (intAt ints int)

variable {s : Shape} {ints ints' words words' : List I32}

/-- The bits below the runs of a lane. -/
theorem topBit_low (x : I32) (lane t : Nat) :
    topBit s.size s.rest x lane t = topBit s.size s.size x lane (s.perLane * s.bits + t) := by
  have hsize := s.size_eq
  rw [topBit, topBit]
  congr 1
  omega

/-- Words with the same bits from the top are the same. -/
theorem eq_of_topBit_eq {x y : I32}
    (h : ∀ lane top, top < s.size → topBit s.size s.size x lane top =
      topBit s.size s.size y lane top) : x = y := by
  apply eq_of_laneBit_eq s.size_pos
  intro lane bit hbit
  have htop := h lane (s.size - 1 - bit) (by omega)
  rwa [topBit, topBit, show s.size - 1 - (s.size - 1 - bit) = bit by omega] at htop

/-- Words are the same if the values in their lanes are. -/
theorem eq_of_narrow {x y : I32} (hx : Narrow s.size s.bits x) (hy : Narrow s.size s.bits y)
    (h : ∀ lane top, top < s.bits → topBit s.size s.bits x lane top =
      topBit s.size s.bits y lane top) :
    x = y := by
  apply eq_of_laneBit_eq s.size_pos
  intro lane bit hbit
  rcases lt_or_ge bit s.bits with hlt | hge
  · have htop := h lane (s.bits - 1 - bit) (by omega)
    rwa [topBit, topBit, show s.bits - 1 - (s.bits - 1 - bit) = bit by omega] at htop
  · rw [hx lane bit hge hbit, hy lane bit hge hbit]

/-- There is only one way to pack values. -/
theorem Packed.unique (h : Packed s ints words) (h' : Packed s ints words') : words = words' := by
  refine ext_intAt (h.length.trans h'.length.symm) fun word hword => ?_
  rw [h.length] at hword
  apply @eq_of_topBit_eq s
  intro lane top htop
  rw [h.bit word hword lane top htop, h'.bit word hword lane top htop]

/-- Unpacking packed values restores them. -/
theorem UnpackedTo.restores (hp : Packed s ints words) (hu : UnpackedTo s words s.ints ints')
    (hnarrow : ∀ int < s.ints, Narrow s.size s.bits (intAt ints int)) {int : Nat}
    (hint : int < s.ints) : intAt ints' int = intAt ints int := by
  refine eq_of_narrow (hu int hint).narrow (hnarrow int hint) fun lane top htop => ?_
  obtain ⟨hword, hslot⟩ := Shape.slot_lt hint htop
  rw [(hu int hint).bit lane top htop, hp.bit _ hword lane _ hslot, Shape.source_slot hint htop]

end RLucene.Codecs.Lucene101
