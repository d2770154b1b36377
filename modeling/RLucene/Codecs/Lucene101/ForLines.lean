import RLucene.Codecs.Lucene101.ForLayout
import RLucene.Codecs.Lucene101.ForUtil

/-!
# Unrolled lines

A line of an unrolled loop joins pieces of packed integers. Each bit of its result comes from the
bits its pieces route to it. A table of lines is checked by following the routes
(`checkLines`): a table that passes cuts a stream of numbers of one width into numbers of another
width, whatever the numbers are (`lineValue_spec`).
-/

namespace RLucene.Codecs.Lucene101

open List Lib Internal.Vectorization

namespace ForUtil

/-! ## Masks -/

/-- The mask for the low bits of all lanes of a size. -/
def maskFor (size bits : Nat) : I32 :=
  intAt (masksFor size) bits

/-- The bits of all masks. -/
theorem masks_getLsbD :
    (∀ m < 8, ∀ i < 32, (mask8 m).getLsbD i = decide (i % 8 < m)) ∧
    (∀ m < 16, ∀ i < 32, (mask16 m).getLsbD i = decide (i % 16 < m)) ∧
    ∀ m < 32, ∀ i < 32, (mask32 m).getLsbD i = decide (i % 32 < m) := by
  decide +kernel

/-- The table has the masks of all widths. -/
theorem masksFor_spec {size m : Nat} (hsize : size = 8 ∨ size = 16 ∨ size = 32) (hm : m < size) :
    m < (masksFor size).length ∧ IsLaneMask size m (maskFor size m) := by
  obtain ⟨h8, h16, h32⟩ := masks_getLsbD
  have hlane {size : Nat} {mask : I32} (hbits : ∀ i < 32, mask.getLsbD i = decide (i % size < m)) :
      IsLaneMask size m mask := by
    intro lane bit hbit hlt
    rw [laneBit, hbits _ hlt, Nat.mul_comm, Nat.mul_add_mod, Nat.mod_eq_of_lt hbit]
  have hat {f : Nat → I32} {n : Nat} (hn : m < n) : intAt ((range n).map f) m = f m := by
    rw [intAt_eq_getElem (by simpa using hn), getElem_map, getElem_range]
  rcases hsize with rfl | rfl | rfl
  · refine ⟨hm, ?_⟩
    rw [maskFor, show intAt (masksFor 8) m = mask8 m from hat hm]
    exact hlane (h8 m hm)
  · refine ⟨hm, ?_⟩
    rw [maskFor, show intAt (masksFor 16) m = mask16 m from hat hm]
    exact hlane (h16 m hm)
  · refine ⟨hm, ?_⟩
    rw [maskFor, show intAt (masksFor 32) m = mask32 m from hat hm]
    exact hlane (h32 m hm)

/-! ## Pieces -/

namespace Piece

/-- The word a piece is taken from. -/
def index : Piece → Nat
  | whole index _ => index
  | low index _ _ => index
  | high index _ _ => index
  | highLong index _ _ => index

/-- The piece of words of which every lane is to be taken alone. -/
def value (size : Nat) (word : Nat → I32) : Piece → I32
  | whole index left => word index <<< left
  | low index bits left => (word index &&& maskFor size bits) <<< left
  | high index right bits => word index >>> right &&& maskFor size bits
  | highLong index right bits =>
    (((word index).signExtend 64) >>> right).truncate 32 &&& maskFor size bits

/-- No bit leaves its lane, for words of `width` bits. -/
def fits (size width : Nat) : Piece → Bool
  | whole _ left => decide (width + left ≤ size)
  | low _ bits left => decide (bits < size) && decide (bits + left ≤ size)
  | high _ right bits => decide (bits < size) && decide (bits + right ≤ size)
  | highLong _ right bits => decide (bits < size) && decide (bits + right ≤ size)

/-- The word, and its bit, that a bit of the result comes from. -/
def route (width bit : Nat) : Piece → Option (Nat × Nat)
  | whole index left =>
    if left ≤ bit ∧ bit - left < width then some (index, bit - left) else none
  | low index bits left =>
    if left ≤ bit ∧ bit - left < min bits width then some (index, bit - left) else none
  | high index right bits =>
    if bit < bits ∧ bit + right < width then some (index, bit + right) else none
  | highLong index right bits =>
    if bit < bits ∧ bit + right < width then some (index, bit + right) else none

/-- The bit that a route leads to. -/
def routed (size : Nat) (word : Nat → I32) (lane : Nat) (route : Option (Nat × Nat)) : Bool :=
  match route with
  | some (index, bit) => laneBit size (word index) lane bit
  | none => false

variable {size width : Nat} {word : Nat → I32}

/-- A shift of the integer extended to 64 bits is an arithmetic shift. -/
theorem truncate_signExtend_shift (x : I32) {s : Nat} (hs : s < 32) :
    ((x.signExtend 64) >>> s).truncate 32 = x.sshiftRight s := by
  apply BitVec.eq_of_getLsbD_eq
  intro i hi
  simp only [BitVec.truncate_eq_setWidth, BitVec.getLsbD_setWidth, BitVec.getLsbD_ushiftRight,
    BitVec.getLsbD_signExtend, BitVec.getLsbD_sshiftRight]
  simp only [hi, show s + i < 64 by omega, show ¬ 32 ≤ i by omega, decide_true, decide_false,
    Bool.true_and, Bool.not_false]

/-- Each bit of a piece is the bit its route leads to. -/
theorem laneBit_value (hsize : size = 8 ∨ size = 16 ∨ size = 32) {piece : Piece}
    (hfits : piece.fits size width = true) (hword : ∀ i, Narrow size width (word i))
    {lane bit : Nat}
    (hbit : bit < size) :
    laneBit size (piece.value size word) lane bit =
      routed size word lane (piece.route width bit) := by
  have hdvd : size ∣ 32 := by rcases hsize with rfl | rfl | rfl <;> decide
  -- both shifts to the right take the same bits
  have hright {index right bits : Nat} (hbits : bits + right ≤ size) :
      (decide (bit < bits) && laneBit size (word index) lane (bit + right)) =
        routed size word lane
          (if bit < bits ∧ bit + right < width then some (index, bit + right) else none) := by
    by_cases hlt : bit < bits
    · rw [decide_eq_true hlt, Bool.true_and]
      by_cases hin : bit + right < width
      · rw [if_pos ⟨hlt, hin⟩, routed]
      · rw [if_neg (by omega), routed, hword index lane _ (by omega) (by omega)]
    · rw [decide_eq_false hlt, Bool.false_and, if_neg (by omega), routed]
  cases piece with
  | whole index left =>
    rw [fits, decide_eq_true_eq] at hfits
    rw [value, laneBit_shiftLeft hdvd (hword index) hfits hbit, route]
    by_cases hle : left ≤ bit
    · rw [decide_eq_true hle, Bool.true_and]
      by_cases hin : bit - left < width
      · rw [if_pos ⟨hle, hin⟩, routed]
      · rw [if_neg (by omega), routed, hword index lane _ (by omega) (by omega)]
    · rw [decide_eq_false hle, Bool.false_and, if_neg (by omega), routed]
  | low index bits left =>
    rw [fits, Bool.and_eq_true, decide_eq_true_eq, decide_eq_true_eq] at hfits
    have hmask := (masksFor_spec hsize hfits.1).2
    rw [value, laneBit_shiftLeft hdvd (narrow_and_mask hmask) hfits.2 hbit, route]
    by_cases hle : left ≤ bit
    · rw [decide_eq_true hle, Bool.true_and, laneBit_and_mask hmask (by omega)]
      by_cases hlt : bit - left < bits
      · rw [decide_eq_true hlt, Bool.true_and]
        by_cases hin : bit - left < width
        · rw [if_pos ⟨hle, Nat.lt_min.mpr ⟨hlt, hin⟩⟩, routed]
        · rw [if_neg fun h => hin (Nat.lt_min.mp h.2).2, routed,
            hword index lane _ (by omega) (by omega)]
      · rw [decide_eq_false hlt, Bool.false_and, if_neg fun h => hlt (Nat.lt_min.mp h.2).1, routed]
    · rw [decide_eq_false hle, Bool.false_and, if_neg fun h => hle h.1, routed]
  | high index right bits =>
    rw [fits, Bool.and_eq_true, decide_eq_true_eq, decide_eq_true_eq] at hfits
    have hmask := (masksFor_spec hsize hfits.1).2
    rw [value, laneBit_ushiftRight_and hmask hbit, route]
    exact hright hfits.2
  | highLong index right bits =>
    rw [fits, Bool.and_eq_true, decide_eq_true_eq, decide_eq_true_eq] at hfits
    have hmask := (masksFor_spec hsize hfits.1).2
    rw [value, route]
    by_cases hzero : bits = 0
    · rw [laneBit_and_mask hmask hbit, if_neg (by omega), routed, decide_eq_false (by omega),
        Bool.false_and]
    · rw [truncate_signExtend_shift _ (by omega), laneBit_sshiftRight_and hdvd hmask hfits.2 hbit]
      exact hright hfits.2

end Piece

/-! ## Lines -/

/-- The result of a line. -/
def lineValue (size : Nat) (word : Nat → I32) (line : List Piece) : I32 :=
  line.foldl (fun value piece => value ||| piece.value size word) 0

/-- The word, and its bit, where the bit of number `o` of `width` bits is in a stream of numbers of
`width'` bits, both from the top. -/
def streamSource (width width' o bit : Nat) : Nat × Nat :=
  let pos := o * width + (width - 1 - bit)
  (pos / width', width' - 1 - pos % width')

/-- The routes of all bits of all lines: the words have `inWidth` bits that may be set, of which a
stream of numbers of `width'` bits is cut into numbers of `width` bits. -/
def checkLines (size inWidth width width' stride : Nat) (lines : List (List Piece)) : Bool :=
  (lines.all fun line => line.all fun piece =>
    piece.fits size inWidth && decide (piece.index < stride)) &&
  (range lines.length).all fun o => (range size).all fun bit =>
    (lines.getD o []).filterMap (Piece.route inWidth bit) ==
      if bit < width then [streamSource width width' o bit] else []

section

variable {size width : Nat} {word : Nat → I32}

/-- A bit of a line is set if one of the bits routed to it is. -/
theorem laneBit_lineValue (hsize : size = 8 ∨ size = 16 ∨ size = 32)
    (hword : ∀ i, Narrow size width (word i)) {line : List Piece}
    (hfits : ∀ piece ∈ line, piece.fits size width = true) {lane bit : Nat} (hbit : bit < size) :
    laneBit size (lineValue size word line) lane bit =
      (line.filterMap (Piece.route width bit)).any fun p => laneBit size (word p.1) lane p.2 := by
  have hall : ∀ value : I32, laneBit size
      (line.foldl (fun value piece => value ||| piece.value size word) value) lane bit =
      (laneBit size value lane bit ||
        (line.filterMap (Piece.route width bit)).any fun p =>
          laneBit size (word p.1) lane p.2) := by
    induction line with
    | nil =>
      intro value
      rw [foldl_nil, filterMap_nil, any_nil, Bool.or_false]
    | cons piece line ih =>
      intro value
      rw [foldl_cons, ih (forall_mem_cons.mp hfits).2, laneBit_or,
        Piece.laneBit_value hsize (hfits piece mem_cons_self) hword hbit, Bool.or_assoc,
        filterMap_cons]
      cases hroute : piece.route width bit with
      | none => rw [Piece.routed, Bool.false_or]
      | some p => rw [Piece.routed, any_cons]
  rw [lineValue, hall, laneBit_zero, Bool.false_or]

variable {inWidth width' stride : Nat} {lines : List (List Piece)}

/-- The pieces of a checked line fit a lane. -/
theorem checkLines_fits (h : checkLines size inWidth width width' stride lines = true)
    {line : List Piece} (hline : line ∈ lines) {piece : Piece} (hpiece : piece ∈ line) :
    piece.fits size inWidth = true ∧ piece.index < stride := by
  rw [checkLines, Bool.and_eq_true, all_eq_true] at h
  have hfits := all_eq_true.mp (h.1 line hline) piece hpiece
  rwa [Bool.and_eq_true, decide_eq_true_eq] at hfits

/-- The lines that pass the check cut the stream of the words. -/
theorem lineValue_spec (hsize : size = 8 ∨ size = 16 ∨ size = 32)
    (hcheck : checkLines size inWidth width width' stride lines = true)
    (hword : ∀ i, Narrow size inWidth (word i)) {o : Nat} (ho : o < lines.length) :
    Narrow size width (lineValue size word lines[o]) ∧
      ∀ lane top, top < width → width ≤ size →
        topBit size width (lineValue size word lines[o]) lane top =
          topBit size width' (word ((o * width + top) / width')) lane
            ((o * width + top) % width') := by
  have hline {lane bit : Nat} (hbit : bit < size) :=
    @laneBit_lineValue size inWidth word hsize hword lines[o]
      (fun piece hpiece => (checkLines_fits hcheck (getElem_mem ho) hpiece).1) lane bit hbit
  have hroutes : ∀ bit < size, lines[o].filterMap (Piece.route inWidth bit) =
      if bit < width then [streamSource width width' o bit] else [] := by
    intro bit hbit
    rw [checkLines, Bool.and_eq_true] at hcheck
    have hall := all_eq_true.mp (all_eq_true.mp hcheck.2 o (mem_range.mpr ho)) bit
      (mem_range.mpr hbit)
    rwa [beq_iff_eq, getD_eq_getElem _ _ ho] at hall
  constructor
  · intro lane bit hle hlt
    rw [hline hlt, hroutes bit hlt, if_neg (by omega), any_nil]
  · intro lane top htop hle
    rw [topBit, hline (by omega), hroutes _ (by omega), if_pos (by omega), any_cons, any_nil,
      Bool.or_false, streamSource, topBit, show width - 1 - (width - 1 - top) = top by omega]

end

end ForUtil

end RLucene.Codecs.Lucene101
