import RLucene.Lib.Loops
import RLucene.Store.IndexInput
import RLucene.Util.CoreHelper
import RLucene.Util.Slices

/-!
# Bounds of BKD leaves

The bytes that all points of a leaf share in a dimension are stored once, and behind them, for each
index dimension, the least and the greatest of what is left. The reader puts both together in
scratch bytes and asks the visitor about them. Since version 7 the shared bytes are copied over both
bounds; the older routine copies what an earlier leaf left at the least value.
-/

namespace RLucene.Util.Bkd

open List Lib Store

/-- The dimensions of the points, of which some are indexed. -/
structure BKDConfig where
  numDims : Nat
  numIndexDims : Nat
  bytesPerDim : Nat
  numDims_le : numDims ≤ 16
  numIndexDims_le : numIndexDims ≤ numDims

namespace BKDConfig

/-- The bytes of a point. -/
def packedBytesLength (c : BKDConfig) : Nat :=
  c.numDims * c.bytesPerDim

/-- The bytes of its indexed dimensions. -/
def packedIndexBytesLength (c : BKDConfig) : Nat :=
  c.numIndexDims * c.bytesPerDim

end BKDConfig

/-- From this version on a leaf stores its bounds. -/
def versionLeafStoresBounds : Nat :=
  5

/-- From this version on a leaf may store points with their counts. -/
def versionLowCardinalityLeaves : Nat :=
  7

/-! ## The writer -/

/-- Write what the points share in each dimension. -/
def writeCommonPrefixes (c : BKDConfig) (out : Bytes) (commonPrefixes : List Nat)
    (packedValue : Bytes) : Result Bytes :=
  (range (min commonPrefixes.length c.numDims)).foldlM (fun out dim => do
    let prefixLength ← getAt commonPrefixes dim
    let bytes ← getRange packedValue (dim * c.bytesPerDim) prefixLength
    .ok (writeBytes (writeVInt out prefixLength) bytes)) out

/-- A candidate replaces the bound that it is beyond. -/
def narrow (bounds : Bytes × Bytes) (candidate : Bytes) : Bytes × Bytes :=
  if candidate < bounds.1 then (candidate, bounds.2)
  else if bounds.2 < candidate then (bounds.1, candidate) else bounds

/-- The least and the greatest of these bytes of the values. -/
def computeMinMax (packedValues : List Bytes) (offset length : Nat) : Result (Bytes × Bytes) := do
  let first ← getRange (← getAt packedValues 0) offset length
  (packedValues.drop 1).foldlM (fun bounds value => do
    .ok (narrow bounds (← getRange value offset length))) (first, first)

/-- Write the least and the greatest bytes of each indexed dimension. -/
def writeActualBounds (c : BKDConfig) (commonPrefixLengths : List Nat) (out : Bytes)
    (packedValues : List Bytes) : Result Bytes :=
  (range c.numIndexDims).foldlM (fun out dim => do
    let commonPrefixLength ← getAt commonPrefixLengths dim
    let suffixLength := c.bytesPerDim - commonPrefixLength
    if 0 < suffixLength then
      let (min, max) ← computeMinMax packedValues (dim * c.bytesPerDim + commonPrefixLength)
        suffixLength
      .ok (writeBytes (writeBytes out min) max)
    else .ok out) out

/-! ## The reader -/

/-- How a cell relates to the query. -/
inductive Relation where
  | cellInsideQuery
  | cellOutsideQuery
  | cellCrossesQuery
  deriving DecidableEq, Repr

/-- The scratch bytes are kept as the three values that they hold one after the other. -/
structure BKDPointTree where
  config : BKDConfig
  version : Nat
  packedValue : Bytes
  minPackedValue : Bytes
  maxPackedValue : Bytes
  commonPrefixLengths : List Nat
  docIds : List Int
  leafNode : IndexInput

/-- What is left to do for a leaf: nothing, to visit documents whatever their values are, to visit
them with the value that all share, or to read the values one by one. -/
inductive Outcome where
  | skipped
  | accepted (docIds : List Int)
  | unique (docIds : List Int) (packedValue : Bytes)
  | values (compressedDim : Int) (t : BKDPointTree)

/-- A visit of a leaf, with the bounds that the visitor was asked about. -/
structure LeafVisit where
  compared : Option (Bytes × Bytes)
  outcome : Result Outcome

/-- A leaf is skipped or accepted as a whole exactly if the visitor was asked and answered that. -/
def LeafVisit.Answered (visit : LeafVisit) (compare : Bytes → Bytes → Result Relation)
    (docIds : List Int) (count : Nat) : Prop :=
  (visit.outcome = .ok .skipped ↔
    ∃ b, visit.compared = some b ∧ compare b.1 b.2 = .ok .cellOutsideQuery) ∧
  ∀ ids, visit.outcome = .ok (.accepted ids) ↔
    ∃ b, visit.compared = some b ∧ compare b.1 b.2 = .ok .cellInsideQuery ∧
      getRange docIds 0 count = .ok ids

/-- The rest of a visit after something was read. -/
def LeafVisit.after {α : Type} (read : Result α) (next : α → LeafVisit) : LeafVisit :=
  match read with
  | .ok a => next a
  | .error e => ⟨none, .error e⟩

/-- Read `len` bytes to a place of a buffer. -/
def readInto (input : IndexInput) (buffer : Bytes) (offset len : Nat) :
    Result (Bytes × IndexInput) := do
  let (bytes, input) ← input.readBytes len
  .ok (← setRange buffer offset bytes, input)

/-- Read some bytes, if there are any to read. -/
def readSome (input : IndexInput) (buffer : Bytes) (offset len : Nat) :
    Result (Bytes × IndexInput) :=
  if 0 < len then readInto input buffer offset len else .ok (buffer, input)

namespace BKDPointTree

/-- Read what the points share in a dimension. -/
def readCommonPrefix (t : BKDPointTree) (dim : Nat) : Result BKDPointTree := do
  let (v, leafNode) ← t.leafNode.readVInt
  let prefixLength := (← tryConvert .usize v).toNat
  let lengths ← setAt t.commonPrefixLengths dim prefixLength
  let (value, leafNode) ← readSome leafNode t.packedValue (dim * t.config.bytesPerDim) prefixLength
  .ok { t with leafNode := leafNode, commonPrefixLengths := lengths, packedValue := value }

/-- Read it for all dimensions. -/
def readCommonPrefixes (t : BKDPointTree) : Result BKDPointTree :=
  (range t.config.numDims).foldlM readCommonPrefix t

/-- A prefix that is longer than a dimension is a panic, as the subtraction overflows. -/
def readMinMaxDim (t : BKDPointTree) (dim : Nat) : Result BKDPointTree := do
  let prefixLength ← getAt t.commonPrefixLengths dim
  if t.config.bytesPerDim < prefixLength then .error .indexOutOfBounds
  else
    let offset := dim * t.config.bytesPerDim + prefixLength
    let len := t.config.bytesPerDim - prefixLength
    let (min, leafNode) ← readInto t.leafNode t.minPackedValue offset len
    let (max, leafNode) ← readInto leafNode t.maxPackedValue offset len
    .ok { t with minPackedValue := min, maxPackedValue := max, leafNode := leafNode }

/-- Read the bounds of all indexed dimensions. -/
def readMinMax (t : BKDPointTree) : Result BKDPointTree :=
  (range t.config.numIndexDims).foldlM readMinMaxDim t

/-- Read the dimension the points are sorted by. -/
def readCompressedDim (t : BKDPointTree) : Result (Int × BKDPointTree) := do
  let (b, leafNode) ← t.leafNode.readByte
  let compressedDim := asI 8 b.toNat
  if compressedDim < -2 ∨ (t.config.numDims : Int) ≤ compressedDim ∨
      (t.version < versionLowCardinalityLeaves ∧ compressedDim = -2) then
    .error (.corruptIndex s!"Got compressedDim={compressedDim} from input")
  else .ok (compressedDim, { t with leafNode := leafNode })

/-- The documents of a leaf, with the value in the scratch bytes or with those that follow. -/
def visitValues (t : BKDPointTree) (count : Nat) (compressedDim : Int) : Result Outcome := do
  if compressedDim = -1 then .ok (.unique (← getRange t.docIds 0 count) t.packedValue)
  else .ok (.values compressedDim t)

/-- The visitor is asked about the bounds, and what it answers is done. -/
def compareBounds (compare : Bytes → Bytes → Result Relation) (t : BKDPointTree) (count : Nat)
    (crosses : Result Outcome) : LeafVisit where
  compared := some (t.minPackedValue, t.maxPackedValue)
  outcome := do
    match ← compare t.minPackedValue t.maxPackedValue with
    | .cellOutsideQuery => .ok .skipped
    | .cellInsideQuery => .ok (.accepted (← getRange t.docIds 0 count))
    | .cellCrossesQuery => crosses

/-- Visit a leaf of the older versions. -/
def visitDocValuesNoCardinality (compare : Bytes → Bytes → Result Relation) (t : BKDPointTree)
    (count : Nat) : LeafVisit :=
  .after t.readCommonPrefixes fun t =>
    let visitValues (t : BKDPointTree) : Result Outcome := do
      let (compressedDim, t) ← t.readCompressedDim
      t.visitValues count compressedDim
    if 1 < t.config.numIndexDims ∧ versionLeafStoresBounds ≤ t.version then
      let t := { t with maxPackedValue := t.packedValue.take t.config.packedIndexBytesLength }
      let t := { t with maxPackedValue := t.minPackedValue }
      .after t.readMinMax fun t => t.compareBounds compare count (visitValues t)
    else ⟨none, visitValues t⟩

/-- Visit a leaf. -/
def visitDocValuesWithCardinality (compare : Bytes → Bytes → Result Relation) (t : BKDPointTree)
    (count : Nat) : LeafVisit :=
  .after t.readCommonPrefixes fun t => .after t.readCompressedDim fun (compressedDim, t) =>
    if compressedDim ≠ -1 ∧ t.config.numIndexDims ≠ 1 then
      let t := { t with minPackedValue := t.packedValue.take t.config.packedIndexBytesLength }
      let t := { t with maxPackedValue := t.minPackedValue }
      .after t.readMinMax fun t =>
        t.compareBounds compare count (t.visitValues count compressedDim)
    else ⟨none, t.visitValues count compressedDim⟩

/-- Visit the values of a leaf, whose documents have been read. -/
def visitDocValues (compare : Bytes → Bytes → Result Relation) (t : BKDPointTree) (count : Nat) :
    LeafVisit :=
  if versionLowCardinalityLeaves ≤ t.version then t.visitDocValuesWithCardinality compare count
  else t.visitDocValuesNoCardinality compare count

end BKDPointTree

/-! ## Dimensions -/

/-- The bytes of a dimension, of which each has `w`. -/
def dimOf (w : Nat) (packed : Bytes) (dim : Nat) : Bytes :=
  (packed.drop (dim * w)).take w

variable {n : Nat}

section

variable {w dims dim : Nat} {packed : Bytes}

theorem length_dimOf (hlen : packed.length = dims * w) (h : dim < dims) :
    (dimOf w packed dim).length = w := by
  have hle := row_end_le (k := w) h
  rw [dimOf, length_take, length_drop]
  omega

theorem getElem_dimOf (i : Nat) :
    (dimOf w packed dim)[i]? = if i < w then packed[dim * w + i]? else none := by
  rw [dimOf, getElem?_take, getElem?_drop]

/-- Bytes that are written into a dimension change this dimension only. -/
theorem dimOf_splice (hlen : packed.length = dims * w) (h : dim < dims) {offset : Nat}
    {piece : Bytes}
    (hpiece : offset + piece.length ≤ w) (k : Nat) :
    dimOf w (splice packed (dim * w + offset) piece) k =
      if k = dim then splice (dimOf w packed dim) offset piece else dimOf w packed k := by
  have hle := row_end_le (k := w) h
  apply ext_getElem?
  intro i
  by_cases hk : k = dim
  · subst hk
    rw [if_pos rfl, splice_getElem (by rwa [length_dimOf hlen h]), getElem_dimOf, getElem_dimOf,
      splice_getElem (by omega)]
    by_cases hi : i < w
    · simp only [if_pos hi, Nat.add_assoc, Nat.add_le_add_iff_left, Nat.add_lt_add_iff_left,
        Nat.add_sub_add_left]
    · rw [if_neg hi, if_neg hi, if_neg (by omega)]
  · rw [if_neg hk, getElem_dimOf, getElem_dimOf, splice_getElem (by omega)]
    by_cases hi : i < w
    · -- another dimension ends before this one, or starts behind it
      rw [if_pos hi, if_pos hi, if_neg]
      rcases Nat.lt_or_gt_of_ne hk with hlt | hgt
      · have := row_end_le (k := w) hlt
        omega
      · have := row_end_le (k := w) hgt
        omega
    · rw [if_neg hi, if_neg hi]

/-- The dimensions before a cut stay. -/
theorem dimOf_take (h : dim < n) : dimOf w (packed.take (n * w)) dim = dimOf w packed dim := by
  have hle := row_end_le (k := w) h
  rw [dimOf, drop_take, take_take, min_eq_left (by omega), dimOf]

end

/-! ## Bounds -/

/-- The least and the greatest of some bytes. -/
structure Bounds (l : List Bytes) (bounds : Bytes × Bytes) : Prop where
  min_mem : bounds.1 ∈ l
  max_mem : bounds.2 ∈ l
  min_le : ∀ b ∈ l, bounds.1 ≤ b
  le_max : ∀ b ∈ l, b ≤ bounds.2

section

variable {l : List Bytes} {bounds : Bytes × Bytes}

/-- One value bounds itself. -/
theorem Bounds.single (b : Bytes) : Bounds [b] (b, b) := by
  constructor <;> simp

/-- One value more. -/
theorem Bounds.narrow (h : Bounds l bounds) (b : Bytes) : Bounds (l ++ [b]) (narrow bounds b) := by
  have hb : b ∈ l ++ [b] := mem_append_right l mem_cons_self
  have hmin := mem_append_left [b] h.min_mem
  have hmax := mem_append_left [b] h.max_mem
  have hall {p : Bytes → Prop} (hl : ∀ x ∈ l, p x) (hp : p b) : ∀ x ∈ l ++ [b], p x :=
    forall_mem_append.mpr ⟨hl, forall_mem_singleton.mpr hp⟩
  unfold Bkd.narrow
  split
  · rename_i hlt
    have hle := List.le_of_lt hlt
    exact ⟨hb, hmax, hall (fun x hx => List.le_trans hle (h.min_le x hx)) (List.le_refl b),
      hall h.le_max (List.le_trans hle (h.min_le _ h.max_mem))⟩
  · rename_i hge
    split
    · rename_i hgt
      exact ⟨hmin, hb, hall h.min_le hge,
        hall (fun x hx => List.le_trans (h.le_max x hx) (List.le_of_lt hgt)) (List.le_refl b)⟩
    · rename_i hle
      exact ⟨hmin, hmax, hall h.min_le hge, hall h.le_max (List.not_lt.mp hle)⟩

/-- The values are gone through one by one. -/
theorem Bounds.foldlM (h : Bounds l bounds) {offset length : Nat} {part : Bytes → Bytes}
    {values : List Bytes} (hget : ∀ v ∈ values, getRange v offset length = .ok (part v)) :
    ∃ bounds', values.foldlM (fun bounds value => do
        .ok (Bkd.narrow bounds (← getRange value offset length))) bounds = .ok bounds' ∧
      Bounds (l ++ values.map part) bounds' := by
  induction values generalizing l bounds with
  | nil => exact ⟨bounds, rfl, by rwa [map_nil, append_nil]⟩
  | cons v values ih =>
    obtain ⟨hv, hrest⟩ := forall_mem_cons.mp hget
    obtain ⟨bounds', hfold, hbounds⟩ := ih (h.narrow (part v)) hrest
    refine ⟨bounds', ?_, by rwa [map_cons, append_cons]⟩
    rw [foldlM_cons, hv]
    exact hfold

/-- Bytes of the right length before the bounds give bounds exactly if they are what stands before
everything. -/
theorem Bounds.append_iff {p x y lo hi : Bytes} (h : Bounds l (lo, hi)) (hx : x.length = p.length)
    (hy : y.length = p.length) : Bounds (l.map (p ++ ·)) (x ++ lo, y ++ hi) ↔ x = p ∧ y = p := by
  constructor
  · rintro ⟨hmin, hmax, -, -⟩
    obtain ⟨a, -, ha⟩ := mem_map.mp hmin
    obtain ⟨b, -, hb⟩ := mem_map.mp hmax
    exact ⟨(append_inj_left ha hx.symm).symm, (append_inj_left hb hy.symm).symm⟩
  · rintro ⟨rfl, rfl⟩
    exact ⟨mem_map_of_mem h.min_mem, mem_map_of_mem h.max_mem,
      forall_mem_map.mpr fun b hb => append_left_le (h.min_le b hb),
      forall_mem_map.mpr fun b hb => append_left_le (h.le_max b hb)⟩

end

/-- The bytes of the bounds. -/
def boundBytes (bounds : Nat → Bytes × Bytes) (n : Nat) : Bytes :=
  (range n).flatMap fun dim => (bounds dim).1 ++ (bounds dim).2

/-! ## Leaves -/

/-- The points of a leaf, with the number of bytes that they share in each dimension. -/
structure Leaf (c : BKDConfig) where
  points : List Bytes
  prefixes : List Nat
  nonempty : points ≠ []
  length_point : ∀ p ∈ points, p.length = c.packedBytesLength
  length_prefixes : prefixes.length = c.numDims
  prefix_le : ∀ n ∈ prefixes, n ≤ c.bytesPerDim
  shared : ∀ p ∈ points, ∀ dim < c.numDims, (dimOf c.bytesPerDim p dim).take (prefixes.getD dim 0) =
    (dimOf c.bytesPerDim (points.head nonempty) dim).take (prefixes.getD dim 0)

namespace Leaf

variable {c : BKDConfig} (leaf : Leaf c) {dim : Nat}

/-- The first point. -/
def first : Bytes :=
  leaf.points.head leaf.nonempty

/-- In each index dimension, the least and the greatest that a point has. -/
def Exact (bounds : Bytes × Bytes) : Prop :=
  ∀ dim < c.numIndexDims, Bounds (leaf.points.map (dimOf c.bytesPerDim · dim))
    (dimOf c.bytesPerDim bounds.1 dim, dimOf c.bytesPerDim bounds.2 dim)

/-- How much the points share in a dimension. -/
def prefixIn (dim : Nat) : Nat :=
  leaf.prefixes.getD dim 0

/-- What the points share in a dimension. -/
def sharedIn (dim : Nat) : Bytes :=
  (dimOf c.bytesPerDim leaf.first dim).take (leaf.prefixIn dim)

/-- What the points have in a dimension behind what they share. -/
def suffixes (dim : Nat) : List Bytes :=
  leaf.points.map fun p => (dimOf c.bytesPerDim p dim).drop (leaf.prefixIn dim)

theorem prefixIn_le (dim : Nat) : leaf.prefixIn dim ≤ c.bytesPerDim := by
  rw [prefixIn, getD_eq_getElem?_getD]
  cases h : leaf.prefixes[dim]? with
  | none => exact Nat.zero_le _
  | some n => exact leaf.prefix_le n (mem_of_getElem? h)

theorem getElem_prefixes (h : dim < c.numDims) :
    leaf.prefixes[dim]? = some (leaf.prefixIn dim) := by
  have hlt := leaf.length_prefixes.symm ▸ h
  rw [getElem?_eq_getElem hlt, prefixIn, getD_eq_getElem _ _ hlt]

theorem getAt_prefixes (h : dim < c.numDims) :
    getAt leaf.prefixes dim = .ok (leaf.prefixIn dim) := by
  rw [getAt, leaf.getElem_prefixes h]

theorem length_first : leaf.first.length = c.packedBytesLength :=
  leaf.length_point _ (head_mem leaf.nonempty)

/-- A value is what is shared and its own suffix. -/
theorem map_dimOf (h : dim < c.numDims) : leaf.points.map (dimOf c.bytesPerDim · dim) =
    (leaf.suffixes dim).map (leaf.sharedIn dim ++ ·) := by
  rw [suffixes, map_map]
  refine map_congr_left fun p hp => ?_
  rw [Function.comp_apply, sharedIn, prefixIn, first, ← leaf.shared p hp dim h, take_append_drop]

theorem length_sharedIn (h : dim < c.numDims) : (leaf.sharedIn dim).length = leaf.prefixIn dim := by
  rw [sharedIn, length_take, length_dimOf leaf.length_first h]
  exact min_eq_left (leaf.prefixIn_le dim)

theorem length_of_mem_suffixes (h : dim < c.numDims) {s : Bytes} (hs : s ∈ leaf.suffixes dim) :
    s.length = c.bytesPerDim - leaf.prefixIn dim := by
  obtain ⟨p, hp, rfl⟩ := mem_map.mp hs
  rw [length_drop, length_dimOf (leaf.length_point p hp) h]

/-- The bytes of a leaf up to its bounds. Before version 7 these came before the compressed
dimension, since then they are left out where all points are equal. -/
def write (version : Nat) (compressedDim : UInt8) : Result Bytes := do
  let out ← writeCommonPrefixes c [] leaf.prefixes leaf.first
  if version < versionLowCardinalityLeaves then writeActualBounds c leaf.prefixes out leaf.points
  else if compressedDim = 0xFF then .ok (writeByte out compressedDim)
  else writeActualBounds c leaf.prefixes (writeByte out compressedDim) leaf.points

/-! ## What is written -/

/-- The bytes of what they share in a dimension. -/
def prefixBytes (dim : Nat) : Bytes :=
  vIntBytes (leaf.prefixIn dim) ++ leaf.sharedIn dim

/-- What is written for what the points share. -/
theorem writeCommonPrefixes_eq (out : Bytes) :
    writeCommonPrefixes c out leaf.prefixes leaf.first =
      .ok (out ++ (range c.numDims).flatMap leaf.prefixBytes) := by
  rw [writeCommonPrefixes, leaf.length_prefixes, Nat.min_self]
  refine foldlM_range_append (fun dim hdim out => ?_) out
  have hfirst := leaf.length_first
  have hend := row_end_le (k := c.bytesPerDim) hdim
  have hle := leaf.prefixIn_le dim
  rw [BKDConfig.packedBytesLength] at hfirst
  rw [leaf.getAt_prefixes hdim, ok_bind, getRange_eq (by omega), ok_bind, writeBytes, writeVInt,
    prefixBytes, sharedIn, dimOf, take_take, min_eq_left hle, append_assoc]

/-- The bounds of a dimension. -/
theorem computeMinMax_spec (hdim : dim < c.numDims) :
    ∃ bounds, computeMinMax leaf.points (dim * c.bytesPerDim + leaf.prefixIn dim)
        (c.bytesPerDim - leaf.prefixIn dim) = .ok bounds ∧ Bounds (leaf.suffixes dim) bounds := by
  have hget (p : Bytes) (hp : p ∈ leaf.points) :
      getRange p (dim * c.bytesPerDim + leaf.prefixIn dim) (c.bytesPerDim - leaf.prefixIn dim) =
        .ok ((dimOf c.bytesPerDim p dim).drop (leaf.prefixIn dim)) := by
    have hlen := leaf.length_point p hp
    have hend := row_end_le (k := c.bytesPerDim) hdim
    have hle := leaf.prefixIn_le dim
    rw [BKDConfig.packedBytesLength] at hlen
    rw [getRange_eq (by omega), dimOf, drop_take, drop_drop]
  rw [suffixes]
  cases hpoints : leaf.points with
  | nil => exact absurd hpoints leaf.nonempty
  | cons first rest =>
    rw [hpoints] at hget
    obtain ⟨hfirst, hrest⟩ := forall_mem_cons.mp hget
    obtain ⟨bounds, hfold, hbounds⟩ := (Bounds.single _).foldlM hrest
    refine ⟨bounds, ?_, hbounds⟩
    rw [computeMinMax, getAt_eq (by simp), ok_bind, getElem_cons_zero, hfirst]
    exact hfold

/-- Bounds for each index dimension, one after the other. -/
theorem writeActualBounds_spec : ∃ bounds : Nat → Bytes × Bytes,
    (∀ dim < c.numIndexDims, Bounds (leaf.suffixes dim) (bounds dim)) ∧
      ∀ out, writeActualBounds c leaf.prefixes out leaf.points =
        .ok (out ++ boundBytes bounds c.numIndexDims) := by
  have hexists (dim : Nat) : ∃ bounds, dim < c.numIndexDims →
      computeMinMax leaf.points (dim * c.bytesPerDim + leaf.prefixIn dim)
        (c.bytesPerDim - leaf.prefixIn dim) = .ok bounds ∧ Bounds (leaf.suffixes dim) bounds := by
    by_cases h : dim < c.numIndexDims
    · obtain ⟨bounds, hspec⟩ := leaf.computeMinMax_spec (h.trans_le c.numIndexDims_le)
      exact ⟨bounds, fun _ => hspec⟩
    · exact ⟨([], []), fun h' => absurd h' h⟩
  choose bounds hbounds using hexists
  refine ⟨bounds, fun dim h => (hbounds dim h).2, foldlM_range_append fun dim hdim out => ?_⟩
  obtain ⟨heq, hb⟩ := hbounds dim hdim
  have hdims := hdim.trans_le c.numIndexDims_le
  rw [leaf.getAt_prefixes hdims, ok_bind]
  dsimp only
  split
  · rw [heq, ok_bind, writeBytes, writeBytes, append_assoc]
  · -- nothing is stored for a dimension that all points share, and nothing is left of it
    have hlen (b : Bytes) (hmem : b ∈ leaf.suffixes dim) : b = [] := by
      have := leaf.length_of_mem_suffixes hdims hmem
      exact length_eq_zero_iff.mp (by omega)
    rw [hlen _ hb.min_mem, hlen _ hb.max_mem, append_nil, append_nil]

/-- What is written for a leaf. -/
theorem write_spec (version : Nat) (compressedDim : UInt8) : ∃ bounds : Nat → Bytes × Bytes,
    (∀ dim < c.numIndexDims, Bounds (leaf.suffixes dim) (bounds dim)) ∧
      leaf.write version compressedDim = .ok ((range c.numDims).flatMap leaf.prefixBytes ++
        if version < versionLowCardinalityLeaves then boundBytes bounds c.numIndexDims
        else [compressedDim] ++
          if compressedDim = 0xFF then [] else boundBytes bounds c.numIndexDims) := by
  obtain ⟨bounds, hbounds, hwritten⟩ := leaf.writeActualBounds_spec
  refine ⟨bounds, hbounds, ?_⟩
  rw [write, leaf.writeCommonPrefixes_eq, ok_bind, hwritten, hwritten, nil_append, writeByte,
    append_assoc]
  split_ifs <;> rfl

end Leaf

/-! ## What is read -/

/-- The bytes are next in the input, of which the pointer is not behind the end. -/
structure Next (input : IndexInput) (enc : Bytes) : Prop where
  stands : At input.bytes input.pos enc
  pos_le : input.pos ≤ input.bytes.length

variable {input : IndexInput}

theorem Next.append {a b : Bytes} (h : Next input (a ++ b)) :
    Next input a ∧ Next (input.skip a.length) b := by
  obtain ⟨ha, hb⟩ := at_append_iff.mp h.stands
  have hle := List.IsPrefix.length_le ha
  have hpos := h.pos_le
  rw [length_drop] at hle
  refine ⟨⟨ha, h.pos_le⟩, hb, ?_⟩
  rw [IndexInput.skip_pos, IndexInput.skip_bytes]
  omega

variable {tail : Bytes} {t : BKDPointTree}

/-- A loop whose steps read one part after the other. -/
theorem foldlM_next {step : BKDPointTree → Nat → Result BKDPointTree} {f : Nat → Bytes}
    {I : Nat → BKDPointTree → Prop}
    (hstep : ∀ k t, k < n → I k t → Next t.leafNode (f k) →
      ∃ t', step t k = .ok t' ∧ t'.leafNode = t.leafNode.skip (f k).length ∧ I (k + 1) t')
    (h : I 0 t) (hnext : Next t.leafNode ((range n).flatMap f ++ tail)) :
    ∃ t', (range n).foldlM step t = .ok t' ∧ I n t' ∧ Next t'.leafNode tail := by
  obtain ⟨t', hfold, hI, hrest⟩ := @foldlM_range _ _ step
    (fun k t => I k t ∧ Next t.leafNode (((range n).drop k).flatMap f ++ tail)) n
    (fun k t hk ⟨hI, hat⟩ => by
      rw [drop_eq_getElem_cons (by simpa using hk), getElem_range,
        flatMap_cons, append_assoc] at hat
      obtain ⟨t', heq, hleaf, hI'⟩ := hstep k t hk hI hat.append.1
      exact ⟨t', heq, hI', hleaf ▸ hat.append.2⟩) t ⟨h, hnext⟩
  rw [drop_of_length_le (by simp)] at hrest
  exact ⟨t', hfold, hI, hrest⟩

section

variable {buffer piece : Bytes} {place : Nat}

/-- Some bytes are read to a place. -/
theorem readInto_eq (hroom : place + piece.length ≤ buffer.length)
    (hnext : Next input piece) : readInto input buffer place piece.length =
      .ok (splice buffer place piece, input.skip piece.length) := by
  rw [readInto, input.readBytes_at hnext.stands hnext.pos_le, ok_bind]
  dsimp only
  rw [setRange_eq hroom, ok_bind]

theorem readSome_eq (hroom : place + piece.length ≤ buffer.length)
    (hnext : Next input piece) : readSome input buffer place piece.length =
      .ok (splice buffer place piece, input.skip piece.length) := by
  rw [readSome]
  split
  · exact readInto_eq hroom hnext
  · have hnil : piece = [] := length_eq_zero_iff.mp (by omega)
    rw [hnil, splice_nil]
    rfl

end

variable {k : Nat}

namespace BKDPointTree

section

variable {s : BKDPointTree} (leaf : Leaf t.config)

/-- The prefixes of the first `k` dimensions have been read. -/
structure PrefixesRead (k : Nat) (s : BKDPointTree) : Prop where
  length_value : s.packedValue.length = t.config.packedBytesLength
  shared : ∀ d < k,
    (dimOf t.config.bytesPerDim s.packedValue d).take (leaf.prefixIn d) = leaf.sharedIn d
  frame : s = { t with
    packedValue := s.packedValue
    commonPrefixLengths := splice t.commonPrefixLengths 0 (leaf.prefixes.take k)
    leafNode := s.leafNode }

variable {leaf} (hbytes : t.config.bytesPerDim < 2 ^ 31)
  (hlengths : t.commonPrefixLengths.length = t.config.numDims)

include hbytes hlengths

/-- One dimension of what the points share. -/
theorem readCommonPrefix_spec (hk : k < t.config.numDims) (h : PrefixesRead leaf k s)
    (hnext : Next s.leafNode (leaf.prefixBytes k)) :
    ∃ s', s.readCommonPrefix k = .ok s' ∧
      s'.leafNode = s.leafNode.skip (leaf.prefixBytes k).length ∧
      PrefixesRead leaf (k + 1) s' := by
  obtain ⟨hvint, hshared⟩ := hnext.append
  have hle := leaf.prefixIn_le k
  have hlen := leaf.length_sharedIn hk
  have hset : setAt s.commonPrefixLengths k (leaf.prefixIn k) =
      .ok (splice t.commonPrefixLengths 0 (leaf.prefixes.take (k + 1))) := by
    have htake : (leaf.prefixes.take k).length = k := by
      rw [length_take, leaf.length_prefixes]
      omega
    have hsplice := @setAt_splice _ t.commonPrefixLengths (leaf.prefixes.take k) 0 (leaf.prefixIn k)
      (by omega)
    rw [Nat.zero_add, htake] at hsplice
    rw [h.frame, hsplice, take_add_one, leaf.getElem_prefixes hk, Option.toList_some]
  have hconfig : s.config = t.config := by rw [h.frame]
  have hlength := h.length_value
  have hend := row_end_le (k := t.config.bytesPerDim) hk
  rw [BKDConfig.packedBytesLength] at hlength
  have hroom : k * t.config.bytesPerDim + (leaf.sharedIn k).length ≤ s.packedValue.length := by
    omega
  have hread := readSome_eq hroom hshared
  rw [hlen] at hread
  rw [readCommonPrefix, s.leafNode.readVInt_at hvint.stands, ok_bind]
  dsimp only
  rw [asI_of_range (by decide) (by omega) (by omega),
    tryConvert_ok (usize_holds (by omega)), ok_bind, Int.toNat_natCast, hset, ok_bind,
    hconfig, hread, ok_bind]
  refine ⟨_, rfl, ?_, (splice_length hroom).trans hlength, fun d hd => ?_, ?_⟩
  · rw [IndexInput.skip_skip, Leaf.prefixBytes, length_append, hlen]
  · have hdim := @dimOf_splice _ _ _ _ hlength hk 0 (leaf.sharedIn k) (by omega) d
    rw [Nat.add_zero] at hdim
    rw [hdim]
    split
    · rename_i heq
      rw [heq, splice, take_zero, nil_append]
      exact take_left' hlen
    · exact h.shared d (by omega)
  · rw [h.frame]

/-- All dimensions. -/
theorem readCommonPrefixes_spec (hvalue : t.packedValue.length = t.config.packedBytesLength)
    (hnext : Next t.leafNode ((range t.config.numDims).flatMap leaf.prefixBytes ++ tail)) :
    ∃ value input, t.readCommonPrefixes = .ok { t with
        packedValue := value, commonPrefixLengths := leaf.prefixes, leafNode := input } ∧
      value.length = t.config.packedBytesLength ∧ Next input tail ∧ ∀ d < t.config.numDims,
        (dimOf t.config.bytesPerDim value d).take (leaf.prefixIn d) = leaf.sharedIn d := by
  obtain ⟨s, heq, hread, htail⟩ := foldlM_next (I := PrefixesRead leaf)
    (fun k s hk h hat => readCommonPrefix_spec hbytes hlengths hk h hat)
    ⟨hvalue, fun d hd => absurd hd (Nat.not_lt_zero d), by rw [take_zero, splice_nil]⟩ hnext
  have hlen := leaf.length_prefixes
  refine ⟨s.packedValue, s.leafNode, ?_, hread.length_value, htail, hread.shared⟩
  rw [readCommonPrefixes, heq, hread.frame, take_of_length_le hlen.le,
    splice_all (hlen.trans hlengths.symm)]

end

end BKDPointTree

section

variable {c : BKDConfig} {leaf : Leaf c}

/-- The first `k` dimensions of a bound have been read behind what stood before them. -/
structure Filled (leaf : Leaf c) (stored : Nat → Bytes) (before : Bytes) (k : Nat)
    (buffer : Bytes) : Prop where
  length_eq : buffer.length = c.numIndexDims * c.bytesPerDim
  dims : ∀ d < c.numIndexDims, dimOf c.bytesPerDim buffer d =
    if d < k then (dimOf c.bytesPerDim before d).take (leaf.prefixIn d) ++ stored d
    else dimOf c.bytesPerDim before d

/-- One dimension of the bounds is filled in. -/
theorem Filled.readInto {stored : Nat → Bytes} {before buffer : Bytes}
    (h : Filled leaf stored before k buffer) (hk : k < c.numIndexDims)
    (hstored : stored k ∈ leaf.suffixes k) (hnext : Next input (stored k)) :
    ∃ buffer', Bkd.readInto input buffer (k * c.bytesPerDim + leaf.prefixIn k)
        (c.bytesPerDim - leaf.prefixIn k) = .ok (buffer', input.skip (stored k).length) ∧
      Filled leaf stored before (k + 1) buffer' := by
  have hlen := leaf.length_of_mem_suffixes (hk.trans_le c.numIndexDims_le) hstored
  have hle := leaf.prefixIn_le k
  have hend := row_end_le (k := c.bytesPerDim) hk
  have hlength := h.length_eq
  have hroom : k * c.bytesPerDim + leaf.prefixIn k + (stored k).length ≤ buffer.length := by omega
  refine ⟨_, hlen ▸ readInto_eq hroom hnext, (splice_length hroom).trans hlength, fun d hd => ?_⟩
  have hold := h.dims d hd
  rw [dimOf_splice hlength hk (by omega)]
  by_cases hdk : d = k
  · subst hdk
    rw [if_neg (Nat.lt_irrefl d)] at hold
    rw [if_pos rfl, if_pos (Nat.lt_succ_self d), splice,
      drop_of_length_le (by rw [length_dimOf hlength hk]; omega), append_nil, hold]
  · rw [if_neg hdk, hold]
    exact if_congr (by omega) rfl rfl

end

namespace BKDPointTree

section

variable {s : BKDPointTree} {leaf : Leaf t.config} {bounds : Nat → Bytes × Bytes}
  (hlengths : t.commonPrefixLengths = leaf.prefixes)
  (hbounds : ∀ d < t.config.numIndexDims, Bounds (leaf.suffixes d) (bounds d))

/-- The bounds of the first `k` dimensions have been read. -/
structure BoundsRead (leaf : Leaf t.config) (bounds : Nat → Bytes × Bytes) (k : Nat)
    (s : BKDPointTree) : Prop where
  min : Filled leaf (fun d => (bounds d).1) t.minPackedValue k s.minPackedValue
  max : Filled leaf (fun d => (bounds d).2) t.maxPackedValue k s.maxPackedValue
  frame : s = { t with
    minPackedValue := s.minPackedValue, maxPackedValue := s.maxPackedValue, leafNode := s.leafNode }

include hlengths hbounds

/-- One dimension of the bounds. -/
theorem readMinMaxDim_spec (hk : k < t.config.numIndexDims)
    (h : BoundsRead leaf bounds k s) (hnext : Next s.leafNode ((bounds k).1 ++ (bounds k).2)) :
    ∃ s', s.readMinMaxDim k = .ok s' ∧
      s'.leafNode = s.leafNode.skip ((bounds k).1 ++ (bounds k).2).length ∧
      BoundsRead leaf bounds (k + 1) s' := by
  have hconfig : s.config = t.config := by rw [h.frame]
  have hprefix : getAt s.commonPrefixLengths k = .ok (leaf.prefixIn k) := by
    rw [h.frame, hlengths, leaf.getAt_prefixes (hk.trans_le t.config.numIndexDims_le)]
  obtain ⟨min, hmin, hmin'⟩ := h.min.readInto hk (hbounds k hk).min_mem hnext.append.1
  obtain ⟨max, hmax, hmax'⟩ := h.max.readInto hk (hbounds k hk).max_mem hnext.append.2
  rw [readMinMaxDim, hprefix, ok_bind, hconfig, if_neg (Nat.not_lt.mpr (leaf.prefixIn_le k))]
  dsimp only
  rw [hmin, ok_bind]
  rw [hmax, ok_bind]
  refine ⟨_, rfl, ?_, hmin', hmax', ?_⟩
  · rw [IndexInput.skip_skip, length_append]
  · rw [h.frame]

/-- Bounds that are read over the same bytes are exact if these bytes start with what the points
share. -/
theorem readMinMax_spec (hsame : t.maxPackedValue = t.minPackedValue)
    (hmin : t.minPackedValue.length = t.config.packedIndexBytesLength)
    (hnext : Next t.leafNode (boundBytes bounds t.config.numIndexDims)) :
    ∃ s, t.readMinMax = .ok s ∧ s.docIds = t.docIds ∧
      (leaf.Exact (s.minPackedValue, s.maxPackedValue) ↔
      ∀ d < t.config.numIndexDims,
        (dimOf t.config.bytesPerDim t.minPackedValue d).take (leaf.prefixIn d) =
          leaf.sharedIn d) := by
  have hstart {stored : Nat → Bytes} : Filled leaf stored t.minPackedValue 0 t.minPackedValue :=
    ⟨hmin, fun d _ => (if_neg (Nat.not_lt_zero d)).symm⟩
  rw [← append_nil (boundBytes _ _)] at hnext
  obtain ⟨s, heq, h, -⟩ := foldlM_next (I := BoundsRead leaf bounds)
    (fun k s hk h hat => readMinMaxDim_spec hlengths hbounds hk h hat)
    ⟨hstart, hsame ▸ hstart, rfl⟩ hnext
  refine ⟨s, heq, by rw [h.frame], forall₂_congr fun d hd => ?_⟩
  have hdim := hd.trans_le t.config.numIndexDims_le
  have hlen : ((dimOf t.config.bytesPerDim t.minPackedValue d).take (leaf.prefixIn d)).length =
      (leaf.sharedIn d).length := by
    rw [leaf.length_sharedIn hdim, length_take, length_dimOf hmin hd]
    exact min_eq_left (leaf.prefixIn_le d)
  rw [h.min.dims d hd, h.max.dims d hd, hsame, if_pos hd, if_pos hd, leaf.map_dimOf hdim,
    (hbounds d hd).append_iff hlen hlen, and_self]

end

theorem after_eq {α : Type} {read : Result α} {a : α} (h : read = .ok a) (next : α → LeafVisit) :
    LeafVisit.after read next = next a := by
  rw [h, LeafVisit.after]

/-- Values that are read are neither skipped nor accepted. -/
theorem visitValues_ne (t : BKDPointTree) (count : Nat) (compressedDim : Int) :
    t.visitValues count compressedDim ≠ .ok .skipped ∧
      ∀ ids, t.visitValues count compressedDim ≠ .ok (.accepted ids) := by
  rw [visitValues]
  split
  · cases getRange t.docIds 0 count <;> simp
  · simp

/-- The visitor's answer about the bounds is followed. -/
theorem compareBounds_answered (compare : Bytes → Bytes → Result Relation) (t : BKDPointTree)
    (count : Nat) {crosses : Result Outcome}
    (hcrosses : crosses ≠ .ok .skipped ∧ ∀ ids, crosses ≠ .ok (.accepted ids)) :
    (t.compareBounds compare count crosses).Answered compare t.docIds count := by
  simp only [LeafVisit.Answered, compareBounds, Option.some.injEq, exists_eq_left']
  cases hcompare : compare t.minPackedValue t.maxPackedValue with
  | error => simp
  | ok relation =>
    cases relation with
    | cellOutsideQuery => simp
    | cellInsideQuery => cases getRange t.docIds 0 count <;> simp
    | cellCrossesQuery => simpa using hcrosses

/-- What a writer stores as the compressed dimension is accepted since version 7. -/
theorem readCompressedDim_spec {compressedDim : UInt8}
    (hdim : compressedDim = 0xFE ∨ compressedDim = 0xFF ∨ compressedDim.toNat < t.config.numDims)
    (hversion : versionLowCardinalityLeaves ≤ t.version) (hnext : Next t.leafNode [compressedDim]) :
    ∃ dim : Int, t.readCompressedDim = .ok (dim, { t with leafNode := t.leafNode.skip 1 }) ∧
      (dim = -1 ↔ compressedDim = 0xFF) := by
  have hle := t.config.numDims_le
  refine ⟨asI 8 compressedDim.toNat, ?_, ?_⟩
  · rw [readCompressedDim, IndexInput.readByte_at hnext.stands, ok_bind]
    dsimp only
    rw [if_neg]
    rcases hdim with rfl | rfl | hlt
    · rw [show asI 8 (0xFE : UInt8).toNat = -2 by decide]
      omega
    · rw [show asI 8 (0xFF : UInt8).toNat = -1 by decide]
      omega
    · rw [asI_of_range (by decide) (by omega) (by omega)]
      omega
  · rcases hdim with rfl | rfl | hlt
    · decide
    · decide
    · rw [asI_of_range (by decide) (by omega) (by omega)]
      refine iff_of_false (by omega) ?_
      rintro rfl
      exact absurd (hlt.trans_le hle) (by decide)

end BKDPointTree

open BKDPointTree

/-- The visitor is asked about the exact bounds of every leaf since version 7, unless all its points
are equal, and before it exactly if the bytes that were left at the least value are those that the
points share. The leaf is skipped or accepted as a whole exactly if that is the answer. -/
theorem visitDocValues_exact_iff (compare : Bytes → Bytes → Result Relation) (count : Nat)
    (t : BKDPointTree) (leaf : Leaf t.config) (compressedDim : UInt8) (enc : Bytes)
    (hdims : 1 < t.config.numIndexDims) (hversion : versionLeafStoresBounds ≤ t.version)
    (hbytes : t.config.bytesPerDim < 2 ^ 31)
    (hvalue : t.packedValue.length = t.config.packedBytesLength)
    (hmin : t.minPackedValue.length = t.config.packedIndexBytesLength)
    (hlengths : t.commonPrefixLengths.length = t.config.numDims)
    (hdim : compressedDim = 0xFE ∨ compressedDim = 0xFF ∨ compressedDim.toNat < t.config.numDims)
    (hwrite : leaf.write t.version compressedDim = .ok enc)
    (hat : At t.leafNode.bytes t.leafNode.pos enc)
    (hpos : t.leafNode.pos ≤ t.leafNode.bytes.length) :
    ((t.visitDocValues compare count).compared.elim
          (versionLowCardinalityLeaves ≤ t.version ∧ compressedDim = 0xFF) leaf.Exact ∧
        (t.visitDocValues compare count).Answered compare t.docIds count) ↔
      versionLowCardinalityLeaves ≤ t.version ∨ ∀ dim < t.config.numIndexDims,
        (dimOf t.config.bytesPerDim t.minPackedValue dim).take (leaf.prefixIn dim) =
          leaf.sharedIn dim := by
  obtain ⟨bounds, hbounds, hwritten⟩ := leaf.write_spec t.version compressedDim
  obtain rfl := Except.ok.inj (hwrite.symm.trans hwritten)
  obtain ⟨value, input, heq, hlen, hnext, hshared⟩ :=
    readCommonPrefixes_spec hbytes hlengths hvalue ⟨hat, hpos⟩
  rw [visitDocValues]
  by_cases hnew : versionLowCardinalityLeaves ≤ t.version
  · rw [if_neg (Nat.not_lt.mpr hnew)] at hnext
    obtain ⟨hbyte, hrest⟩ := hnext.append
    obtain ⟨dim, hread, hunique⟩ := readCompressedDim_spec (t := { t with
      packedValue := value, commonPrefixLengths := leaf.prefixes, leafNode := input })
        hdim hnew hbyte
    refine iff_of_true ?_ (.inl hnew)
    rw [if_pos hnew, visitDocValuesWithCardinality, after_eq heq, after_eq hread]
    dsimp only
    by_cases hff : compressedDim = 0xFF
    · rw [if_neg fun h => h.1 (hunique.mpr hff)]
      exact ⟨⟨hnew, hff⟩, by simp [LeafVisit.Answered, visitValues_ne]⟩
    · rw [if_neg hff] at hrest
      have hle := Nat.mul_le_mul_right t.config.bytesPerDim t.config.numIndexDims_le
      obtain ⟨s, hminMax, hids, hexact⟩ := readMinMax_spec (t := { t with
          packedValue := value, commonPrefixLengths := leaf.prefixes, leafNode := input.skip 1
          minPackedValue := value.take t.config.packedIndexBytesLength
          maxPackedValue := value.take t.config.packedIndexBytesLength }) rfl hbounds rfl
        (length_take_of_le (hle.trans hlen.ge)) hrest
      rw [if_pos ⟨fun h => hff (hunique.mp h), by omega⟩, after_eq hminMax]
      refine ⟨hexact.mpr fun d hd => ?_,
        hids ▸ compareBounds_answered compare s count (s.visitValues_ne count dim)⟩
      rw [BKDConfig.packedIndexBytesLength, dimOf_take hd]
      exact hshared d (hd.trans_le t.config.numIndexDims_le)
  · rw [if_pos (Nat.lt_of_not_le hnew)] at hnext
    obtain ⟨s, hminMax, hids, hexact⟩ := readMinMax_spec (t := { t with
        packedValue := value, commonPrefixLengths := leaf.prefixes, leafNode := input,
        maxPackedValue := t.minPackedValue }) rfl hbounds rfl hmin hnext
    rw [if_neg hnew, visitDocValuesNoCardinality, after_eq heq]
    rw [if_pos ⟨hdims, hversion⟩, after_eq hminMax, or_iff_right hnew]
    refine (and_iff_left (hids ▸ compareBounds_answered compare s count ?_)).trans hexact
    dsimp only
    cases s.readCompressedDim with
    | error => simp
    | ok result => exact visitValues_ne result.2 count result.1

/-- Two dimensions of one byte. -/
def sampleConfig : BKDConfig :=
  ⟨2, 2, 1, by decide, le_rfl⟩

/-- Two points that share the byte 5. -/
def sampleLeaf : Leaf sampleConfig where
  points := [[5, 1], [5, 2]]
  prefixes := [1, 0]
  nonempty := cons_ne_nil _ _
  length_point := by decide
  length_prefixes := rfl
  prefix_le := by decide
  shared := by decide

/-- A tree that has visited no leaf. -/
def sampleTree (version : Nat) (bytes : Bytes) : BKDPointTree :=
  ⟨sampleConfig, version, [0, 0], [0, 0], [0, 0], [0, 0], [3, 4], ⟨bytes, 0⟩⟩

/-- An old leaf whose bounds are not exact. -/
theorem visitDocValues_not_exact :
    sampleLeaf.write 6 1 = .ok [1, 5, 0, 1, 2] ∧
      ((sampleTree 6 [1, 5, 0, 1, 2]).visitDocValues
        (fun _ _ => .ok .cellOutsideQuery) 2).compared = some ([0, 1], [0, 2]) ∧ ¬ sampleLeaf.Exact
        ([0, 1], [0, 2]) := by
  refine ⟨by decide, by decide, fun h => ?_⟩
  exact absurd (h 0 (by decide)).min_mem (by decide)

/-- The same leaf in the newest version. -/
theorem visitDocValues_exact_seven :
    sampleLeaf.write 7 1 = .ok [1, 5, 0, 1, 1, 2] ∧
      ((((sampleTree 7 [1, 5, 0, 1, 1, 2]).visitDocValues
              (fun _ _ => .ok .cellCrossesQuery) 2).compared.elim (7 ≤ 7 ∧ (1 : UInt8) = 0xFF)
            sampleLeaf.Exact ∧
          ((sampleTree 7 [1, 5, 0, 1, 1, 2]).visitDocValues
            (fun _ _ => .ok .cellCrossesQuery) 2).Answered
              (fun _ _ => .ok .cellCrossesQuery) [3, 4] 2) ↔
        7 ≤ 7 ∨ ∀ dim < 2, (dimOf 1 [0, 0] dim).take (sampleLeaf.prefixIn dim) =
          sampleLeaf.sharedIn dim) :=
  ⟨by decide, visitDocValues_exact_iff _ _ (sampleTree 7 [1, 5, 0, 1, 1, 2]) sampleLeaf 1
    [1, 5, 0, 1, 1, 2] (by decide) (by decide) (by decide) rfl rfl rfl (by decide) (by decide)
    (by decide) (by decide)⟩

end RLucene.Util.Bkd
