import RLucene.Lib.Splice
import RLucene.Store.IndexInput

/-!
# Splitting packed integers

`split_ints_same` and `split_ints_diff` read integers and spread the bits of each over several
planes of the result: plane `j` holds the integers shifted right by `b_shift - j * dec` and masked.
What is left of the integers, masked too, stays where they were read to. The source has a version of
the loop for each of several shapes, most of them in vectors of four or eight; all of them are here.
The two functions differ in whether the planes are in the same array as the integers read.
-/

namespace RLucene.Internal.Vectorization

open Lib Store

/-- The integers of the source, `i32`, by their bits. -/
abbrev I32 := BitVec 32

/-! ## Slices of integers -/

/-- An integer of an array. -/
def getInt (ints : List I32) (i : Nat) : Result I32 :=
  match ints[i]? with
  | some value => .ok value
  | none => .error .indexOutOfBounds

/-- Set an integer of an array. -/
def setInt (ints : List I32) (i : Nat) (value : I32) : Result (List I32) :=
  if i < ints.length then .ok (ints.set i value) else .error .indexOutOfBounds

/-- The slice of `count` integers from `start` on. -/
def sliceInts (ints : List I32) (start count : Nat) : Result (List I32) :=
  if start + count ≤ ints.length then .ok ((ints.drop start).take count)
  else .error .indexOutOfBounds

/-- Copy integers over those from `start` on. -/
def copyInts (ints : List I32) (start : Nat) (piece : List I32) : Result (List I32) :=
  if start + piece.length ≤ ints.length then .ok (splice ints start piece)
  else .error .indexOutOfBounds

/-- What the decoders need of an input: to read integers into a slice. -/
class IntInput (I : Type) where
  readInts (input : I) (dst : List I32) (offset len : Nat) : Result (List I32 × I)

open IntInput

/-- Read integers one after the other. -/
def readIntList : (count : Nat) → IndexInput → Result (List I32 × IndexInput)
  | 0, input => .ok ([], input)
  | count + 1, input => do
    let (value, input) ← input.readInt
    let (values, input) ← readIntList count input
    return (BitVec.ofInt 32 value :: values, input)

/-- The integers of a file are little-endian. -/
instance : IntInput IndexInput where
  readInts input dst offset len :=
    if offset + len ≤ dst.length then do
      let (values, input) ← readIntList len input
      return (splice dst offset values, input)
    else .error (.arrayIndexOutOfBounds
      s!"size: {len} is too large, from_index: {offset}, length: {dst.length}")

/-! ## The arrays of a split -/

/-- The array for the planes and the array that the integers were read to: one array, or two. -/
inductive Arrays where
  | same (bAndC : List I32)
  | diff (b c : List I32)

namespace Arrays

/-- The array that the integers were read to. -/
def c : Arrays → List I32
  | same bAndC => bAndC
  | diff _ c => c

/-- The array for the planes. -/
def b : Arrays → List I32
  | same bAndC => bAndC
  | diff b _ => b

/-- Copy to the array of the planes. -/
def copyB (arrays : Arrays) (start : Nat) (piece : List I32) : Result Arrays :=
  match arrays with
  | same bAndC => do return same (← copyInts bAndC start piece)
  | diff b c => do return diff (← copyInts b start piece) c

/-- Copy to the array that is split. -/
def copyC (arrays : Arrays) (start : Nat) (piece : List I32) : Result Arrays :=
  match arrays with
  | same bAndC => do return same (← copyInts bAndC start piece)
  | diff b c => do return diff b (← copyInts c start piece)

/-- There is room for planes up to `stop`, before the integers if they are in the same array. -/
def hasRoom (arrays : Arrays) (stop cIndex : Nat) : Bool :=
  match arrays with
  | same bAndC => decide (stop ≤ bAndC.length) && decide (stop ≤ cIndex)
  | diff b _ => decide (stop ≤ b.length)

end Arrays

/-! ## Splitting -/

section

variable (count bShift dec : Nat) (bMask cMask : I32) (cIndex : Nat)

/-- A vector shifted right and masked. The shift of the source is arithmetic. -/
def plane (values : List I32) (shift : Nat) : List I32 :=
  values.map fun value => value.sshiftRight shift &&& bMask

/-- Split the vector of `size` integers at `i`: each plane is given by its start and its shift. -/
def splitVector (planes : List (Nat × Nat)) (size i : Nat) (arrays : Arrays) : Result Arrays := do
  let values ← sliceInts arrays.c (cIndex + i) size
  let arrays ← planes.foldlM (fun arrays p => arrays.copyB p.1 (plane bMask values p.2)) arrays
  arrays.copyC (cIndex + i) (values.map (· &&& cMask))

/-- The planes for the integers at `i`, without those that would not be shifted. -/
def planesAt (maxIter i : Nat) : List (Nat × Nat) :=
  (List.range (maxIter + 1)).filterMap fun j =>
    let shift := bShift - j * dec
    if shift > 0 then some (count * j + i, shift) else none

/-- Vectors of eight, as many as there are. -/
def splitEights (planes : Nat → List (Nat × Nat)) (arrays : Arrays) : Result Arrays :=
  (List.range (count / 8)).foldlM
    (fun arrays k => splitVector bMask cMask cIndex (planes (8 * k)) 8 (8 * k) arrays) arrays

/-- One integer: the shift is of the integer extended to 64 bits. -/
def splitOne (maxIter : Nat) (arrays : Arrays) (i : Nat) : Result Arrays := do
  let arrays ← (planesAt count bShift dec maxIter i).foldlM (fun arrays p => do
    let value ← getInt arrays.c (cIndex + i)
    arrays.copyB p.1 [(((value.signExtend 64) >>> p.2).truncate 32) &&& bMask]) arrays
  let value ← getInt arrays.c (cIndex + i)
  arrays.copyC (cIndex + i) [value &&& cMask]

/-- Split the integers that were read to `cIndex`. -/
def splitInts (arrays : Arrays) : Result Arrays :=
  let cEnd := decide (cIndex + count ≤ arrays.c.length)
  if count == 4 && bShift == 7 && dec == 1 && arrays.hasRoom 28 cIndex && cEnd then
    splitVector bMask cMask cIndex [(0, 7), (4, 6), (8, 5), (12, 4), (16, 3), (20, 2), (24, 1)] 4 0
      arrays
  else if count == 8 && bShift == 6 && dec == 2 && arrays.hasRoom 24 cIndex && cEnd then
    splitVector bMask cMask cIndex [(0, 6), (8, 4), (16, 2)] 8 0 arrays
  else
    let maxIter := (bShift - 1) / dec
    let regular := decide (1 ≤ bShift) && decide (bShift < 32) && decide (dec > 0) &&
      arrays.hasRoom ((maxIter + 1) * count) cIndex && cEnd
    if maxIter == 0 && regular then
      -- a single plane, in one pass
      splitVector bMask cMask cIndex [(0, bShift)] count 0 arrays
    else if count % 4 == 0 && regular && (maxIter == 1 || maxIter == 2) then do
      let planes := fun i =>
        if maxIter == 1 then [(i, bShift), (count + i, bShift - dec)]
        else [(i, bShift), (count + i, bShift - dec), (count * 2 + i, bShift - 2 * dec)]
      let arrays ← splitEights count bMask cMask cIndex planes arrays
      let i := count / 8 * 8
      if i < count then splitVector bMask cMask cIndex (planes i) 4 i arrays else return arrays
    else do
      let arrays ← splitEights count bMask cMask cIndex (planesAt count bShift dec maxIter) arrays
      let i := count / 8 * 8
      if count - i ≥ 4 ∧ regular then
        let planes := (List.range (maxIter + 1)).map fun j => (count * j + i, bShift - j * dec)
        let arrays ← splitVector bMask cMask cIndex planes 4 i arrays
        (List.range' (i + 4) (count - (i + 4))).foldlM
          (splitOne count bShift dec bMask cMask cIndex maxIter) arrays
      else
        (List.range' i (count - i)).foldlM
          (splitOne count bShift dec bMask cMask cIndex maxIter) arrays

end

variable {I : Type} [IntInput I]

/-- The planes and the integers are in one array. -/
def splitIntsSame (input : I) (count : Nat) (bAndC : List I32) (bShift dec : Nat) (bMask : I32)
    (cIndex : Nat) (cMask : I32) : Result (List I32 × I) := do
  let (bAndC, input) ← readInts input bAndC cIndex count
  let arrays ← splitInts count bShift dec bMask cMask cIndex (.same bAndC)
  return (arrays.c, input)

/-- The planes and the integers are in two arrays. -/
def splitIntsDiff (input : I) (count : Nat) (b : List I32) (bShift dec : Nat) (bMask : I32)
    (c : List I32) (cIndex : Nat) (cMask : I32) : Result (List I32 × List I32 × I) := do
  let (c, input) ← readInts input c cIndex count
  let arrays ← splitInts count bShift dec bMask cMask cIndex (.diff b c)
  return (arrays.b, arrays.c, input)

end RLucene.Internal.Vectorization
