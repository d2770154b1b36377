import RLucene.Lib.Splice
import RLucene.Store.DataOutput

/-!
# Slices and vectors

A slice is a list. Reading or writing outside of it is an error. A vector that grows has a largest
length.
-/

namespace RLucene.Util

open Lib Store

variable {α : Type}

/-- An entry of a slice. -/
def getAt (slice : List α) (i : Nat) : Result α :=
  match slice[i]? with
  | some x => .ok x
  | none => .error .indexOutOfBounds

/-- Set an entry of a slice. -/
def setAt (slice : List α) (i : Nat) (x : α) : Result (List α) :=
  if i < slice.length then .ok (slice.set i x) else .error .indexOutOfBounds

/-- Write over the elements from `i` on. -/
def setRange (slice : List α) (i : Nat) (piece : List α) : Result (List α) :=
  if i + piece.length ≤ slice.length then .ok (splice slice i piece) else .error .indexOutOfBounds

/-- The `count` elements from `i` on. -/
def getRange (slice : List α) (i count : Nat) : Result (List α) :=
  if i + count ≤ slice.length then .ok ((slice.drop i).take count) else .error .indexOutOfBounds

/-- The checked growth of a vector; only the check matters here. -/
def ArrayUtil.oversize (minTargetSize bytesPerElement : Nat) : Result Nat :=
  if minTargetSize = 0 then .ok 0
  else
    let maxLength :=
      if bytesPerElement = 0 then 2 ^ 31 - 1 else min (2 ^ 31 - 1) ((2 ^ 63 - 1) / bytesPerElement)
    if maxLength < minTargetSize then
      .error (.illegalArgument
        (s!"requested vector size {minTargetSize} exceeds maximum vector length {maxLength} " ++
          s!"for elements of {bytesPerElement} bytes"))
    else .ok (min (minTargetSize + max (minTargetSize >>> 3) 3) maxLength)

section

variable {slice out : List α} {i : Nat} {x : α}

theorem getAt_eq (h : i < slice.length) : getAt slice i = .ok slice[i] := by
  rw [getAt, List.getElem?_eq_getElem h]

theorem setAt_eq (h : i < slice.length) : setAt slice i x = .ok (slice.set i x) :=
  if_pos h

theorem getRange_eq {count : Nat} (h : i + count ≤ slice.length) :
    getRange slice i count = .ok ((slice.drop i).take count) :=
  if_pos h

theorem setRange_eq {piece : List α} (h : i + piece.length ≤ slice.length) :
    setRange slice i piece = .ok (splice slice i piece) :=
  if_pos h

/-- One entry behind those that were set. -/
theorem setAt_splice (h : i + out.length < slice.length) :
    setAt (splice slice i out) (i + out.length) x = .ok (splice slice i (out ++ [x])) := by
  have hlen : (splice slice i out).length = slice.length := splice_length h.le
  rw [setAt_eq (by rwa [hlen]), set_eq_splice (by rwa [hlen]), splice_append h]

/-- Some entries behind those that were set. -/
theorem setRange_splice {piece : List α} (h : i + out.length + piece.length ≤ slice.length) :
    setRange (splice slice i out) (i + out.length) piece = .ok (splice slice i (out ++ piece)) := by
  have hlen : (splice slice i out).length = slice.length := splice_length (by omega)
  rw [setRange_eq (by rwa [hlen]), splice_append h]

end

end RLucene.Util
