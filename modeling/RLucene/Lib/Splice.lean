import RLucene.Lib.Bytes

/-!
# Overwriting part of a list

`splice l off piece` puts a piece over the elements from `off` on. What stands where afterwards is
stated position by position. `commonLength` is the length of the longest common beginning.
-/

namespace RLucene.Lib

open List

variable {α : Type}

/-- The list with a piece in place of what is there. -/
def splice (l : List α) (off : Nat) (piece : List α) : List α :=
  l.take off ++ piece ++ l.drop (off + piece.length)

variable {l piece : List α} {off : Nat}

theorem splice_length (h : off + piece.length ≤ l.length) :
    (splice l off piece).length = l.length := by
  rw [splice, length_append, length_append, length_take, length_drop]
  omega

/-- The spliced positions hold the piece, the others what they held. -/
theorem splice_getElem (h : off + piece.length ≤ l.length) (i : Nat) :
    (splice l off piece)[i]? =
      if off ≤ i ∧ i < off + piece.length then piece[i - off]? else l[i]? := by
  have hoff : (l.take off).length = off := by
    rw [length_take]
    omega
  rw [splice]
  rcases lt_or_ge i off with hlt | hge
  · rw [if_neg (by omega), append_assoc, getElem?_append_left (by omega), getElem?_take_of_lt hlt]
  · rcases lt_or_ge i (off + piece.length) with hlt | hbehind
    · rw [if_pos ⟨hge, hlt⟩, append_assoc, getElem?_append_right (by omega), hoff,
        getElem?_append_left (by omega)]
    · rw [if_neg (by omega), getElem?_append_right (by
        rw [length_append]
        omega), length_append, hoff, getElem?_drop]
      congr 1
      omega

theorem set_eq_splice {i : Nat} (h : i < l.length) (x : α) : l.set i x = splice l i [x] := by
  rw [splice, set_eq_take_append_cons_drop, if_pos h, append_assoc]
  rfl

/-- Writing behind what was written before. -/
theorem splice_append {out : List α} (h : off + out.length + piece.length ≤ l.length) :
    splice (splice l off out) (off + out.length) piece = splice l off (out ++ piece) := by
  have hlen : (splice l off out).length = l.length := splice_length (by omega)
  apply ext_getElem?
  intro i
  rw [splice_getElem (by omega), splice_getElem (by omega), splice_getElem (by
    rw [length_append]
    omega), length_append, getElem?_append]
  by_cases hin : off ≤ i ∧ i < off + (out.length + piece.length)
  · rw [if_pos hin]
    rcases lt_or_ge i (off + out.length) with hlt | hge
    · rw [if_neg (by omega), if_pos ⟨hin.1, hlt⟩, if_pos (by omega)]
    · rw [if_pos (by omega), if_neg (by omega)]
      congr 1
      omega
  · rw [if_neg hin, if_neg (by omega), if_neg (by omega)]

theorem splice_nil (l : List α) (off : Nat) : splice l off [] = l := by
  simp [splice]

/-- Writing over all of the list. -/
theorem splice_all (h : piece.length = l.length) : splice l 0 piece = piece := by
  rw [splice, take_zero, nil_append, Nat.zero_add, h, drop_length, append_nil]

end RLucene.Lib
