import RLucene.Store.DataOutput

/-!
# Checked conversions

`TryIntoInt::try_convert` between the integer types of the source.
-/

namespace RLucene.Util

open Store

/-- The integer types that values are converted to. -/
inductive IntType where
  | u8
  | i32
  | i64
  | usize
  deriving DecidableEq, Repr

namespace IntType

/-- The name of a type. -/
def name : IntType → String
  | u8 => "u8"
  | i32 => "i32"
  | i64 => "i64"
  | usize => "usize"

/-- The value is in the range of the type. -/
def Holds (v : Int) : IntType → Prop
  | u8 => 0 ≤ v ∧ v < 2 ^ 8
  | i32 => -2 ^ 31 ≤ v ∧ v < 2 ^ 31
  | i64 => -2 ^ 63 ≤ v ∧ v < 2 ^ 63
  | usize => 0 ≤ v ∧ v < 2 ^ 64

/-- Whether a type holds a value is decided by its bounds. -/
instance (v : Int) (type : IntType) : Decidable (type.Holds v) := by
  cases type <;> exact inferInstanceAs (Decidable (_ ∧ _))

end IntType

/-- Convert a value to a type that holds it. -/
def tryConvert (type : IntType) (v : Int) : Result Int :=
  if type.Holds v then .ok v
  else .error (.illegalState s!"value {v} does not fit into {type.name}")

/-- A value that the type holds. -/
theorem tryConvert_ok {type : IntType} {v : Int} (h : type.Holds v) : tryConvert type v = .ok v :=
  if_pos h

variable {n : Nat}

theorem usize_holds (h : n < 2 ^ 63) : IntType.usize.Holds n := by
  simp only [IntType.Holds]
  omega

theorem i64_holds (h : n < 2 ^ 63) : IntType.i64.Holds n := by
  simp only [IntType.Holds]
  omega

theorem i32_holds (h : n < 2 ^ 31) : IntType.i32.Holds n := by
  simp only [IntType.Holds]
  omega

end RLucene.Util
