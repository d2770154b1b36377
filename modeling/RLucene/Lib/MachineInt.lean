import Mathlib.Tactic.Linarith
import Mathlib.Tactic.Ring
import Mathlib.Data.Int.Bitwise

/-!
# Two's-complement casts

Machine integers are modelled by `Int` and `Nat` together with the two casts of a width `w`:
`asU w` is the unsigned reading of the low `w` bits and `asI w` the signed one. Arithmetic that may
wrap is written with an explicit cast, and `asU_asI`, `asI_asU`, `asU_of_lt` and `asI_of_range`
say when a cast can be dropped.
-/

namespace RLucene.Lib

/-- The unsigned value of the low `w` bits of `i`. -/
def asU (w : Nat) (i : Int) : Nat :=
  (i % (2 ^ w : Nat)).toNat

/-- The signed two's-complement value of the low `w` bits of `i`. -/
def asI (w : Nat) (i : Int) : Int :=
  i.bmod (2 ^ w)

theorem asU_lt (w : Nat) (i : Int) : asU w i < 2 ^ w := by
  unfold asU
  omega

theorem asU_cast (w : Nat) (i : Int) : ((asU w i : Nat) : Int) = i % (2 ^ w : Nat) := by
  have hpos : (0 : Int) < ((2 ^ w : Nat) : Int) := by exact_mod_cast Nat.two_pow_pos w
  exact Int.toNat_of_nonneg (Int.emod_nonneg i (ne_of_gt hpos))

@[simp] theorem asU_natCast (w n : Nat) : asU w (n : Int) = n % 2 ^ w := by
  unfold asU
  rw [← Int.natCast_mod, Int.toNat_natCast]

variable {w : Nat}

/-- The unsigned reading of a value that already fits the width is the value itself. -/
theorem asU_of_lt {n : Nat} (h : n < 2 ^ w) : asU w (n : Int) = n := by
  rw [asU_natCast, Nat.mod_eq_of_lt h]

/-- The low bits of an unsigned reading are the reading of a smaller width. -/
theorem asU_mod {j : Nat} (h : j ≤ w) (i : Int) : asU w i % 2 ^ j = asU j i := by
  have hcast : ((asU w i % 2 ^ j : Nat) : Int) = (asU j i : Nat) := by
    rw [Int.natCast_mod, asU_cast, asU_cast]
    exact Int.emod_emod_of_dvd i (Int.natCast_dvd_natCast.mpr (Nat.pow_dvd_pow 2 h))
  exact_mod_cast hcast

/-- The unsigned reading does not see an earlier signed cast of the same width. -/
@[simp] theorem asU_asI (w : Nat) (i : Int) : asU w (asI w i) = asU w i := by
  unfold asU asI
  rw [Int.bmod_emod]

/-- The signed reading does not see an earlier unsigned cast of the same width. -/
@[simp] theorem asI_asU (w : Nat) (i : Int) : asI w (asU w i) = asI w i := by
  rw [asU_cast]
  exact Int.emod_bmod i (2 ^ w)

@[simp] theorem asI_asI (w : Nat) (i : Int) : asI w (asI w i) = asI w i := by
  exact Int.bmod_bmod

variable {i : Int}

/-- The signed reading of a value in the signed range is the value itself. -/
theorem asI_of_range (hw : 0 < w) (hlo : -(2 ^ (w - 1) : Nat) ≤ i)
    (hhi : i < (2 ^ (w - 1) : Nat)) : asI w i = i := by
  obtain ⟨k, rfl⟩ : ∃ k, w = k + 1 := ⟨w - 1, by omega⟩
  apply Int.bmod_eq_of_le
  · push_cast at hlo ⊢
    omega
  · push_cast at hhi ⊢
    omega

theorem asI_64 (hlo : -2 ^ 63 ≤ i) (hhi : i < 2 ^ 63) : asI 64 i = i :=
  asI_of_range (by decide) (by simpa using hlo) (by simpa using hhi)

theorem asI_32 (hlo : -2 ^ 31 ≤ i) (hhi : i < 2 ^ 31) : asI 32 i = i :=
  asI_of_range (by decide) (by simpa using hlo) (by simpa using hhi)

theorem asI_32_eq {n : Nat} (h : i = n) (hn : n < 2 ^ 31) : asI 32 i = n := by
  rw [h, asI_32 (by omega) (by omega)]

theorem asI_range (hw : 0 < w) (i : Int) :
    -(2 ^ (w - 1) : Nat) ≤ asI w i ∧ asI w i < (2 ^ (w - 1) : Nat) := by
  obtain ⟨k, rfl⟩ : ∃ k, w = k + 1 := ⟨w - 1, by omega⟩
  have hpos : 0 < 2 ^ (k + 1) := Nat.two_pow_pos _
  have hlo := Int.le_bmod (x := i) hpos
  have hhi := Int.bmod_lt (x := i) hpos
  unfold asI
  push_cast at hlo hhi ⊢
  omega

/-- A signed cast changes its argument by a multiple of the modulus. -/
theorem asI_eq_add (w : Nat) (i : Int) : ∃ k : Int, asI w i = i + k * 2 ^ w := by
  refine ⟨-(i.bdiv (2 ^ w)), ?_⟩
  have h := Int.bmod_add_bdiv i (2 ^ w)
  push_cast at h
  rw [asI]
  linarith

/-- Multiples of the modulus do not matter. -/
theorem asI_add_mul (w : Nat) (i k : Int) : asI w (i + k * 2 ^ w) = asI w i := by
  have h := Int.add_mul_bmod_self_right i k (2 ^ w)
  exact h

/-- Casts inside a wrapping sum or product do not matter. -/
theorem asI_asI_add (w : Nat) (a b : Int) : asI w (asI w a + b) = asI w (a + b) := by
  obtain ⟨k, hk⟩ := asI_eq_add w a
  rw [hk, show a + k * 2 ^ w + b = a + b + k * 2 ^ w by ring, asI_add_mul]

/-- Wrapping once is enough. -/
theorem asI_mul_asI (w : Nat) (a b : Int) : asI w (a * asI w b) = asI w (a * b) := by
  obtain ⟨k, hk⟩ := asI_eq_add w b
  rw [hk, show a * (b + k * 2 ^ w) = a * b + a * k * 2 ^ w by ring, asI_add_mul]

/-- Two integers with the same unsigned reading have the same signed reading. -/
theorem asI_eq_of_asU_eq {a b : Int} (h : asU w a = asU w b) : asI w a = asI w b := by
  rw [← asI_asU w a, h, asI_asU]

/-- A row of `k` places ends before the rows do. -/
theorem row_end_le {i m k : Nat} (h : i < m) : i * k + k ≤ m * k := by
  rw [← Nat.succ_mul]
  exact Nat.mul_le_mul_right k h

theorem row_lt {i j m k : Nat} (hi : i < m) (hj : j < k) : i * k + j < m * k :=
  (Nat.add_lt_add_left hj _).trans_le (row_end_le hi)

end RLucene.Lib
