import Mathlib.Algebra.BigOperators.Intervals
import Mathlib.Algebra.Order.BigOperators.Group.Finset
import Mathlib.Data.BitVec
import RLucene.Lib.MachineInt

/-!
# Running sums

Sums of machine integers over ranges: as natural numbers when they do not overflow, as integers when
the result is in range. `runningSums` lists the sums of a list on top of a base.
-/

namespace RLucene.Lib

open Finset

/-- The sums of the first numbers of a list, on top of a base. -/
def runningSums (base : Int) : List Int → List Int
  | [] => []
  | value :: values => (base + value) :: runningSums (base + value) values

theorem runningSums_length (base : Int) (values : List Int) :
    (runningSums base values).length = values.length := by
  induction values generalizing base with
  | nil => rfl
  | cons value values ih => rw [runningSums, List.length_cons, ih, List.length_cons]

/-- One of the sums. -/
theorem runningSums_getElem? (base : Int) (values : List Int) {i : Nat} (hi : i < values.length) :
    (runningSums base values)[i]? = some (base + ∑ j ∈ range (i + 1), values.getD j 0) := by
  induction values generalizing base i with
  | nil => exact absurd hi (Nat.not_lt_zero i)
  | cons value values ih =>
    rw [runningSums]
    cases i with
    | zero => simp
    | succ i =>
      rw [List.getElem?_cons_succ, ih (base + value) (Nat.lt_of_succ_lt_succ hi),
        sum_range_succ' _ (i + 1)]
      simp only [List.getD_cons_succ, List.getD_cons_zero]
      congr 1
      ring

variable {w : Nat} {n : Nat}

/-- A sum that fits is the sum of the numbers. -/
theorem toNat_sum {f : Nat → BitVec w} (h : ∑ i ∈ range n, (f i).toNat < 2 ^ w) :
    (∑ i ∈ range n, f i).toNat = ∑ i ∈ range n, (f i).toNat := by
  induction n with
  | zero => simp
  | succ n ih =>
    rw [sum_range_succ] at h ⊢
    rw [sum_range_succ, BitVec.toNat_add, ih (by omega), Nat.mod_eq_of_lt h]

/-- Sums of small numbers are small. -/
theorem sum_range_le {f : Nat → Nat} {c : Nat} (h : ∀ i < n, f i ≤ c) :
    ∑ i ∈ range n, f i ≤ n * c := by
  have hle := sum_le_card_nsmul (range n) f c fun i hi => h i (mem_range.mp hi)
  rwa [card_range] at hle

/-- The machine sum stands for the sum of the integers. -/
theorem ofInt_sum (base : BitVec w) (f : Nat → BitVec w) (n : Nat) :
    BitVec.ofInt w (base.toInt + ∑ i ∈ range n, (f i).toInt) = base + ∑ i ∈ range n, f i := by
  induction n with
  | zero => simp
  | succ n ih =>
    rw [sum_range_succ, sum_range_succ, ← add_assoc, ← add_assoc, BitVec.ofInt_add, ih,
      BitVec.ofInt_toInt]

/-- Without overflow the sum is that of the integers. -/
theorem toInt_add_sum {base : BitVec w} {f : Nat → BitVec w} (hw : 0 < w)
    (hlow : -2 ^ (w - 1) ≤ base.toInt + ∑ i ∈ range n, (f i).toInt)
    (hhigh : base.toInt + ∑ i ∈ range n, (f i).toInt < 2 ^ (w - 1)) :
    (base + ∑ i ∈ range n, f i).toInt = base.toInt + ∑ i ∈ range n, (f i).toInt := by
  rw [← ofInt_sum, BitVec.toInt_ofInt_eq_self hw hlow hhigh]

end RLucene.Lib
