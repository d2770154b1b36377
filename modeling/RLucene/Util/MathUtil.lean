import Mathlib.Data.Nat.Prime.Basic
import RLucene.Lib.MachineInt

/-!
# Greatest common divisor

`MathUtil::gcd` is a binary gcd on the absolute values. Its loop keeps `a` odd, strips the factors
of two from `b` and subtracts the smaller from the larger, so the sum of the two decreases and fuel
for that sum is enough.
-/

namespace RLucene.Util

open Nat Lib

/-- The number of trailing zero bits of a word of `w` bits. -/
def countTrailingZeros : (w n : Nat) → Nat
  | 0, _ => 0
  | w + 1, n => if n % 2 = 1 then 0 else countTrailingZeros w (n / 2) + 1

/-- The loop of the binary gcd. -/
def gcdLoop : (fuel a b : Nat) → Nat
  | 0, a, _ => a
  | fuel + 1, a, b =>
    if b = 0 then a
    else
      let b := b >>> countTrailingZeros 64 b
      if a = b then a
      else
        let (a, b) := if b < a then (b, a) else (a, b)
        if a = 1 then a else gcdLoop fuel a (b - a)

/-- The wrapping absolute value of a long. -/
def wrappingAbs (i : Int) : Int :=
  asI 64 i.natAbs

/-- The greatest common divisor. -/
def gcd (a b : Int) : Int :=
  let a := wrappingAbs a
  let b := wrappingAbs b
  if a = 0 then b
  else if b = 0 then a
  else
    let a := asU 64 a
    let b := asU 64 b
    let commonTrailingZeros := countTrailingZeros 64 (a ||| b)
    let a := a >>> countTrailingZeros 64 a
    asI 64 ((gcdLoop (a + b + 1) a b <<< commonTrailingZeros : Nat) : Int)

/-! ## Correctness -/

/-- Stripping the trailing zeros leaves the odd part. -/
theorem shiftRight_trailingZeros {w n : Nat} (hn : n ≠ 0) (hw : n < 2 ^ w) :
    n = 2 ^ countTrailingZeros w n * (n >>> countTrailingZeros w n) ∧
      (n >>> countTrailingZeros w n) % 2 = 1 := by
  induction w generalizing n with
  | zero => omega
  | succ w ih =>
    rw [countTrailingZeros]
    split
    · rename_i hodd
      simpa using hodd
    · obtain ⟨hhalf, hodd⟩ := ih (n := n / 2) (by omega) (by rw [pow_succ] at hw; omega)
      rw [add_comm, shiftRight_add, shiftRight_one]
      refine ⟨?_, hodd⟩
      rw [add_comm 1, pow_succ, mul_assoc, mul_left_comm, ← hhalf]
      omega

theorem coprime_two_pow {a : Nat} (ha : a % 2 = 1) (k : Nat) : Nat.Coprime a (2 ^ k) :=
  Nat.Coprime.pow_right k (coprime_comm.mp
    ((Nat.Prime.coprime_iff_not_dvd prime_two).mpr (by omega)))

/-- The loop computes the gcd when its first argument is odd. -/
theorem gcdLoop_eq {fuel a b : Nat} (ha : a % 2 = 1) (hb : b < 2 ^ 64) (hlt : a < 2 ^ 64)
    (hfuel : a + b < fuel) : gcdLoop fuel a b = Nat.gcd a b := by
  induction fuel generalizing a b with
  | zero => omega
  | succ fuel ih =>
    rw [gcdLoop]
    by_cases hzero : b = 0
    · rw [if_pos hzero, hzero, Nat.gcd_zero_right]
    · rw [if_neg hzero]
      obtain ⟨hsplit, hodd⟩ := shiftRight_trailingZeros hzero hb
      have hgcd : Nat.gcd a b = Nat.gcd a (b >>> countTrailingZeros 64 b) := by
        conv_lhs => rw [hsplit]
        exact (Nat.Coprime.symm (coprime_two_pow ha _)).gcd_mul_left_cancel_right _
      have hle : b >>> countTrailingZeros 64 b ≤ b := shiftRight_le b _
      rw [hgcd]
      generalize b >>> countTrailingZeros 64 b = c at hodd hle
      by_cases heq : a = c
      · rw [if_pos heq, heq, gcd_self]
      · rw [if_neg heq]
        by_cases hswap : c < a
        · rw [if_pos hswap]
          dsimp only
          split
          · rename_i hone
            rw [hone, Nat.gcd_one_right]
          · rw [ih hodd (by omega) (by omega) (by omega), Nat.gcd_comm a c,
              gcd_sub_self_right hswap.le]
        · rw [if_neg hswap]
          dsimp only
          split
          · rename_i hone
            rw [hone, Nat.gcd_one_left]
          · rw [ih ha (by omega) hlt (by omega), gcd_sub_self_right (by omega)]

/-- The zeros at the end of both numbers. -/
theorem two_pow_dvd_of_or {a b : Nat} (hne : a ||| b ≠ 0) (hlt : a ||| b < 2 ^ 64) :
    2 ^ countTrailingZeros 64 (a ||| b) ∣ a ∧ 2 ^ countTrailingZeros 64 (a ||| b) ∣ b := by
  obtain ⟨hsplit, -⟩ := shiftRight_trailingZeros hne hlt
  generalize countTrailingZeros 64 (a ||| b) = k at hsplit
  have hmod : (a ||| b) % 2 ^ k = 0 := mod_eq_zero_of_dvd ⟨_, hsplit⟩
  rw [or_mod_two_pow, or_eq_zero_iff] at hmod
  exact ⟨dvd_of_mod_eq_zero hmod.1, dvd_of_mod_eq_zero hmod.2⟩

/-- The absolute value, unless it overflows. -/
theorem wrappingAbs_eq {i : Int} (h : i.natAbs < 2 ^ 63) : wrappingAbs i = i.natAbs :=
  asI_64 (by omega) (by exact_mod_cast h)

/-- Away from the smallest long the result is positive, unless both arguments are zero, and divides
both. -/
theorem gcd_spec {a b : Int} (ha : a.natAbs < 2 ^ 63) (hb : b.natAbs < 2 ^ 63) :
    gcd a b ∣ a ∧ gcd a b ∣ b ∧ 0 ≤ gcd a b ∧ gcd a b < 2 ^ 63 ∧ (a ≠ 0 ∨ b ≠ 0 → 0 < gcd a b) := by
  unfold gcd
  rw [wrappingAbs_eq ha, wrappingAbs_eq hb]
  dsimp only
  by_cases ha0 : a = 0
  · subst ha0
    refine ⟨by simp, Int.natAbs_dvd.mpr dvd_rfl, by omega, by omega, by omega⟩
  · rw [if_neg (by omega)]
    by_cases hb0 : b = 0
    · subst hb0
      refine ⟨Int.natAbs_dvd.mpr dvd_rfl, by simp, by omega, by omega, by omega⟩
    · rw [if_neg (by omega), asU_of_lt (by omega), asU_of_lt (by omega)]
      have hapos : 0 < a.natAbs := Int.natAbs_pos.mpr ha0
      generalize hm : a.natAbs = m at *
      generalize hn : b.natAbs = n at *
      have hor : m ||| n < 2 ^ 64 := or_lt_two_pow (by omega) (by omega)
      have horne : m ||| n ≠ 0 := by
        intro hzero
        rw [or_eq_zero_iff] at hzero
        omega
      obtain ⟨hpa, hpb⟩ := two_pow_dvd_of_or horne hor
      obtain ⟨hsplit, hodd⟩ := shiftRight_trailingZeros (w := 64) (n := m) (by omega) (by omega)
      have hle : m >>> countTrailingZeros 64 m ≤ m := shiftRight_le m _
      rw [gcdLoop_eq hodd (by omega) (by omega) (by omega)]
      generalize hc : countTrailingZeros 64 (m ||| n) = c at *
      have hgodd : (Nat.gcd (m >>> countTrailingZeros 64 m) n) % 2 = 1 := by
        have hdvd := Nat.gcd_dvd_left (m >>> countTrailingZeros 64 m) n
        have hnot : ¬ 2 ∣ m >>> countTrailingZeros 64 m := by omega
        have : ¬ 2 ∣ Nat.gcd (m >>> countTrailingZeros 64 m) n := fun h => hnot (h.trans hdvd)
        omega
      have hga : Nat.gcd (m >>> countTrailingZeros 64 m) n ∣ m :=
        (Nat.gcd_dvd_left _ _).trans ⟨_, by rw [mul_comm]; exact hsplit⟩
      have hgb : Nat.gcd (m >>> countTrailingZeros 64 m) n ∣ n := Nat.gcd_dvd_right _ _
      generalize Nat.gcd (m >>> countTrailingZeros 64 m) n = g at *
      -- an odd divisor and the shared power of two divide together
      have hcop := coprime_two_pow hgodd c
      have hda : g * 2 ^ c ∣ m := hcop.mul_dvd_of_dvd_of_dvd hga hpa
      have hdb : g * 2 ^ c ∣ n := hcop.mul_dvd_of_dvd_of_dvd hgb hpb
      have hpos : 0 < g * 2 ^ c := pos_of_dvd_of_pos hda hapos
      have hbound : g * 2 ^ c ≤ m := le_of_dvd hapos hda
      rw [shiftLeft_eq, asI_of_range (by decide) (by omega) (by
        have : g * 2 ^ c < 2 ^ 63 := by omega
        exact_mod_cast this)]
      refine ⟨?_, ?_, by omega, ?_, fun _ => by exact_mod_cast hpos⟩
      · rw [← Int.natAbs_dvd_natAbs, Int.natAbs_natCast, hm]
        exact hda
      · rw [← Int.natAbs_dvd_natAbs, Int.natAbs_natCast, hn]
        exact hdb
      · have : g * 2 ^ c < 2 ^ 63 := by omega
        exact_mod_cast this

end RLucene.Util
