import Mathlib.Data.BitVec
import Mathlib.Tactic.Ring

/-!
# Zig-zag coding

Signed integers of small absolute value become unsigned integers that are small.
-/

namespace RLucene.Util.BitUtil

/-- The signed number of an unsigned one. -/
def zigZagDecodeI64 (l : BitVec 64) : BitVec 64 :=
  l >>> 1 ^^^ -(l &&& 1)

/-- A signed number as an unsigned one, small if it is near zero. -/
def zigZagEncodeI64 (l : BitVec 64) : BitVec 64 :=
  l.sshiftRight 63 ^^^ l <<< 1

/-- The sign, in all bits. -/
theorem sshiftRight_sign (l : BitVec 64) :
    l.sshiftRight 63 = if l.msb then BitVec.allOnes 64 else 0 := by
  ext i hi
  rw [BitVec.getElem_sshiftRight]
  rcases Nat.eq_zero_or_pos i with rfl | hpos
  · cases hmsb : l.msb <;> simp [BitVec.msb_eq_getLsbD_last] at hmsb ⊢ <;> exact hmsb
  · rw [dif_neg (by omega)]
    cases l.msb with
    | false => simp
    | true => rw [if_pos rfl, BitVec.getElem_allOnes]

/-- Numbers near zero are small. -/
theorem zigZagEncodeI64_toNat (l : BitVec 64) :
    ((zigZagEncodeI64 l).toNat : Int) = if 0 ≤ l.toInt then 2 * l.toInt else -2 * l.toInt - 1 := by
  rw [zigZagEncodeI64, sshiftRight_sign]
  cases hmsb : l.msb with
  | false =>
    have hsmall := BitVec.msb_eq_false_iff_two_mul_lt.mp hmsb
    rw [if_neg Bool.false_ne_true, show (0 : BitVec 64) ^^^ l <<< 1 = l <<< 1 from BitVec.zero_xor,
      BitVec.toNat_shiftLeft, Nat.shiftLeft_eq, BitVec.toInt_eq_toNat_of_msb hmsb,
      if_pos (by omega)]
    omega
  | true =>
    have hlarge := BitVec.msb_eq_true_iff_two_mul_ge.mp hmsb
    rw [if_pos rfl, BitVec.allOnes_xor, BitVec.toNat_not, BitVec.toNat_shiftLeft, Nat.shiftLeft_eq,
      BitVec.toInt_eq_msb_cond, if_pos hmsb, if_neg (by omega)]
    omega

/-- Every number comes back. -/
theorem zigZagDecodeI64_encode (l : BitVec 64) : zigZagDecodeI64 (zigZagEncodeI64 l) = l := by
  rw [zigZagDecodeI64, zigZagEncodeI64, sshiftRight_sign]
  cases hmsb : l.msb with
  | false =>
    rw [if_neg Bool.false_ne_true, show (0 : BitVec 64) ^^^ l <<< 1 = l <<< 1 from BitVec.zero_xor]
    have hlow : l <<< 1 &&& 1 = 0 := by
      ext i hi
      rcases i with - | i <;> simp [BitVec.getElem_one]
    have hback : l <<< 1 >>> 1 = l := by
      apply BitVec.eq_of_getLsbD_eq
      intro i hi
      rw [BitVec.getLsbD_ushiftRight, BitVec.getLsbD_shiftLeft]
      rcases Nat.lt_or_ge (1 + i) 64 with hlt | hge
      · simp [hlt]
      · obtain rfl : i = 63 := by omega
        rw [BitVec.msb_eq_getLsbD_last] at hmsb
        simpa using hmsb.symm
    rw [hlow, hback]
    exact BitVec.xor_zero
  | true =>
    rw [if_pos rfl, BitVec.allOnes_xor]
    have hlow : ~~~(l <<< 1) &&& 1 = 1 := by
      ext i hi
      rcases i with - | i <;> simp [BitVec.getElem_one]
    have hback : ~~~(l <<< 1) >>> 1 = ~~~l := by
      apply BitVec.eq_of_getLsbD_eq
      intro i hi
      rcases Nat.lt_or_ge (1 + i) 64 with hlt | hge
      · simp [hlt, hi]
      · obtain rfl : i = 63 := by omega
        rw [BitVec.msb_eq_getLsbD_last] at hmsb
        simpa using hmsb
    rw [hlow, hback, show -(1 : BitVec 64) = BitVec.allOnes 64 by decide, BitVec.xor_allOnes,
      BitVec.not_not]

end RLucene.Util.BitUtil
