import Mathlib.Data.Nat.Bits
import Mathlib.Tactic.Ring

/-!
# Lanes of a machine word

A word of `w` bits holds lanes of `size` bits each. Shifts and masks of the whole word act on each
lane alone as long as no bit leaves its lane: a left shift when the lanes are narrow enough, a right
shift when the bits that come in from the next lane are masked away. A word is determined by the
bits of its lanes.
-/

namespace RLucene.Lib

variable {w : Nat}

/-- Bit `bit` of lane `lane`. -/
def laneBit (size : Nat) (x : BitVec w) (lane bit : Nat) : Bool :=
  x.getLsbD (lane * size + bit)

/-- Every lane holds a number below `2 ^ bits`. -/
def Narrow (size bits : Nat) (x : BitVec w) : Prop :=
  ∀ lane bit, bits ≤ bit → bit < size → laneBit size x lane bit = false

/-- The mask for the low `bits` of every lane. -/
def IsLaneMask (size bits : Nat) (mask : BitVec w) : Prop :=
  ∀ lane bit, bit < size → lane * size + bit < w → laneBit size mask lane bit = decide (bit < bits)

variable {size bits : Nat} {x y mask : BitVec w} {lane bit : Nat}

@[simp] theorem laneBit_or : laneBit size (x ||| y) lane bit =
    (laneBit size x lane bit || laneBit size y lane bit) :=
  BitVec.getLsbD_or

@[simp] theorem laneBit_and : laneBit size (x &&& y) lane bit =
    (laneBit size x lane bit && laneBit size y lane bit) :=
  BitVec.getLsbD_and

@[simp] theorem laneBit_zero : laneBit size (0 : BitVec w) lane bit = false :=
  BitVec.getLsbD_zero

/-- A lane is in the word or behind it, not over its end. -/
theorem lane_le_or_ge (hdvd : size ∣ w) (lane : Nat) :
    lane * size + size ≤ w ∨ w ≤ lane * size := by
  obtain ⟨n, rfl⟩ := hdvd
  rcases lt_or_ge lane n with h | h
  · left
    have := Nat.mul_le_mul_left size h
    rw [Nat.mul_succ, mul_comm size lane] at this
    exact this
  · right
    rw [mul_comm lane]
    exact Nat.mul_le_mul_left size h

/-- Words with the same bits in all lanes are the same. -/
theorem eq_of_laneBit_eq (hsize : 0 < size)
    (h : ∀ lane bit, bit < size → laneBit size x lane bit = laneBit size y lane bit) : x = y := by
  apply BitVec.eq_of_getLsbD_eq
  intro i _
  have hi := h (i / size) (i % size) (Nat.mod_lt i hsize)
  rwa [laneBit, laneBit, mul_comm, Nat.div_add_mod] at hi

/-- Fewer bits are narrow. -/
theorem Narrow.mono {bits' : Nat} (h : Narrow size bits x) (hle : bits ≤ bits') :
    Narrow size bits' x :=
  fun lane bit hbit hsize => h lane bit (hle.trans hbit) hsize

theorem narrow_size (x : BitVec w) : Narrow size size x :=
  fun _ _ hle hlt => absurd hlt (by omega)

theorem Narrow.or (hx : Narrow size bits x) (hy : Narrow size bits y) :
    Narrow size bits (x ||| y) := by
  intro lane bit hle hlt
  rw [laneBit_or, hx lane bit hle hlt, hy lane bit hle hlt, Bool.or_self]

variable {s : Nat}

/-- A left shift of narrow lanes stays in the lanes. -/
theorem laneBit_shiftLeft (hdvd : size ∣ w) (hx : Narrow size bits x)
    (hs : bits + s ≤ size) (hbit : bit < size) :
    laneBit size (x <<< s) lane bit = (decide (s ≤ bit) && laneBit size x lane (bit - s)) := by
  simp only [laneBit, BitVec.getLsbD_shiftLeft]
  by_cases hle : s ≤ bit
  · have hindex : lane * size + bit - s = lane * size + (bit - s) := by omega
    rcases lane_le_or_ge hdvd lane with hin | hout
    · simp only [hindex, hle, show lane * size + bit < w by omega,
        show ¬ lane * size + bit < s by omega, decide_true, decide_false, Bool.not_false,
        Bool.true_and]
    · simp only [hindex, show ¬ lane * size + bit < w by omega, decide_false, Bool.false_and,
        BitVec.getLsbD_of_ge x (lane * size + (bit - s)) (by omega), Bool.and_false]
  · simp only [hle, decide_false, Bool.false_and, Bool.and_eq_false_iff, Bool.not_eq_false',
      decide_eq_true_eq, decide_eq_false_iff_not]
    -- the bit would come from the top of the lane before
    rcases lt_or_ge (lane * size + bit) s with hlt | hge
    · exact .inl (.inr hlt)
    · right
      obtain ⟨before, rfl⟩ : ∃ before, lane = before + 1 :=
        ⟨lane - 1, by rcases lane with _ | lane <;> omega⟩
      have hindex : (before + 1) * size + bit - s = before * size + (size + bit - s) := by
        rw [Nat.succ_mul]
        omega
      rw [hindex]
      exact hx before (size + bit - s) (by omega) (by omega)

/-- A shift within the lane. -/
theorem Narrow.shiftLeft (hdvd : size ∣ w) (hx : Narrow size bits x)
    (hs : bits + s ≤ size) : Narrow size (bits + s) (x <<< s) := by
  intro lane bit hle hlt
  rw [laneBit_shiftLeft hdvd hx hs hlt, hx lane (bit - s) (by omega) (by omega), Bool.and_false]

section

variable (hmask : IsLaneMask size bits mask)

include hmask

/-- Masking keeps the low bits of a lane. -/
theorem laneBit_and_mask (hbit : bit < size) :
    laneBit size (x &&& mask) lane bit = (decide (bit < bits) && laneBit size x lane bit) := by
  rw [laneBit_and]
  rcases lt_or_ge (lane * size + bit) w with hlt | hge
  · rw [hmask lane bit hbit hlt, Bool.and_comm]
  · rw [show laneBit size x lane bit = false from BitVec.getLsbD_of_ge x _ hge, Bool.false_and,
      Bool.and_false]

/-- A mask makes lanes narrow. -/
theorem narrow_and_mask : Narrow size bits (x &&& mask) := by
  intro lane bit hle hlt
  rw [laneBit_and_mask hmask hlt, decide_eq_false (by omega), Bool.false_and]

/-- A right shift followed by a mask takes bits of the same lane. -/
theorem laneBit_ushiftRight_and (hbit : bit < size) :
    laneBit size (x >>> s &&& mask) lane bit =
      (decide (bit < bits) && laneBit size x lane (bit + s)) := by
  rw [laneBit_and_mask hmask hbit]
  simp only [laneBit, BitVec.getLsbD_ushiftRight]
  rw [show s + (lane * size + bit) = lane * size + (bit + s) by omega]

end

/-- So does an arithmetic shift, as long as the bits stay in the lane. -/
theorem laneBit_sshiftRight_and (hdvd : size ∣ w) (hmask : IsLaneMask size bits mask)
    (hs : bits + s ≤ size) (hbit : bit < size) :
    laneBit size (x.sshiftRight s &&& mask) lane bit =
      (decide (bit < bits) && laneBit size x lane (bit + s)) := by
  rw [laneBit_and_mask hmask hbit]
  by_cases hlow : bit < bits
  · simp only [laneBit, BitVec.getLsbD_sshiftRight]
    rcases lane_le_or_ge hdvd lane with hin | hout
    · rw [if_pos (by omega), decide_eq_false (show ¬ w ≤ lane * size + bit by omega),
        show s + (lane * size + bit) = lane * size + (bit + s) by omega, Bool.not_false,
        Bool.true_and]
    · rw [decide_eq_true (show w ≤ lane * size + bit by omega), Bool.not_true, Bool.false_and,
        BitVec.getLsbD_of_ge x (lane * size + (bit + s)) (by omega)]
  · rw [decide_eq_false hlow, Bool.false_and, Bool.false_and]

end RLucene.Lib
