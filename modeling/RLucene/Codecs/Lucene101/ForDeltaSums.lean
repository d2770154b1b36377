import Mathlib.Algebra.BigOperators.Ring.Finset
import RLucene.Codecs.Lucene101.ForCollapse
import RLucene.Codecs.Lucene101.ForDeltaUtil
import RLucene.Lib.RunningSum

/-!
# Sums in packed lanes

`innerPrefixSum_spec`: the vectors compute the running sums of the packed words, as machine
integers. As long as no lane overflows, the lanes of the sums are the sums of the lanes
(`laneOf_sum`), and what the three prefix sums leave is the base plus the running sums of the deltas
(`prefixSum8_spec`, `prefixSum16_spec`, `prefixSum32_spec`).
-/

namespace RLucene.Codecs.Lucene101.ForDeltaUtil

open Nat Finset Lib Store Internal.Vectorization ForUtil

variable {arr : List I32}

/-! ## Vectors -/

/-- A vector gets its running sums on top of the carry. -/
theorem sumVector_spec {v : List I32} (hv : v.length = 4) (carry : I32) :
    ∃ v', sumVector v carry = .ok (v', carry + ∑ j ∈ range 4, intAt v j) ∧ v'.length = 4 ∧
      ∀ j < 4, intAt v' j = carry + ∑ q ∈ range (j + 1), intAt v q := by
  match v, hv with
  | [a, b, c, d], _ =>
    refine ⟨[a + 0 + 0 + carry, b + 0 + (a + 0) + carry, c + a + (b + 0) + carry,
      d + b + (c + a) + carry], ?_, rfl, fun j hj => ?_⟩
    · show Except.ok (_, d + b + (c + a) + carry) = _
      congr 2
      simp only [sum_range_succ, sum_range_zero]
      show d + b + (c + a) + carry = carry + (0 + a + b + c + d)
      ring
    · match j, hj with
      | 0, _ =>
        simp only [sum_range_succ, sum_range_zero]
        show a + 0 + 0 + carry = carry + (0 + a)
        ring
      | 1, _ =>
        simp only [sum_range_succ, sum_range_zero]
        show b + 0 + (a + 0) + carry = carry + (0 + a + b)
        ring
      | 2, _ =>
        simp only [sum_range_succ, sum_range_zero]
        show c + a + (b + 0) + carry = carry + (0 + a + b + c)
        ring
      | 3, _ =>
        simp only [sum_range_succ, sum_range_zero]
        show d + b + (c + a) + carry = carry + (0 + a + b + c + d)
        ring

/-- The first `k` vectors of four have their running sums, and the carry is the last of them. -/
structure SummedTo (arr : List I32) (k : Nat) (state : List I32 × I32) : Prop where
  carry_eq : state.2 = ∑ q ∈ range (4 * k), intAt arr q
  length_eq : state.1.length = arr.length
  sums : ∀ p, intAt state.1 p =
    if p < 4 * k then ∑ q ∈ range (p + 1), intAt arr q else intAt arr p

/-- One more vector. -/
theorem SummedTo.step {k : Nat} {state : List I32 × I32} (h : SummedTo arr k state)
    (hk : 4 * k + 4 ≤ arr.length) :
    ∃ state', (do
        let sums ← sumVector (← sliceInts state.1 (4 * k) 4) state.2
        return (← copyInts state.1 (4 * k) sums.1, sums.2)) = Except.ok state' ∧
      SummedTo arr (k + 1) state' := by
  have hlen := h.length_eq
  obtain ⟨slice, hslice, hsliceLen, hsliceAt⟩ := @sliceInts_eq state.1 (4 * k) 4 (by omega)
  have hread : ∀ j < 4, intAt slice j = intAt arr (4 * k + j) := fun j hj => by
    rw [hsliceAt j hj, h.sums, if_neg (by omega)]
  obtain ⟨value, hvalue, hvalueLen, hvalueAt⟩ := sumVector_spec hsliceLen state.2
  have hsums : ∀ j ≤ 4, state.2 + ∑ q ∈ range j, intAt slice q =
      ∑ q ∈ range (4 * k + j), intAt arr q := fun j hj => by
    rw [sum_range_add, h.carry_eq]
    congr 1
    exact sum_congr rfl fun q hq => hread q (by have := mem_range.mp hq; omega)
  have hfit : 4 * k + value.length ≤ state.1.length := by omega
  refine ⟨(splice state.1 (4 * k) value, _), ?_, hsums 4 le_rfl, (splice_length hfit).trans hlen,
    fun p => ?_⟩
  · simp only [hslice, hvalue, copyInts_eq hfit, ok_bind, pure_eq_ok]
  · rw [intAt_splice hfit, hvalueLen]
    split
    · rw [if_pos (by omega), hvalueAt _ (by omega), hsums _ (by omega)]
      rw [show 4 * k + (p - 4 * k + 1) = p + 1 by omega]
    · rw [h.sums p]
      exact if_congr (by omega) rfl rfl

/-- The loop leaves the running sums. -/
theorem innerPrefixSum_spec {n : Nat} (hlen : 4 * n ≤ arr.length) :
    ∃ arr', innerPrefixSum (4 * n) arr = .ok arr' ∧ arr'.length = arr.length ∧
      ∀ p < 4 * n, intAt arr' p = ∑ q ∈ range (p + 1), intAt arr q := by
  have hstart : SummedTo arr 0 (arr, 0) := ⟨rfl, rfl, fun p => (if_neg (not_lt_zero p)).symm⟩
  obtain ⟨state, hrun, hall⟩ := foldlM_range (n := n) (I := SummedTo arr)
    (fun k state hk hstate => hstate.step (by omega)) hstart
  refine ⟨state.1, ?_, hall.length_eq, fun p hp => by rw [hall.sums p, if_pos hp]⟩
  rw [innerPrefixSum, if_pos hlen, Nat.mul_div_cancel_left n (by decide)]
  exact congrArg (· >>= fun state => pure state.1) hrun

/-! ## Lanes -/

/-- Digits whose sums are digits do not carry. -/
theorem mod_add_mod_lt {b x y t : Nat} (h : ∀ i < t, x / b ^ i % b + y / b ^ i % b < b) :
    x % b ^ t + y % b ^ t < b ^ t := by
  induction t with
  | zero => simp [mod_one]
  | succ t ih =>
    have hlow := ih fun i hi => h i (by omega)
    have hdigit := Nat.mul_le_mul_left (b ^ t) (succ_le_of_lt (h t (by omega)))
    rw [mul_succ, mul_add] at hdigit
    rw [mod_pow_succ, mod_pow_succ, pow_succ]
    omega

section

variable {f : Nat → I32} {size n c : Nat} (hsize : size * (32 / size) = 32)

include hsize

/-- A lane is a digit of the word. -/
theorem laneOf_eq (x : I32) {k t : Nat} (hk : k + 1 + t = 32 / size) :
    laneOf size x k = x.toNat / (2 ^ size) ^ t % 2 ^ size := by
  rw [← hk, mul_add, mul_comm size (k + 1)] at hsize
  rw [laneOf, ← pow_mul, show 32 - (k + 1) * size = size * t by omega]

/-- The lanes of a sum, if none of them overflows. -/
theorem laneOf_add {x y : I32} (h : ∀ k < 32 / size, laneOf size x k + laneOf size y k < 2 ^ size)
    {k : Nat} (hk : k < 32 / size) : laneOf size (x + y) k = laneOf size x k + laneOf size y k := by
  have hdigit : ∀ i < 32 / size, x.toNat / (2 ^ size) ^ i % 2 ^ size +
      y.toNat / (2 ^ size) ^ i % 2 ^ size < 2 ^ size := fun i hi => by
    have hlane := h (32 / size - 1 - i) (by omega)
    rwa [laneOf_eq hsize x (t := i) (by omega), laneOf_eq hsize y (t := i) (by omega)] at hlane
  have hsum := mod_add_mod_lt hdigit
  rw [← pow_mul, hsize, mod_eq_of_lt x.isLt, mod_eq_of_lt y.isLt] at hsum
  obtain ⟨t, ht⟩ := Nat.exists_eq_add_of_le (succ_le_of_lt hk)
  have hlow := mod_add_mod_lt fun i (hi : i < t) => hdigit i (by omega)
  rw [laneOf_eq hsize _ ht.symm, laneOf_eq hsize _ ht.symm, laneOf_eq hsize _ ht.symm,
    BitVec.toNat_add, mod_eq_of_lt hsum, Nat.add_div (Nat.pow_pos (Nat.two_pow_pos size)),
    if_neg (by omega), add_zero, add_mod, mod_eq_of_lt (hdigit t (by omega))]

/-- Without a carry the lanes are summed apart. -/
theorem laneOf_sum (hfit : n * c < 2 ^ size)
    (hsmall : ∀ j < n, ∀ k < 32 / size, laneOf size (f j) k ≤ c) :
    ∀ k < 32 / size, laneOf size (∑ j ∈ range n, f j) k = ∑ j ∈ range n, laneOf size (f j) k := by
  induction n with
  | zero => simp [laneOf]
  | succ n ih =>
    rw [succ_mul] at hfit
    have hsum := ih (by omega) fun j hj => hsmall j (by omega)
    intro k hk
    rw [sum_range_succ, sum_range_succ, laneOf_add hsize (fun k hk => ?_) hk, hsum k hk]
    have hle := sum_range_le fun j (hj : j < n) => hsmall j (by omega) k hk
    have hlast := hsmall n (by omega) k hk
    rw [hsum k hk]
    omega

/-- The lanes of the running sums of a collapsed block. -/
theorem laneOf_inner {deltas : List I32} (hcollapsed : Collapsed size deltas arr)
    (hfit : 4 * size * c < 2 ^ size) (hsmall : ∀ q, (intAt deltas q).toNat ≤ c) {i k : Nat}
    (hi : i < 4 * size) (hk : k < 32 / size) :
    laneOf size (∑ j ∈ range (i + 1), intAt arr j) k =
      ∑ j ∈ range (i + 1), (intAt deltas (k * (4 * size) + j)).toNat := by
  have hlane : ∀ j < i + 1, ∀ k < 32 / size,
      laneOf size (intAt arr j) k = (intAt deltas (k * (4 * size) + j)).toNat := fun j hj k hk =>
    hcollapsed j (by omega) k hk
  rw [laneOf_sum hsize ((Nat.mul_le_mul_right c hi).trans_lt hfit)
    (fun j hj k hk => hlane j hj k hk ▸ hsmall _) k hk]
  exact sum_congr rfl fun j hj => hlane j (mem_range.mp hj) k hk

end

section

variable {deltas : List I32}

/-- A number with the sum of small numbers is their machine sum. -/
theorem eq_sum_of_toNat {x : I32} {f : Nat → I32} {n c : Nat} (hsmall : ∀ j, (f j).toNat < c)
    (hfit : n * c < 2 ^ 32) (hx : x.toNat = ∑ j ∈ range n, (f j).toNat) :
    x = ∑ j ∈ range n, f j := by
  apply BitVec.eq_of_toNat_eq
  rw [hx, toNat_sum]
  exact (sum_range_le fun j _ => (hsmall j).le).trans_lt hfit

/-- The sum at a place is the sum before its part and the sum in its part. -/
theorem sum_at_part {base : I32} {f : Nat → I32} {m p : Nat} {lane offset : I32}
    (hlane : lane = ∑ j ∈ range (p % m + 1), f (p / m * m + j))
    (hoffset : offset = base + ∑ q ∈ range (p / m * m), f q) :
    lane + offset = base + ∑ q ∈ range (p + 1), f q := by
  have hp : p + 1 = p / m * m + (p % m + 1) := by
    have := div_add_mod p m
    rw [mul_comm] at this
    omega
  rw [hlane, hoffset, hp, sum_range_add f (p / m * m)]
  ring

/-- What is added to the lanes: the base and all lanes before. -/
def partOffset (base : I32) (lane : Nat → I32) : Nat → I32
  | 0 => base
  | k + 1 => partOffset base lane k + lane k

/-- The offset of a part is the sum of the parts before it. -/
theorem partOffset_eq {f lane : Nat → I32} {m parts : Nat}
    (hlane : ∀ k < parts, lane k = ∑ j ∈ range m, f (k * m + j)) (base : I32) {k : Nat}
    (hk : k ≤ parts) : partOffset base lane k = base + ∑ q ∈ range (k * m), f q := by
  induction k with
  | zero => rw [partOffset, zero_mul, sum_range_zero, add_zero]
  | succ k ih =>
    rw [partOffset, ih (by omega), hlane k (by omega), succ_mul, sum_range_add, add_assoc]

/-! ## Prefix sums -/

/-- A loop that adds to the lanes of the running sums what is before them. -/
theorem prefixLoop_spec {m parts : Nat} {lane : I32 → Nat → I32} {sums : List I32} {base : I32}
    {step : List I32 → Nat → Result (List I32)} (hm : 0 < m) (hparts : m * parts = blockSize)
    (hle : m ≤ blockSize) (hlen : sums.length = blockSize)
    (hlane : ∀ i < m, ∀ k < parts,
      lane (intAt sums i) k = ∑ j ∈ range (i + 1), intAt deltas (k * m + j))
    (hstep : ∀ mid : List I32, ∀ i < m, mid.length = blockSize → GivesBlock (step mid i) fun p =>
      if p % m = i
      then lane (intAt mid i) (p / m) + partOffset base (lane (intAt sums (m - 1))) (p / m)
      else intAt mid p) :
    GivesBlock ((List.range m).foldlM step sums) fun p =>
      base + ∑ q ∈ range (p + 1), intAt deltas q := by
  obtain ⟨out, hrun, houtLen, hout⟩ := @expandLoop_spec sums m m
    (fun l k => lane l k + partOffset base (lane (intAt sums (m - 1))) k) step hlen hstep le_rfl hle
  refine ⟨out, hrun, houtLen, fun p hp => ?_⟩
  have hpart : p / m < parts := Nat.div_lt_of_lt_mul (hparts ▸ hp)
  have hoffset := @partOffset_eq (intAt deltas) (lane (intAt sums (m - 1))) m parts
    (fun k hk => by rw [hlane (m - 1) (by omega) k hk, Nat.sub_add_cancel hm]) base _ hpart.le
  rw [hout p hp]
  dsimp only
  rw [if_pos (mod_lt p hm)]
  exact sum_at_part (hlane _ (mod_lt p hm) _ hpart) hoffset

/-- Four parts that are summed at once. -/
theorem prefixSum8_spec (hlen : arr.length = blockSize) (hcollapsed : Collapsed 8 deltas arr)
    (hsmall : ∀ q, (intAt deltas q).toNat < 2 ^ 3) (base : I32) :
    GivesBlock (prefixSum8 arr base) fun p => base + ∑ q ∈ range (p + 1), intAt deltas q := by
  obtain ⟨sums, hsums, hsumsLen, hat⟩ := @innerPrefixSum_spec arr 8 (by rw [hlen]; decide)
  rw [prefixSum8, if_pos (show arr.length ≥ blockSize from hlen.ge),
    show innerPrefixSum8 arr = .ok sums from hsums, ok_bind,
    getInt_eq (show 31 < sums.length by rw [hsumsLen, hlen]; decide), ok_bind]
  refine @prefixLoop_spec deltas 32 4 lane8 sums base _ (by decide) rfl (by decide)
    (hsumsLen.trans hlen) (fun i hi k hk => ?_) fun mid i hi hmid => ?_
  · refine eq_sum_of_toNat (fun j => hsmall _) (show (i + 1) * 2 ^ 3 < 2 ^ 32 by omega) ?_
    rw [toNat_lane8 _ hk, hat i hi]
    exact laneOf_inner rfl hcollapsed (show 4 * 8 * 7 < 2 ^ 8 by decide)
      (fun q => le_of_lt_succ (hsmall q)) hi hk
  · rw [getInt_eq (by rw [hmid, blockSize]; omega), ok_bind]
    exact setFourths_spec hmid hi fun k =>
      lane8 (intAt mid i) k + partOffset base (lane8 (intAt sums 31)) k

/-- Two parts that are summed at once. -/
theorem prefixSum16_spec (hlen : arr.length = blockSize) (hcollapsed : Collapsed 16 deltas arr)
    (hsmall : ∀ q, (intAt deltas q).toNat < 2 ^ 10) (base : I32) :
    GivesBlock (prefixSum16 arr base) fun p => base + ∑ q ∈ range (p + 1), intAt deltas q := by
  obtain ⟨sums, hsums, hsumsLen, hat⟩ := @innerPrefixSum_spec arr 16 (by rw [hlen]; decide)
  rw [prefixSum16, if_pos (show arr.length ≥ blockSize from hlen.ge),
    show innerPrefixSum16 arr = .ok sums from hsums, ok_bind,
    getInt_eq (show 63 < sums.length by rw [hsumsLen, hlen]; decide), ok_bind]
  refine @prefixLoop_spec deltas 64 2 lane16 sums base _ (by decide) rfl (by decide)
    (hsumsLen.trans hlen) (fun i hi k hk => ?_) fun mid i hi hmid => ?_
  · refine eq_sum_of_toNat (fun j => hsmall _) (show (i + 1) * 2 ^ 10 < 2 ^ 32 by omega) ?_
    rw [toNat_lane16 _ hk, hat i hi]
    exact laneOf_inner rfl hcollapsed (show 4 * 16 * 1023 < 2 ^ 16 by decide)
      (fun q => le_of_lt_succ (hsmall q)) hi hk
  · rw [getInt_eq (by rw [hmid, blockSize]; omega), ok_bind]
    exact setHalves_spec hmid hi fun k =>
      lane16 (intAt mid i) k + partOffset base (lane16 (intAt sums 63)) k

end

section

variable {base : I32} {n : Nat} {state : List I32 × I32}

/-- The first `n` integers are summed up, and the carry is the last sum. -/
structure CarriedTo (arr : List I32) (base : I32) (n : Nat) (state : List I32 × I32) : Prop where
  length : state.1.length = arr.length
  carry : state.2 = base + ∑ q ∈ range n, intAt arr q
  sums : ∀ p, intAt state.1 p =
    if p < n then base + ∑ q ∈ range (p + 1), intAt arr q else intAt arr p

/-- One entry. -/
theorem carryInt_spec (h : CarriedTo arr base n state) (hn : n < arr.length) :
    ∃ state', carryInt state n = .ok state' ∧ CarriedTo arr base (n + 1) state' := by
  have hin : n < state.1.length := h.length ▸ hn
  have hcarry : intAt state.1 n + state.2 = base + ∑ q ∈ range (n + 1), intAt arr q := by
    rw [h.sums n, if_neg (lt_irrefl n), h.carry, sum_range_succ]
    ring
  refine ⟨(state.1.set n (intAt state.1 n + state.2), intAt state.1 n + state.2), ?_,
    List.length_set.trans h.length, hcarry, fun p => ?_⟩
  · simp only [carryInt, getInt_eq hin, setInt_eq hin, ok_bind, pure_eq_ok]
  · rw [intAt_set hin, hcarry, h.sums p]
    by_cases heq : p = n
    · rw [if_pos heq, if_pos (by omega), heq]
    · rw [if_neg heq]
      exact if_congr (by omega) rfl rfl

/-- All entries, one by one. -/
theorem prefixSum32_spec (hlen : arr.length = blockSize) (base : I32) :
    GivesBlock (prefixSum32 arr base) fun p => base + ∑ q ∈ range (p + 1), intAt arr q := by
  rw [blockSize] at hlen
  have hstart : CarriedTo arr base (4 * 0) (arr, base) := by
    refine ⟨rfl, ?_, fun p => (if_neg (not_lt_zero p)).symm⟩
    rw [mul_zero, sum_range_zero, add_zero]
  obtain ⟨state, hrun, hcarried⟩ := @foldlM_range _ _ (fun state k => do
      let state ← carryInt state (4 * k)
      let state ← carryInt state (4 * k + 1)
      let state ← carryInt state (4 * k + 2)
      carryInt state (4 * k + 3)) (fun k => CarriedTo arr base (4 * k)) 32 (by
    intro k state hk h
    obtain ⟨state1, h1, hcarried1⟩ := carryInt_spec h (by omega)
    obtain ⟨state2, h2, hcarried2⟩ := carryInt_spec hcarried1 (by omega)
    obtain ⟨state3, h3, hcarried3⟩ := carryInt_spec hcarried2 (by omega)
    obtain ⟨state4, h4, hcarried4⟩ := carryInt_spec hcarried3 (by omega)
    refine ⟨state4, ?_, hcarried4⟩
    rw [h1, ok_bind, h2, ok_bind, h3, ok_bind, h4]) _ hstart
  refine ⟨state.1, ?_, hcarried.length.trans hlen, fun p hp =>
    (hcarried.sums p).trans (if_pos hp)⟩
  rw [prefixSum32, if_pos (show arr.length ≥ 128 from hlen.ge), hrun, ok_bind]
  rfl

end

end RLucene.Codecs.Lucene101.ForDeltaUtil
