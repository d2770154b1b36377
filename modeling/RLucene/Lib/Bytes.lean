import RLucene.Lib.MachineInt

/-!
# Byte encodings of naturals

Little-endian words of a fixed width and base-128 groups of a bounded length, each with its decoder
and the law that decoding a prefix of a longer byte list gives the value back and leaves the rest.
The encoders drop the bits above their width, so the laws are stated modulo it.
-/

namespace RLucene.Lib

open Nat
open List hiding count

/-- A byte string. -/
abbrev Bytes := List UInt8

/-! ## Fixed width -/

/-- The `width` low bytes of `n`, least significant first. -/
def leBytes : (width n : Nat) → Bytes
  | 0, _ => []
  | width + 1, n => UInt8.ofNat n :: leBytes width (n / 256)

/-- The natural number whose little-endian bytes are given. -/
def leNat : Bytes → Nat
  | [] => 0
  | b :: rest => b.toNat + 256 * leNat rest

@[simp] theorem leBytes_length (width n : Nat) : (leBytes width n).length = width := by
  induction width generalizing n with
  | zero => rfl
  | succ width ih => simp only [leBytes, length_cons, ih]

/-- Decoding the encoding gives the value modulo the width. -/
theorem leNat_leBytes (width n : Nat) : leNat (leBytes width n) = n % 256 ^ width := by
  induction width generalizing n with
  | zero => simp [leBytes, leNat, mod_one]
  | succ width ih =>
    have hbyte : (UInt8.ofNat n).toNat = n % 256 := by simp
    rw [leBytes, leNat, ih, hbyte, pow_succ', mod_mul]

theorem leNat_lt (bytes : Bytes) : leNat bytes < 256 ^ bytes.length := by
  induction bytes with
  | nil => simp [leNat]
  | cons b rest ih =>
    have hb : b.toNat < 256 := b.toNat_lt
    rw [leNat, length_cons, pow_succ]
    omega

/-- Only the low bytes of the number are written. -/
theorem leBytes_mod (width n : Nat) : leBytes width (n % 256 ^ width) = leBytes width n := by
  induction width generalizing n with
  | zero => rfl
  | succ width ih =>
    have hlow : UInt8.ofNat (n % 256 ^ (width + 1)) = UInt8.ofNat n := by
      apply UInt8.toNat_inj.mp
      exact mod_mod_of_dvd n ⟨256 ^ width, by rw [pow_succ']⟩
    have hhigh : n % 256 ^ (width + 1) / 256 = (n / 256) % 256 ^ width := by
      rw [pow_succ', mod_mul_right_div_self]
    rw [leBytes, leBytes, hlow, hhigh, ih]

/-- A wide word is a narrow one followed by the remaining high bytes. -/
theorem leBytes_add (low high n : Nat) :
    leBytes (low + high) n = leBytes low n ++ leBytes high (n / 256 ^ low) := by
  induction low generalizing n with
  | zero => simp [leBytes]
  | succ low ih =>
    rw [show low + 1 + high = (low + high) + 1 by omega, leBytes, ih, leBytes, cons_append,
      Nat.div_div_eq_div_mul, pow_succ']

variable {k width b acc shift n pos : Nat} {bytes enc : Bytes}

/-- The low bytes of `a + 256 ^ k * b` are those of `a`. -/
theorem leBytes_append_of_lt {a : Nat} (ha : a < 256 ^ k) :
    leBytes (k + width) (a + 256 ^ k * b) = leBytes k a ++ leBytes width b := by
  have hpos : 0 < 256 ^ k := Nat.pow_pos (by omega)
  rw [leBytes_add, ← leBytes_mod k, add_mul_mod_self_left, leBytes_mod, add_mul_div_left _ _ hpos,
    div_eq_of_lt ha, Nat.zero_add]

/-! ## Base 128 -/

/-- The base-128 groups of `n`, least significant first, each but the last with its high bit set.
At most `fuel + 1` groups are produced. -/
def vBytes : (fuel n : Nat) → Bytes
  | 0, n => [UInt8.ofNat n]
  | fuel + 1, n =>
    if n < 128 then [UInt8.ofNat n]
    else UInt8.ofNat (n % 128 + 128) :: vBytes fuel (n / 128)

/-- Decode base-128 groups into a `width`-bit accumulator. The shift wraps at the width, as a
machine shift does. Returns the value and the number of bytes consumed. -/
def readV (width : Nat) : Bytes → (acc shift count : Nat) → Option (Nat × Nat)
  | [], _, _, _ => none
  | b :: rest, acc, shift, count =>
    let acc := acc ||| ((b.toNat &&& 0x7F) <<< (shift % width)) % 2 ^ width
    if b.toNat &&& 0x80 = 0 then some (acc, count + 1)
    else readV width rest acc (shift + 7) (count + 1)

theorem vBytes_length_le (fuel n : Nat) : (vBytes fuel n).length ≤ fuel + 1 := by
  induction fuel generalizing n with
  | zero => simp [vBytes]
  | succ fuel ih =>
    rw [vBytes]
    split
    · simp
    · simpa using ih (n / 128)

private theorem byte_and_low (b : Nat) : b &&& 0x7F = b % 128 :=
  and_two_pow_sub_one_eq_mod b 7

private theorem byte_and_high (hb : b < 256) : (b &&& 0x80 = 0) ↔ b < 128 := by
  have h : ∀ b < 256, (b &&& 0x80 = 0) ↔ b < 128 := by decide +kernel
  exact h b hb

private theorem or_shift_eq_add {v : Nat} (hacc : acc < 2 ^ shift) (hv : v * 2 ^ shift < 2 ^ width)
    (hshift : shift < width) :
    acc ||| (v <<< (shift % width)) % 2 ^ width = acc + v * 2 ^ shift := by
  rw [mod_eq_of_lt hshift, shiftLeft_eq, mod_eq_of_lt hv, mul_comm v, Nat.or_comm,
    ← two_pow_add_eq_or_of_lt hacc, add_comm]

/-- A byte below 128 ends the groups. -/
private theorem readV_last (rest : Bytes) (count : Nat) (hsmall : n < 128) (hacc : acc < 2 ^ shift)
    (hn : n * 2 ^ shift < 2 ^ width) (hshift : shift < width) :
    readV width (UInt8.ofNat n :: rest) acc shift count =
      some (acc + n * 2 ^ shift, count + 1) := by
  have hb : (UInt8.ofNat n).toNat = n := by simp; omega
  simp only [readV, hb, byte_and_low, mod_eq_of_lt hsmall,
    (byte_and_high (by omega : n < 256)).mpr hsmall, ↓reduceIte, or_shift_eq_add hacc hn hshift]

/-- A byte with its high bit set adds its low seven bits and moves on. -/
private theorem readV_more (rest : Bytes) (count : Nat) (hsmall : n < 128) (hacc : acc < 2 ^ shift)
    (hn : n * 2 ^ shift < 2 ^ width) (hshift : shift < width) :
    readV width (UInt8.ofNat (n + 128) :: rest) acc shift count =
      readV width rest (acc + n * 2 ^ shift) (shift + 7) (count + 1) := by
  have hb : (UInt8.ofNat (n + 128)).toNat = n + 128 := by simp; omega
  have hcont : ¬ (n + 128) &&& 0x80 = 0 := by
    rw [byte_and_high (by omega)]; omega
  have hmod : (n + 128) % 128 = n := by omega
  simp only [readV, hb, byte_and_low, hmod, hcont, ↓reduceIte, or_shift_eq_add hacc hn hshift]

/-- Decoding the groups of `n` adds `n`, shifted, to the accumulator and consumes the groups. -/
theorem readV_vBytes_append (width : Nat) (rest : Bytes) (fuel n acc shift count : Nat)
    (hfuel : n < 128 ^ (fuel + 1)) (hacc : acc < 2 ^ shift) (hn : n * 2 ^ shift < 2 ^ width)
    (hshift : shift < width) :
    readV width (vBytes fuel n ++ rest) acc shift count =
      some (acc + n * 2 ^ shift, count + (vBytes fuel n).length) := by
  induction fuel generalizing n acc shift count with
  | zero =>
    exact readV_last rest count (by simpa using hfuel) hacc hn hshift
  | succ fuel ih =>
    rw [vBytes]
    split
    · rename_i hsmall
      exact readV_last rest count hsmall hacc hn hshift
    · have hpow : 2 ^ (shift + 7) = 2 ^ shift * 128 := by rw [pow_add]; norm_num
      have hsplit : n * 2 ^ shift = n % 128 * 2 ^ shift + n / 128 * 2 ^ (shift + 7) := by
        conv_lhs => rw [← div_add_mod n 128]
        ring
      have hshift' : shift + 7 < width := by
        by_contra hge
        have hle : 2 ^ width ≤ 2 ^ (shift + 7) := Nat.pow_le_pow_right (by omega) (by omega)
        have := Nat.mul_le_mul_right (2 ^ (shift + 7)) (by omega : 1 ≤ n / 128)
        omega
      have hacc' : acc + n % 128 * 2 ^ shift < 2 ^ (shift + 7) := by
        have := Nat.mul_le_mul_right (2 ^ shift) (by omega : n % 128 + 1 ≤ 128)
        rw [add_mul] at this
        omega
      have hfuel' : n / 128 < 128 ^ (fuel + 1) := by
        rw [Nat.div_lt_iff_lt_mul (by omega), ← pow_succ]
        exact hfuel
      rw [cons_append, readV_more _ _ (mod_lt n (by omega)) hacc (by omega) hshift,
        ih _ _ _ _ hfuel' hacc' (by omega) hshift', length_cons, hsplit]
      simp only [Option.some.injEq, Prod.mk.injEq]
      omega

/-! ## Occurrences -/

/-- `enc` stands in `bytes` at position `pos`. -/
def At (bytes : Bytes) (pos : Nat) (enc : Bytes) : Prop :=
  enc <+: bytes.drop pos

/-- Whether bytes are there can be decided. -/
instance (bytes : Bytes) (pos : Nat) (enc : Bytes) : Decidable (At bytes pos enc) :=
  inferInstanceAs (Decidable (enc <+: bytes.drop pos))

/-- Two parts, one behind the other. -/
theorem at_append_iff {a b : Bytes} :
    At bytes pos (a ++ b) ↔ At bytes pos a ∧ At bytes (pos + a.length) b := by
  constructor
  · rintro ⟨rest, hrest⟩
    refine ⟨⟨b ++ rest, by rw [← hrest, append_assoc]⟩, ⟨rest, ?_⟩⟩
    rw [← drop_drop, ← hrest, append_assoc, drop_left]
  · rintro ⟨⟨rest, hrest⟩, ⟨rest', hrest'⟩⟩
    refine ⟨rest', ?_⟩
    rw [← drop_drop, ← hrest, drop_left] at hrest'
    rw [append_assoc, hrest', hrest]

/-- The middle part of a file stands at the length of what precedes it. -/
theorem at_of_append (before enc after : Bytes) :
    At (before ++ enc ++ after) before.length enc := by
  refine ⟨after, ?_⟩
  rw [append_assoc, drop_left]

/-- The bytes end within the file. -/
theorem At.le_length (h : At bytes pos enc) (hne : enc ≠ []) : pos + enc.length ≤ bytes.length := by
  have hle := List.IsPrefix.length_le h
  have hpos := length_pos_iff.mpr hne
  rw [length_drop] at hle
  omega

/-- What stands in a file still stands there when the file is embedded in a longer one. -/
theorem At.embed (h : At bytes pos enc) (hpos : pos ≤ bytes.length) (before after : Bytes) :
    At (before ++ bytes ++ after) (before.length + pos) enc := by
  obtain ⟨rest, hrest⟩ := h
  refine ⟨rest ++ after, ?_⟩
  rw [append_assoc, ← drop_drop, drop_left, drop_append_of_le_length hpos, ← hrest, append_assoc]

/-- More bytes behind do not matter. -/
theorem At.append (h : At bytes pos enc) (rest : Bytes) : At (bytes ++ rest) pos enc := by
  by_cases hne : enc = []
  · rw [hne]
    exact nil_prefix
  · have hle := h.le_length hne
    simpa using h.embed (by omega) [] rest

theorem At.getElem_cons {x : UInt8} {rest : Bytes} (h : At bytes pos (x :: rest)) :
    bytes[pos]? = some x := by
  obtain ⟨tail, htail⟩ := h
  have hdrop : (bytes.drop pos)[0]? = some x := by rw [← htail]; rfl
  simpa using hdrop

/-- The parts of a concatenation of equally long parts stand at the multiples of that length. -/
theorem At.flatMap {α : Type} {l : List α} {f : α → Bytes} (h : At bytes pos (l.flatMap f))
    (hk : ∀ a ∈ l, (f a).length = k) {i : Nat} (hi : i < l.length) :
    At bytes (pos + k * i) (f l[i]) := by
  induction l generalizing pos i with
  | nil => simp at hi
  | cons a l ih =>
    rw [flatMap_cons, at_append_iff, hk a (by simp)] at h
    cases i with
    | zero => simpa using h.1
    | succ i =>
      have hrest := ih h.2 (forall_mem_cons.mp hk).2 (lt_of_succ_lt_succ hi)
      rw [getElem_cons_succ, show pos + k * (i + 1) = pos + k + k * i by ring]
      exact hrest

/-- Part `k` of a concatenation stands behind the parts before it. -/
theorem At.flatMap_range {f : Nat → Bytes} (h : At bytes pos ((range n).flatMap f))
    (hk : k < n) : At bytes (pos + ((range k).flatMap f).length) (f k) := by
  induction n with
  | zero => omega
  | succ n ih =>
    rw [range_succ, flatMap_append, at_append_iff, flatMap_singleton] at h
    rcases Nat.lt_or_ge k n with hlt | hge
    · exact ih h.1 hlt
    · rw [show k = n by omega]
      exact h.2

theorem flatMap_length {α : Type} {l : List α} {f : α → Bytes} (hk : ∀ a ∈ l, (f a).length = k) :
    (l.flatMap f).length = k * l.length := by
  induction l with
  | nil => simp
  | cons a l ih =>
    rw [flatMap_cons, length_append, hk a (by simp), ih (forall_mem_cons.mp hk).2, length_cons]
    ring

/-- The part of a file that a slice covers. -/
def sliceOf (bytes : Bytes) (offset length : Nat) : Bytes :=
  (bytes.drop offset).take length

theorem At.sliceOf_eq (h : At bytes pos enc) : sliceOf bytes pos enc.length = enc := by
  obtain ⟨rest, hrest⟩ := h
  rw [sliceOf, ← hrest, take_left]

end RLucene.Lib
