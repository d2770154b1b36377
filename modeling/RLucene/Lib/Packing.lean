import Mathlib.Data.Nat.Digits.Lemmas
import RLucene.Lib.Bytes
import RLucene.Lib.Lists

/-!
# Bit packing

Values of `w` bits each, packed from the low bits of the first byte upwards. The packed bytes are
the little-endian bytes of the number whose digits in base `2 ^ w` are the values, so appending
lists is appending bytes wherever the first list ends at a byte boundary, and a value is read from
any window of bytes that covers it by a shift and a mask.
-/

namespace RLucene.Lib

open Nat List

/-! ## Windows of a little-endian number -/

theorem leNat_append (a b : Bytes) : leNat (a ++ b) = leNat a + 256 ^ a.length * leNat b := by
  induction a with
  | nil => simp [leNat]
  | cons x a ih =>
    rw [cons_append, leNat, leNat, ih, length_cons, pow_succ]
    ring

theorem leNat_take (bytes : Bytes) (k : Nat) : leNat (bytes.take k) = leNat bytes % 256 ^ k := by
  have hlt := leNat_lt (bytes.take k)
  rcases le_total bytes.length k with hk | hk
  · rw [take_of_length_le hk] at hlt ⊢
    exact (mod_eq_of_lt (hlt.trans_le (Nat.pow_le_pow_right (by decide) hk))).symm
  · have happ := leNat_append (bytes.take k) (bytes.drop k)
    rw [take_append_drop, length_take_of_le hk] at happ
    rw [length_take_of_le hk] at hlt
    rw [happ, add_mul_mod_self_left, mod_eq_of_lt hlt]

theorem leNat_drop (bytes : Bytes) (k : Nat) : leNat (bytes.drop k) = leNat bytes / 256 ^ k := by
  have hlt := leNat_lt (bytes.take k)
  rcases le_total bytes.length k with hk | hk
  · rw [take_of_length_le hk] at hlt
    rw [drop_of_length_le hk, leNat,
      div_eq_of_lt (hlt.trans_le (Nat.pow_le_pow_right (by decide) hk))]
  · have happ := leNat_append (bytes.take k) (bytes.drop k)
    rw [take_append_drop, length_take_of_le hk] at happ
    rw [length_take_of_le hk] at hlt
    rw [happ, add_mul_div_left _ _ (Nat.pow_pos (by decide)), div_eq_of_lt hlt, zero_add]

/-- Bytes come back from their number. -/
theorem leBytes_leNat (bytes : Bytes) : leBytes bytes.length (leNat bytes) = bytes := by
  induction bytes with
  | nil => rfl
  | cons x bytes ih =>
    have hx := x.toNat_lt
    have hlow : UInt8.ofNat (x.toNat + 256 * leNat bytes) = x := by
      apply UInt8.toNat_inj.mp
      rw [UInt8.toNat_ofNat']
      omega
    rw [length_cons, leNat, leBytes, hlow,
      show (x.toNat + 256 * leNat bytes) / 256 = leNat bytes by omega, ih]

variable {k w i p : Nat} {a values : List Nat}

/-- The bytes of a number do not depend on how many are asked for. -/
theorem leBytes_take {j : Nat} (h : j ≤ k) (n : Nat) : (leBytes k n).take j = leBytes j n := by
  obtain ⟨d, rfl⟩ := Nat.exists_eq_add_of_le h
  rw [leBytes_add]
  exact take_left' (leBytes_length j n)

/-! ## Packed values -/

/-- Every value of the list fits `w` bits. -/
def Fits (w : Nat) (values : List Nat) : Prop :=
  ∀ v ∈ values, v < 2 ^ w

theorem Fits.append_iff {b : List Nat} : Fits w (a ++ b) ↔ Fits w a ∧ Fits w b :=
  forall_mem_append

theorem Fits.take (h : Fits w values) (k : Nat) : Fits w (values.take k) :=
  fun v hv => h v (mem_of_mem_take hv)

/-- The number whose digits are the values. -/
def packNat (w : Nat) (values : List Nat) : Nat :=
  Nat.ofDigits (2 ^ w) values

/-- The bytes of the packed values. -/
def packed (w : Nat) (values : List Nat) : Bytes :=
  leBytes ((w * values.length + 7) / 8) (packNat w values)

@[simp] theorem packed_length (w : Nat) (values : List Nat) :
    (packed w values).length = (w * values.length + 7) / 8 :=
  leBytes_length _ _

@[simp] theorem packNat_cons (w v : Nat) (values : List Nat) :
    packNat w (v :: values) = v + 2 ^ w * packNat w values :=
  ofDigits_cons

@[simp] theorem packNat_nil (w : Nat) : packNat w [] = 0 := rfl

@[simp] theorem packed_nil (w : Nat) : packed w [] = [] := by
  simp [packed, leBytes]

theorem packNat_append (w : Nat) (a b : List Nat) :
    packNat w (a ++ b) = packNat w a + 2 ^ (w * a.length) * packNat w b := by
  rw [packNat, ofDigits_append, ← pow_mul]
  rfl

/-- The number of packed values. -/
theorem packNat_lt {w : Nat} {values : List Nat} (h : Fits w values) :
    packNat w values < 2 ^ (w * values.length) := by
  induction values with
  | nil => simp
  | cons v values ih =>
    have hv : v < 2 ^ w := h v mem_cons_self
    have hrest := ih (fun u hu => h u (mem_cons_of_mem v hu))
    rw [packNat_cons, length_cons, mul_succ, pow_add, Nat.add_comm, Nat.mul_comm]
    exact row_lt hrest hv

/-- A value is a digit of the packed number. -/
theorem packNat_digit (h : Fits w values) (hi : i < values.length) :
    packNat w values / 2 ^ (w * i) % 2 ^ w = values[i] := by
  have hsplit : values = values.take i ++ values[i] :: values.drop (i + 1) := by
    rw [← drop_eq_getElem_cons hi, take_append_drop]
  have hlow := packNat_lt (h.take i)
  rw [length_take_of_le hi.le] at hlow
  have hnum : packNat w values = packNat w (values.take i) +
      2 ^ (w * i) * (values[i] + 2 ^ w * packNat w (values.drop (i + 1))) := by
    conv_lhs => rw [hsplit]
    rw [packNat_append, packNat_cons, length_take_of_le hi.le]
  rw [hnum, add_mul_div_left _ _ (Nat.two_pow_pos _), div_eq_of_lt hlow, zero_add,
    add_mul_mod_self_left, mod_eq_of_lt (h _ (getElem_mem hi))]

private theorem bytes_pow (k : Nat) : 256 ^ k = 2 ^ (8 * k) := by
  rw [pow_mul]
  norm_num

/-- Where the first list ends at a byte boundary, appending lists appends their bytes. -/
theorem packed_append (h : Fits w a) (hdvd : 8 ∣ w * a.length) (b : List Nat) :
    packed w (a ++ b) = packed w a ++ packed w b := by
  obtain ⟨k, hk⟩ := hdvd
  have hcount : (w * (a ++ b).length + 7) / 8 = k + (w * b.length + 7) / 8 := by
    rw [length_append, mul_add, hk]
    omega
  have hlt := packNat_lt h
  rw [hk, ← bytes_pow] at hlt
  rw [packed, hcount, packNat_append, hk, ← bytes_pow, leBytes_append_of_lt hlt, packed, packed, hk,
    show (8 * k + 7) / 8 = k by omega]

/-- Groups that end at byte boundaries are packed one by one. -/
theorem packed_pieces {g n : Nat} (h : Fits w values) (hlen : g * n ≤ values.length)
    (hdvd : 8 ∣ w * g) :
    (pieces n g values).flatMap (packed w) = packed w (values.take (g * n)) := by
  induction n with
  | zero => simp [pieces]
  | succ n ih =>
    rw [mul_succ] at hlen
    have haligned : 8 ∣ w * (values.take (g * n)).length := by
      rw [length_take_of_le (by omega), ← mul_assoc]
      exact Nat.dvd_mul_right_of_dvd hdvd n
    have hpieces : pieces (n + 1) g values =
        pieces n g values ++ [(values.drop (g * n)).take g] := by
      rw [pieces, range_succ, map_append]
      rfl
    rw [hpieces, flatMap_append, ih (by omega), flatMap_singleton,
      ← packed_append (h.take _) haligned, ← take_add, mul_succ]

/-- Zero values after the packed ones add only zero bits. -/
theorem packNat_append_zeros (w : Nat) (values : List Nat) (n : Nat) :
    packNat w (values ++ replicate n 0) = packNat w values := by
  have hzero : packNat w (replicate n 0) = 0 := by
    induction n with
    | zero => rfl
    | succ n ih => rw [replicate_succ, packNat_cons, ih, Nat.mul_zero]
  rw [packNat_append, hzero, Nat.mul_zero, Nat.add_zero]

/-- Cutting the bytes of a zero-extended list gives the bytes of the list. -/
theorem packed_take_of_zeros (w : Nat) (values : List Nat) (n : Nat) :
    (packed w (values ++ replicate n 0)).take ((w * values.length + 7) / 8) = packed w values := by
  rw [packed, packNat_append_zeros, packed]
  apply leBytes_take
  rw [length_append, mul_add]
  omega

/-- The number in a window of the bytes. -/
def windowNat (bytes : Bytes) (p k : Nat) : Nat :=
  leNat ((bytes.drop p).take k)

/-- A window of the bytes that covers a value holds it behind `s` bits. -/
theorem windowNat_packed (h : Fits w values) (hi : i < values.length) (rest : Bytes) {s : Nat}
    (hpos : 8 * p + s = w * i) (hroom : s + w ≤ 8 * k) :
    windowNat (packed w values ++ rest) p k / 2 ^ s % 2 ^ w = values[i] := by
  have hbits : w * values.length ≤ 8 * ((w * values.length + 7) / 8) := by omega
  have hnum : leNat (packed w values ++ rest) =
      packNat w values + 2 ^ (8 * ((w * values.length + 7) / 8)) * leNat rest := by
    have hlt := (packNat_lt h).trans_le (Nat.pow_le_pow_right (by decide) hbits)
    rw [leNat_append, packed_length, packed, leNat_leBytes, bytes_pow, mod_eq_of_lt hlt]
  have hnext : w * (i + 1) ≤ w * values.length := Nat.mul_le_mul_left w hi
  rw [mul_succ] at hnext
  -- the window keeps the bits of the value: `s + w` of them lie within its `8 * k` bits
  rw [windowNat, leNat_take, leNat_drop, bytes_pow, bytes_pow, ← packNat_digit h hi]
  generalize leNat (packed w values ++ rest) = whole at hnum
  have hshift : whole / 2 ^ (8 * p) % 2 ^ (8 * k) / 2 ^ s % 2 ^ w =
      whole / 2 ^ (w * i) % 2 ^ w := by
    obtain ⟨d, hd⟩ := Nat.exists_eq_add_of_le hroom
    rw [← hpos, hd, Nat.add_assoc, pow_add 2 s, mod_mul_right_div_self, Nat.div_div_eq_div_mul,
      ← pow_add, pow_add 2 w d, mod_mul_right_mod]
  obtain ⟨d, hd⟩ := Nat.exists_eq_add_of_le (hnext.trans hbits)
  rw [hshift, hnum, hd, pow_add, pow_add, mul_assoc, mul_assoc,
    add_mul_div_left _ _ (Nat.two_pow_pos _), add_mul_mod_self_left]

/-- The window at its position in a larger byte list. -/
theorem At.window {bytes enc : Bytes} {pos : Nat} (h : At bytes pos enc)
    (hlen : p + k ≤ enc.length) : windowNat enc p k < 256 ^ k ∧ At bytes (pos + p)
    (leBytes k (windowNat enc p k)) := by
  have hwindow : ((enc.drop p).take k).length = k := by
    rw [length_take, length_drop]
    omega
  have hlt := leNat_lt ((enc.drop p).take k)
  have hbytes := leBytes_leNat ((enc.drop p).take k)
  rw [hwindow] at hlt hbytes
  refine ⟨hlt, ?_⟩
  rw [windowNat, hbytes, At, ← drop_drop]
  exact ( take_prefix k _).trans (List.IsPrefix.drop h p)

end RLucene.Lib
