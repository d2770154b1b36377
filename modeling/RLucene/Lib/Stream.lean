import RLucene.Lib.Packing

/-!
# Streams of bits

A list of digits of `w` bits each, the first one highest, denotes a number; so do the bytes or words
of the same bits. `Regroups w v a b` says that two lists of digits have the same bits: each
determines the other. A list is regrouped in one of two ways: by a machine that takes one digit
after the other and keeps the bits that do not fill a digit yet (`Regrouping`), or by reading each
new digit off its place (`regroups_of_bitsOf`).
-/

namespace RLucene.Lib

open Nat List

/-- The number of a stream. -/
def stream (w : Nat) (digits : List Nat) : Nat :=
  packNat w digits.reverse

section

variable {w : Nat} {a b digits : List Nat}

@[simp] theorem stream_nil (w : Nat) : stream w [] = 0 := rfl

@[simp] theorem stream_singleton (w x : Nat) : stream w [x] = x := by
  simp [stream]

theorem stream_append (w : Nat) (a b : List Nat) :
    stream w (a ++ b) = stream w a * 2 ^ (w * b.length) + stream w b := by
  rw [stream, reverse_append, packNat_append, length_reverse, stream, stream]
  ring

theorem stream_concat (w : Nat) (a : List Nat) (x : Nat) :
    stream w (a ++ [x]) = stream w a * 2 ^ w + x := by
  rw [stream_append]
  simp [stream]

/-- The number of some digits. -/
theorem stream_lt (h : Fits w digits) : stream w digits < 2 ^ (w * digits.length) := by
  have hlt := @packNat_lt w digits.reverse fun v hv => h v (mem_reverse.mp hv)
  rwa [length_reverse] at hlt

/-- A digit, at its place. -/
theorem stream_digit (h : Fits w digits) {i : Nat} (hi : i < digits.length) :
    stream w digits / 2 ^ (w * (digits.length - 1 - i)) % 2 ^ w = digits[i] := by
  have hfits : Fits w digits.reverse := fun v hv => h v (mem_reverse.mp hv)
  rw [stream, packNat_digit hfits (by rw [length_reverse]; omega), getElem_reverse]
  congr 1
  omega

/-- The number has the digits. -/
theorem stream_inj (hlen : a.length = b.length) (ha : Fits w a) (hb : Fits w b)
    (h : stream w a = stream w b) : a = b := by
  apply ext_getElem hlen
  intro i hi hi'
  rw [← stream_digit ha hi, ← stream_digit hb hi', h, hlen]

end

/-! ## Bits at a place -/

section

/-- The `len` bits from `pos` on of a number of `total` bits. -/
def bitsOf (total n pos len : Nat) : Nat :=
  n / 2 ^ (total - pos - len) % 2 ^ len

theorem bitsOf_lt (total n pos len : Nat) : bitsOf total n pos len < 2 ^ len :=
  mod_lt _ (Nat.two_pow_pos len)

/-- Bits behind others. -/
theorem bitsOf_append {total pos len len' : Nat} (n : Nat) (h : pos + len + len' ≤ total) :
    bitsOf total n pos len * 2 ^ len' + bitsOf total n (pos + len) len' =
      bitsOf total n pos (len + len') := by
  have hhigh : total - pos - len = total - (pos + len) - len' + len' := by omega
  have hsame : total - pos - (len + len') = total - (pos + len) - len' := by omega
  rw [bitsOf, bitsOf, bitsOf, hhigh, hsame, pow_add, ← Nat.div_div_eq_div_mul,
    add_comm len, pow_add, mod_mul, Nat.mul_comm (2 ^ len'), add_comm]

/-- Bits within one digit of a stream. -/
theorem bitsOf_stream {w : Nat} {digits : List Nat} (h : Fits w digits) {i o len : Nat}
    (hi : i < digits.length) (ho : o + len ≤ w) :
    bitsOf (w * digits.length) (stream w digits) (w * i + o) len =
      digits[i] / 2 ^ (w - o - len) % 2 ^ len := by
  have hsplit : w * digits.length = w * (digits.length - 1 - i) + w * i + w := by
    rw [← mul_add, ← mul_succ]
    congr 1
    omega
  have hexp : w * digits.length - (w * i + o) - len =
      w * (digits.length - 1 - i) + (w - o - len) := by omega
  have hw : 2 ^ w = 2 ^ (w - o - len) * 2 ^ (o + len) := by
    rw [← pow_add]
    congr 1
    omega
  rw [← stream_digit h hi, bitsOf, hexp, pow_add, ← Nat.div_div_eq_div_mul, hw,
    mod_mul_right_div_self, mod_mod_of_dvd _ (Nat.pow_dvd_pow 2 (by omega))]

/-- Bits that lie within one digit, wherever they begin. -/
theorem bitsOf_digit {w : Nat} {digits : List Nat} (h : Fits w digits) {i pos len : Nat}
    (hi : i < digits.length) (hlo : w * i ≤ pos) (hhi : pos + len ≤ w * (i + 1)) :
    bitsOf (w * digits.length) (stream w digits) pos len =
      digits[i] / 2 ^ (w * (i + 1) - pos - len) % 2 ^ len := by
  rw [mul_succ] at hhi ⊢
  have hplace := @bitsOf_stream w digits h i (pos - w * i) len hi (by omega)
  rw [Nat.add_sub_cancel' hlo, show w - (pos - w * i) - len = w * i + w - pos - len by
    omega] at hplace
  exact hplace

end

/-! ## The same bits -/

/-- Digits of `w` and of `v` bits that have the same bits. -/
structure Regroups (w v : Nat) (a b : List Nat) : Prop where
  length : w * a.length = v * b.length
  fits : Fits w a
  fits' : Fits v b
  value : stream w a = stream v b

section

variable {w v u : Nat} {a b c : List Nat}

/-- Regrouping twice. -/
theorem Regroups.trans (h : Regroups w v a b) (h' : Regroups v u b c) : Regroups w u a c :=
  ⟨h.length.trans h'.length, h.fits, h'.fits', h.value.trans h'.value⟩

/-- There is one way to regroup. -/
theorem Regroups.unique (hv : 0 < v) (h : Regroups w v a b) (h' : Regroups w v a c) : b = c :=
  stream_inj (Nat.eq_of_mul_eq_mul_left hv (h.length.symm.trans h'.length)) h.fits' h'.fits'
    (h.value.symm.trans h'.value)

/-- Groups behind others. -/
theorem Regroups.append {a' b' : List Nat} (h : Regroups w v a b) (h' : Regroups w v a' b') :
    Regroups w v (a ++ a') (b ++ b') where
  length := by
    rw [length_append, length_append, mul_add, mul_add, h.length, h'.length]
  fits := Fits.append_iff.mpr ⟨h.fits, h'.fits⟩
  fits' := Fits.append_iff.mpr ⟨h.fits', h'.fits'⟩
  value := by rw [stream_append, stream_append, h.value, h'.value, h'.length]

theorem regroups_nil (w v : Nat) : Regroups w v [] [] :=
  ⟨by simp, by simp [Fits], by simp [Fits], rfl⟩

/-- Lists that are regrouped element by element. -/
theorem Regroups.flatMap {α : Type} {f g : α → List Nat} {l : List α}
    (h : ∀ x ∈ l, Regroups w v (f x) (g x)) : Regroups w v (l.flatMap f) (l.flatMap g) := by
  induction l with
  | nil => exact regroups_nil w v
  | cons x l ih =>
    exact (h x mem_cons_self).append (ih (forall_mem_cons.mp h).2)

/-- Each digit is read off its place. -/
theorem regroups_of_bitsOf (ha : Fits w a) (hlen : w * a.length = v * b.length)
    (h : ∀ i (hi : i < b.length), b[i] = bitsOf (w * a.length) (stream w a) (v * i) v) :
    Regroups w v a b := by
  have htake : ∀ i ≤ b.length, stream v (b.take i) = stream w a / 2 ^ (w * a.length - v * i) := by
    intro i hi
    induction i with
    | zero => rw [take_zero, stream_nil, Nat.mul_zero, Nat.sub_zero, div_eq_of_lt (stream_lt ha)]
    | succ i ih =>
      have hroom : v * i + v ≤ w * a.length := by
        rw [hlen, ← mul_succ]
        exact Nat.mul_le_mul_left v hi
      have hexp : w * a.length - v * i = w * a.length - v * (i + 1) + v := by
        rw [mul_succ]
        omega
      rw [← take_append_getElem (show i < b.length by omega), stream_concat, ih (by omega),
        h i (by omega), bitsOf, hexp, Nat.add_sub_cancel, pow_add, ← Nat.div_div_eq_div_mul,
        div_add_mod']
  refine ⟨hlen, ha, ?_, ?_⟩
  · intro x hx
    obtain ⟨i, hi, rfl⟩ := getElem_of_mem hx
    rw [h i hi]
    exact bitsOf_lt _ _ _ _
  · have hall := htake b.length le_rfl
    rw [take_length, hlen, Nat.sub_self, pow_zero, Nat.div_one] at hall
    exact hall.symm

end

/-! ## One digit after the other -/

/-- Some digits of `a` bits are taken. The bits that fill digits of `b` bits are put out; the others
are the high bits of `next`, whose `left` low bits are free. -/
structure Regrouping (a b : Nat) (taken out : List Nat) (next left : Nat) : Prop where
  left_pos : 0 < left
  left_le : left ≤ b
  next_lt : next < 2 ^ b
  dvd : 2 ^ left ∣ next
  length : a * taken.length + left = b * (out.length + 1)
  fits : Fits a taken
  fits' : Fits b out
  value : stream b out * 2 ^ b + next = stream a taken * 2 ^ left

/-- In the middle of a digit `x`, of which `bits` low bits are still to be put out. -/
structure Flushing (a b : Nat) (taken out : List Nat) (x bits : Nat) : Prop where
  length : a * taken.length = b * out.length + bits
  fits : Fits a taken
  fits' : Fits b out
  value : stream b out * 2 ^ bits + x % 2 ^ bits = stream a taken

section

variable {a b next left x bits : Nat} {taken out : List Nat}

/-- Nothing has been taken yet. -/
theorem regrouping_start (a : Nat) (hb : 0 < b) : Regrouping a b [] [] 0 b where
  left_pos := hb
  left_le := le_rfl
  next_lt := Nat.two_pow_pos b
  dvd := Nat.dvd_zero _
  length := by simp
  fits := by simp [Fits]
  fits' := by simp [Fits]
  value := by simp

/-- The bits of a digit that is kept fit the free bits. -/
theorem mul_two_pow_lt (hx : x < 2 ^ a) (ha : a ≤ left) : x * 2 ^ (left - a) < 2 ^ left :=
  calc x * 2 ^ (left - a) < 2 ^ a * 2 ^ (left - a) :=
        Nat.mul_lt_mul_of_pos_right hx (Nat.two_pow_pos _)
    _ = 2 ^ left := by rw [← pow_add, Nat.add_sub_cancel' ha]

/-- So do the high bits of a digit that fills them. -/
theorem div_two_pow_lt (hx : x < 2 ^ a) (ha : left ≤ a) : x / 2 ^ (a - left) < 2 ^ left := by
  rw [Nat.div_lt_iff_lt_mul (Nat.two_pow_pos _), ← pow_add, Nat.add_sub_cancel' ha]
  exact hx

variable {y : Nat}

/-- A digit with another behind it. -/
theorem mul_add_two_pow_lt (hx : x < 2 ^ a) (hy : y < 2 ^ b) : x * 2 ^ b + y < 2 ^ (a + b) :=
  (row_lt hx hy).trans_eq (pow_add _ _ _).symm

section

variable (h : Regrouping a b taken out next left)

include h

/-- What fits the free bits can be added. -/
theorem Regrouping.add_lt (hy : y < 2 ^ left) : next + y < 2 ^ b := by
  obtain ⟨q, hq⟩ := h.dvd
  obtain ⟨k, hk⟩ := Nat.exists_eq_add_of_le h.left_le
  have hpow : 2 ^ b = 2 ^ left * 2 ^ k := by rw [hk, pow_add]
  have hq' : q < 2 ^ k := by
    refine Nat.lt_of_mul_lt_mul_left (a := 2 ^ left) ?_
    rw [← hq, ← hpow]
    exact h.next_lt
  calc next + y < 2 ^ left * q + 2 ^ left := by omega
    _ = 2 ^ left * (q + 1) := by ring
    _ ≤ 2 ^ left * 2 ^ k := Nat.mul_le_mul_left _ hq'
    _ = 2 ^ b := hpow.symm

/-- Adding is setting the free bits. -/
theorem Regrouping.or_eq_add (hy : y < 2 ^ left) : next ||| y = next + y := by
  obtain ⟨q, rfl⟩ := h.dvd
  exact (two_pow_add_eq_or_of_lt hy q).symm

/-- A digit that does not fill the free bits is kept. -/
theorem Regrouping.keep (hx : x < 2 ^ a) (ha : a < left) :
    Regrouping a b (taken ++ [x]) out (next + x * 2 ^ (left - a)) (left - a) where
  left_pos := by omega
  left_le := (sub_le _ _).trans h.left_le
  next_lt := h.add_lt (mul_two_pow_lt hx ha.le)
  dvd := (Nat.dvd_trans (Nat.pow_dvd_pow 2 (sub_le _ _)) h.dvd).add (Nat.dvd_mul_left _ _)
  length := by
    have hlen := h.length
    rw [length_append, length_singleton, mul_succ]
    omega
  fits := Fits.append_iff.mpr ⟨h.fits, by simpa [Fits] using hx⟩
  fits' := h.fits'
  value := by
    have hpow : 2 ^ left = 2 ^ a * 2 ^ (left - a) := by rw [← pow_add, Nat.add_sub_cancel' ha.le]
    rw [stream_concat, ← add_assoc, h.value, hpow]
    ring

/-- A digit that fills the free bits: the first of its bits go to the digit that is put out. -/
theorem Regrouping.flush (hx : x < 2 ^ a) (ha : left ≤ a) :
    next + x / 2 ^ (a - left) < 2 ^ b ∧
      Flushing a b (taken ++ [x]) (out ++ [next + x / 2 ^ (a - left)]) x (a - left) := by
  have hpow : 2 ^ a = 2 ^ left * 2 ^ (a - left) := by rw [← pow_add, Nat.add_sub_cancel' ha]
  have hlt := h.add_lt (div_two_pow_lt hx ha)
  refine ⟨hlt, ?_, Fits.append_iff.mpr ⟨h.fits, by simpa [Fits] using hx⟩,
    Fits.append_iff.mpr ⟨h.fits', by simpa [Fits] using hlt⟩, ?_⟩
  · have hlen := h.length
    rw [length_append, length_append, length_singleton, length_singleton, mul_succ a]
    omega
  · have hvalue := h.value
    have hx' := div_add_mod' x (2 ^ (a - left))
    rw [stream_concat, stream_concat, ← add_assoc, hvalue, hpow, Nat.add_mul, add_assoc, hx']
    ring

end

/-- A whole digit is put out. -/
theorem Flushing.put (h : Flushing a b taken out x bits) (hbits : b ≤ bits) :
    Flushing a b taken (out ++ [x / 2 ^ (bits - b) % 2 ^ b]) x (bits - b) where
  length := by
    have hlen := h.length
    rw [length_append, length_singleton, mul_succ]
    omega
  fits := h.fits
  fits' := Fits.append_iff.mpr ⟨h.fits', by
    simp only [Fits, mem_singleton, forall_eq]
    exact mod_lt _ (Nat.two_pow_pos b)⟩
  value := by
    have hpow : 2 ^ bits = 2 ^ (bits - b) * 2 ^ b := by rw [← pow_add, Nat.sub_add_cancel hbits]
    rw [← h.value, stream_concat, hpow, mod_mul]
    ring

/-- Where there is room for the digits taken, there was room for the last digit put out. -/
theorem Flushing.length_lt {count : Nat} (h : Flushing a b taken (out ++ [y]) x bits) (hb : 0 < b)
    (hroom : a * taken.length ≤ b * count) : out.length < count := by
  have hlen := h.length
  rw [length_append, length_singleton] at hlen
  have hle : b * (out.length + 1) ≤ b * count := by omega
  exact Nat.le_of_mul_le_mul_left hle hb

/-- What is left of the digit is kept. -/
theorem Flushing.rest (h : Flushing a b taken out x bits) (hbits : bits < b) :
    Regrouping a b taken out (x % 2 ^ bits * 2 ^ (b - bits)) (b - bits) where
  left_pos := by omega
  left_le := sub_le _ _
  next_lt := mul_two_pow_lt (mod_lt _ (Nat.two_pow_pos _)) hbits.le
  dvd := Nat.dvd_mul_left _ _
  length := by
    have hlen := h.length
    rw [mul_succ]
    omega
  fits := h.fits
  fits' := h.fits'
  value := by
    have hpow : 2 ^ b = 2 ^ bits * 2 ^ (b - bits) := by rw [← pow_add, Nat.add_sub_cancel' hbits.le]
    rw [← h.value, hpow]
    ring

/-- Where the digits taken end at a digit, nothing is left. -/
theorem Regrouping.regroups (h : Regrouping a b taken out next left) {m : Nat}
    (hlen : a * taken.length = b * m) : out.length = m ∧ left = b ∧ next = 0 ∧
    Regroups a b taken out := by
  have hb : 0 < b := h.left_pos.trans_le h.left_le
  have hcount := h.length
  have hm : out.length = m := by
    have hle : b * m < b * (out.length + 1) := by
      have hpos := h.left_pos
      omega
    have hge : b * out.length ≤ b * m := by
      have hleft := h.left_le
      rw [mul_succ] at hcount
      omega
    have hlt := Nat.lt_of_mul_lt_mul_left hle
    have hge := Nat.le_of_mul_le_mul_left hge hb
    omega
  have hleft : left = b := by
    rw [hm, mul_succ] at hcount
    omega
  have hnext : next = 0 := by
    have hdvd := h.dvd
    rw [hleft] at hdvd
    exact eq_zero_of_dvd_of_lt hdvd h.next_lt
  refine ⟨hm, hleft, hnext, by rw [hm, hlen], h.fits, h.fits', ?_⟩
  have hvalue := h.value
  rw [hnext, hleft, Nat.add_zero] at hvalue
  exact (eq_of_mul_eq_mul_right (Nat.two_pow_pos b) hvalue).symm

end

end RLucene.Lib
