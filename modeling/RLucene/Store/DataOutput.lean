import RLucene.Lib.Bytes

/-!
# Data output

`DataOutput` appends to a byte list; the file pointer is the length of the list. The multi-byte
writers are the trait's default methods, which split a value into single bytes. Each has an equation
that names the bytes it appends, and clients use only those.
-/

namespace RLucene.Store

open List Lib

/-- The errors that the modelled code can return. `parseInt` is the error of the standard parser of
integers; `indexOutOfBounds` and `overflow` stand for the panics of an out-of-range slice access and
of a checked addition. -/
inductive LuceneError where
  | eof (message : String)
  | illegalArgument (message : String)
  | illegalState (message : String)
  | corruptIndex (message : String)
  | numberFormat (message : String)
  | parseInt
  | unsupportedOperation (message : String)
  | unreachable (message : String)
  | indexOutOfBounds
  | overflow
  | arrayIndexOutOfBounds (message : String)
  | tooManyClauses (message : String)
  | notImplemented (message : String)
  deriving DecidableEq, Repr

/-- The result of a fallible operation. -/
abbrev Result := Except LuceneError

variable {α β : Type}

@[simp] theorem ok_bind (a : α) (f : α → Result β) :
    ((Except.ok a : Result α) >>= f) = f a := by rfl

@[simp] theorem error_bind (e : LuceneError) (f : α → Result β) :
    ((Except.error e : Result α) >>= f) = .error e := rfl

@[simp] theorem pure_eq_ok (a : α) : (pure a : Result α) = .ok a := rfl

variable {f : α → Result β} {b : β}

/-- Two steps that succeed. -/
theorem bind_eq_ok {x : Result α} : x >>= f = .ok b ↔ ∃ a, x = .ok a ∧ f a = .ok b := by
  cases x with
  | ok a => simp
  | error e => simp

/-- Steps that all succeed give the list of their results. -/
theorem mapM_ok {α β : Type} {l : List α} {f : α → Result β} {g : α → β}
    (h : ∀ a ∈ l, f a = .ok (g a)) : l.mapM f = .ok (l.map g) := by
  induction l with
  | nil => rfl
  | cons a l ih =>
    rw [mapM_cons, h a mem_cons_self, ok_bind, ih fun b hb => h b (mem_cons_of_mem a hb)]
    rfl

variable {l : List α}

/-- Steps that all succeed. -/
theorem mapM_exists (h : ∀ a ∈ l, ∃ b, f a = .ok b) :
    ∃ bs, l.mapM f = .ok bs ∧ bs.length = l.length := by
  induction l with
  | nil => exact ⟨[], rfl, rfl⟩
  | cons a l ih =>
    obtain ⟨b, hb⟩ := h a mem_cons_self
    obtain ⟨bs, hbs, hlen⟩ := ih (forall_mem_cons.mp h).2
    refine ⟨b :: bs, ?_, by rw [length_cons, hlen, length_cons]⟩
    rw [mapM_cons, hb, ok_bind, hbs]
    rfl

/-- Every result comes from a step. -/
theorem mem_of_mapM_eq_ok {bs : List β}
    (h : l.mapM f = .ok bs) (hb : b ∈ bs) : ∃ a ∈ l, f a = .ok b := by
  induction l generalizing bs with
  | nil =>
    cases h
    exact absurd hb not_mem_nil
  | cons a l ih =>
    rw [mapM_cons] at h
    obtain ⟨b', hb', h⟩ := bind_eq_ok.mp h
    obtain ⟨rest, hrest, h⟩ := bind_eq_ok.mp h
    cases h
    rcases mem_cons.mp hb with rfl | hb
    · exact ⟨a, mem_cons_self, hb'⟩
    · obtain ⟨a', ha', hfa'⟩ := ih hrest hb
      exact ⟨a', mem_cons_of_mem _ ha', hfa'⟩

/-- The low byte of an integer. -/
def byteOf (i : Int) : UInt8 :=
  UInt8.ofNat (asU 8 i)

/-- The two's-complement little-endian bytes of an integer, `k` of them. -/
def intLE (k : Nat) (i : Int) : Bytes :=
  leBytes k (asU (8 * k) i)

@[simp] theorem intLE_length (k : Nat) (i : Int) : (intLE k i).length = k :=
  leBytes_length k _

@[simp] theorem intLE_zero (i : Int) : intLE 0 i = [] := rfl

/-- The bytes of an integer are its low byte and the bytes of its arithmetic shift. -/
theorem intLE_succ (k : Nat) (i : Int) :
    intLE (k + 1) i = byteOf i :: intLE k (i >>> (8 : Nat)) := by
  have hcast := asU_cast (8 * (k + 1)) i
  have hpow : (2 ^ (8 * (k + 1)) : Nat) = 256 * 2 ^ (8 * k) := by
    rw [show 8 * (k + 1) = 8 + 8 * k by ring, pow_add]
    norm_num
  have hlow : UInt8.ofNat (asU (8 * (k + 1)) i) = byteOf i := by
    apply UInt8.toNat_inj.mp
    have h8 := asU_cast 8 i
    have hlt := asU_lt 8 i
    have hmod : ((asU (8 * (k + 1)) i : Nat) : Int) % 256 = i % 256 := by
      rw [hcast, hpow, Nat.cast_mul]
      exact Int.emod_emod_of_dvd i ⟨_, rfl⟩
    simp only [byteOf, UInt8.toNat_ofNat', Nat.reducePow] at h8 hlt ⊢
    omega
  have hhigh : asU (8 * (k + 1)) i / 256 = asU (8 * k) (i >>> (8 : Nat)) := by
    have hk := asU_cast (8 * k) (i >>> (8 : Nat))
    have hshift : i >>> (8 : Nat) = i / 256 := by rw [Int.shiftRight_eq_div_pow]; norm_num
    rw [hshift] at hk ⊢
    have hdiv : i % ((256 * 2 ^ (8 * k) : Nat) : Int) / 256 =
        i / 256 % ((2 ^ (8 * k) : Nat) : Int) := by
      rw [Nat.cast_mul, Int.emod_def, Int.emod_def, Nat.cast_ofNat,
        ← Int.ediv_ediv_of_nonneg (by norm_num), mul_assoc, sub_eq_add_neg, ← mul_neg,
        Int.add_mul_ediv_left _ _ (by norm_num), sub_eq_add_neg]
    rw [hpow] at hcast
    omega
  rw [intLE, leBytes, hlow, hhigh, intLE]

/-! ## Fixed-width writers -/

/-- Write a byte. -/
def writeByte (out : Bytes) (b : UInt8) : Bytes :=
  out ++ [b]

/-- Write some bytes. -/
def writeBytes (out : Bytes) (b : Bytes) : Bytes :=
  out ++ b

/-- Write two bytes. -/
def writeShort (out : Bytes) (i : Int) : Bytes :=
  writeByte (writeByte out (byteOf i)) (byteOf (i >>> (8 : Nat)))

/-- Write four bytes. -/
def writeInt (out : Bytes) (i : Int) : Bytes :=
  writeByte (writeByte (writeByte (writeByte out (byteOf i)) (byteOf (i >>> (8 : Nat))))
    (byteOf (i >>> (16 : Nat)))) (byteOf (i >>> (24 : Nat)))

/-- Write some integers. -/
def writeInts (out : Bytes) (values : List Int) : Bytes :=
  values.foldl writeInt out

/-- Write eight bytes. -/
def writeLong (out : Bytes) (i : Int) : Bytes :=
  writeInt (writeInt out (asI 32 i)) (asI 32 (i >>> (32 : Nat)))

theorem writeShort_eq (out : Bytes) (i : Int) : writeShort out i = out ++ intLE 2 i := by
  rw [intLE_succ 1, intLE_succ 0]
  simp [writeShort, writeByte]

theorem writeInt_eq (out : Bytes) (i : Int) : writeInt out i = out ++ intLE 4 i := by
  have h16 : i >>> (8 : Nat) >>> (8 : Nat) = i >>> (16 : Nat) := by rw [← Int.shiftRight_add]
  have h24 : i >>> (16 : Nat) >>> (8 : Nat) = i >>> (24 : Nat) := by rw [← Int.shiftRight_add]
  rw [intLE_succ 3, intLE_succ 2, intLE_succ 1, intLE_succ 0, h16, h24]
  simp [writeInt, writeByte]

/-- Only the low bits of the integer matter. -/
theorem intLE_asI (k : Nat) (i : Int) : intLE k (asI (8 * k) i) = intLE k i := by
  rw [intLE, intLE, asU_asI]

/-- A wide word is its low half followed by the shifted high half. -/
theorem intLE_add (low high : Nat) (i : Int) :
    intLE (low + high) i = intLE low i ++ intLE high (i >>> (8 * low)) := by
  induction low generalizing i with
  | zero => simp [intLE, leBytes]
  | succ low ih =>
    rw [show low + 1 + high = (low + high) + 1 by omega, intLE_succ, ih, intLE_succ,
      cons_append, ← Int.shiftRight_add, show 8 + 8 * low = 8 * (low + 1) by ring]

theorem writeLong_eq (out : Bytes) (i : Int) : writeLong out i = out ++ intLE 8 i := by
  rw [writeLong, writeInt_eq, writeInt_eq, intLE_asI 4, intLE_asI 4, append_assoc, ← intLE_add 4 4]

theorem foldl_writeLong (values : List Int) (out : Bytes) :
    values.foldl writeLong out = out ++ values.flatMap (intLE 8) := by
  induction values generalizing out with
  | nil => simp
  | cons v values ih => rw [foldl_cons, ih, writeLong_eq, append_assoc, flatMap_cons]

/-- The bytes of some integers. -/
theorem writeInts_eq (out : Bytes) (values : List Int) :
    writeInts out values = out ++ values.flatMap (intLE 4) := by
  induction values generalizing out with
  | nil => simp [writeInts]
  | cons v values ih =>
    rw [writeInts, foldl_cons, ← writeInts, ih, writeInt_eq, flatMap_cons, append_assoc]

/-! ## Variable-length writers -/

/-- The groups of the unsigned 32-bit reading: at most five bytes. -/
def vIntBytes (i : Int) : Bytes :=
  vBytes 4 (asU 32 i)

/-- The groups of the unsigned 64-bit reading: at most ten bytes. -/
def vLongBytes (i : Int) : Bytes :=
  vBytes 9 (asU 64 i)

/-- Write an `int` in groups of seven bits. -/
def writeVInt (out : Bytes) (i : Int) : Bytes :=
  out ++ vIntBytes i

/-- Write a `long` in groups of seven bits. -/
def writeSignedVLong (out : Bytes) (i : Int) : Bytes :=
  out ++ vLongBytes i

/-- The same, if it is not negative. -/
def writeVLong (out : Bytes) (i : Int) : Result Bytes :=
  if i < 0 then .error (.illegalArgument s!"cannot write negative vLong (got: {i})")
  else .ok (writeSignedVLong out i)

end RLucene.Store
