import RLucene.Lib.Packing
import RLucene.Store.DataOutput

/-!
# Direct writer

`DirectWriter` packs values of one of fourteen supported widths. Values are collected in a buffer of
cells; a full buffer is encoded into a staging area, whose leading bytes are appended to the output.
The three encoders write overlapping machine words at byte strides. `DirectWriter.Holds` says that,
whatever has been flushed so far, the output and the pending cells together are the packed values,
and `finish_holds` that finishing appends exactly `directBytes`.
-/

namespace RLucene.Util.Packed

open Nat List Lib Store

/-- The widths that can be written. -/
def supportedBitsPerValue : List Nat :=
  [1, 2, 4, 8, 12, 16, 20, 24, 28, 32, 40, 48, 56, 64]

/-- The default of `PackedInts`. -/
def defaultBufferSize : Nat := 1024

/-- The next supported width. Callers ask for at most 64 bits, so there always is one. -/
def roundBits (bitsRequired : Nat) : Nat :=
  (supportedBitsPerValue.find? (bitsRequired ≤ ·)).getD 64

/-- The bits of the unsigned reading of a value, at least one. -/
def PackedInts.unsignedBitsRequired (bits : Int) : Nat :=
  max 1 (Nat.size (asU 64 bits))

/-- The bits of a value that must not be negative. -/
def PackedInts.bitsRequired (maxValue : Int) : Result Nat :=
  if maxValue < 0 then
    .error (.illegalArgument s!"max_value must be non-negative (got {maxValue})")
  else .ok (unsignedBitsRequired maxValue)

/-- The supported width for the bits of a value. -/
def unsignedBitsRequired (maxValue : Int) : Nat :=
  roundBits (PackedInts.unsignedBitsRequired maxValue)

/-! ## Encoding -/

/-- Overwrite the `k` bytes at `o` with the low bytes of a value. -/
def setLE (blocks : Bytes) (o k : Nat) (v : Int) : Result Bytes :=
  if o + k ≤ blocks.length then .ok (blocks.take o ++ intLE k v ++ blocks.drop (o + k))
  else .error .indexOutOfBounds

/-- Write words of `k` bytes at every `step` bytes from `o` on. -/
def setCells (k step : Nat) : Bytes → (o : Nat) → List Int → Result Bytes
  | blocks, _, [] => .ok blocks
  | blocks, o, v :: rest => do
    let blocks ← setLE blocks o k v
    setCells k step blocks (o + step) rest

/-- The values of a group, each shifted to its place in the word. -/
def mergeGroup (bitsPerValue : Nat) : (j v : Nat) → List Int → Nat
  | _, v, [] => v
  | j, v, value :: rest =>
    mergeGroup bitsPerValue (j + 1) (v ||| asU 64 (value * 2 ^ (bitsPerValue * j))) rest

/-- The groups of `size` cells that cover the first `upto` cells, as one word each. The last group
reads the cells behind `upto`, which the caller has set to zero. -/
def mergeGroups (bitsPerValue size upto : Nat) (nextValues : List Int) : Result (List Int) :=
  let count := (upto + size - 1) / size
  if size * count ≤ nextValues.length then
    .ok ((pieces count size nextValues).map fun group => (mergeGroup bitsPerValue 0 0 group : Nat))
  else .error .indexOutOfBounds

/-- The bytes of the buffered values. -/
def encode (nextValues : List Int) (upto : Nat) (nextBlocks : Bytes) (bitsPerValue : Nat) :
    Result Bytes :=
  if bitsPerValue &&& 7 = 0 then
    let cell := if bitsPerValue > 32 then 8 else if bitsPerValue > 16 then 4
      else if bitsPerValue > 8 then 2 else 1
    setCells cell (bitsPerValue / 8) nextBlocks 0 (nextValues.take upto)
  else if bitsPerValue < 8 then do
    let words ← mergeGroups bitsPerValue (64 / bitsPerValue) upto nextValues
    setCells 8 8 nextBlocks 0 words
  else do
    let words ← mergeGroups bitsPerValue 2 upto nextValues
    setCells (if bitsPerValue ≤ 16 then 4 else 8) (bitsPerValue / 4) nextBlocks 0 words

/-! ## The writer -/

/-- A writer of packed values. -/
structure DirectWriter where
  bitsPerValue : Nat
  numValues : Nat
  output : Bytes
  count : Nat
  finished : Bool
  off : Nat
  nextValues : List Int
  nextBlocks : Bytes

namespace DirectWriter

/-- The number of value cells: a fixed budget, or less for a short stream, so that it stays
buffered until the end. -/
def bufferSize (numValues bitsPerValue : Nat) : Nat :=
  let size := (8 * defaultBufferSize / (64 + bitsPerValue) + 63) &&& 0xFFFFFFC0
  if 0 < numValues ∧ numValues < size ∧ bitsPerValue ∈ supportedBitsPerValue then
    (numValues + 64) &&& 0xFFFFFFC0
  else size

/-- A writer with an empty buffer. -/
def new (output : Bytes) (numValues bitsPerValue : Nat) : DirectWriter :=
  let size := bufferSize numValues bitsPerValue
  let empty := numValues = 0 ∧ bitsPerValue ∈ supportedBitsPerValue
  { bitsPerValue, numValues, output
    count := 0
    finished := false
    off := 0
    nextValues := replicate (if empty then 0 else size) 0
    nextBlocks := replicate (if empty then 0 else size * bitsPerValue / 8 + 7) 0 }

/-- A writer of a width that is supported. -/
def getInstance (output : Bytes) (numValues bitsPerValue : Nat) : Result DirectWriter :=
  if bitsPerValue ∈ supportedBitsPerValue then .ok (new output numValues bitsPerValue)
  else .error (.illegalArgument
    s!"Unsupported bitsPerValue {bitsPerValue}. Did you use bits_required?")

/-- Write the buffer. -/
def flush (w : DirectWriter) : Result DirectWriter :=
  if w.off = 0 then .ok w
  else do
    let nextValues := w.nextValues.take w.off ++ replicate (w.nextValues.length - w.off) 0
    let nextBlocks ← encode nextValues w.off w.nextBlocks w.bitsPerValue
    let blockCount := (w.off * w.bitsPerValue + 7) / 8
    if blockCount ≤ nextBlocks.length then
      return { w with
        output := writeBytes w.output (nextBlocks.take blockCount)
        off := 0
        nextValues := nextValues
        nextBlocks := nextBlocks }
    else .error .indexOutOfBounds

/-- Add a value. -/
def add (w : DirectWriter) (l : Int) : Result DirectWriter :=
  if w.numValues ≤ w.count then .error (.eof "Writing past end of stream")
  else if w.nextValues.length ≤ w.off then .error .indexOutOfBounds
  else do
    let w := { w with off := w.off + 1, nextValues := w.nextValues.set w.off l }
    let w ← (if w.off = w.nextValues.length then flush w else .ok w)
    return { w with count := w.count + 1 }

/-- Padding, so that every value can be read by one machine word. -/
def paddingBytesNeeded (bitsPerValue : Nat) : Nat :=
  let bits := if bitsPerValue > 32 then 64 - bitsPerValue
    else if bitsPerValue > 16 then 32 - bitsPerValue
    else if bitsPerValue > 8 then 16 - bitsPerValue
    else 0
  (bits + 7) / 8

/-- Write what is left, and the padding. -/
def finish (w : DirectWriter) : Result DirectWriter :=
  if w.count ≠ w.numValues then
    .error (.illegalState s!"Wrong number of values added, expected: {w.numValues}, got: {w.count}")
  else do
    let w ← flush w
    return { w with
      output := w.output ++ replicate (paddingBytesNeeded w.bitsPerValue) 0
      finished := true }

end DirectWriter

/-! ## The encoded bytes -/

/-- The unsigned readings of the values. -/
abbrev unsigned (values : List Int) : List Nat :=
  values.map (asU 64)

/-- What a finished writer has appended. -/
def directBytes (bitsPerValue : Nat) (values : List Int) : Bytes :=
  packed bitsPerValue (unsigned values) ++
    replicate (DirectWriter.paddingBytesNeeded bitsPerValue) 0

/-- A packed value takes at most eight bytes, and there are at most three bytes of padding. -/
theorem directBytes_length_le {bitsPerValue : Nat} (h : bitsPerValue ∈ supportedBitsPerValue)
    (values : List Int) : (directBytes bitsPerValue values).length ≤ 8 * values.length + 3 := by
  have hall : ∀ b ∈ supportedBitsPerValue, DirectWriter.paddingBytesNeeded b ≤ 3 ∧ b ≤ 64 := by
    decide
  obtain ⟨hpad, hbits⟩ := hall _ h
  have hmul := Nat.mul_le_mul_right values.length hbits
  rw [directBytes, length_append, packed_length, length_map, length_replicate]
  omega

variable {j k step : Nat} {vals : List Int}

theorem intLE_take (h : j ≤ k) (i : Int) : (intLE k i).take j = intLE j i := by
  obtain ⟨d, rfl⟩ := Nat.exists_eq_add_of_le h
  rw [intLE_add]
  exact take_left' (intLE_length j i)

/-- Words at a stride no larger than themselves leave the low bytes of each behind. -/
theorem setCells_spec {k step : Nat} (hstep : step ≤ k) (items : List Int) {blocks : Bytes}
    {o : Nat} (hroom : o + step * items.length + (k - step) ≤ blocks.length) :
    ∃ blocks', setCells k step blocks o items = .ok blocks' ∧ blocks'.length = blocks.length ∧
      blocks'.take (o + step * items.length) = blocks.take o ++ items.flatMap (intLE step) := by
  induction items generalizing blocks o with
  | nil => exact ⟨blocks, rfl, rfl, by simp⟩
  | cons v items ih =>
    rw [length_cons, mul_succ] at hroom
    have hset : setLE blocks o k v =
        .ok (blocks.take o ++ intLE k v ++ blocks.drop (o + k)) := by
      rw [setLE, if_pos (by omega)]
    have hlen : (blocks.take o ++ intLE k v ++ blocks.drop (o + k)).length = blocks.length := by
      simp only [length_append, length_take, intLE_length, length_drop]
      omega
    obtain ⟨blocks', hrest, hlen', htake⟩ :=
      @ih (blocks.take o ++ intLE k v ++ blocks.drop (o + k)) (o + step) (by rw [hlen]; omega)
    refine ⟨blocks', by rw [setCells, hset]; exact hrest, hlen'.trans hlen, ?_⟩
    -- the first word, up to where the next one begins
    have hfirst : (blocks.take o ++ intLE k v ++ blocks.drop (o + k)).take (o + step) =
        blocks.take o ++ intLE step v := by
      rw [append_assoc, take_append, length_take, take_take, show min o blocks.length = o by omega,
        Nat.add_sub_cancel_left, show min (o + step) o = o by omega,
        take_append_of_le_length (by simpa using hstep), intLE_take hstep]
    rw [length_cons, mul_succ, show o + (step * items.length + step) =
      o + step + step * items.length by omega, htake, hfirst, flatMap_cons,
      append_assoc]

/-- A shift that loses no bits. -/
theorem asU_mul_two_pow {value : Int} (h : asU 64 value * 2 ^ k < 2 ^ 64) :
    asU 64 (value * 2 ^ k) = asU 64 value * 2 ^ k := by
  have hval := asU_cast 64 value
  have hmul := asU_cast 64 (value * 2 ^ k)
  have hcast : ((asU 64 (value * 2 ^ k) : Nat) : Int) = ((asU 64 value * 2 ^ k : Nat) : Int) := by
    rw [hmul, ← ((Int.mod_modEq value _).mul_right (2 ^ k)).eq, ← hval]
    rw [← mod_eq_of_lt h]
    rfl
  exact_mod_cast hcast

/-- The word of a group is the number with the values as its digits. -/
theorem mergeGroup_eq {bpv : Nat} (group : List Int) {j v : Nat} (hfit : Fits bpv (unsigned group))
    (hv : v < 2 ^ (bpv * j)) (hroom : bpv * (j + group.length) ≤ 64) :
    mergeGroup bpv j v group = v + 2 ^ (bpv * j) * packNat bpv (unsigned group) := by
  induction group generalizing j v with
  | nil => simp [mergeGroup]
  | cons value group ih =>
    have hvalue : asU 64 value < 2 ^ bpv := hfit _ (by simp)
    rw [length_cons] at hroom
    have hnext : bpv * (j + 1) ≤ 64 :=
      Nat.le_trans (Nat.mul_le_mul_left bpv (by omega)) hroom
    have hpow : 2 ^ (bpv * (j + 1)) = 2 ^ bpv * 2 ^ (bpv * j) := by
      rw [mul_succ, add_comm, pow_add]
    have hshifted : asU 64 value * 2 ^ (bpv * j) < 2 ^ (bpv * (j + 1)) := by
      rw [hpow]
      exact Nat.mul_lt_mul_of_pos_right hvalue (Nat.two_pow_pos _)
    have hlt64 := hshifted.trans_le (Nat.pow_le_pow_right (by decide) hnext)
    have hor : v ||| asU 64 (value * 2 ^ (bpv * j)) = v + 2 ^ (bpv * j) * asU 64 value := by
      rw [asU_mul_two_pow hlt64, mul_comm, Nat.or_comm, ← two_pow_add_eq_or_of_lt hv, add_comm]
    have hbound : v + 2 ^ (bpv * j) * asU 64 value < 2 ^ (bpv * (j + 1)) := by
      rw [hpow, add_comm, mul_comm]
      exact row_lt hvalue hv
    rw [mergeGroup, hor, ih (forall_mem_cons.mp hfit).2 hbound
      (by rwa [Nat.add_assoc, add_comm 1]), hpow, unsigned, unsigned, map_cons,
      packNat_cons]
    ring

/-- A word of at most eight bytes, from the unsigned reading of a long. -/
theorem intLE_eq_leBytes (h : j ≤ 8) (i : Int) : intLE j i = leBytes j (asU 64 i) := by
  have hpow : 256 ^ j = 2 ^ (8 * j) := by rw [pow_mul]; norm_num
  rw [intLE, ← leBytes_mod j (asU 64 i), hpow, asU_mod (by omega)]

theorem intLE_natCast (j n : Nat) : intLE j (n : Int) = leBytes j n := by
  have hpow : 256 ^ j = 2 ^ (8 * j) := by rw [pow_mul]; norm_num
  rw [intLE, asU_natCast, ← hpow, leBytes_mod]

/-- Values of whole bytes are written one by one. -/
theorem flatMap_intLE (hstep : step ≤ 8) (values : List Int)
    (hfit : Fits (8 * step) (unsigned values)) :
    values.flatMap (intLE step) = packed (8 * step) (unsigned values) := by
  induction values with
  | nil => simp
  | cons v values ih =>
    have hsplit := Fits.append_iff.mp (show Fits (8 * step) ([asU 64 v] ++ unsigned values)
      from hfit)
    have hone : packed (8 * step) [asU 64 v] = intLE step v := by
      rw [packed, intLE_eq_leBytes hstep]
      simp [show (8 * step + 7) / 8 = step by omega]
    rw [flatMap_cons, ih hsplit.2, ← hone, ← packed_append hsplit.1 (by simp)]
    rfl

/-- The cells of a partly filled buffer: the values, and zeros behind them. -/
theorem fits_zeros {bpv : Nat} (h : Fits bpv (unsigned vals)) (m : Nat) :
    Fits bpv (unsigned (vals ++ replicate m 0)) := by
  rw [unsigned, map_append, Fits.append_iff]
  refine ⟨h, fun v hv => ?_⟩
  rw [map_replicate] at hv
  rw [eq_of_mem_replicate hv]
  exact Nat.two_pow_pos bpv

/-- The bytes of merged groups are the packed values of the cells they cover. -/
theorem flatMap_mergeGroup {bpv g n : Nat} {cells : List Int} (hstep : bpv * g = 8 * step)
    (hword : bpv * g ≤ 64) (hcells : g * n ≤ cells.length) (hfit : Fits bpv (unsigned cells)) :
    ((pieces n g cells).map fun group => ((mergeGroup bpv 0 0 group : Nat) : Int)).flatMap
        (intLE step) = packed bpv ((unsigned cells).take (g * n)) := by
  rw [← packed_pieces hfit (by rwa [length_map]) ⟨step, hstep⟩, unsigned, pieces_map, flatMap_map,
    flatMap_map]
  apply flatMap_congr
  intro group hmem
  have hsize := length_of_mem_pieces hcells hmem
  have hgroup : Fits bpv (unsigned group) := by
    intro v hv
    refine hfit v ?_
    obtain ⟨x, hx, rfl⟩ := mem_map.mp hv
    obtain ⟨i, _, rfl⟩ := mem_map.mp hmem
    exact mem_map_of_mem (mem_of_mem_drop (mem_of_mem_take hx))
  have hmerge := @mergeGroup_eq bpv group 0 0 hgroup (by simp) (by rwa [zero_add, hsize])
  rw [intLE_natCast, hmerge, packed, length_map, hsize, hstep]
  simp [show (8 * step + 7) / 8 = step by omega]

/-- Merged groups, as the encoders for widths below eight and for pairs write them. -/
theorem encodeGroups_spec {bpv g k m step : Nat} {vals : List Int} {blocks : Bytes} (hg : 0 < g)
    (hstep : bpv * g = 8 * step) (hword : bpv * g ≤ 64) (hcell : step ≤ k) (hwide : k ≤ step + 7)
    (hgroups : g ∣ vals.length + m) (hfit : Fits bpv (unsigned vals))
    (hlen : blocks.length = (vals.length + m) * bpv / 8 + 7) :
    ∃ words blocks', mergeGroups bpv g vals.length (vals ++ replicate m 0) = .ok words ∧
      setCells k step blocks 0 words = .ok blocks' ∧ blocks'.length = blocks.length ∧
      blocks'.take ((vals.length * bpv + 7) / 8) = packed bpv (unsigned vals) := by
  obtain ⟨total, htotal⟩ := hgroups
  set n := (vals.length + g - 1) / g with hn
  have hcover : vals.length ≤ g * n := by
    have hmod := mod_lt (vals.length + g - 1) hg
    have hsum := div_add_mod (vals.length + g - 1) g
    rw [← hn] at hsum
    omega
  have hle : n ≤ total := by
    have hlt : vals.length + g - 1 < g * (total + 1) := by rw [mul_succ]; omega
    exact le_of_lt_succ (Nat.div_lt_of_lt_mul hlt)
  have hgn := Nat.mul_le_mul_left g hle
  have hcells : g * n ≤ (vals ++ replicate m 0).length := by
    rw [length_append, length_replicate, htotal]
    exact hgn
  -- the cells that the groups cover are the values and zeros
  have htake : (unsigned (vals ++ replicate m 0)).take (g * n) =
      unsigned vals ++ replicate (g * n - vals.length) 0 := by
    rw [unsigned, map_append, take_append, length_map, take_of_length_le
      (by rwa [length_map]), map_replicate, take_replicate,
      show min (g * n - vals.length) m = g * n - vals.length by omega]
    rfl
  have hwords := flatMap_mergeGroup hstep hword hcells (fits_zeros hfit m)
  rw [htake] at hwords
  have hbits : (vals.length + m) * bpv = 8 * (step * total) := by
    rw [htotal, mul_comm, ← mul_assoc, hstep, mul_assoc]
  have hsteps := Nat.mul_le_mul_left step hle
  have hroom : 0 + step * ((pieces n g (vals ++ replicate m 0)).map
      fun group =>
        ((mergeGroup bpv 0 0 group : Nat) : Int)).length + (k - step) ≤ blocks.length := by
    rw [length_map, pieces_length, hlen, hbits]
    omega
  obtain ⟨blocks', hset, hlen', hbytes⟩ := setCells_spec hcell _ hroom
  refine ⟨_, blocks', if_pos hcells, hset, hlen', ?_⟩
  have hcount : (vals.length * bpv + 7) / 8 ≤ step * n := by
    have hbound := Nat.mul_le_mul_left bpv hcover
    rw [← mul_assoc, hstep, mul_assoc] at hbound
    rw [mul_comm]
    omega
  rw [length_map, pieces_length, zero_add, hwords, take_zero, nil_append] at hbytes
  have hcut := packed_take_of_zeros bpv (unsigned vals) (g * n - vals.length)
  rwa [← hbytes, take_take, length_map, mul_comm bpv, Nat.min_eq_left hcount] at hcut

/-- Values of whole bytes, as the first encoder writes them. -/
theorem encodeBytes_spec {m : Nat} {blocks : Bytes} (hstep : step ≤ 8) (hcell : step ≤ k)
    (hwide : k ≤ step + 7) (hfit : Fits (8 * step) (unsigned vals))
    (hlen : blocks.length = (vals.length + m) * (8 * step) / 8 + 7) :
    ∃ blocks', setCells k step blocks 0 ((vals ++ replicate m 0).take vals.length) =
        .ok blocks' ∧ blocks'.length = blocks.length ∧
      blocks'.take ((vals.length * (8 * step) + 7) / 8) = packed (8 * step) (unsigned vals) := by
  have hbits : (vals.length + m) * (8 * step) / 8 = step * (vals.length + m) := by
    rw [mul_comm, mul_assoc, Nat.mul_div_cancel_left _ (by decide)]
  have hmore := Nat.mul_le_mul_left step (Nat.le_add_right vals.length m)
  obtain ⟨blocks', hset, hlen', hbytes⟩ :=
    @setCells_spec k step hcell vals blocks 0 (by omega)
  rw [flatMap_intLE hstep vals hfit, zero_add, take_zero, nil_append] at hbytes
  have hcount : (vals.length * (8 * step) + 7) / 8 = step * vals.length := by
    rw [show vals.length * (8 * step) = 8 * (step * vals.length) by ring]
    omega
  rw [take_left, hcount]
  exact ⟨blocks', hset, hlen', hbytes⟩

/-- The widths by encoder. -/
theorem supported_cases {bpv : Nat} (h : bpv ∈ supportedBitsPerValue) :
    (∃ step, bpv = 8 * step ∧ 1 ≤ step ∧ step ≤ 8) ∨ (bpv = 1 ∨ bpv = 2 ∨ bpv = 4) ∨
      (bpv = 12 ∨ bpv = 20 ∨ bpv = 28) := by
  simp only [supportedBitsPerValue, mem_cons, not_mem_nil, or_false] at h
  by_cases hbytes : bpv % 8 = 0
  · exact .inl ⟨bpv / 8, by omega, by omega, by omega⟩
  · omega

/-- Encoding a buffer of values and zeros. -/
theorem encode_spec {bpv m : Nat} {vals : List Int} {blocks : Bytes}
    (hbpv : bpv ∈ supportedBitsPerValue) (hcells : 64 ∣ vals.length + m)
    (hfit : Fits bpv (unsigned vals)) (hlen : blocks.length = (vals.length + m) * bpv / 8 + 7) :
    ∃ blocks', encode (vals ++ replicate m 0) vals.length blocks bpv = .ok blocks' ∧
      blocks'.length = blocks.length ∧
      blocks'.take ((vals.length * bpv + 7) / 8) = packed bpv (unsigned vals) := by
  unfold encode
  rcases supported_cases hbpv with ⟨step, rfl, hpos, hstep⟩ | hsmall | hpair
  · have hmask : 8 * step &&& 7 = 0 := by
      rw [show 7 = 2 ^ 3 - 1 by rfl, and_two_pow_sub_one_eq_mod]
      omega
    rw [if_pos hmask, show 8 * step / 8 = step by omega]
    apply encodeBytes_spec hstep _ _ hfit hlen
    all_goals split_ifs <;> omega
  · have hgroup : bpv * (64 / bpv) = 8 * 8 := by rcases hsmall with rfl | rfl | rfl <;> rfl
    have hdvd : 64 / bpv ∣ 64 := ⟨bpv, by rw [mul_comm, hgroup]⟩
    obtain ⟨words, blocks', hwords, hset, hlen', hbytes⟩ := @encodeGroups_spec bpv (64 / bpv) 8 m 8
      vals blocks (Nat.div_pos (by omega) (by omega)) hgroup hgroup.le le_rfl (by omega)
      (hdvd.trans hcells) hfit hlen
    rw [if_neg (by rcases hsmall with rfl | rfl | rfl <;> decide), if_pos (by omega), hwords]
    exact ⟨blocks', hset, hlen', hbytes⟩
  · have hgroup : bpv * 2 = 8 * (bpv / 4) := by omega
    obtain ⟨words, blocks', hwords, hset, hlen', hbytes⟩ :=
      @encodeGroups_spec bpv 2 (if bpv ≤ 16 then 4 else 8) m (bpv / 4) vals blocks (by decide)
      hgroup (by omega) (by split_ifs <;> omega) (by split_ifs <;> omega)
      (dvd_trans ⟨32, rfl⟩ hcells) hfit hlen
    rw [if_neg (by rcases hpair with rfl | rfl | rfl <;> decide), if_neg (by omega), hwords]
    exact ⟨blocks', hset, hlen', hbytes⟩

namespace DirectWriter

variable {out : Bytes} {numValues bpv : Nat} {values : List Int} {w : DirectWriter}

/-- The writer has been given the values: those not yet in the output are in the cells. A writer
for no values at all has no cells. -/
structure Holds (out : Bytes) (numValues bpv : Nat) (values : List Int) (w : DirectWriter) :
    Prop where
  bits_eq : w.bitsPerValue = bpv
  num_eq : w.numValues = numValues
  count_eq : w.count = values.length
  count_le : values.length ≤ numValues
  fits : Fits bpv (unsigned values)
  /-- Whole buffers have been written; the rest is pending. -/
  split : ∃ flushed pending, values = flushed ++ pending ∧ 64 ∣ flushed.length ∧
    w.output = out ++ packed bpv (unsigned flushed) ∧ w.off = pending.length ∧
    w.nextValues.take w.off = pending
  cells : 64 ∣ w.nextValues.length
  blocks : numValues ≠ 0 → w.nextBlocks.length = w.nextValues.length * bpv / 8 + 7
  room : numValues ≠ 0 → w.off < w.nextValues.length

/-- Rounding down to a multiple of 64, as the bit mask does it. -/
theorem dvd_and_mask (n : Nat) : 64 ∣ n &&& 0xFFFFFFC0 := by
  apply dvd_of_mod_eq_zero
  rw [show 64 = 2 ^ 6 by rfl, and_mod_two_pow]
  simp

/-- The buffer is filled by whole words. -/
theorem dvd_bufferSize (numValues bpv : Nat) : 64 ∣ bufferSize numValues bpv := by
  unfold bufferSize
  dsimp only
  split <;> exact dvd_and_mask _

theorem bufferSize_pos (numValues : Nat) (hbpv : bpv ∈ supportedBitsPerValue) :
    0 < bufferSize numValues bpv := by
  have hsizes : ∀ b ∈ supportedBitsPerValue,
      0 < (8 * defaultBufferSize / (64 + b) + 63) &&& 0xFFFFFFC0 ∧
        (8 * defaultBufferSize / (64 + b) + 63) &&& 0xFFFFFFC0 ≤ 128 := by decide
  have hshort : ∀ n < 128, 0 < (n + 64) &&& 0xFFFFFFC0 := by decide
  obtain ⟨hpos, hle⟩ := hsizes bpv hbpv
  unfold bufferSize
  dsimp only
  split
  · rename_i hcond
    exact hshort numValues (Nat.lt_of_lt_of_le hcond.2.1 hle)
  · exact hpos

/-- A new writer. -/
theorem new_holds (out : Bytes) (numValues : Nat) (hbpv : bpv ∈ supportedBitsPerValue) :
    Holds out numValues bpv [] (new out numValues bpv) where
  bits_eq := rfl
  num_eq := rfl
  count_eq := rfl
  count_le := Nat.zero_le _
  fits := by simp [Fits]
  split := ⟨[], [], rfl, ⟨0, rfl⟩, by simp [new], rfl, rfl⟩
  cells := by
    simp only [new, length_replicate]
    split
    · exact ⟨0, rfl⟩
    · exact dvd_bufferSize _ _
  blocks := by
    intro hne
    simp [new, hne]
  room := by
    intro hne
    simpa [new, hne] using bufferSize_pos numValues hbpv

/-- Flushing appends the pending values and empties the buffer. -/
theorem flush_spec (hbpv : w.bitsPerValue ∈ supportedBitsPerValue) {pending : List Int}
    (hoff : w.off = pending.length) (hpending : w.nextValues.take w.off = pending)
    (hfit : Fits w.bitsPerValue (unsigned pending)) (hcells : 64 ∣ w.nextValues.length)
    (hblocks : pending ≠ [] → w.nextBlocks.length = w.nextValues.length * w.bitsPerValue / 8 + 7) :
    ∃ cells blocks, flush w = .ok { w with
        output := w.output ++ packed w.bitsPerValue (unsigned pending)
        off := 0, nextValues := cells, nextBlocks := blocks } ∧
      cells.length = w.nextValues.length ∧ blocks.length = w.nextBlocks.length := by
  cases pending with
  | nil =>
    have hzero : w.off = 0 := hoff
    refine ⟨w.nextValues, w.nextBlocks, ?_, rfl, rfl⟩
    rw [flush, if_pos hzero]
    cases w
    simp only at hzero
    simp [hzero]
  | cons v rest =>
    have hle : w.off ≤ w.nextValues.length := by
      have hlen := congrArg length hpending
      rw [length_take, ← hoff] at hlen
      omega
    have hsum : (v :: rest).length + (w.nextValues.length - w.off) = w.nextValues.length := by
      omega
    obtain ⟨blocks, hencode, hlen, hbytes⟩ := @encode_spec w.bitsPerValue
      (w.nextValues.length - w.off) (v :: rest) w.nextBlocks hbpv (by rwa [hsum]) hfit
      (by rw [hsum]; exact hblocks (cons_ne_nil _ _))
    refine ⟨v :: rest ++ replicate (w.nextValues.length - w.off) 0, blocks, ?_, ?_, hlen⟩
    · have hfull : (w.off * w.bitsPerValue + 7) / 8 ≤ blocks.length := by
        have hcut := congrArg length hbytes
        rw [length_take, packed_length, length_map, ← hoff, mul_comm] at hcut
        rw [mul_comm]
        omega
      rw [← hoff] at hencode hbytes
      rw [flush, if_neg (by rw [hoff]; simp), hpending]
      simp only [hencode, ok_bind]
      rw [if_pos hfull, hbytes]
      rfl
    · rw [length_append, length_replicate, hsum]

/-- Whole buffers and what follows them are packed separately. -/
theorem packed_flushed {flushed pending : List Int}
    (hfit : Fits bpv (unsigned (flushed ++ pending)))
    (haligned : 64 ∣ flushed.length) :
    packed bpv (unsigned (flushed ++ pending)) =
      packed bpv (unsigned flushed) ++ packed bpv (unsigned pending) := by
  rw [unsigned, map_append] at hfit ⊢
  refine packed_append (Fits.append_iff.mp hfit).1 ?_ _
  rw [length_map]
  exact Dvd.dvd.mul_left (dvd_trans ⟨8, rfl⟩ haligned) bpv

/-- Adding a value that fits, before the announced number is reached. -/
theorem add_holds (hbpv : bpv ∈ supportedBitsPerValue) (h : Holds out numValues bpv values w)
    {l : Int} (hl : asU 64 l < 2 ^ bpv) (hmore : values.length < numValues) :
    ∃ w', add w l = .ok w' ∧ Holds out numValues bpv (values ++ [l]) w' := by
  obtain ⟨flushed, pending, hvalues, haligned, hout, hoff, hpending⟩ := h.split
  have hroom := h.room (by omega)
  have hblocks := h.blocks (by omega)
  have hall : Fits bpv (unsigned (values ++ [l])) := by
    rw [unsigned, map_append, Fits.append_iff]
    refine ⟨h.fits, ?_⟩
    intro v hv
    rwa [mem_singleton.mp hv]
  have hcells : (w.nextValues.set w.off l).take (w.off + 1) = pending ++ [l] := by
    rw [take_succ_eq_append_getElem (by rw [length_set]; exact hroom),
      take_set_of_le le_rfl, hpending, getElem_set_self]
  have hstep : add w l = (do
      let w ← (if w.off + 1 = (w.nextValues.set w.off l).length then
        flush { w with off := w.off + 1, nextValues := w.nextValues.set w.off l }
        else .ok { w with off := w.off + 1, nextValues := w.nextValues.set w.off l })
      return { w with count := w.count + 1 }) := by
    rw [add, if_neg (by rw [h.num_eq, h.count_eq]; omega), if_neg (by omega)]
  by_cases hfull : w.off + 1 = (w.nextValues.set w.off l).length
  · -- the buffer is full: everything given so far goes to the output
    have hlast : Fits w.bitsPerValue (unsigned (pending ++ [l])) := by
      rw [h.bits_eq]
      intro v hv
      refine hall v ?_
      rw [hvalues, append_assoc, unsigned, map_append]
      exact mem_append_right _ hv
    obtain ⟨cells, blocks, hflush, hlen, hlen'⟩ := @flush_spec
      { w with off := w.off + 1, nextValues := w.nextValues.set w.off l }
      (by rw [h.bits_eq]; exact hbpv) (pending ++ [l]) (by simp [hoff]) hcells hlast
      (by rw [length_set]; exact h.cells)
      (by intro _; rw [length_set, h.bits_eq]; exact hblocks)
    rw [hstep, if_pos hfull, hflush]
    simp only [length_set] at hlen hfull
    refine ⟨_, rfl, h.bits_eq, h.num_eq, ?_, ?_, hall, ?_, ?_, ?_, ?_⟩
    · rw [length_append, h.count_eq]
      rfl
    · rw [length_append]
      exact hmore
    · refine ⟨values ++ [l], [], (append_nil _).symm, ?_, ?_, rfl, rfl⟩
      · have hsum : (values ++ [l]).length = flushed.length + w.nextValues.length := by
          rw [hvalues, append_assoc, length_append, length_append, ← hoff, length_singleton, hfull]
        rw [hsum]
        exact Nat.dvd_add haligned h.cells
      · rw [h.bits_eq, hout, append_assoc, hvalues, append_assoc,
          packed_flushed (by rw [← append_assoc, ← hvalues]; exact hall) haligned]
    · rw [hlen]
      exact h.cells
    · intro _
      rw [hlen', hlen]
      exact hblocks
    · intro _
      show 0 < cells.length
      omega
  · rw [hstep, if_neg hfull]
    rw [length_set] at hfull
    refine ⟨_, rfl, h.bits_eq, h.num_eq, ?_, ?_, hall, ?_, ?_, ?_, ?_⟩
    · rw [length_append, h.count_eq]
      rfl
    · rw [length_append]
      exact hmore
    · exact ⟨flushed, pending ++ [l], by rw [hvalues, append_assoc], haligned, hout,
        by simp [hoff], hcells⟩
    · rw [length_set]
      exact h.cells
    · intro _
      rw [length_set]
      exact hblocks
    · intro _
      show w.off + 1 < (w.nextValues.set w.off l).length
      rw [length_set]
      omega

/-- Adding all values of a list. -/
def addAll (w : DirectWriter) (values : List Int) : Result DirectWriter :=
  values.foldlM add w

/-- All values. -/
theorem addAll_holds (hbpv : bpv ∈ supportedBitsPerValue) (h : Holds out numValues bpv values w)
    (more : List Int) (hfit : Fits bpv (unsigned more))
    (hle : values.length + more.length ≤ numValues) :
    ∃ w', addAll w more = .ok w' ∧ Holds out numValues bpv (values ++ more) w' := by
  induction more generalizing values w with
  | nil => exact ⟨w, rfl, by rwa [append_nil]⟩
  | cons l more ih =>
    rw [length_cons] at hle
    obtain ⟨w', hadd, hnext⟩ := add_holds hbpv h (hfit (asU 64 l) (by simp)) (by omega)
    obtain ⟨w'', hrest, hlast⟩ := ih hnext (forall_mem_cons.mp hfit).2
      (by rw [length_append, length_singleton]; omega)
    refine ⟨w'', ?_, by simpa using hlast⟩
    rw [addAll, foldlM_cons, hadd]
    exact hrest

/-- A writer that has been given all its values finishes with their packed bytes. -/
theorem finish_holds (hbpv : bpv ∈ supportedBitsPerValue) (h : Holds out numValues bpv values w)
    (hall : values.length = numValues) :
    ∃ w', finish w = .ok w' ∧ w'.output = out ++ directBytes bpv values := by
  obtain ⟨flushed, pending, hvalues, haligned, hout, hoff, hpending⟩ := h.split
  have hfits := h.fits
  rw [hvalues, unsigned, map_append, Fits.append_iff] at hfits
  obtain ⟨cells, blocks, hflush, -, -⟩ := @flush_spec w (by rw [h.bits_eq]; exact hbpv) pending
    hoff hpending (by rw [h.bits_eq]; exact hfits.2) h.cells (by
      intro hne
      rw [h.bits_eq]
      refine h.blocks ?_
      have hpos := length_pos_iff.mpr hne
      rw [← hall, hvalues, length_append]
      omega)
  rw [finish, if_neg (by rw [h.count_eq, h.num_eq, hall]; simp), hflush]
  refine ⟨_, rfl, ?_⟩
  have hbytes := packed_flushed (hvalues ▸ h.fits) haligned
  rw [directBytes, hvalues, hbytes, h.bits_eq, hout]
  simp only [append_assoc]

/-- Opening a writer, adding the values and finishing it. -/
def writeAll (out : Bytes) (bitsPerValue : Nat) (values : List Int) : Result Bytes := do
  let w ← getInstance out values.length bitsPerValue
  let w ← addAll w values
  let w ← finish w
  return w.output

/-- What is written. -/
theorem writeAll_eq (hbpv : bpv ∈ supportedBitsPerValue) (hfit : Fits bpv (unsigned values))
    (out : Bytes) : writeAll out bpv values = .ok (out ++ directBytes bpv values) := by
  obtain ⟨w, hadd, hw⟩ := addAll_holds hbpv (new_holds out values.length hbpv) values hfit (by simp)
  obtain ⟨w', hfinish, hout⟩ := finish_holds hbpv (show Holds out _ bpv values w from hw) rfl
  rw [writeAll, getInstance, if_pos hbpv]
  simp only [ok_bind, hadd, hfinish, hout, pure_eq_ok]

end DirectWriter

end RLucene.Util.Packed
