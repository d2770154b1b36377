import RLucene.Util.Packed.DirectMonotonic

/-!
# Searching a direct monotonic sequence

`getBounds` gives bounds for a value without reading its block, and `binarySearch` reads a value
only if the bounds do not decide. The bounds are sums that wrap around at 64 bits; where the upper
one does, it comes out below the lower one and both are given up. `written_sequence` says that
whatever was written is read back, lies within its bounds and is found.
-/

namespace RLucene.Util.Packed

open List Lib Store

variable {i : Nat}

namespace DirectPackedEnum

/-- Whether a reader buffers. -/
def isMerge : DirectPackedEnum → Bool
  | .merge _ => true
  | _ => false

/-- A read that does not change the reader. A merge instance has none. -/
def readFromSliceShared (reader : DirectPackedEnum) (index : Nat)
    (slice : Option RandomAccessInput) : Result Int :=
  match reader with
  | .direct bitsPerValue input offset => do
    let slice ← resolveSlice slice input
    readDirect bitsPerValue slice offset index
  | .merge _ => .error (.notImplemented "Immutable get method not implement")
  | .zeroes => .ok 0

/-- Reading without a buffer changes nothing. -/
theorem readFromSliceShared_of_read {reader reader' : DirectPackedEnum} {v : Int}
    {slice : Option RandomAccessInput} (hmerge : reader.isMerge = false)
    (h : reader.readFromSlice i slice = .ok (v, reader')) :
      reader.readFromSliceShared i slice = .ok v := by
  cases reader with
  | direct bitsPerValue input offset =>
    obtain ⟨own, hown, hread⟩ := bind_eq_ok.mp h
    obtain ⟨value, hvalue, hpair⟩ := bind_eq_ok.mp hread
    cases hpair
    exact bind_eq_ok.mpr ⟨own, hown, hvalue⟩
  | merge r => cases hmerge
  | zeroes =>
    cases h
    rfl

end DirectPackedEnum

namespace DirectMonotonicReader

variable (ops : FloatOps)

/-! ## The reader's operations -/

/-- Read a value without changing the reader. -/
def get (r : DirectMonotonicReader) (index : Nat) : Result Int :=
  let block := index >>> r.blockShift
  let blockIndex := index &&& (1 <<< r.blockShift - 1)
  match r.readers[block]?, r.metadata[block]? with
  | some reader, some info => do
    let delta ← reader.readFromSliceShared blockIndex (some r.slice)
    return asI 64 (info.min + ops.expected info.avgBits blockIndex + delta)
  | _, _ => .error .indexOutOfBounds

/-- The bounds of a value, from its block alone. -/
def getBounds (r : DirectMonotonicReader) (index : Nat) : Result (Int × Int) :=
  match r.metadata[index >>> r.blockShift]? with
  | some info =>
    let lowerBound :=
      asI 64 (info.min + ops.expected info.avgBits (index &&& (1 <<< r.blockShift - 1)))
    let upperBound := asI 64 (lowerBound + 2 ^ (info.bpv % 64) - 1)
    if info.bpv = 64 ∨ upperBound < lowerBound then .ok (-2 ^ 63, 2 ^ 63 - 1)
    else .ok (lowerBound, upperBound)
  | none => .error .indexOutOfBounds

/-- The loop of `binarySearch`. -/
def search (r : DirectMonotonicReader) (key lo hi : Int) : Result Int :=
  if lo ≤ hi then do
    let mid := (lo + hi) / 2
    let bounds ← getBounds ops r mid.toNat
    if bounds.2 < key then search r key (mid + 1) hi
    else if bounds.1 > key then search r key lo (mid - 1)
    else do
      let midVal ← get ops r mid.toNat
      if midVal < key then search r key (mid + 1) hi
      else if midVal > key then search r key lo (mid - 1)
      else .ok mid
  else .ok (-1 - lo)
termination_by (hi + 1 - lo).toNat

/-- Where a key is, or where it would be inserted. -/
def binarySearch (r : DirectMonotonicReader) (fromIndex toIndex key : Int) : Result Int :=
  if fromIndex < 0 ∨ fromIndex > toIndex then
    .error (.illegalArgument s!"fromIndex={fromIndex}, toIndex={toIndex}")
  else if r.readers.any DirectPackedEnum.isMerge then
    .error (.unsupportedOperation "binary_search requires a non-merge reader")
  else search ops r key fromIndex (toIndex - 1)

/-- Reads at some indices, one after the other. -/
def readEach (r : DirectMonotonicReader) : List Nat → Result (List Int × DirectMonotonicReader)
  | [] => .ok ([], r)
  | i :: rest => do
    let (value, r) ← getMut ops r i
    let (values, r) ← readEach r rest
    return (value :: values, r)

/-! ## Reads and bounds -/

variable {deltas : List (List Nat)} {values : List Int} {r : DirectMonotonicReader}

/-- Reading in any order. -/
theorem readEach_spec (h : Holds ops deltas values r) {indices : List Nat}
    (hin : ∀ i ∈ indices, i < values.length) :
    ∃ r', readEach ops r indices = .ok (indices.map fun i => asI 64 (values.getD i 0), r') := by
  induction indices generalizing r with
  | nil => exact ⟨r, rfl⟩
  | cons i rest ih =>
    have hi := hin i mem_cons_self
    obtain ⟨next, hread, hnext⟩ := getMut_spec ops h hi
    obtain ⟨last, hrest⟩ := ih hnext (forall_mem_cons.mp hin).2
    refine ⟨last, ?_⟩
    rw [readEach, hread, ok_bind]
    dsimp only
    rw [hrest]
    simp [hi]

/-- A value. -/
theorem get_spec (h : Holds ops deltas values r)
    (hdirect : ∀ reader ∈ r.readers, reader.isMerge = false) (hi : i < values.length) :
    get ops r i = .ok (asI 64 values[i]) := by
  obtain ⟨ds, info, hds, hinfo, hin, hvalue⟩ := h.value i hi
  obtain ⟨reader, hreader, hreads⟩ := h.reads _ ds hds
  obtain ⟨reader', hread, -⟩ := DirectPackedEnum.readFromSlice_spec hreads _ (.inl rfl) hin
  have hshared := DirectPackedEnum.readFromSliceShared_of_read
    (hdirect reader (mem_of_getElem? hreader)) hread
  rw [get]
  simp only [and_blockMask, Nat.shiftRight_eq_div_pow, hreader, hinfo, hshared, ok_bind, hvalue,
    pure_eq_ok]

/-- A sum that may wrap around lies within bounds that do not. -/
theorem within_bounds {lower : Int} {d width : Nat} (hlo : -2 ^ 63 ≤ lower) (hhi : lower < 2 ^ 63)
    (hd : d < width) (hwidth : width ≤ 2 ^ 63) (h : ¬ asI 64 (lower + width - 1) < lower) :
    lower ≤ asI 64 (lower + d) ∧ asI 64 (lower + d) ≤ asI 64 (lower + width - 1) := by
  rcases lt_or_ge (lower + width - 1) (2 ^ 63) with hfits | hwraps
  · rw [asI_of_range (by decide) (by omega) (by omega : lower + width - 1 < _),
      asI_64 (by omega) (by omega)]
    omega
  · have hturn : asI 64 (lower + width - 1) = lower + width - 1 - 2 ^ 64 := by
      rw [← asI_add_mul 64 _ (-1)]
      exact asI_64 (by omega) (by omega)
    omega

/-- The bounds of a value. -/
theorem getBounds_spec (h : Holds ops deltas values r) (hwidths : WidthsHold deltas r)
    (hi : i < values.length) : ∃ lower upper, getBounds ops r i = .ok (lower, upper) ∧
      lower ≤ asI 64 values[i] ∧ asI 64 values[i] ≤ upper := by
  obtain ⟨ds, info, hds, hinfo, hin, hvalue⟩ := h.value i hi
  obtain ⟨hle, hfits⟩ := hwidths _ ds info hds hinfo
  rw [getBounds]
  simp only [and_blockMask, Nat.shiftRight_eq_div_pow, hinfo]
  split
  · have hrange := asI_range (show 0 < 64 by decide) values[i]
    exact ⟨_, _, rfl, by omega, by omega⟩
  · rename_i hbounds
    obtain ⟨hbpv, hturn⟩ := not_or.mp hbounds
    have hpow : 2 ^ info.bpv ≤ 2 ^ 63 := Nat.pow_le_pow_right (by decide) (by omega)
    have hd := hfits _ (getElem_mem hin)
    rw [Nat.mod_eq_of_lt (show info.bpv < 64 by omega)] at hturn ⊢
    have hsum : asI 64 values[i] = asI 64 (asI 64 (info.min +
        ops.expected info.avgBits (i % 2 ^ r.blockShift)) + (ds[i % 2 ^ r.blockShift] : Nat)) := by
      rw [← hvalue, asI_asI_add, signedAt_eq hin,
        asI_of_range (i := (ds[i % 2 ^ r.blockShift] : Int)) (by decide) (by omega) (by omega)]
    refine ⟨_, _, rfl, ?_⟩
    rw [hsum]
    have hrange := asI_range (show 0 < 64 by decide)
      (info.min + ops.expected info.avgBits (i % 2 ^ r.blockShift))
    have hwithin := @within_bounds _ _ _ hrange.1 hrange.2 hd hpow (by exact_mod_cast hturn)
    exact_mod_cast hwithin

/-! ## The search -/

/-- What a search among the values from `first` up to `last` may return: where the key stands, or
where it would have to be inserted. -/
def FindsKey (values : List Int) (first last : Nat) (key result : Int) : Prop :=
  (∃ i, first ≤ i ∧ i < last ∧ values[i]? = some key ∧ result = i) ∨
    ∃ point, first ≤ point ∧ point ≤ last ∧ result = -1 - (point : Int) ∧
      (∀ i v, first ≤ i → i < point → values[i]? = some v → v < key) ∧
      ∀ i v, point ≤ i → i < last → values[i]? = some v → key < v

/-- The loop finds the key, or where it would be. -/
theorem search_spec (hsorted : values.Pairwise (· ≤ ·))
    (hget : ∀ i (hi : i < values.length), get ops r i = .ok values[i])
    (hbounds : ∀ i (hi : i < values.length), ∃ lower upper, getBounds ops r i = .ok (lower, upper) ∧
      lower ≤ values[i] ∧ values[i] ≤ upper) {first last lo hi : Nat} {key : Int} (hlo : first ≤ lo)
    (hle : lo ≤ hi) (hhi : hi ≤ last) (hlast : last ≤ values.length)
    (hbelow : ∀ i v, first ≤ i → i < lo → values[i]? = some v → v < key)
    (habove : ∀ i v, hi ≤ i → i < last → values[i]? = some v → key < v) :
    ∃ result, search ops r key lo ((hi : Int) - 1) = .ok result ∧
      FindsKey values first last key result := by
  have hmono {i j : Nat} {v v' : Int} (hij : i ≤ j) (hv : values[i]? = some v)
      (hv' : values[j]? = some v') : v ≤ v' := by
    obtain ⟨hi, rfl⟩ := List.getElem_of_getElem? hv
    obtain ⟨hj, rfl⟩ := List.getElem_of_getElem? hv'
    rcases Nat.eq_or_lt_of_le hij with rfl | hlt
    · exact le_rfl
    · exact pairwise_iff_getElem.mp hsorted i j hi hj hlt
  induction hn : hi - lo using Nat.strong_induction_on generalizing lo hi with
  | _ n ih =>
  rw [search]
  split
  · have hmid : ((lo : Int) + ((hi : Int) - 1)) / 2 = ((lo + hi - 1) / 2 : Nat) := by omega
    rw [hmid]
    dsimp only
    rw [Int.toNat_natCast]
    generalize hm : (lo + hi - 1) / 2 = mid
    have hin : mid < values.length := by omega
    -- The key is to the right of the middle, or to the left of it.
    have hright (hlt : values[mid] < key) : ∃ result,
        search ops r key ((mid : Int) + 1) ((hi : Int) - 1) = .ok result ∧
          FindsKey values first last key result := by
      have hnext := @ih (hi - (mid + 1)) (by omega) (mid + 1) hi (by omega) (by omega) hhi
        (fun i v _ hi' hv => (hmono (by omega) hv (getElem?_eq_getElem hin)).trans_lt hlt)
        habove rfl
      rwa [Nat.cast_succ] at hnext
    have hleft (hlt : key < values[mid]) : ∃ result,
        search ops r key lo ((mid : Int) - 1) = .ok result ∧
          FindsKey values first last key result := by
      exact @ih (mid - lo) (by omega) lo mid hlo (by omega) (by omega) hbelow
        (fun i v hi' _ hv => hlt.trans_le (hmono hi' (getElem?_eq_getElem hin) hv)) rfl
    obtain ⟨lower, upper, hboundsAt, hlower, hupper⟩ := hbounds mid hin
    rw [hboundsAt, ok_bind]
    split
    · exact hright (by omega)
    · split
      · exact hleft (by omega)
      · rw [hget mid hin, ok_bind]
        split
        · exact hright (by omega)
        · split
          · exact hleft (by omega)
          · refine ⟨mid, rfl, .inl ⟨mid, by omega, by omega, ?_, rfl⟩⟩
            rw [getElem?_eq_getElem hin]
            exact congrArg some (by omega)
  · obtain rfl : lo = hi := by omega
    exact ⟨-1 - (lo : Int), rfl, .inr ⟨lo, hlo, hhi, rfl, hbelow, habove⟩⟩

/-! ## A written sequence -/

/-- Without merging, all blocks are read directly. -/
theorem openBlocks_direct {info : Meta} {blocks : List MetaBlock}
    {readers : List DirectPackedEnum} (h : openBlocks info false i blocks = .ok readers) :
    ∀ reader ∈ readers, reader.isMerge = false := by
  induction blocks generalizing i readers with
  | nil =>
    cases h
    simp
  | cons block blocks ih =>
    obtain ⟨reader, hreader, hmore⟩ := bind_eq_ok.mp h
    obtain ⟨rest, hrest, hall⟩ := bind_eq_ok.mp hmore
    cases hall
    refine forall_mem_cons.mpr ⟨?_, ih hrest⟩
    rw [openBlock, DirectPackedEnum.getInstanceWithOffset] at hreader
    split at hreader
    · cases hreader
      rfl
    · rw [if_neg (by simp)] at hreader
      split at hreader
      · cases hreader
        rfl
      · cases hreader

/-- A sequence of at most `2 ^ 31 - 1` blocks that is written and whose metadata is loaded again.
Every reader returns the values, in every order of indices; one that does not merge bounds them and
finds them. -/
theorem written_sequence {shift : Nat} (hlo : 2 ≤ shift) (hhi : shift ≤ 22) {values : List Int}
    (hsorted : values.Pairwise (· ≤ ·)) (hrange : ∀ v ∈ values, -2 ^ 63 ≤ v ∧ v < 2 ^ 63)
    (hblocks : values.length ≤ (2 ^ 31 - 1) * 2 ^ shift) (metaOut dataOut behind : Bytes) :
    ∃ writtenMeta writtenData info metaIn,
      DirectMonotonicWriter.writeAll ops metaOut dataOut shift values =
        .ok (metaOut ++ writtenMeta, dataOut ++ writtenData) ∧
      loadMeta ⟨metaOut ++ writtenMeta, metaOut.length⟩ values.length shift = .ok (info, metaIn) ∧
      (∀ merging, ∃ r, getInstanceWithMerging info ⟨writtenData ++ behind⟩ merging = .ok r ∧
        ∀ indices : List Nat, (∀ i ∈ indices, i < values.length) →
          ∃ r', readEach ops r indices = .ok (indices.map (values.getD · 0), r')) ∧
      ∃ r, getInstanceWithMerging info ⟨writtenData ++ behind⟩ false = .ok r ∧
        (∀ i (hi : i < values.length), get ops r i = .ok values[i] ∧
          ∃ lower upper, getBounds ops r i = .ok (lower, upper) ∧ lower ≤ values[i] ∧
            values[i] ≤ upper) ∧
        ∀ (first last : Nat) (key : Int), first ≤ last → last ≤ values.length →
          ∃ result, binarySearch ops r first last key = .ok result ∧
            FindsKey values first last key result := by
  have hpow : (2 ^ 31 - 1) * 2 ^ shift ≤ (2 ^ 31 - 1) * 2 ^ 22 :=
    Nat.mul_le_mul_left _ (Nat.pow_le_pow_right (by decide) hhi)
  have hsize := dataBytes_length_le ops (chunks (2 ^ shift) values)
  rw [chunks_flatten (Nat.two_pow_pos shift)] at hsize
  have hwrap (i : Nat) (hi : i < values.length) : asI 64 values[i] = values[i] := by
    obtain ⟨hmin, hmax⟩ := hrange _ (getElem_mem hi)
    exact asI_of_range (by decide) (by exact_mod_cast hmin) (by exact_mod_cast hmax)
  have hopen :=
    @getInstance_widthsHold ops ⟨dataBytes ops (chunks (2 ^ shift) values) ++ behind⟩ shift
    values
  refine ⟨metaBytes ops 0 (chunks (2 ^ shift) values), dataBytes ops (chunks (2 ^ shift) values),
    metaOf ops shift values, _,
    DirectMonotonicWriter.writeAll_eq ops metaOut dataOut hlo hhi hsorted
      (fun v hv => (hrange v hv).1) hblocks, loadMeta_at ops (by simp [At]) (by omega), ?_, ?_⟩
  · intro merging
    obtain ⟨r, deltas, hr, hholds, -⟩ := hopen merging (by simp [At]) (by omega)
    refine ⟨r, hr, fun indices hin => ?_⟩
    obtain ⟨r', hread⟩ := readEach_spec ops hholds hin
    refine ⟨r', hread.trans ?_⟩
    congr 2
    refine map_congr_left fun i hi => ?_
    simpa [hin i hi] using hwrap i (hin i hi)
  · obtain ⟨r, deltas, hr, hholds, hwidths⟩ := hopen false (by simp [At]) (by omega)
    obtain ⟨readers, hreaders, hsame⟩ := bind_eq_ok.mp hr
    have hdirect : ∀ reader ∈ r.readers, reader.isMerge = false := by
      cases hsame
      exact openBlocks_direct hreaders
    have hget (i : Nat) (hi : i < values.length) : get ops r i = .ok values[i] := by
      rw [get_spec ops hholds hdirect hi, hwrap i hi]
    have hbounds (i : Nat) (hi : i < values.length) : ∃ lower upper,
        getBounds ops r i = .ok (lower, upper) ∧ lower ≤ values[i] ∧ values[i] ≤ upper := by
      obtain ⟨lower, upper, hbound⟩ := getBounds_spec ops hholds hwidths hi
      rw [hwrap i hi] at hbound
      exact ⟨lower, upper, hbound⟩
    refine ⟨r, hr, fun i hi => ⟨hget i hi, hbounds i hi⟩, fun first last key hle hlast => ?_⟩
    rw [binarySearch, if_neg (by omega), if_neg (by simpa using hdirect)]
    exact search_spec ops hsorted hget hbounds le_rfl hle le_rfl hlast (fun i v h h' => by omega)
      fun i v h h' => by omega

/-- Five values. -/
theorem written_sequence_five : ∃ writtenMeta writtenData info metaIn r result,
    DirectMonotonicWriter.writeAll wholeOps [] [] (2 : Nat) [-7, 0, 0, 3, 9] =
      .ok ([] ++ writtenMeta, [] ++ writtenData) ∧
    loadMeta ⟨[] ++ writtenMeta, 0⟩ 5 2 = .ok (info, metaIn) ∧
    getInstanceWithMerging info ⟨writtenData ++ []⟩ false = .ok r ∧
    binarySearch wholeOps r (0 : Nat) (5 : Nat) 3 = .ok result ∧
    FindsKey [-7, 0, 0, 3, 9] 0 5 3 result := by
  obtain ⟨writtenMeta, writtenData, info, metaIn, hwrite, hload, -, r, hr, -, hsearch⟩ :=
    @written_sequence wholeOps 2 (by decide) (by decide) [-7, 0, 0, 3, 9] (by decide) (by decide)
      (by decide) [] [] []
  obtain ⟨result, hresult⟩ := hsearch 0 5 3 (by decide) (by decide)
  exact ⟨writtenMeta, writtenData, info, metaIn, r, result, hwrite, hload, hr, hresult⟩

/-- One value more, and the writer is not opened. -/
theorem writeAll_too_many_blocks :
    (replicate ((2 ^ 31 - 1) * 2 ^ 2 + 1) (0 : Int)).Pairwise (· ≤ ·) ∧
      ∀ ops written, DirectMonotonicWriter.writeAll ops [] [] 2
        (replicate ((2 ^ 31 - 1) * 2 ^ 2 + 1) 0) ≠ .ok written := by
  refine ⟨pairwise_replicate.mpr (.inr le_rfl), fun ops written => ?_⟩
  rw [DirectMonotonicWriter.writeAll, length_replicate, DirectMonotonicWriter.getInstance,
    if_neg (by decide), if_neg (by decide)]
  rintro ⟨⟩

end DirectMonotonicReader

end RLucene.Util.Packed
