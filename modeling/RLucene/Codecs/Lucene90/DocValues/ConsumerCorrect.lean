import RLucene.Codecs.Lucene90.DocValues.Layout

/-!
# What the consumer writes

Each writing function of the consumer appends the layout of what it is given, and not more bytes
than a bound for its part of a field. File pointers are `i64`, so that the bounds have to stay below
`2 ^ 63` together with what has been written before.
-/

namespace RLucene.Codecs.Lucene90.DocValues

open List Lib Store Util Util.Packed Index Search
open IndexedDISI (layout entryCount)

/-- A bound for the bytes of a field in the data: 32 for each value, and the rest for its skip
index, its documents and its addresses. -/
def dataBound (entries : Entries) : Nat :=
  2 ^ 40 + 32 * entries.values.length

/-- The loops over documents and their values are loops over all values. -/
theorem foldlM_entries {σ : Type} (f : σ → Int → Result σ) (entries : Entries) (s : σ) :
    entries.foldlM (fun s entry => entry.2.foldlM f s) s = entries.values.foldlM f s := by
  induction entries generalizing s with
  | nil => rfl
  | cons entry entries ih =>
    have hvalues : Entries.values (entry :: entries) = entry.2 ++ Entries.values entries := rfl
    rw [foldlM_cons, hvalues, foldlM_append]
    exact bind_congr fun s => ih s

/-! ## One packed stream -/

variable {e : Encoding} {entries : Entries} {values : List Int} {gcd v : Int} {base : Bytes}
  {groups : List (List Int)} {s : BlocksState}

/-- What is written with one width. -/
theorem writeValuesSingleBlock_eq (hpacks : e.Packs entries.values) (data : Bytes) :
    writeValuesSingleBlock data entries entries.values.length e =
      .ok (data ++ directBytes e.numBitsPerValue (entries.values.map e.encode)) := by
  have hall := DirectWriter.writeAll_eq hpacks.1 hpacks.2.1 data
  rw [DirectWriter.writeAll, length_map] at hall
  rw [← hall]
  refine bind_congr fun w => ?_
  rw [writeValuesWithEncoder, foldlM_entries, DirectWriter.addAll, foldlM_map]

/-! ## Blocks -/

/-- The least value of a block is in it. -/
theorem blockMin_mem (hne : values ≠ []) :
    blockMin values ∈ values ∧ ∀ v ∈ values, blockMin values ≤ v := by
  cases values with
  | nil => exact absurd rfl hne
  | cons v values =>
    exact ⟨foldl_min_mem_cons values v, forall_mem_cons.mpr (foldl_min_le values v)⟩

/-- The greatest value of a block is in it. -/
theorem blockMax_mem (hne : values ≠ []) :
    blockMax values ∈ values ∧ ∀ v ∈ values, v ≤ blockMax values := by
  cases values with
  | nil => exact absurd rfl hne
  | cons v values =>
    exact ⟨@foldl_min_mem_cons Intᵒᵈ _ values v, forall_mem_cons.mpr (le_foldl_max values v)⟩

/-- The divisor suits the values: their differences are multiples and do not overflow. -/
structure Divides (gcd : Int) (values : List Int) : Prop where
  pos : 0 < gcd
  longs : Longs values
  dvd : ∀ u ∈ values, ∀ v ∈ values, gcd ∣ v - u
  small : ∀ u ∈ values, ∀ v ∈ values, gcd = 1 ∨ v - u < 2 ^ 63

theorem Divides.subset {values' : List Int} (h : Divides gcd values)
    (hsub : ∀ v ∈ values', v ∈ values) : Divides gcd values' :=
  ⟨h.pos, fun v hv => h.longs v (hsub v hv), fun u hu v hv => h.dvd u (hsub u hu) v (hsub v hv),
    fun u hu v hv => h.small u (hsub u hu) v (hsub v hv)⟩

/-- The differences of a block to its least value can be packed. -/
theorem block_packs (h : Divides gcd values) (hne : values ≠ []) :
    Encoding.Packs ⟨blockWidth gcd values, false, none, blockMin values, gcd⟩ values := by
  obtain ⟨hmin, hminle⟩ := blockMin_mem hne
  obtain ⟨hmax, hmaxle⟩ := blockMax_mem hne
  have hminl := h.longs _ hmin
  have hmaxl := h.longs _ hmax
  refine scaled_packs h.longs (by omega) h.pos (h.small _ hmin _ hmax) ?_
  intro v hv
  have := hminle v hv
  have := hmaxle v hv
  exact ⟨by omega, by omega, h.dvd _ hmin v hv⟩

theorem blockPacked_length_le (gcd : Int) (values : List Int) :
    (blockPacked gcd values).length ≤ 8 * values.length + 3 := by
  obtain ⟨hbits, -⟩ := unsignedBitsRequired_spec
    ((asI 64 (blockMax values - blockMin values)).tdiv gcd)
  have hle := directBytes_length_le hbits
    (values.map fun v => (asI 64 (v - blockMin values)).tdiv gcd)
  rwa [length_map] at hle

theorem blockPacked_length_lt (gcd : Int) (hlen : values.length ≤ numericBlockSize) :
    (blockPacked gcd values).length < 2 ^ 31 := by
  have hle := blockPacked_length_le gcd values
  have hfull : numericBlockSize = 16384 := rfl
  omega

/-- What is written for a block. -/
theorem writeBlock_eq (h : Divides gcd values) (hne : values ≠ [])
    (hlen : values.length ≤ numericBlockSize) (data : Bytes) :
    writeBlock data values gcd = .ok (data ++ blockBytes gcd values) := by
  have hpacks := block_packs h hne
  have hsize := blockPacked_length_lt gcd hlen
  cases values with
  | nil => exact absurd rfl hne
  | cons first rest =>
    have hmin : rest.foldl min first = blockMin (first :: rest) := rfl
    have hmax : rest.foldl max first = blockMax (first :: rest) := rfl
    rw [writeBlock, blockBytes]
    simp only [hmin, hmax]
    split
    · rw [writeLong_eq, writeByte, append_assoc]
      rfl
    · have hall := DirectWriter.writeAll_eq hpacks.1 hpacks.2.1 []
      have hwrite : DirectWriter.writeAll []
          (unsignedBitsRequired ((asI 64 (blockMax (first :: rest) -
            blockMin (first :: rest))).tdiv gcd))
          ((first :: rest).map fun v => (asI 64 (v - blockMin (first :: rest))).tdiv gcd) =
            .ok (blockPacked gcd (first :: rest)) := hall
      rw [hwrite, ok_bind, tryConvert_ok (i32_holds hsize), ok_bind, pure_eq_ok, writeInt_eq,
        writeLong_eq, writeByte, writeBytes]
      simp only [append_assoc, cons_append, nil_append]
      rfl

theorem blocksBytes_append (gcd : Int) (a b : List (List Int)) :
    blocksBytes gcd (a ++ b) = blocksBytes gcd a ++ blocksBytes gcd b :=
  flatMap_append

/-- Behind the starts of some blocks come those of the next ones. -/
theorem blockStarts_append (gcd : Int) (base : Nat) (groups : List (List Int)) (values : List Int) :
    blockStarts gcd base (groups ++ [values]) = blockStarts gcd base groups ++
      [base + (blocksBytes gcd (groups ++ [values])).length] := by
  induction groups generalizing base with
  | nil => simp [blockStarts, blocksBytes]
  | cons group groups ih =>
    rw [cons_append, blockStarts, ih, blockStarts, cons_append]
    simp [blocksBytes, Nat.add_assoc]

/-- A block takes at most eight bytes for a value, and sixteen more. -/
theorem blocksBytes_length_le (gcd : Int) (groups : List (List Int)) :
    (blocksBytes gcd groups).length ≤ 8 * groups.flatten.length + 16 * groups.length := by
  induction groups with
  | nil => exact Nat.zero_le _
  | cons values groups ih =>
    have hpacked := blockPacked_length_le gcd values
    have hfirst : (blockBytes gcd values).length ≤ 8 * values.length + 16 := by
      unfold blockBytes
      split
      · rw [length_cons, intLE_length]
        omega
      · rw [length_append, length_append, length_cons, intLE_length, intLE_length]
        omega
    rw [blocksBytes] at ih ⊢
    rw [flatMap_cons, length_append, flatten_cons, length_append, length_cons]
    omega

theorem blockStarts_length (gcd : Int) (base : Nat) (groups : List (List Int)) :
    (blockStarts gcd base groups).length = groups.length + 1 := by
  induction groups generalizing base with
  | nil => rfl
  | cons values groups ih => rw [blockStarts, length_cons, ih, length_cons]

/-- The blocks of some values and their jump table. -/
theorem blocks_length_le (gcd : Int) (base : Nat) (values : List Int) :
    (blocksBytes gcd (chunks numericBlockSize values) ++
      jumpTableBytes gcd base
        (chunks numericBlockSize values)).length ≤ 32 * values.length + 8 := by
  have hpos : 0 < numericBlockSize := by decide
  have hblocks := blocksBytes_length_le gcd (chunks numericBlockSize values)
  have hcount := length_chunks_le hpos values
  rw [chunks_flatten hpos] at hblocks
  rw [length_append, jumpTableBytes, flatMap_length fun _ _ => intLE_length 8 _, blockStarts_length]
  omega

/-- Some full blocks have been written and the buffer is not full. -/
structure BlocksState.Holds (base : Bytes) (gcd : Int) (groups : List (List Int))
    (s : BlocksState) : Prop where
  data_eq : s.data = base ++ blocksBytes gcd groups
  offsets_eq : blockStarts gcd base.length groups = s.offsets ++ [s.data.length]
  full : ∀ group ∈ groups, group.length = numericBlockSize
  buffer_lt : s.buffer.length < numericBlockSize

/-- Flushing appends the buffer as the next block. -/
theorem BlocksState.flush_eq (hdata : s.data = base ++ blocksBytes gcd groups)
    (hoffsets : blockStarts gcd base.length groups = s.offsets ++ [s.data.length])
    (hdivides : Divides gcd s.buffer) (hne : s.buffer ≠ [])
    (hlen : s.buffer.length ≤ numericBlockSize) :
    ∃ s', s.flush gcd = .ok s' ∧ s'.data = base ++ blocksBytes gcd (groups ++ [s.buffer]) ∧
      blockStarts gcd base.length (groups ++ [s.buffer]) = s'.offsets ++ [s'.data.length] ∧
      s'.buffer = [] := by
  have hdata' : s.data ++ blockBytes gcd s.buffer =
      base ++ blocksBytes gcd (groups ++ [s.buffer]) := by
    rw [hdata, blocksBytes_append, append_assoc]
    simp [blocksBytes]
  refine ⟨⟨s.data ++ blockBytes gcd s.buffer, s.offsets ++ [s.data.length], []⟩, ?_, hdata', ?_,
    rfl⟩
  · rw [flush, writeBlock_eq hdivides hne hlen]
    rfl
  · rw [blockStarts_append, hoffsets, hdata', length_append]

/-- One value. -/
theorem BlocksState.add_holds (h : s.Holds base gcd groups)
    (hdivides : Divides gcd (s.buffer ++ [v])) :
    ∃ s' groups', BlocksState.add gcd s v = .ok s' ∧ s'.Holds base gcd groups' ∧
      groups'.flatten ++ s'.buffer = groups.flatten ++ s.buffer ++ [v] := by
  have hlt := h.buffer_lt
  unfold BlocksState.add
  dsimp only
  split
  · rename_i hfull
    obtain ⟨s', hflush, hdata, hoffsets, hbuffer⟩ :=
      flush_eq (s := ⟨s.data, s.offsets, s.buffer ++ [v]⟩) h.data_eq h.offsets_eq hdivides
        (by simp) hfull.le
    refine ⟨s', groups ++ [s.buffer ++ [v]], hflush, ⟨hdata, hoffsets, ?_, ?_⟩, ?_⟩
    · exact forall_mem_append.mpr ⟨h.full, forall_mem_singleton.mpr hfull⟩
    · rw [hbuffer]
      decide
    · rw [hbuffer]
      simp
  · rename_i hnot
    refine ⟨_, groups, rfl, ⟨h.data_eq, h.offsets_eq, h.full, ?_⟩, by simp⟩
    rw [length_append, length_singleton] at hnot ⊢
    omega

/-- All values. -/
theorem BlocksState.addAll_holds (h : s.Holds base gcd groups) (values : List Int)
    (hdivides : Divides gcd (groups.flatten ++ s.buffer ++ values)) :
    ∃ s' groups', values.foldlM (BlocksState.add gcd) s = .ok s' ∧ s'.Holds base gcd groups' ∧
      groups'.flatten ++ s'.buffer = groups.flatten ++ s.buffer ++ values := by
  induction values generalizing s groups with
  | nil => exact ⟨s, groups, rfl, h, by rw [append_nil]⟩
  | cons v values ih =>
    obtain ⟨s₁, groups₁, hadd, hholds, hflat⟩ := add_holds (v := v) h
      (hdivides.subset (by simp only [mem_append, mem_cons]; tauto))
    have hrest : groups.flatten ++ s.buffer ++ v :: values =
        groups₁.flatten ++ s₁.buffer ++ values := by
      rw [hflat, append_assoc _ [v], singleton_append]
    rw [hrest] at hdivides
    obtain ⟨s₂, groups₂, hall, hholds₂, hflat₂⟩ := ih hholds hdivides
    refine ⟨s₂, groups₂, ?_, hholds₂, hflat₂.trans hrest.symm⟩
    rw [foldlM_cons, hadd]
    exact hall

/-- The blocks of all values and the jump table behind them. -/
theorem writeValuesMultipleBlocks_eq (hdivides : Divides gcd entries.values) {data : Bytes}
    (hsize : data.length + (32 * entries.values.length + 8) < 2 ^ 63) :
    writeValuesMultipleBlocks data entries gcd =
      .ok (data ++ (blocksBytes gcd (chunks numericBlockSize entries.values) ++
          jumpTableBytes gcd data.length (chunks numericBlockSize entries.values)),
        ((data.length + (blocksBytes gcd (chunks numericBlockSize entries.values)).length : Nat) :
          Int)) := by
  have hpos : 0 < numericBlockSize := by decide
  have hstart : BlocksState.Holds data gcd [] ⟨data, [], []⟩ :=
    ⟨(append_nil _).symm, rfl, by simp, hpos⟩
  obtain ⟨s, groups, hall, hholds, hflat⟩ :=
    BlocksState.addAll_holds hstart entries.values (by simpa using hdivides)
  have hvalues : entries.values = groups.flatten ++ s.buffer := by simpa using hflat.symm
  have hchunks : chunks numericBlockSize entries.values =
      groups ++ chunks numericBlockSize s.buffer := by
    rw [hvalues, chunks_flatten_append hpos hholds.full]
  obtain ⟨s', hlast, hdata, hoffsets⟩ : ∃ s',
      (if s.buffer ≠ [] then s.flush gcd else .ok s) = .ok s' ∧
      s'.data = data ++ blocksBytes gcd (chunks numericBlockSize entries.values) ∧
      blockStarts gcd data.length (chunks numericBlockSize entries.values) =
        s'.offsets ++ [s'.data.length] := by
    by_cases hne : s.buffer = []
    · rw [if_neg (by simpa using hne), hchunks, hne, chunks_nil, append_nil]
      exact ⟨s, rfl, hholds.data_eq, hholds.offsets_eq⟩
    · obtain ⟨s', hflush, hdata, hoffsets, -⟩ := BlocksState.flush_eq hholds.data_eq
        hholds.offsets_eq (hdivides.subset fun v hv => by
          rw [hvalues]
          exact mem_append_right _ hv) hne hholds.buffer_lt.le
      rw [if_pos hne, hchunks, chunks_of_length_le hne hholds.buffer_lt.le]
      exact ⟨s', hflush, hdata, hoffsets⟩
  have htable : s'.offsets.foldl (fun out (offset : Nat) => writeLong out offset) s'.data =
      s'.data ++ s'.offsets.flatMap fun (offset : Nat) => intLE 8 offset := by
    have hlongs := foldl_writeLong (s'.offsets.map fun (offset : Nat) => (offset : Int)) s'.data
    rwa [foldl_map, flatMap_map] at hlongs
  rw [writeValuesMultipleBlocks, foldlM_entries, hall, ok_bind, hlast, ok_bind]
  have hlength : s'.data.length =
      data.length + (blocksBytes gcd (chunks numericBlockSize entries.values)).length := by
    rw [hdata, length_append]
  have hlt : s'.data.length < 2 ^ 63 := by
    have hle := blocks_length_le gcd data.length entries.values
    rw [length_append] at hle
    omega
  rw [tryConvert_ok (i64_holds hlt), ok_bind, pure_eq_ok, htable, writeLong_eq, jumpTableBytes,
    hoffsets, flatMap_append, ← hlength, hdata]
  simp [append_assoc]

/-! ## The skip index -/

/-- Eight intervals of a level make one of the next. -/
theorem buildLevel_length (accumulators : List SkipAccumulator) :
    ∃ level, buildLevel accumulators = .ok level ∧ level.length = accumulators.length / 8 := by
  unfold buildLevel
  obtain ⟨level, hlevel, hlen⟩ := mapM_exists
    (l := pieces (accumulators.length / 8) 8 accumulators) (f := SkipAccumulator.merge) (by
      intro piece hpiece
      have hlength := length_of_mem_pieces (Nat.mul_div_le _ _) hpiece
      cases piece with
      | nil => simp at hlength
      | cons a piece => exact ⟨_, rfl⟩)
  exact ⟨level, hlevel, by rw [hlen, pieces_length]⟩

/-- Where intervals of a level begin, the level has an interval. -/
theorem getLevels_spec {index size level : Nat} (hindex : index < size)
    (hlevel : level < getLevels index size) : level < 4 ∧ index / 8 ^ level < size / 8 ^ level := by
  have hfits : ∀ top, top ≤ 3 → level ≤ top → 8 ^ top ≤ size - index →
      index / 8 ^ level < size / 8 ^ level := by
    intro top _ hle hsize
    have hpow : 8 ^ level ≤ 8 ^ top := Nat.pow_le_pow_right (by decide) hle
    calc index / 8 ^ level < index / 8 ^ level + 1 := Nat.lt_succ_self _
      _ = (index + 8 ^ level) / 8 ^ level := (Nat.add_div_right _ (by positivity)).symm
      _ ≤ size / 8 ^ level := Nat.div_le_div_right (by omega)
  have hone : level < 1 → level < 4 ∧ index / 8 ^ level < size / 8 ^ level := by
    intro h
    obtain rfl : level = 0 := by omega
    exact ⟨by decide, by simpa using hindex⟩
  unfold getLevels at hlevel
  split at hlevel
  · dsimp only at hlevel
    split at hlevel
    · rename_i top hfind
      have hmem := mem_of_find?_eq_some hfind
      have hprop := find?_some hfind
      simp only [decide_eq_true_eq] at hprop
      have htop : top ≤ 3 := by
        simp only [mem_cons, not_mem_nil, or_false] at hmem
        omega
      refine ⟨by omega, hfits top htop (by omega) ?_⟩
      have hpow : 1 <<< (skipIndexLevelShift * top) = 8 ^ top := by
        rw [Nat.one_shiftLeft, Nat.pow_mul]
        rfl
      rw [← hpow]
      exact hprop.1
    · exact hone hlevel
  · exact hone hlevel

theorem getLevels_le {index size : Nat} (hindex : index < size) : getLevels index size ≤ 4 := by
  by_contra hmore
  exact absurd (getLevels_spec hindex (not_le.mp hmore)).1 (lt_irrefl 4)

theorem writeInterval_eq (data : Bytes) (a : SkipAccumulator) :
    ∃ more, writeInterval data a = data ++ more ∧ more.length = 28 := by
  unfold writeInterval
  simp only [writeInt_eq, writeLong_eq, append_assoc]
  exact ⟨_, rfl, by simp⟩

/-- Steps that append some bytes append them as a whole. -/
theorem foldlM_appends {α : Type} {l : List α} {f : Bytes → α → Result Bytes} {k : Nat}
    (h : ∀ a ∈ l, ∀ out, ∃ more, f out a = .ok (out ++ more) ∧ more.length ≤ k) (out : Bytes) :
    ∃ more, l.foldlM f out = .ok (out ++ more) ∧ more.length ≤ k * l.length := by
  induction l generalizing out with
  | nil => exact ⟨[], by rw [append_nil]; rfl, Nat.zero_le _⟩
  | cons a l ih =>
    obtain ⟨first, hfirst, hlen⟩ := h a mem_cons_self out
    obtain ⟨rest, hrest, hlen'⟩ := ih (forall_mem_cons.mp h).2 (out ++ first)
    refine ⟨first ++ rest, ?_, ?_⟩
    · rw [foldlM_cons, hfirst, ok_bind, hrest, append_assoc]
    · rw [length_append, length_cons, Nat.mul_succ]
      omega

/-- An interval takes a byte, and 28 for each of at most four levels. -/
theorem writeLevelsAt_appends {levels : List (List SkipAccumulator)} {total index : Nat}
    (hlength : ∀ level < 4, (levels.getD level []).length = total / 8 ^ level)
    (hindex : index < total) (data : Bytes) :
    ∃ more, writeLevelsAt levels total data index = .ok (data ++ more) ∧ more.length ≤ 113 := by
  suffices h : ∃ more, writeLevelsAt levels total data index =
      .ok (writeByte data (UInt8.ofNat (getLevels index total)) ++ more) ∧
        more.length ≤ 28 * (range (getLevels index total)).reverse.length by
    obtain ⟨more, hmore, hlen⟩ := h
    have hfour := getLevels_le hindex
    rw [length_reverse, length_range] at hlen
    refine ⟨_, hmore.trans (by rw [writeByte, append_assoc]), ?_⟩
    rw [length_append, length_singleton]
    omega
  refine foldlM_appends (fun level hlevel out => ?_) _
  rw [mem_reverse, mem_range] at hlevel
  obtain ⟨hfour, hbound⟩ := getLevels_spec hindex hlevel
  rw [← hlength level hfour] at hbound
  have hshift : index >>> (skipIndexLevelShift * level) = index / 8 ^ level := by
    rw [Nat.shiftRight_eq_div_pow, Nat.pow_mul]
    rfl
  rw [hshift, getElem?_eq_getElem hbound]
  obtain ⟨more, hmore, hlen⟩ := writeInterval_eq out
    ((levels.getD level []).get ⟨index / 8 ^ level, hbound⟩)
  exact ⟨more, congrArg Except.ok hmore, hlen.le⟩

/-- The levels are written behind the data, in bounded space. -/
theorem writeLevels_appends (accumulators : List SkipAccumulator) (data : Bytes) :
    ∃ more, writeLevels data accumulators = .ok (data ++ more) ∧
      more.length ≤ 113 * accumulators.length := by
  obtain ⟨level1, h1, hlen1⟩ := buildLevel_length accumulators
  obtain ⟨level2, h2, hlen2⟩ := buildLevel_length level1
  obtain ⟨level3, h3, hlen3⟩ := buildLevel_length level2
  have hlength : ∀ level < 4, ([accumulators, level1, level2, level3].getD level []).length =
      accumulators.length / 8 ^ level := by
    rintro (_ | _ | _ | _ | level) hfour
    · simp
    · simpa using hlen1
    · simp only [getD_cons_succ, getD_cons_zero, hlen2, hlen1, Nat.div_div_eq_div_mul]
      rfl
    · simp only [getD_cons_succ, getD_cons_zero, hlen3, hlen2, hlen1, Nat.div_div_eq_div_mul]
      rfl
    · omega
  obtain ⟨more, hmore, hlen⟩ := foldlM_appends
    (fun index hindex => writeLevelsAt_appends hlength (mem_range.mp hindex)) data
  rw [length_range] at hlen
  refine ⟨more, ?_, hlen⟩
  unfold writeLevels
  rw [h1, ok_bind, h2, ok_bind, h3, ok_bind]
  exact hmore

/-- The intervals that are still to be written. -/
def SkipState.pending (s : SkipState) : Nat :=
  s.accumulators.length + s.accumulator.toList.length

/-- Data has been appended. With the intervals that are pending it has not grown by more than `k`
intervals. -/
def SkipState.Grows (k : Nat) (s s' : SkipState) : Prop :=
  ∃ more, s'.data = s.data ++ more ∧ more.length + 113 * s'.pending ≤ 113 * (s.pending + k)

theorem SkipState.Grows.trans {k k' : Nat} {s s' s'' : SkipState} (h : s.Grows k s')
    (h' : s'.Grows k' s'') : s.Grows (k + k') s'' := by
  obtain ⟨more, hdata, hlen⟩ := h
  obtain ⟨more', hdata', hlen'⟩ := h'
  refine ⟨more ++ more', by rw [hdata', hdata, append_assoc], ?_⟩
  rw [length_append]
  omega

/-- Intervals are written when there are enough. -/
theorem SkipState.writeFull_grows (s : SkipState) : ∃ s', s.writeFull = .ok s' ∧ s.Grows 0 s' := by
  unfold SkipState.writeFull
  split
  · obtain ⟨more, hmore, hlen⟩ := writeLevels_appends s.accumulators s.data
    rw [hmore]
    refine ⟨_, rfl, more, rfl, ?_⟩
    simp only [pending, length_nil]
    omega
  · exact ⟨s, rfl, [], (append_nil _).symm, le_of_eq (Nat.zero_add _)⟩

/-- One document. -/
theorem SkipState.addDoc_grows (size : Int) (s : SkipState) (entry : Nat × List Int) :
    ∃ s', SkipState.addDoc size s entry = .ok s' ∧ s.Grows 1 s' := by
  unfold SkipState.addDoc
  cases hacc : s.accumulator with
  | none =>
    refine ⟨_, rfl, [], (append_nil _).symm, ?_⟩
    simp [pending, hacc]
  | some a =>
    dsimp only
    by_cases hdone : a.isDone size entry.2.length (entry.2.headD 0) entry.1 = true
    · obtain ⟨s', hfull, hgrows⟩ := (s.complete a).writeFull_grows
      rw [if_pos hdone, hfull]
      have hpending : (s.complete a).pending = s.pending := by
        simp [pending, complete, hacc]
      obtain ⟨more, hdata, hlen⟩ := hgrows
      refine ⟨_, rfl, more, hdata, ?_⟩
      rw [hpending] at hlen
      simp only [pending, Option.toList_some, length_singleton] at hlen ⊢
      omega
    · rw [if_neg hdone]
      refine ⟨_, rfl, [], (append_nil _).symm, ?_⟩
      simp [pending, hacc]

/-- All documents. -/
theorem SkipState.foldlM_grows (size : Int) (entries : Entries) (s : SkipState) :
    ∃ s', entries.foldlM (SkipState.addDoc size) s = .ok s' ∧ s.Grows entries.length s' := by
  induction entries generalizing s with
  | nil => exact ⟨s, rfl, [], (append_nil _).symm, le_of_eq (Nat.zero_add _)⟩
  | cons entry entries ih =>
    obtain ⟨s₁, hfirst, hgrows₁⟩ := SkipState.addDoc_grows size s entry
    obtain ⟨s₂, hrest, hgrows₂⟩ := ih s₁
    refine ⟨s₂, ?_, ?_⟩
    · rw [foldlM_cons, hfirst]
      exact hrest
    · rw [length_cons, Nat.add_comm]
      exact hgrows₁.trans hgrows₂

/-- A skip index adds to the data, and its entry to the metadata. -/
theorem writeSkipIndex_appends (c : DocValuesConsumer) (entries : Entries) :
    ∃ (more : Bytes) (skipper : DocValuesSkipperEntry), c.writeSkipIndex entries = .ok { c with
      data := c.data ++ more
      metaOut := c.metaOut ++ skipper.bytes } ∧ more.length ≤ 113 * entries.length := by
  obtain ⟨s, hfold, more, hdata, hlen⟩ := SkipState.foldlM_grows c.skipIndexIntervalSize entries
    ⟨c.data, -2 ^ 63, 2 ^ 63 - 1, 0, -1, [], none⟩
  have hlast : ∃ more', (if (s.accumulator.elim s s.complete).accumulators ≠ [] then
      writeLevels (s.accumulator.elim s s.complete).data
        (s.accumulator.elim s s.complete).accumulators
      else .ok (s.accumulator.elim s s.complete).data) = .ok (c.data ++ more') ∧
        more'.length ≤ 113 * entries.length := by
    have hsame : (s.accumulator.elim s s.complete).data = c.data ++ more ∧
        (s.accumulator.elim s s.complete).accumulators.length = s.pending := by
      rw [← hdata, SkipState.pending]
      cases s.accumulator with
      | none => exact ⟨rfl, rfl⟩
      | some a => exact ⟨rfl, length_append⟩
    have hstart : more.length + 113 * s.pending ≤ 113 * entries.length := by
      simpa [SkipState.pending] using hlen
    split
    · obtain ⟨more', hmore, hlen'⟩ := writeLevels_appends
        (s.accumulator.elim s s.complete).accumulators (s.accumulator.elim s s.complete).data
      refine ⟨more ++ more', by rw [hmore, hsame.1, append_assoc], ?_⟩
      rw [hsame.2] at hlen'
      rw [length_append]
      omega
    · exact ⟨more, congrArg Except.ok hsame.1, by omega⟩
  obtain ⟨more', hmore, hlen'⟩ := hlast
  refine ⟨more', ⟨c.data.length, ((c.data ++ more').length - c.data.length : Nat),
    (s.accumulator.elim s s.complete).globalMinValue,
    (s.accumulator.elim s s.complete).globalMaxValue,
    (s.accumulator.elim s s.complete).globalDocCount,
    (s.accumulator.elim s s.complete).maxDocId⟩, ?_, hlen'⟩
  unfold DocValuesConsumer.writeSkipIndex
  rw [hfold, ok_bind]
  dsimp only
  rw [hmore, ok_bind, pure_eq_ok]
  simp only [writeLong_eq, writeInt_eq, DocValuesSkipperEntry.bytes, append_assoc]

/-! ## Documents -/

theorem defaultPower_valid : IndexedDISI.ValidPower defaultDenseRankPower := by
  decide

variable {c : DocValuesConsumer}

theorem at_end (data more : Bytes) : At (data ++ more) data.length more := by
  have hat := at_of_append data more []
  rwa [append_nil] at hat

/-- The documents are written, and found at the location. -/
theorem writeDocsWithField_ok (f : FieldValues c.maxDoc) (hmax : c.maxDoc ≤ noMoreDocs)
    (hsize : c.data.length < 2 ^ 63) :
    ∃ (more : Bytes) (l : DocsLocation),
      c.writeDocsWithField f.entries f.entries.length = .ok { c with
        data := c.data ++ more
        metaOut := c.metaOut ++ l.bytes } ∧ more.length < 2 ^ 32 ∧
      l.Valid ∧ DocsAt (c.data ++ more) c.maxDoc f.entries.docs l := by
  have hlength : f.entries.docs.length = f.entries.length := length_map _
  have hlt := f.docs_lt
  unfold DocValuesConsumer.writeDocsWithField
  by_cases hzero : f.entries.length = 0
  · refine ⟨[], ⟨-2, 0, -1, -1⟩, ?_, by decide, ⟨rfl, by decide, rfl, rfl⟩, .empty rfl ?_⟩
    · rw [if_pos hzero]
      simp only [writeLong_eq, writeShort_eq, writeByte, append_nil,
        DocsLocation.bytes, append_assoc]
      rfl
    · exact length_eq_zero_iff.mp (hlength.trans hzero)
  · rw [if_neg hzero]
    by_cases hall : f.entries.length = c.maxDoc
    · refine ⟨[], ⟨-1, 0, -1, -1⟩, ?_, by decide, ⟨rfl, by decide, rfl, rfl⟩, .dense rfl ?_⟩
      · rw [if_pos hall]
        simp only [writeLong_eq, writeShort_eq, writeByte, append_nil,
          DocsLocation.bytes, append_assoc]
        rfl
      · exact f.increasing.eq_range hlt (hlength.trans hall)
    · obtain ⟨blocks, hasc, hdocs, hwrite⟩ := IndexedDISI.writeBitset_layout
        f.increasing (fun d hd => (hlt d hd).trans_le hmax) defaultPower_valid c.data
      have hlayout := IndexedDISI.layout_length_lt defaultPower_valid hasc
      refine ⟨layout defaultDenseRankPower blocks, ⟨c.data.length,
        (layout defaultDenseRankPower blocks).length, asI 16 (entryCount blocks),
        defaultDenseRankPower⟩, ?_, hlayout, ⟨?_, ?_, ?_, rfl⟩, ?_⟩
      · rw [if_neg hall, hwrite, ok_bind]
        simp only [writeLong_eq, writeShort_eq, writeByte, DocsLocation.bytes, append_assoc,
          length_append, Nat.add_sub_cancel_left, pure_eq_ok]
      · exact asI_of_range (by decide) (by dsimp only; omega) (by push_cast; omega)
      · dsimp only
        omega
      · dsimp only
        exact asI_asI 16 _
      · exact .sparse c.data.length blocks rfl hsize hasc hdocs (at_end _ _) rfl (by dsimp only) rfl

/-! ## Values -/

/-- The entry that is written for an encoding. -/
def Encoding.entry (e : Encoding) (l : DocsLocation) (numValues offset length : Nat) (jump : Int) :
    NumericEntry where
  table := e.table
  blockShift := if e.doBlocks then (numericBlockShift : Int) else -1
  bitsPerValue := asI 8 e.numBitsPerValue
  docsWithFieldOffset := l.offset
  docsWithFieldLength := l.length
  jumpTableEntryCount := l.jumpTableEntryCount
  denseRankPower := l.denseRankPower
  numValues := numValues
  minValue := e.min
  gcd := e.gcd
  valuesOffset := offset
  valuesLength := length
  valueJumpTableOffset := jump

/-- The values are written, and found as the encoding says. -/
theorem writeEncoded_ok (hsound : e.Sound entries.values) (hlongs : Longs entries.values)
    {data : Bytes} (hsize : data.length + (32 * entries.values.length + 8) < 2 ^ 63) :
    ∃ more jump, DocValuesConsumer.writeEncoded data entries entries.values.length e =
        .ok (data ++ more, jump) ∧ more.length ≤ 32 * entries.values.length + 8 ∧
      asI 64 jump = jump ∧ ∀ (l : DocsLocation) (numValues : Nat),
        ValuesAt (data ++ more) entries.values
          (e.entry l numValues data.length more.length jump) := by
  unfold DocValuesConsumer.writeEncoded
  cases hblocks : e.doBlocks with
  | true =>
    obtain ⟨hbits, hpos, hdvd, hsmall⟩ := hsound.blocks hblocks
    have hle := blocks_length_le e.gcd data.length entries.values
    rw [if_pos rfl, writeValuesMultipleBlocks_eq ⟨hpos, hlongs, hdvd, hsmall⟩ hsize]
    refine ⟨_, _, rfl, hle, ?_, fun l numValues => ?_⟩
    · rw [length_append] at hle
      exact asI_64 (by omega) (by omega)
    · refine .blocks ?_ ?_ (hsound.ne_nil (by rw [hbits]; decide)) hpos hdvd hsmall
        (at_end data _) rfl rfl (by dsimp only [Encoding.entry]; omega)
      · dsimp only [Encoding.entry]
        rw [hbits]
        decide
      · dsimp only [Encoding.entry]
        rw [hblocks, if_pos rfl]
  | false =>
    rw [if_neg Bool.false_ne_true]
    by_cases hzero : e.numBitsPerValue = 0
    · rw [if_neg (by simpa using hzero)]
      refine ⟨[], -1, by rw [append_nil], Nat.zero_le _, rfl, fun l numValues => .constant ?_ ?_⟩
      · dsimp only [Encoding.entry]
        rw [hzero]
        rfl
      · exact (hsound.constant hzero).2
    · have hpacks := hsound.packs hzero hblocks
      have hle := directBytes_length_le hpacks.1 (entries.values.map e.encode)
      rw [length_map] at hle
      rw [if_pos hzero, writeValuesSingleBlock_eq hpacks, ok_bind]
      refine ⟨_, -1, rfl, by omega, rfl, fun l numValues => ?_⟩
      refine .packed e.numBitsPerValue e.encode ?_ ?_ hpacks.1 (hsound.ne_nil hzero)
        hpacks.2.1 hpacks.2.2 (at_end data _) rfl
      · have hle : e.numBitsPerValue ≤ 64 := by
          have hmem := hpacks.1
          simp only [supportedBitsPerValue, mem_cons, not_mem_nil, or_false] at hmem
          omega
        dsimp only [Encoding.entry]
        exact asI_of_range (by decide) (by omega) (by push_cast; omega)
      · dsimp only [Encoding.entry]
        rw [hblocks, if_neg Bool.false_ne_true]

/-- The bytes of the table that are written are those of the entry. -/
theorem Encoding.writeTable_eq (e : Encoding) (l : DocsLocation) (numValues offset length : Nat)
    (jump : Int) (out : Bytes) :
    e.writeTable out = out ++ (e.entry l numValues offset length jump).tableBytes := by
  have hsize : (e.entry l numValues offset length jump).tableSize = e.tableSize := by
    unfold NumericEntry.tableSize Encoding.tableSize
    dsimp only [Encoding.entry]
    cases e.table with
    | some sorted => rfl
    | none =>
      by_cases hblocks : e.doBlocks = true
      · simp only [if_pos hblocks]
        rfl
      · simp only [if_neg hblocks]
        rfl
  rw [Encoding.writeTable, foldl_writeLong, writeInt_eq, NumericEntry.tableBytes,
    hsize, append_assoc]
  rfl

/-- The bytes of the entry. -/
theorem Encoding.entry_bytes (e : Encoding) (l : DocsLocation) (numValues offset length : Nat)
    (jump : Int) : (e.entry l numValues offset length jump).bytes =
      l.bytes ++ intLE 8 numValues ++ (e.entry l numValues offset length jump).tableBytes ++
        [byteOf (asI 8 e.numBitsPerValue)] ++ intLE 8 e.min ++ intLE 8 e.gcd ++ intLE 8 offset ++
        intLE 8 length ++ intLE 8 jump := by
  rw [NumericEntry.bytes, NumericEntry.valuesBytes]
  dsimp only [Encoding.entry, NumericEntry.docsLocation]
  simp only [append_assoc]

/-- The entry can be read back. -/
theorem Encoding.entry_valid (hsound : e.Sound values) {l : DocsLocation} (hl : l.Valid)
    {numValues offset length : Nat} {jump : Int} (hnum : numValues < 2 ^ 64)
    (hsize : offset + length < 2 ^ 63) (hjump : asI 64 jump = jump) :
    (e.entry l numValues offset length jump).Valid where
  docs := hl
  numValues := hnum
  table table htable := by
    obtain ⟨hlen, hlongs, hblocks, -⟩ := hsound.table table htable
    refine ⟨hlen, hlongs, ?_⟩
    dsimp only [Encoding.entry]
    rw [hblocks, if_neg Bool.false_ne_true]
  blockShift := by
    dsimp only [Encoding.entry]
    cases e.doBlocks <;> decide
  bitsPerValue := by
    dsimp only [Encoding.entry]
    exact asI_asI 8 _
  minValue := asI_of_range (by decide) (by have := hsound.min_long; push_cast; exact this.1)
    (by have := hsound.min_long; push_cast; exact this.2)
  gcd := by
    have hgcd := hsound.gcd_long
    exact asI_of_range (by decide) (by dsimp only [Encoding.entry]; omega)
      (by push_cast; exact hgcd.2)
  valuesOffset := by
    dsimp only [Encoding.entry]
    omega
  valuesLength := by
    dsimp only [Encoding.entry]
    omega
  valueJumpTableOffset := hjump

/-- The values of a field are written as an entry that describes them. -/
theorem writeValues_ok (savesSpace : Int → Int → Bool) (f : FieldValues c.maxDoc)
    (hmax : c.maxDoc ≤ noMoreDocs)
    (hsize : c.data.length + (2 ^ 32 + 32 * f.entries.values.length + 8) < 2 ^ 63) :
    ∃ (more : Bytes) (n : NumericEntry), c.writeValues savesSpace f.entries false =
        .ok ({ c with data := c.data ++ more, metaOut := c.metaOut ++ n.bytes },
          f.entries.length, f.entries.values.length) ∧
      more.length ≤ 2 ^ 32 + 32 * f.entries.values.length + 8 ∧
      n.Describes (c.data ++ more) c.maxDoc f.entries := by
  have hlongs : Longs f.entries.values := f.longs_values
  have hcount := f.length_values_lt hmax
  obtain ⟨hdocs, hnum, -⟩ := Statistics.collect_spec hlongs false
  have hsound := chooseEncoding_sound savesSpace (Statistics.collect_describes hlongs false) hlongs
  obtain ⟨more, l, hwrite, hmore, hvalid, hdocsAt⟩ := writeDocsWithField_ok f hmax (by omega)
  unfold DocValuesConsumer.writeValues
  simp only [Bool.false_eq_true, if_false, ok_bind, hdocs, hnum, hwrite]
  generalize chooseEncoding savesSpace (Statistics.collect f.entries false) = e at hsound
  obtain ⟨more', jump, hencoded, hmore', hjump, hvalues⟩ :=
    @writeEncoded_ok e f.entries hsound hlongs (c.data ++ more) (by rw [length_append]; omega)
  have hbyte : UInt8.ofNat e.numBitsPerValue = byteOf (asI 8 e.numBitsPerValue) := by
    have hle := hsound.bits_le
    rw [byteOf, asU_asI, asU_of_lt (by omega)]
  refine ⟨more ++ more', e.entry l f.entries.values.length (c.data ++ more).length more'.length
    jump, ?_, ?_, ?_⟩
  · have hlen : (c.data ++ more ++ more').length - (c.data ++ more).length = more'.length := by
      rw [length_append, Nat.add_sub_cancel_left]
    rw [hencoded, ok_bind, pure_eq_ok]
    dsimp only
    rw [hlen, hbyte, Encoding.entry_bytes]
    simp only [writeLong_eq, writeByte, append_assoc,
      Encoding.writeTable_eq e l f.entries.values.length (c.data ++ more).length more'.length jump]
  · rw [length_append]
    omega
  · rw [← append_assoc]
    exact ⟨Encoding.entry_valid hsound hvalid (by omega) (by rw [length_append]; omega) hjump, rfl,
      hdocsAt.append more', hvalues l _⟩

/-! ## Sorted-numeric fields -/

/-- The addresses are the numbers of values of the first documents. -/
theorem addresses_eq (entries : Entries) : DocValuesConsumer.addresses entries =
    (range (entries.length + 1)).map fun i => ((Entries.values (entries.take i)).length : Int) := by
  induction entries using List.reverseRecOn with
  | nil => rfl
  | append_singleton entries entry ih =>
    have hstep : DocValuesConsumer.addresses (entries ++ [entry]) =
        DocValuesConsumer.addresses entries ++
          [(DocValuesConsumer.addresses entries).getLastD 0 + entry.2.length] := by
      rw [DocValuesConsumer.addresses, foldl_append]
      rfl
    have hlast : (DocValuesConsumer.addresses entries).getLastD 0 =
        (Entries.values entries).length := by
      rw [ih, range_succ, map_append, getLastD_eq_getLast?]
      simp
    rw [hstep, hlast, ih, length_append, length_singleton, range_succ (n := entries.length + 1),
      map_append]
    congr 1
    · refine map_congr_left fun i hi => ?_
      rw [take_append_of_le_length (by have := mem_range.mp hi; omega)]
    · simp [Entries.values]

/-- One address more than documents. -/
theorem addresses_length (entries : Entries) :
    (DocValuesConsumer.addresses entries).length = entries.length + 1 := by
  rw [addresses_eq, length_map, length_range]

/-- The addresses do not decrease. -/
theorem addresses_sorted (entries : Entries) :
    (DocValuesConsumer.addresses entries).Pairwise (· ≤ ·) := by
  rw [addresses_eq, pairwise_map]
  refine List.Pairwise.imp ?_ pairwise_lt_range
  intro i j hij
  have hpre : entries.take i <+: entries.take j := take_prefix_take_left hij.le
  obtain ⟨rest, hrest⟩ := hpre
  have hvalues : (Entries.values (entries.take j)).length =
      (Entries.values (entries.take i)).length + (Entries.values rest).length := by
    rw [← hrest, Entries.values, flatMap_append, length_append]
    rfl
  omega

theorem addresses_nonneg (hv : v ∈ DocValuesConsumer.addresses entries) : 0 ≤ v := by
  rw [addresses_eq] at hv
  obtain ⟨i, -, rfl⟩ := mem_map.mp hv
  exact Int.natCast_nonneg _

variable (ops : FloatOps)

/-- The three steps of the address writer append the blocks of the running sums. -/
theorem writeAddresses_steps (hlen : entries.length < 2 ^ 31) (metaOut data : Bytes) :
    ∃ w₁ w₂ w₃, DirectMonotonicWriter.getInstance metaOut data ((entries.length : Int) + 1)
        directMonotonicBlockShift = .ok w₁ ∧
      (DocValuesConsumer.addresses entries).foldlM (DirectMonotonicWriter.add ops) w₁ = .ok w₂ ∧
      DirectMonotonicWriter.finish ops w₂ = .ok w₃ ∧
      w₃.metaOut = metaOut ++ metaBytes ops 0 (addressGroups entries) ∧
      w₃.dataOut = data ++ dataBytes ops (addressGroups entries) ∧
      (dataBytes ops (addressGroups entries)).length ≤ 11 * (entries.length + 1) := by
  have hall := DirectMonotonicWriter.writeAll_eq ops metaOut data
    (show 2 ≤ directMonotonicBlockShift by decide) (by decide) (addresses_sorted entries)
    (fun v hv => (by decide : (-2 ^ 63 : Int) ≤ 0).trans (addresses_nonneg hv))
    (by rw [addresses_length]; unfold directMonotonicBlockShift; omega)
  rw [DirectMonotonicWriter.writeAll, addresses_length] at hall
  obtain ⟨w₁, hopen, hall⟩ := bind_eq_ok.mp hall
  obtain ⟨w₂, hadd, hall⟩ := bind_eq_ok.mp hall
  obtain ⟨w₃, hfinish, hall⟩ := bind_eq_ok.mp hall
  rw [pure_eq_ok, Except.ok.injEq, Prod.mk.injEq] at hall
  have hle := DirectMonotonicReader.dataBytes_length_le ops (addressGroups entries)
  rw [addressGroups, chunks_flatten (by decide), addresses_length] at hle
  exact ⟨w₁, w₂, w₃, hopen, hadd, hfinish, hall.1, hall.2, hle⟩

/-- The skip index of a field, if it has one. -/
def skipperBytes (skipper : Option DocValuesSkipperEntry) : Bytes :=
  skipper.elim [] DocValuesSkipperEntry.bytes

/-- The skip index is written if the field has one. -/
theorem writeSkipper_ok (c : DocValuesConsumer) (info : FieldInfo) (entries : Entries) :
    ∃ (more : Bytes) (skipper : Option DocValuesSkipperEntry),
      (skipper.isSome ↔ info.docValuesSkipIndexType ≠ .none) ∧
      (if info.docValuesSkipIndexType ≠ .none then c.writeSkipIndex entries else .ok c) =
        .ok { c with
          data := c.data ++ more
          metaOut := c.metaOut ++ skipperBytes skipper } ∧ more.length ≤ 113 * entries.length := by
  by_cases hskip : info.docValuesSkipIndexType = .none
  · refine ⟨[], none, by simpa using hskip, ?_, Nat.zero_le _⟩
    rw [if_neg (by simpa using hskip), skipperBytes, Option.elim_none, append_nil, append_nil]
  · obtain ⟨more, skipper, hwrite, hlen⟩ := writeSkipIndex_appends c entries
    refine ⟨more, some skipper, by simpa using hskip, ?_, hlen⟩
    rw [if_pos hskip]
    exact hwrite

section

variable (savesSpace : Int → Int → Bool) (info : FieldInfo) (f : FieldValues c.maxDoc)
  (hmax : c.maxDoc ≤ noMoreDocs) (hsize : c.data.length + dataBound f.entries < 2 ^ 63)

include hmax hsize

/-- A field is written with its skip index and an entry that describes the data. -/
theorem doAddSortedNumericField_ok :
    ∃ (more : Bytes) (skipper : Option DocValuesSkipperEntry) (n : SortedNumericEntry),
      (skipper.isSome ↔ info.docValuesSkipIndexType ≠ .none) ∧
      c.doAddSortedNumericField ops savesSpace info f.entries false = .ok { c with
        data := c.data ++ more
        metaOut := c.metaOut ++ (skipperBytes skipper ++ sortedNumericBytes ops f.entries n) } ∧
      more.length ≤ dataBound f.entries ∧ n.Describes ops (c.data ++ more) c.maxDoc f.entries := by
  obtain ⟨more₀, skipper, hskipper, hskip, hmore₀⟩ := writeSkipper_ok c info f.entries
  have hlen : f.entries.length < 2 ^ 31 := by
    have hle := f.length_le
    unfold noMoreDocs at hmax
    omega
  unfold dataBound at hsize ⊢
  obtain ⟨more₁, n, hvalues, hmore₁, hdescribes⟩ := writeValues_ok (c := { c with
    data := c.data ++ more₀
    metaOut := c.metaOut ++ skipperBytes skipper }) savesSpace f hmax
    (by dsimp only; rw [length_append]; omega)
  unfold DocValuesConsumer.doAddSortedNumericField
  rw [hskip, ok_bind, if_neg Bool.false_ne_true]
  dsimp only at hvalues hdescribes ⊢
  rw [hvalues, ok_bind]
  dsimp only
  by_cases hmany : f.entries.length < f.entries.values.length
  · rw [if_pos hmany]
    obtain ⟨w₁, w₂, w₃, hopen, hadd, hfinish, hmeta, hdata, haddresses⟩ :=
      writeAddresses_steps ops hlen
        (writeVInt (writeLong (writeInt (c.metaOut ++ skipperBytes skipper ++ n.bytes)
          f.entries.length) (c.data ++ more₀ ++ more₁).length) directMonotonicBlockShift)
        (c.data ++ more₀ ++ more₁)
    rw [hopen, ok_bind, hadd, ok_bind, hfinish, ok_bind, pure_eq_ok]
    refine ⟨more₀ ++ (more₁ ++ dataBytes ops (addressGroups f.entries)), skipper,
      ⟨n, f.entries.length, some (metaOf ops directMonotonicBlockShift
        (DocValuesConsumer.addresses f.entries)), (c.data ++ more₀ ++ more₁).length,
        (dataBytes ops (addressGroups f.entries)).length⟩, hskipper, ?_, ?_, ?_⟩
    · have hlength : w₃.dataOut.length - (c.data ++ more₀ ++ more₁).length =
          (dataBytes ops (addressGroups f.entries)).length := by
        rw [hdata, length_append, Nat.add_sub_cancel_left]
      rw [sortedNumericBytes, if_pos hmany, hlength, hmeta, hdata]
      simp only [writeInt_eq, writeLong_eq, writeVInt, append_assoc]
    · rw [length_append, length_append]
      omega
    · rw [← append_assoc, ← append_assoc]
      refine ⟨hdescribes.append _, rfl, fun h => absurd hmany h, fun _ => ?_⟩
      refine ⟨rfl, at_end _ _, rfl, length_append.ge, ?_⟩
      simp only [length_append]
      omega
  · rw [if_neg hmany, pure_eq_ok]
    refine ⟨more₀ ++ more₁, skipper, ⟨n, f.entries.length, none, 0, 0⟩, hskipper, ?_, ?_, ?_⟩
    · rw [sortedNumericBytes, if_neg hmany]
      simp only [writeInt_eq, append_assoc, append_nil]
    · rw [length_append]
      omega
    · rw [← append_assoc]
      exact ⟨hdescribes, rfl, fun _ => ⟨rfl, rfl, rfl⟩, fun h => absurd h hmany⟩

/-! ## Fields -/

/-- The metadata of a field in front of its entry. -/
def headerBytes (info : FieldInfo) (type : UInt8) (skipper : Option DocValuesSkipperEntry) :
    Bytes :=
  intLE 4 info.number ++ [type] ++ skipperBytes skipper

/-- A numeric field is written. -/
theorem addNumericField_ok :
    ∃ (more : Bytes) (skipper : Option DocValuesSkipperEntry) (n : NumericEntry),
      (skipper.isSome ↔ info.docValuesSkipIndexType ≠ .none) ∧
      c.addNumericField savesSpace info f.entries = .ok { c with
        data := c.data ++ more
        metaOut := c.metaOut ++ (headerBytes info numericType skipper ++ n.bytes) } ∧
      more.length ≤ dataBound f.entries ∧ n.Describes (c.data ++ more) c.maxDoc f.entries := by
  obtain ⟨more₀, skipper, hskipper, hskip, hmore₀⟩ := writeSkipper_ok
    { c with metaOut := writeByte (writeInt c.metaOut info.number) numericType } info f.entries
  have hlen : f.entries.length < 2 ^ 31 := by
    have hle := f.length_le
    unfold noMoreDocs at hmax
    omega
  unfold dataBound at hsize ⊢
  obtain ⟨more₁, n, hvalues, hmore₁, hdescribes⟩ := writeValues_ok (c := { c with
    data := c.data ++ more₀
    metaOut := writeByte (writeInt c.metaOut info.number) numericType ++
      skipperBytes skipper }) savesSpace f hmax (by dsimp only; rw [length_append]; omega)
  unfold DocValuesConsumer.addNumericField
  dsimp only at hskip hdescribes ⊢
  rw [hskip, ok_bind, hvalues, ok_bind, pure_eq_ok]
  refine ⟨more₀ ++ more₁, skipper, n, hskipper, ?_, ?_, ?_⟩
  · simp only [headerBytes, writeByte, writeInt_eq, append_assoc]
  · rw [length_append]
    omega
  · rw [← append_assoc]
    exact hdescribes

/-- A field of several values is written. -/
theorem addSortedNumericField_ok :
    ∃ (more : Bytes) (skipper : Option DocValuesSkipperEntry) (n : SortedNumericEntry),
      (skipper.isSome ↔ info.docValuesSkipIndexType ≠ .none) ∧
      c.addSortedNumericField ops savesSpace info f.entries = .ok { c with
        data := c.data ++ more
        metaOut := c.metaOut ++ (headerBytes info sortedNumericType skipper ++
          sortedNumericBytes ops f.entries n) } ∧
      more.length ≤ dataBound f.entries ∧ n.Describes ops (c.data ++ more) c.maxDoc f.entries := by
  obtain ⟨more, skipper, n, hskipper, hwrite, hmore, hdescribes⟩ :=
    doAddSortedNumericField_ok (c := { c with
      metaOut := writeByte (writeInt c.metaOut info.number) sortedNumericType }) ops savesSpace info
      f hmax hsize
  refine ⟨more, skipper, n, hskipper, hwrite.trans ?_, hmore, hdescribes⟩
  simp only [headerBytes, writeByte, writeInt_eq, append_assoc]

end

end RLucene.Codecs.Lucene90.DocValues
