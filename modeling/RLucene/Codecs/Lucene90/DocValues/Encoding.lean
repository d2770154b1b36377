import RLucene.Codecs.Lucene90.DocValues.Consumer

/-!
# Statistics and encodings

The pass over the values computes folds: the minimum, the maximum, the common divisor and the set of
unique values. From these follow the two facts that the readers need for the encoding that is
chosen, whichever it is: what is packed for a value fits the width, and undoing it with wrapping
arithmetic gives the value back.
-/

namespace RLucene.Codecs.Lucene90.DocValues

open List Lib Util Util.Packed Index

/-- A list of longs. -/
def Longs (values : List Int) : Prop :=
  ∀ v ∈ values, -2 ^ 63 ≤ v ∧ v < 2 ^ 63

/-! ## The statistics are folds -/

namespace MinMaxTracker

@[simp] theorem finish_min (t : MinMaxTracker) : t.finish.min = t.min := by
  unfold finish
  split <;> rfl

@[simp] theorem finish_max (t : MinMaxTracker) : t.finish.max = t.max := by
  unfold finish
  split <;> rfl

@[simp] theorem finish_numValues (t : MinMaxTracker) : t.finish.numValues = t.numValues := by
  unfold finish
  split <;> rfl

end MinMaxTracker

variable {v : Int}

namespace Statistics

variable {first : Int} {s : Statistics} {values : List Int}

/-- The least value of the finished blocks and the current one. -/
def low (s : Statistics) : Int :=
  min s.minMax.min s.blockMinMax.min

/-- The greatest value of the finished blocks and the current one. -/
def high (s : Statistics) : Int :=
  max s.minMax.max s.blockMinMax.max

/-- The number of values of the finished blocks and the current one. -/
def count (s : Statistics) : Nat :=
  s.minMax.numValues + s.blockMinMax.numValues

/-- The least value so far. -/
theorem addValue_low (hv : v < 2 ^ 63) : (addValue first s v).low = min s.low v := by
  unfold low addValue
  dsimp only
  split
  · simp only [MinMaxTracker.updateFrom, MinMaxTracker.updateValue, MinMaxTracker.nextBlock,
      MinMaxTracker.reset]
    omega
  · simp only [MinMaxTracker.updateValue]
    omega

/-- The greatest value so far. -/
theorem addValue_high (hv : -2 ^ 63 ≤ v) : (addValue first s v).high = max s.high v := by
  unfold high addValue
  dsimp only
  split
  · simp only [MinMaxTracker.updateFrom, MinMaxTracker.updateValue, MinMaxTracker.nextBlock,
      MinMaxTracker.reset]
    omega
  · simp only [MinMaxTracker.updateValue]
    omega

/-- One value more. -/
theorem addValue_count (v : Int) : (addValue first s v).count = s.count + 1 := by
  unfold count addValue
  dsimp only
  split
  · rfl
  · rfl

/-- One induction gives all folds over the values. -/
theorem foldl_addValue (first : Int) (hlongs : Longs values) (s : Statistics) :
    let s' := values.foldl (addValue first) s
    s'.low = values.foldl min s.low ∧ s'.high = values.foldl max s.high ∧
      s'.count = s.count + values.length ∧ s'.gcd = values.foldl (updateGcd first) s.gcd ∧
      s'.uniqueValues = values.foldl insertUnique s.uniqueValues := by
  induction values generalizing s with
  | nil => exact ⟨rfl, rfl, rfl, rfl, rfl⟩
  | cons v values ih =>
    have hv := hlongs v mem_cons_self
    obtain ⟨hlow, hhigh, hcount, hgcd, hunique⟩ :=
      ih (forall_mem_cons.mp hlongs).2 (addValue first s v)
    rw [addValue_low hv.2] at hlow
    rw [addValue_high hv.1] at hhigh
    rw [addValue_count] at hcount
    refine ⟨hlow, hhigh, ?_, hgcd, hunique⟩
    rw [foldl_cons, hcount, length_cons]
    omega

/-- The statistics with another number of documents. -/
def withDocs (s : Statistics) (n : Nat) : Statistics :=
  { s with numDocsWithValue := n }

theorem foldl_addValue_withDocs (values : List Int) (s : Statistics) (n : Nat) :
    values.foldl (addValue first) (s.withDocs n) =
      (values.foldl (addValue first) s).withDocs n := by
  induction values generalizing s with
  | nil => rfl
  | cons v _ ih => exact ih (addValue first s v)

theorem foldl_addValue_numDocs (first : Int) (values : List Int) (s : Statistics) :
    (values.foldl (addValue first) s).numDocsWithValue = s.numDocsWithValue := by
  induction values generalizing s with
  | nil => rfl
  | cons v _ ih => exact ih (addValue first s v)

/-- The number of documents aside, only the sequence of all values matters. -/
theorem foldl_addDoc (entries : Entries) (s : Statistics) :
    entries.foldl (addDoc first) s =
      (entries.values.foldl (addValue first) s).withDocs (s.numDocsWithValue + entries.length) := by
  induction entries generalizing s with
  | nil => rfl
  | cons entry entries ih =>
    have hdoc : addDoc first s entry =
        (entry.2.foldl (addValue first) s).withDocs (s.numDocsWithValue + 1) := by
      rw [← foldl_addValue_numDocs first entry.2 s]
      rfl
    have hvalues : Entries.values (entry :: entries) = entry.2 ++ Entries.values entries := rfl
    rw [foldl_cons, ih, hdoc, foldl_addValue_withDocs, hvalues, foldl_append]
    show withDocs _ (s.numDocsWithValue + 1 + entries.length) = withDocs _ _
    rw [length_cons, Nat.add_assoc, Nat.add_comm 1]
    rfl

variable {entries : Entries}

/-- What a field's statistics are, in terms of all its values. -/
theorem collect_spec (hlongs : Longs entries.values) (ords : Bool) :
    let s := collect entries ords
    s.numDocsWithValue = entries.length ∧ s.minMax.numValues = entries.values.length ∧
      s.minMax.min = entries.values.foldl min (2 ^ 63 - 1) ∧
      s.minMax.max = entries.values.foldl max (-2 ^ 63) ∧
      s.gcd = entries.values.foldl (updateGcd (entries.values.headD 0)) 0 ∧
      s.uniqueValues = entries.values.foldl insertUnique (if ords then none else some []) := by
  obtain ⟨hlow, hhigh, hcount, hgcd, hunique⟩ :=
    foldl_addValue (entries.values.headD 0) hlongs (initial ords)
  unfold collect
  dsimp only
  rw [foldl_addDoc]
  refine ⟨zero_add _, ?_, ?_, ?_, hgcd, hunique⟩
  · rw [MinMaxTracker.finish_numValues]
    exact hcount.trans (zero_add _)
  · rw [MinMaxTracker.finish_min]
    exact hlow
  · rw [MinMaxTracker.finish_max]
    exact hhigh

end Statistics

/-! ## The common divisor -/

/-- The value is in the range in which differences do not overflow. -/
def InHalfRange (v : Int) : Prop :=
  -2 ^ 62 ≤ v ∧ v ≤ 2 ^ 62 - 1

/-- A divisor other than one has been computed from all values: none is extreme, it divides all
differences, and it is positive once two values differ. -/
def IsCommonDivisor (first gcd : Int) (values : List Int) : Prop :=
  gcd = 1 ∨ 0 ≤ gcd ∧ gcd < 2 ^ 63 ∧
    (∀ v ∈ values, InHalfRange v ∧ gcd ∣ v - first) ∧ ((∃ v ∈ values, v ≠ first) → 0 < gcd)

variable {values : List Int}

/-- One value. -/
theorem updateGcd_isCommonDivisor {first gcd : Int}
    (h : IsCommonDivisor first gcd values) (hfirst : first = v ∨ first ∈ values) :
    IsCommonDivisor first (updateGcd first gcd v) (values ++ [v]) := by
  unfold updateGcd
  by_cases hone : gcd = 1
  · rw [if_neg (by simpa using hone)]
    exact .inl hone
  · rw [if_pos hone]
    by_cases hv : -2 ^ 62 ≤ v ∧ v ≤ 2 ^ 62 - 1
    · rw [if_neg (by simpa using hv)]
      rcases h with h | ⟨hnonneg, hlt, hall, hpos⟩
      · exact absurd h hone
      have hfirst' : InHalfRange first := by
        rcases hfirst with rfl | hmem
        · exact hv
        · exact (hall first hmem).1
      unfold InHalfRange at hfirst'
      have hdiff : asI 64 (v - first) = v - first :=
        asI_64 (by omega) (by omega)
      rw [hdiff]
      obtain ⟨hdvd, hdvd', hge, hlt', hpos'⟩ := gcd_spec (a := gcd) (b := v - first)
        (by omega) (by omega)
      refine .inr ⟨hge, hlt', ?_, ?_⟩
      · exact forall_mem_append.mpr ⟨fun u hu => ⟨(hall u hu).1, hdvd.trans (hall u hu).2⟩,
          forall_mem_singleton.mpr ⟨hv, hdvd'⟩⟩
      · rintro ⟨u, hu, hne⟩
        rcases mem_append.mp hu with hu | hu
        · exact hpos' (.inl (hpos ⟨u, hu, hne⟩).ne')
        · rw [mem_singleton.mp hu] at hne
          exact hpos' (.inr (sub_ne_zero.mpr hne))
    · rw [if_pos hv]
      exact .inl rfl

/-- All values. -/
theorem foldl_updateGcd {first : Int} (before values : List Int) {gcd : Int}
    (h : IsCommonDivisor first gcd before) (hfirst : (before ++ values).headD 0 = first) :
    IsCommonDivisor first (values.foldl (updateGcd first) gcd) (before ++ values) := by
  induction values generalizing before gcd with
  | nil => simpa using h
  | cons v values ih =>
    have hhead : first = v ∨ first ∈ before := by
      cases before with
      | nil => exact .inl hfirst.symm
      | cons u before =>
        rw [← hfirst]
        exact .inr mem_cons_self
    have hrest := ih (before ++ [v]) (updateGcd_isCommonDivisor h hhead) (by simpa using hfirst)
    simpa using hrest

/-! ## The unique values -/

theorem foldl_insertUnique_none (values : List Int) : values.foldl insertUnique none = none := by
  induction values with
  | nil => rfl
  | cons _ _ ih => exact ih

/-- A map that has not been dropped holds each value once, and at most 256 of them. -/
theorem foldl_insertUnique {keys keys' : List Int} (before : List Int)
    (h : keys.Nodup ∧ (∀ v, v ∈ keys ↔ v ∈ before) ∧ keys.length ≤ 256)
    (hfold : values.foldl insertUnique (some keys) = some keys') :
    keys'.Nodup ∧ (∀ v, v ∈ keys' ↔ v ∈ before ++ values) ∧ keys'.length ≤ 256 := by
  induction values generalizing before keys with
  | nil =>
    cases hfold
    simpa using h
  | cons v values ih =>
    obtain ⟨hnodup, hmem, hlen⟩ := h
    rw [foldl_cons] at hfold
    simp only [insertUnique] at hfold
    rw [show before ++ v :: values = before ++ [v] ++ values by simp]
    by_cases hv : v ∈ keys
    · rw [if_pos hv] at hfold
      refine ih (before ++ [v]) ⟨hnodup, fun u => ?_, hlen⟩ hfold
      rw [hmem, mem_append, mem_singleton]
      exact ⟨.inl, fun hu => hu.elim id fun hu => hu ▸ (hmem v).mp hv⟩
    · rw [if_neg hv] at hfold
      by_cases hlarge : 256 < keys.length + 1
      · rw [if_pos hlarge, foldl_insertUnique_none] at hfold
        cases hfold
      · rw [if_neg hlarge] at hfold
        refine ih (before ++ [v]) ⟨nodup_cons.mpr ⟨hv, hnodup⟩, fun u => ?_, ?_⟩ hfold
        · rw [mem_cons, hmem, mem_append, mem_singleton]
          exact Or.comm
        · rw [length_cons]
          omega

/-! ## Scaled differences -/

section

variable {d g : Int}

/-- A difference divided by the common divisor, read without sign. -/
theorem asU_scaled (hd : 0 ≤ d) (hd' : d < 2 ^ 64) (hg : 0 < g) (h : g = 1 ∨ d < 2 ^ 63) :
    asU 64 ((asI 64 d).tdiv g) = (d / g).toNat := by
  rcases h with rfl | hsmall
  · rw [Int.tdiv_one, asU_asI, Int.ediv_one, asU]
    omega
  · have hrange : asI 64 d = d := asI_64 (by omega) (by omega)
    have hle : d / g ≤ d := Int.ediv_le_self g hd
    have hnonneg : 0 ≤ d / g := Int.ediv_nonneg hd hg.le
    rw [hrange, Int.tdiv_eq_ediv_of_nonneg hd, asU]
    omega

/-- Multiplying with the divisor and adding the minimum gives back the value. -/
theorem unscale (hd : 0 ≤ d) (hdvd : g ∣ d) (h : g = 1 ∨ d < 2 ^ 63) (min : Int) :
    asI 64 (asI 64 (g * asI 64 ((asI 64 d).tdiv g)) + min) = asI 64 (d + min) := by
  rw [asI_asI_add]
  rcases h with rfl | hsmall
  · rw [Int.tdiv_one, one_mul, asI_asI, asI_asI_add]
  · have hrange : asI 64 d = d := asI_64 (by omega) (by omega)
    rw [hrange, ← asI_asI_add, asI_mul_asI, Int.tdiv_eq_ediv_of_nonneg hd,
      Int.mul_ediv_cancel' hdvd, asI_asI_add]

end

/-! ## The facts behind every encoding -/

/-- The statistics describe the values. -/
structure Statistics.Describes (s : Statistics) (values : List Int) : Prop where
  num_eq : s.minMax.numValues = values.length
  bounds : ∀ v ∈ values, s.minMax.min ≤ v ∧ v ≤ s.minMax.max
  attained : values ≠ [] → s.minMax.min ∈ values ∧ s.minMax.max ∈ values
  ne_nil : s.minMax.min < s.minMax.max → values ≠ []
  min_long : -2 ^ 63 ≤ s.minMax.min ∧ s.minMax.min < 2 ^ 63
  gcd_long : 0 ≤ s.gcd ∧ s.gcd < 2 ^ 63
  gcd_pos : s.minMax.min < s.minMax.max → 0 < s.gcd
  gcd_dvd : ∀ u ∈ values, ∀ v ∈ values, s.gcd ∣ v - u
  gcd_small : ∀ u ∈ values, ∀ v ∈ values, s.gcd = 1 ∨ v - u < 2 ^ 63
  unique : ∀ keys, s.uniqueValues = some keys →
    keys.Nodup ∧ (∀ v, v ∈ keys ↔ v ∈ values) ∧ keys.length ≤ 256

/-- The statistics describe the values. -/
theorem Statistics.collect_describes {entries : Entries} (hlongs : Longs entries.values)
    (ords : Bool) : (collect entries ords).Describes entries.values := by
  obtain ⟨-, hnum, hmin, hmax, hgcd, hunique⟩ := collect_spec hlongs ords
  have hdivisor : IsCommonDivisor (entries.values.headD 0) (collect entries ords).gcd
      entries.values := by
    rw [hgcd]
    exact foldl_updateGcd [] entries.values (.inr ⟨le_rfl, by decide, by simp, by simp⟩) rfl
  have hattained : entries.values ≠ [] → (collect entries ords).minMax.min ∈ entries.values ∧
      (collect entries ords).minMax.max ∈ entries.values := by
    intro hne
    rw [hmin, hmax]
    refine ⟨foldl_min_mem (fun v hv => ?_) hne, foldl_max_mem (fun v hv => (hlongs v hv).1) hne⟩
    have := (hlongs v hv).2
    omega
  have hne : (collect entries ords).minMax.min < (collect entries ords).minMax.max →
      entries.values ≠ [] := by
    intro hlt hnil
    rw [hmin, hmax, hnil] at hlt
    simp at hlt
  refine ⟨hnum, ?_, hattained, hne, ?_, ?_, ?_, ?_, ?_, ?_⟩
  · intro v hv
    rw [hmin, hmax]
    exact ⟨(foldl_min_le _ _).2 v hv, (le_foldl_max _ _).2 v hv⟩
  · by_cases hnil : entries.values = []
    · rw [hmin, hnil]
      decide
    · exact hlongs _ (hattained hnil).1
  · rcases hdivisor with hone | ⟨hnonneg, hlt, -, -⟩
    · rw [hone]
      decide
    · exact ⟨hnonneg, hlt⟩
  · intro hlt
    rcases hdivisor with hone | ⟨-, -, -, hpos⟩
    · rw [hone]
      exact one_pos
    · -- the least and the greatest value are not both the first one
      obtain ⟨hmin', hmax'⟩ := hattained (hne hlt)
      by_cases hfirst : (collect entries ords).minMax.min = entries.values.headD 0
      · exact hpos ⟨_, hmax', by omega⟩
      · exact hpos ⟨_, hmin', hfirst⟩
  · intro u hu v hv
    rcases hdivisor with hone | ⟨-, -, hall, -⟩
    · rw [hone]
      exact one_dvd _
    · have hdiff := dvd_sub (hall v hv).2 (hall u hu).2
      rwa [sub_sub_sub_cancel_right] at hdiff
  · intro u hu v hv
    rcases hdivisor with hone | ⟨-, -, hall, -⟩
    · exact .inl hone
    · have hu' := (hall u hu).1
      have hv' := (hall v hv).1
      unfold InHalfRange at hu' hv'
      exact .inr (by omega)
  · intro keys hkeys
    rw [hunique] at hkeys
    cases ords with
    | true =>
      rw [if_pos rfl, foldl_insertUnique_none] at hkeys
      cases hkeys
    | false =>
      exact foldl_insertUnique [] ⟨nodup_nil, by simp, by simp⟩ hkeys

/-- The value that stands for a packed one. -/
def decode (table : Option (List Int)) (gcd min x : Int) : Option Int :=
  match table with
  | some sorted => sorted[asU 64 x]?
  | none => some (asI 64 (asI 64 (gcd * x) + min))

/-- Packed as one stream, every value fits the width and can be recovered. -/
def Encoding.Packs (e : Encoding) (values : List Int) : Prop :=
  e.numBitsPerValue ∈ supportedBitsPerValue ∧
    Fits e.numBitsPerValue (unsigned (values.map e.encode)) ∧
    ∀ v ∈ values, decode e.table e.gcd e.min (asI 64 (e.encode v)) = some v

/-- Packing the places in a table. -/
theorem table_packs {keys : List Int} (hmem : ∀ v, v ∈ keys ↔ v ∈ values)
    (hlen : keys.length ≤ 256) :
    let sorted := keys.insertionSort (· ≤ ·)
    Encoding.Packs ⟨unsignedBitsRequired (sorted.length - 1 : Int), false, some sorted, 0, 1⟩
      values := by
  intro sorted
  have hsorted : sorted.length = keys.length := length_insertionSort _ _
  have hin : ∀ v ∈ values, v ∈ sorted := fun v hv =>
    (mem_insertionSort _).mpr ((hmem v).mpr hv)
  have hindex : ∀ v ∈ values, sorted.idxOf v % 256 = sorted.idxOf v ∧
      sorted.idxOf v < sorted.length := by
    intro v hv
    have hlt := idxOf_lt_length_of_mem (hin v hv)
    exact ⟨Nat.mod_eq_of_lt (by omega), hlt⟩
  obtain ⟨hbits, hlt⟩ := unsignedBitsRequired_spec (sorted.length - 1 : Int)
  refine ⟨hbits, ?_, ?_⟩
  · intro u hu
    simp only [unsigned, mem_map] at hu
    obtain ⟨_, ⟨v, hv, rfl⟩, rfl⟩ := hu
    obtain ⟨hmod, hidx⟩ := hindex v hv
    simp only [Encoding.encode, if_pos (hin v hv), hmod]
    refine lt_of_le_of_lt ?_ hlt
    rw [asU, asU]
    omega
  · intro v hv
    obtain ⟨hmod, hidx⟩ := hindex v hv
    simp only [Encoding.encode, decode, if_pos (hin v hv), hmod, asU_asI]
    rw [asU_of_lt (by omega)]
    exact getElem?_idxOf (hin v hv)

/-- Packing the multiples of a divisor. -/
theorem scaled_packs {values : List Int} {spread min g : Int} (hlongs : Longs values)
    (hspread : spread < 2 ^ 64) (hg : 0 < g) (hsmall : g = 1 ∨ spread < 2 ^ 63)
    (hvalues : ∀ v ∈ values, 0 ≤ v - min ∧ v - min ≤ spread ∧ g ∣ v - min) :
    Encoding.Packs ⟨unsignedBitsRequired ((asI 64 spread).tdiv g), false, none, min, g⟩ values := by
  obtain ⟨hbits, hlt⟩ := unsignedBitsRequired_spec ((asI 64 spread).tdiv g)
  refine ⟨hbits, ?_, ?_⟩
  · intro u hu
    simp only [unsigned, mem_map] at hu
    obtain ⟨_, ⟨v, hv, rfl⟩, rfl⟩ := hu
    obtain ⟨hnonneg, hle, -⟩ := hvalues v hv
    refine lt_of_le_of_lt ?_ hlt
    show asU 64 ((asI 64 (v - min)).tdiv g) ≤ _
    rw [asU_scaled hnonneg (by omega) hg (hsmall.imp_right fun h => by omega),
      asU_scaled (by omega) hspread hg hsmall]
    exact Int.toNat_le_toNat (Int.ediv_le_ediv hg hle)
  · intro v hv
    obtain ⟨hnonneg, hle, hdvd⟩ := hvalues v hv
    have hv' := hlongs v hv
    show some (asI 64 (asI 64 (g * asI 64 ((asI 64 (v - min)).tdiv g)) + min)) = some v
    rw [unscale hnonneg hdvd (hsmall.imp_right fun h => by omega), sub_add_cancel,
      asI_64 (by omega) (by omega)]

/-- What the readers rely on, whichever encoding has been chosen. -/
structure Encoding.Sound (e : Encoding) (values : List Int) : Prop where
  min_long : -2 ^ 63 ≤ e.min ∧ e.min < 2 ^ 63
  gcd_long : 0 ≤ e.gcd ∧ e.gcd < 2 ^ 63
  bits_le : e.numBitsPerValue ≤ 255
  ne_nil : e.numBitsPerValue ≠ 0 → values ≠ []
  table : ∀ sorted, e.table = some sorted →
    sorted.length ≤ 256 ∧ Longs sorted ∧ e.doBlocks = false ∧ e.numBitsPerValue ≠ 0
  constant : e.numBitsPerValue = 0 → e.doBlocks = false ∧ ∀ v ∈ values, v = e.min
  packs : e.numBitsPerValue ≠ 0 → e.doBlocks = false → e.Packs values
  blocks : e.doBlocks = true → e.numBitsPerValue = 255 ∧ 0 < e.gcd ∧
    (∀ u ∈ values, ∀ v ∈ values, e.gcd ∣ v - u) ∧
    (∀ u ∈ values, ∀ v ∈ values, e.gcd = 1 ∨ v - u < 2 ^ 63)

theorem supported_pos {bits : Nat} (h : bits ∈ supportedBitsPerValue) : bits ≠ 0 ∧ bits ≤ 255 := by
  revert h
  simp only [supportedBitsPerValue, mem_cons, not_mem_nil, or_false]
  omega

/-- An encoding that packs one stream is sound. -/
theorem Encoding.Packs.sound {e : Encoding} (h : e.Packs values)
    (hne : values ≠ []) (hblocks : e.doBlocks = false) (hmin : -2 ^ 63 ≤ e.min ∧ e.min < 2 ^ 63)
    (hgcd : 0 ≤ e.gcd ∧ e.gcd < 2 ^ 63)
    (htable : ∀ sorted, e.table = some sorted → sorted.length ≤ 256 ∧ Longs sorted) :
    e.Sound values := by
  obtain ⟨hpos, hle⟩ := supported_pos h.1
  exact {
    min_long := hmin
    gcd_long := hgcd
    bits_le := hle
    ne_nil := fun _ => hne
    table := fun sorted hsorted =>
      ⟨(htable sorted hsorted).1, (htable sorted hsorted).2, hblocks, hpos⟩
    constant := fun hzero => absurd hzero hpos
    packs := fun _ _ => h
    blocks := fun htrue => by rw [hblocks] at htrue; cases htrue }

/-- Every encoding that can be chosen is sound. -/
theorem chooseEncoding_sound (savesSpace : Int → Int → Bool) {s : Statistics}
    (h : s.Describes values) (hlongs : Longs values) :
    (chooseEncoding savesSpace s).Sound values := by
  unfold chooseEncoding
  dsimp only
  split
  · -- all values are equal to the minimum
    rename_i hge
    refine ⟨h.min_long, h.gcd_long, Nat.zero_le _, fun hne => absurd rfl hne, by simp, ?_,
      fun hne => absurd rfl hne, by simp⟩
    refine fun _ => ⟨rfl, fun v hv => ?_⟩
    have hv' := h.bounds v hv
    exact le_antisymm (hv'.2.trans hge) hv'.1
  · rename_i hlt
    rw [ge_iff_le, not_le] at hlt
    obtain ⟨hmin, hmax⟩ := h.attained (h.ne_nil hlt)
    have hminl := hlongs _ hmin
    have hmaxl := hlongs _ hmax
    split
    · rename_i keys hkeys
      have hunique : s.uniqueValues = some keys := (Option.filter_eq_some_iff.mp hkeys).1
      obtain ⟨-, hmem, hlen⟩ := h.unique keys hunique
      refine (table_packs hmem hlen).sound (h.ne_nil hlt) rfl (by norm_num) (by norm_num) ?_
      rintro sorted ⟨⟩
      refine ⟨(length_insertionSort _ _).trans_le hlen, fun v hv => ?_⟩
      exact hlongs v ((hmem v).mp ((mem_insertionSort _).mp hv))
    · split
      · exact ⟨h.min_long, h.gcd_long, le_rfl, fun _ => h.ne_nil hlt, by simp, by simp, by simp,
          fun _ => ⟨rfl, h.gcd_pos hlt, h.gcd_dvd, h.gcd_small⟩⟩
      · split
        · -- the minimum is dropped when it does not save any bits
          rename_i hzero
          obtain ⟨hgcd, hpos, hbits⟩ := hzero
          have hmaxr : asI 64 s.minMax.max = s.minMax.max :=
            asI_64 (by omega) (by omega)
          have hpacks := @scaled_packs values s.minMax.max 0 1 hlongs (by omega) one_pos (.inl rfl)
            (by
              intro v hv
              have hv' := h.bounds v hv
              exact ⟨by omega, by omega, one_dvd _⟩)
          rw [Int.tdiv_one, hmaxr, hbits] at hpacks
          rw [hgcd, Int.tdiv_one]
          exact hpacks.sound (h.ne_nil hlt) rfl (by norm_num) (by norm_num) (by simp)
        · refine Encoding.Packs.sound ?_ (h.ne_nil hlt) rfl h.min_long h.gcd_long (by simp)
          refine scaled_packs hlongs (by omega) (h.gcd_pos hlt) (h.gcd_small _ hmin _ hmax) ?_
          intro v hv
          have hv' := h.bounds v hv
          exact ⟨by omega, by omega, h.gcd_dvd _ hmin v hv⟩

end RLucene.Codecs.Lucene90.DocValues
