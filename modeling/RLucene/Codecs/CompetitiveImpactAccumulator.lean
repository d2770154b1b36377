import Mathlib.Data.Vector.Defs
import RLucene.Lib.Frontier
import RLucene.Lib.Lists

/-!
# Competitive impacts

An impact is the frequency of a term in a document and the norm of the document. Scores go up with
the frequency and down with the norm, as an unsigned number. An accumulator keeps what it takes to
find the impacts that no other impact beats: for norms that fit a byte the highest frequency, and
for all others a set of impacts that none of the set beats.

A set of impacts is a list in the order of the set. Read `run_isFrontier` first: accumulators that
are filled, merged and cleared in any order give the frontier of the impacts they were given.
-/

namespace RLucene.Codecs

open List hiding Vector
open Lib

/-- A frequency and a norm. -/
structure Impact where
  freq : Int
  norm : BitVec 64
  deriving Repr, DecidableEq

namespace Impact

/-- `Ord`: by frequency; among equal frequencies the larger norm comes first. -/
def lt (a b : Impact) : Bool :=
  a.freq < b.freq || a.freq = b.freq && b.norm.toNat < a.norm.toNat

end Impact

/-- `max_freqs` has one entry for each norm that fits a byte. -/
structure CompetitiveImpactAccumulator where
  maxFreqs : Vector Int 256
  otherFreqNormPairs : List Impact
  deriving DecidableEq

namespace CompetitiveImpactAccumulator

/-- An accumulator without impacts. -/
def new : CompetitiveImpactAccumulator where
  maxFreqs := Vector.replicate 256 0
  otherFreqNormPairs := []

/-- Forget all impacts. -/
def clear (_ : CompetitiveImpactAccumulator) : CompetitiveImpactAccumulator where
  maxFreqs := Vector.replicate 256 0
  otherFreqNormPairs := []

/-- The norm fits a byte. -/
def isByte (norm : BitVec 64) : Prop :=
  -128 ≤ norm.toInt ∧ norm.toInt ≤ 127

/-- Whether it does is decided by its value. -/
instance (norm : BitVec 64) : Decidable (isByte norm) :=
  inferInstanceAs (Decidable (_ ∧ _))

/-- `(norm as i8) as u8`. -/
def index (norm : BitVec 64) : Fin 256 :=
  (norm.setWidth 8).toFin

/-- `norm_index as i8 as i64`. -/
def normOf (index : Nat) : BitVec 64 :=
  (BitVec.ofNat 8 index).signExtend 64

/-- Add an impact to a set, and remove those that it beats. -/
def addEntry (newEntry : Impact) (freqNormPairs : List Impact) : List Impact :=
  let before := freqNormPairs.takeWhile fun e => e.lt newEntry
  let after := freqNormPairs.dropWhile fun e => e.lt newEntry
  if after.head?.any (fun next => next.norm.toNat ≤ newEntry.norm.toNat) then freqNormPairs
  else
    -- Those that the new impact beats are the last ones before it.
    before.rdropWhile (fun e => newEntry.norm.toNat ≤ e.norm.toNat) ++ newEntry :: after

/-- Add an impact. -/
def add (acc : CompetitiveImpactAccumulator) (freq : Int) (norm : BitVec 64) :
    CompetitiveImpactAccumulator :=
  if isByte norm then
    { acc with maxFreqs := acc.maxFreqs.set (index norm) (max acc.maxFreqs[index norm] freq) }
  else { acc with otherFreqNormPairs := addEntry ⟨freq, norm⟩ acc.otherFreqNormPairs }

/-- Add the impacts of another accumulator. -/
def addAll (self acc : CompetitiveImpactAccumulator) : CompetitiveImpactAccumulator where
  maxFreqs := self.maxFreqs.zipWith max acc.maxFreqs
  otherFreqNormPairs :=
    acc.otherFreqNormPairs.foldl (fun pairs entry => addEntry entry pairs) self.otherFreqNormPairs

/-- Take the impacts of another accumulator instead. -/
def copyFrom (_ acc : CompetitiveImpactAccumulator) : CompetitiveImpactAccumulator where
  maxFreqs := acc.maxFreqs
  otherFreqNormPairs := acc.otherFreqNormPairs

/-- An entry of the table is an impact if its frequency is above all before it. -/
def scanEntry (blockIndex : Nat) (state : List Impact × Int) (entry : Int × Nat) :
    List Impact × Int :=
  if entry.1 > state.2 then (state.1 ++ [⟨entry.1, normOf (blockIndex * 16 + entry.2)⟩], entry.1)
  else state

/-- A block of the table is passed over if none of its frequencies is above those before it. -/
def scanBlock (state : List Impact × Int) (block : List Int × Nat) : List Impact × Int :=
  if block.1.max?.getD 0 ≤ state.2 then state else block.1.zipIdx.foldl (scanEntry block.2) state

/-- The impacts that no other beats. -/
def getCompetitiveFreqNormPairs (acc : CompetitiveImpactAccumulator) : List Impact :=
  let impacts := ((chunksExact 16 acc.maxFreqs.toList).zipIdx.foldl scanBlock ([], 0)).1
  if acc.otherFreqNormPairs = [] then impacts
  else impacts.foldl (fun pairs entry => addEntry entry pairs) acc.otherFreqNormPairs

/-! ## Sets of impacts -/

section

variable {seen : Set Impact} {pairs : List Impact} {entry : Impact}

/-- The impacts that none beats: more frequency is a gain, and more norm a cost. -/
abbrev Competitive (seen : Set Impact) (pairs : List Impact) : Prop :=
  IsFrontier Impact.freq (fun e : Impact => e.norm.toNat) seen pairs

/-- An impact is beaten by the first that does not come before it, or by none; in the second case
those after it have more frequency and more norm. -/
theorem addEntry_competitive (h : Competitive seen pairs) (entry : Impact) :
    Competitive (insert entry seen) (addEntry entry pairs) := by
  let first (e : Impact) := e.lt entry
  have hsplit : pairs.takeWhile first ++ pairs.dropWhile first = pairs :=
    takeWhile_append_dropWhile
  have hbefore : ∀ e ∈ pairs.takeWhile first, first e = true := fun e he => mem_takeWhile_imp he
  have hafter : ∀ next ∈ (pairs.dropWhile first).head?, first next = false := by
    intro next hnext
    have hhead := head?_dropWhile_not first pairs
    rw [Option.mem_def.mp hnext] at hhead
    exact hhead
  change Competitive _ (if (pairs.dropWhile first).head?.any _ then pairs
    else (pairs.takeWhile first).rdropWhile _ ++ entry :: pairs.dropWhile first)
  generalize pairs.takeWhile first = before at hsplit hbefore
  generalize pairs.dropWhile first = after at hsplit hafter
  subst hsplit
  obtain ⟨hbeforeInc, hafterInc, -⟩ := pairwise_append.mp h.increasing
  simp only [first, Impact.lt, Bool.or_eq_true, Bool.and_eq_true, decide_eq_true_eq] at hbefore
  simp only [first, Impact.lt, Bool.or_eq_false_iff, Bool.and_eq_false_imp, decide_eq_false_iff_not,
    decide_eq_true_eq] at hafter
  split
  next hbeaten =>
    -- the next entry dominates the new one
    cases after with
    | nil => cases hbeaten
    | cons next after =>
      refine h.insert_dominated (b := next) (by simp) ⟨not_lt.mp (hafter next rfl).1, ?_⟩
      exact of_decide_eq_true hbeaten
  next hbeats =>
    have hrest : ∀ e ∈ after, entry.freq < e.freq ∧ entry.norm.toNat < e.norm.toNat := by
      cases after with
      | nil => simp
      | cons next after =>
        have hnorm : entry.norm.toNat < next.norm.toNat := by simpa using hbeats
        have hfreq : entry.freq < next.freq := by
          obtain ⟨hnot, htie⟩ := hafter next rfl
          refine lt_of_le_of_ne (not_lt.mp hnot) fun heq => htie heq.symm hnorm
        intro e he
        rcases mem_cons.mp he with rfl | he
        · exact ⟨hfreq, hnorm⟩
        · have hmore := (pairwise_cons.mp hafterInc).1 e he
          exact ⟨hfreq.trans hmore.1, hnorm.trans hmore.2⟩
    -- the new entry dominates the last ones before it
    obtain ⟨removed, hremoved, hbeaten⟩ := rdropWhile_spec
      (fun e : Impact => decide (entry.norm.toNat ≤ e.norm.toNat)) before
    have hkept (e : Impact)
        (he : e ∈ before.rdropWhile fun e => decide (entry.norm.toNat ≤ e.norm.toNat)) :
        e.norm.toNat < entry.norm.toNat := by
      refine not_le.mp (of_decide_eq_false (not_of_mem_rdropWhile (hbeforeInc.imp ?_) he))
      intro a b hab hle
      exact decide_eq_true ((of_decide_eq_true hle).trans hab.2.le)
    rw [hremoved] at h
    refine h.insert_split ?_ ?_ hrest
    · intro e he
      have hmem : e ∈ before := by
        rw [hremoved]
        exact mem_append_left _ he
      have hless := hkept e he
      exact ⟨(hbefore e hmem).resolve_right fun htie => absurd htie.2 hless.not_gt, hless⟩
    · intro e he
      have hmem : e ∈ before := by
        rw [hremoved]
        exact mem_append_right _ he
      exact ⟨(hbefore e hmem).elim le_of_lt fun htie => htie.1.le, of_decide_eq_true (hbeaten e he)⟩

/-- Impacts are added to a set one after the other. -/
theorem foldl_addEntry_competitive (h : Competitive seen pairs) (entries : List Impact) :
    Competitive ({e | e ∈ entries} ∪ seen)
      (entries.foldl (fun pairs entry => addEntry entry pairs) pairs) := by
  induction entries generalizing seen pairs with
  | nil => simpa using h
  | cons entry entries ih =>
    have hstep := ih (addEntry_competitive h entry)
    rw [foldl_cons]
    convert hstep using 1
    ext e
    simp only [mem_cons, Set.mem_union, Set.mem_ofPred_eq, Set.mem_insert_iff]
    tauto

end

/-! ## The table of byte norms -/

variable {norm : BitVec 64} {accs : Nat → CompetitiveImpactAccumulator}

section

theorem normOf_toInt (i : Nat) : (normOf i).toInt = Int.bmod i 256 := by
  rw [normOf, BitVec.toInt_signExtend_of_le (by decide), BitVec.toInt_ofNat']

/-- A norm that fits a byte is found at its index. -/
theorem normOf_index (h : isByte norm) : normOf (index norm) = norm := by
  obtain ⟨hlo, hhi⟩ := h
  apply BitVec.eq_of_toInt_eq
  have hindex : ((index norm : Nat) : Int) = norm.toNat % 256 := by
    simp [index]
  rw [normOf_toInt, hindex, Int.bmod_def]
  rw [BitVec.toInt_eq_toNat_cond] at hlo hhi ⊢
  split at hlo <;> omega

/-- Norms increase with their index. -/
theorem normOf_toNat_lt {i j : Nat} (hij : i < j) (hj : j < 256) :
    (normOf i).toNat < (normOf j).toNat := by
  have hnat (k : Nat) (hk : k < 256) :
      (normOf k).toNat = if k < 128 then k else 2 ^ 64 - 256 + k := by
    have hint := normOf_toInt k
    rw [BitVec.toInt_eq_toNat_cond, Int.bmod_def] at hint
    split at hint <;> split <;> omega
  rw [hnat i (by omega), hnat j hj]
  split <;> split <;> omega

/-- The impacts of the table, in the order of their norms. -/
def entries (maxFreqs : Vector Int 256) : List Impact :=
  maxFreqs.toList.zipIdx.map fun entry => ⟨entry.1, normOf entry.2⟩

theorem mem_entries {maxFreqs : Vector Int 256} {e : Impact} :
    e ∈ entries maxFreqs ↔ ∃ i : Fin 256, e = ⟨maxFreqs[i], normOf i⟩ := by
  rw [entries, mem_map]
  constructor
  · rintro ⟨⟨freq, i⟩, hmem, rfl⟩
    obtain ⟨hi, hfreq⟩ := List.getElem_of_getElem? (mem_zipIdx_iff_getElem?.mp hmem)
    refine ⟨⟨i, by simpa using hi⟩, ?_⟩
    rw [← hfreq]
    simp
  · rintro ⟨i, rfl⟩
    refine ⟨(maxFreqs[i], i.val), mem_zipIdx_iff_getElem?.mpr ?_, rfl⟩
    simp

/-- The entries are in the order of their norms. -/
theorem entries_pairwise (maxFreqs : Vector Int 256) :
    (entries maxFreqs).Pairwise fun a b => a.norm.toNat < b.norm.toNat := by
  rw [entries, pairwise_map, pairwise_iff_getElem]
  intro i j hi hj hij
  simp only [getElem_zipIdx, Nat.zero_add]
  exact normOf_toNat_lt hij (by simpa using hj)

/-- A block that is passed over has no impact above the bound. -/
theorem scanBlock_eq (state : List Impact × Int) (block : List Int × Nat) :
    scanBlock state block = (block.1.zipIdx.map fun entry : Int × Nat =>
      (⟨entry.1, normOf (block.2 * 16 + entry.2)⟩ : Impact)).foldl
        (recordStep Impact.freq) state := by
  rw [scanBlock]
  split
  next hmax =>
    symm
    apply foldl_recordStep_of_le
    intro e he
    obtain ⟨⟨freq, i⟩, hmem, rfl⟩ := mem_map.mp he
    have hfreq : freq ∈ block.1 := fst_mem_of_mem_zipIdx hmem
    cases hblock : block.1.max? with
    | none => simp [max?_eq_none_iff.mp hblock] at hfreq
    | some m =>
      rw [hblock] at hmax
      exact ((max?_eq_some_iff.mp hblock).2 freq hfreq).trans hmax
  next => rw [foldl_map]; rfl

/-- The scan by blocks finds the records of all entries. -/
theorem scan_eq (maxFreqs : Vector Int 256) :
    ((chunksExact 16 maxFreqs.toList).zipIdx.foldl scanBlock ([], 0)).1 =
      records Impact.freq 0 (entries maxFreqs) := by
  have hlen : maxFreqs.toList.length = 16 * 16 := by simp
  have hall : (chunksExact 16 maxFreqs.toList).zipIdx.flatMap (fun block =>
      block.1.zipIdx.map fun entry => (⟨entry.1, normOf (block.2 * 16 + entry.2)⟩ : Impact)) =
      entries maxFreqs := by
    have hplaces := pieces_zipIdx 16 16 maxFreqs.toList hlen.ge
    rw [take_of_length_le hlen.le] at hplaces
    rw [entries, ← hplaces, chunksExact, hlen, map_flatMap]
    simp only [map_map, Function.comp_def]
  rw [← hall, ← nil_append (records _ _ _), ← foldl_recordStep, foldl_flatMap]
  congr 2
  funext state block
  exact scanBlock_eq state block

/-- The scan finds the frontier of the entries that were set. -/
theorem scan_competitive (maxFreqs : Vector Int 256) :
    Competitive {e | e ∈ entries maxFreqs ∧ 0 < e.freq}
      ((chunksExact 16 maxFreqs.toList).zipIdx.foldl scanBlock ([], 0)).1 := by
  rw [scan_eq]
  exact isFrontier_records (entries_pairwise maxFreqs) 0

end

/-! ## Accumulators -/

section

variable {acc acc' : CompetitiveImpactAccumulator} {seen seen' : Set Impact}

/-- What an accumulator keeps of the impacts it was given. -/
structure Represents (acc : CompetitiveImpactAccumulator) (seen : Set Impact) : Prop where
  freq_pos : ∀ e ∈ seen, 0 < e.freq
  table_mem : ∀ i : Fin 256, 0 < acc.maxFreqs[i] → ⟨acc.maxFreqs[i], normOf i⟩ ∈ seen
  le_table : ∀ e ∈ seen, isByte e.norm → e.freq ≤ acc.maxFreqs[index e.norm]
  others : Competitive {e | e ∈ seen ∧ ¬isByte e.norm} acc.otherFreqNormPairs

/-- A new accumulator was given nothing. -/
theorem represents_new : Represents new ∅ where
  freq_pos := by simp
  table_mem i hpos := by simp [new] at hpos
  le_table := by simp
  others := isFrontier_nil_iff.mpr (by simp)

/-- One more impact. -/
theorem Represents.add (h : Represents acc seen) {freq : Int} (hfreq : 1 ≤ freq) :
    Represents (acc.add freq norm) (insert ⟨freq, norm⟩ seen) := by
  have hpos : ∀ e ∈ insert (⟨freq, norm⟩ : Impact) seen, 0 < e.freq := by
    rintro e (rfl | he)
    · exact hfreq
    · exact h.freq_pos e he
  rw [CompetitiveImpactAccumulator.add]
  split
  next hbyte =>
    -- the norm goes to the table
    have hget (i : Fin 256) :
        (acc.maxFreqs.set (index norm) (max acc.maxFreqs[index norm] freq))[i] =
        if i = index norm then max acc.maxFreqs[index norm] freq else acc.maxFreqs[i] := by
      simp only [Fin.getElem_fin, Vector.getElem_set, Fin.ext_iff, eq_comm]
    refine ⟨hpos, fun i hi => ?_, ?_, ?_⟩
    · rw [hget] at hi ⊢
      split at hi
      next heq =>
        rw [if_pos heq, heq, normOf_index hbyte]
        rcases le_or_gt acc.maxFreqs[index norm] freq with hle | hgt
        · rw [max_eq_right hle]
          exact Set.mem_insert _ _
        · have hmem := h.table_mem (index norm) (by omega)
          rw [normOf_index hbyte] at hmem
          rw [max_eq_left hgt.le]
          exact Set.mem_insert_of_mem _ hmem
      next hne =>
        rw [if_neg hne]
        exact Set.mem_insert_of_mem _ (h.table_mem i hi)
    · rintro e (rfl | he) hebyte
      · rw [hget, if_pos rfl]
        exact le_max_right _ _
      · have hle := h.le_table e he hebyte
        rw [hget]
        split
        next heq =>
          simp only [heq] at hle
          exact hle.trans (le_max_left _ _)
        next => exact hle
    · refine h.others.enlarge (fun e he => ⟨Set.mem_insert_of_mem _ he.1, he.2⟩) ?_
      rintro e ⟨rfl | he, hother⟩
      · exact absurd hbyte hother
      · exact ⟨e, ⟨he, hother⟩, .refl e⟩
  next hbyte =>
    -- the norm goes to the others
    refine ⟨hpos, fun i hi => Set.mem_insert_of_mem _ (h.table_mem i hi), ?_, ?_⟩
    · rintro e (rfl | he) hebyte
      · exact absurd hebyte hbyte
      · exact h.le_table e he hebyte
    · refine (addEntry_competitive h.others ⟨freq, norm⟩).enlarge ?_ ?_
      · rintro e (rfl | he)
        · exact ⟨Set.mem_insert _ _, hbyte⟩
        · exact ⟨Set.mem_insert_of_mem _ he.1, he.2⟩
      · rintro e ⟨rfl | he, hother⟩
        · exact ⟨_, Set.mem_insert _ _, .refl _⟩
        · exact ⟨e, Set.mem_insert_of_mem _ ⟨he, hother⟩, .refl e⟩

/-- What the other accumulator has dropped is dominated by what is merged. -/
theorem Represents.addAll (h : Represents acc seen) (h' : Represents acc' seen') :
    Represents (acc.addAll acc') (seen ∪ seen') := by
  have hget (i : Fin 256) : (acc.maxFreqs.zipWith max acc'.maxFreqs)[i] =
      max acc.maxFreqs[i] acc'.maxFreqs[i] := by
    simp only [Fin.getElem_fin, Vector.getElem_zipWith]
  refine ⟨?_, fun i hi => ?_, ?_, ?_⟩
  · rintro e (he | he)
    · exact h.freq_pos e he
    · exact h'.freq_pos e he
  · change 0 < (acc.maxFreqs.zipWith max acc'.maxFreqs)[i] at hi
    change (⟨(acc.maxFreqs.zipWith max acc'.maxFreqs)[i], _⟩ : Impact) ∈ _
    rw [hget] at hi ⊢
    rcases le_total acc.maxFreqs[i] acc'.maxFreqs[i] with hle | hle
    · rw [max_eq_right hle] at hi ⊢
      exact .inr (h'.table_mem i hi)
    · rw [max_eq_left hle] at hi ⊢
      exact .inl (h.table_mem i hi)
  · intro e he hbyte
    change e.freq ≤ (acc.maxFreqs.zipWith max acc'.maxFreqs)[index e.norm]
    rw [hget]
    rcases he with he | he
    · exact (h.le_table e he hbyte).trans (le_max_left _ _)
    · exact (h'.le_table e he hbyte).trans (le_max_right _ _)
  · refine (foldl_addEntry_competitive h.others acc'.otherFreqNormPairs).enlarge ?_ ?_
    · rintro e (he | ⟨he, hother⟩)
      · exact ⟨.inr (h'.others.mem e he).1, (h'.others.mem e he).2⟩
      · exact ⟨.inl he, hother⟩
    · rintro e ⟨he | he, hother⟩
      · exact ⟨e, .inr ⟨he, hother⟩, .refl e⟩
      · obtain ⟨b, hb, hdominates⟩ := h'.others.dominated e ⟨he, hother⟩
        exact ⟨b, .inl hb, hdominates⟩

/-- The impacts of an accumulator are the frontier of those it was given. -/
theorem Represents.getCompetitiveFreqNormPairs (h : Represents acc seen) :
    Competitive seen acc.getCompetitiveFreqNormPairs := by
  have hscan := scan_competitive acc.maxFreqs
  have htable : ∀ e ∈ entries acc.maxFreqs, 0 < e.freq → e ∈ seen := by
    intro e he hpos
    obtain ⟨i, rfl⟩ := mem_entries.mp he
    exact h.table_mem i hpos
  -- An impact with a byte norm is dominated by its entry in the table, which is an impact itself.
  have hbytes : ∀ e ∈ seen, isByte e.norm →
      ∃ b ∈ {b | b ∈ entries acc.maxFreqs ∧ 0 < b.freq}, Dominates Impact.freq
        (fun e : Impact => e.norm.toNat) b e := by
    intro e he hbyte
    have hle := h.le_table e he hbyte
    refine ⟨⟨acc.maxFreqs[index e.norm], normOf (index e.norm)⟩,
      ⟨mem_entries.mpr ⟨_, rfl⟩, (h.freq_pos e he).trans_le hle⟩, hle, ?_⟩
    rw [normOf_index hbyte]
  rw [CompetitiveImpactAccumulator.getCompetitiveFreqNormPairs]
  split
  next hnone =>
    have hothers := h.others
    rw [hnone] at hothers
    have hempty := isFrontier_nil_iff.mp hothers
    refine hscan.enlarge (fun e he => htable e he.1 he.2) fun e he => hbytes e he ?_
    by_contra hother
    exact Set.eq_empty_iff_forall_notMem.mp hempty e ⟨he, hother⟩
  next =>
    refine (foldl_addEntry_competitive h.others _).enlarge ?_ ?_
    · rintro e (he | he)
      · exact htable e (hscan.mem e he).1 (hscan.mem e he).2
      · exact he.1
    · intro e he
      by_cases hbyte : isByte e.norm
      · obtain ⟨b, hb, hbe⟩ := hbytes e he hbyte
        obtain ⟨c, hc, hcb⟩ := hscan.dominated b hb
        exact ⟨c, .inl hc, hcb.trans hbe⟩
      · exact ⟨e, .inr ⟨he, hbyte⟩, .refl e⟩

end

/-! ## Runs -/

section

/-- What is done with a number of accumulators. -/
inductive Op where
  | add (i : Nat) (freq : Int) (norm : BitVec 64)
  | addAll (i j : Nat)
  | copyFrom (i j : Nat)
  | clear (i : Nat)
  deriving DecidableEq

/-- One operation on numbered accumulators. -/
def step (accs : Nat → CompetitiveImpactAccumulator) : Op → Nat → CompetitiveImpactAccumulator
  | .add i freq norm => Function.update accs i ((accs i).add freq norm)
  | .addAll i j => Function.update accs i ((accs i).addAll (accs j))
  | .copyFrom i j => Function.update accs i ((accs i).copyFrom (accs j))
  | .clear i => Function.update accs i (accs i).clear

/-- The impacts each accumulator was given, since it was cleared: those that were added, and those
of the accumulators that were merged into it. -/
def given (seen : Nat → Set Impact) : Op → Nat → Set Impact
  | .add i freq norm => Function.update seen i (insert ⟨freq, norm⟩ (seen i))
  | .addAll i j => Function.update seen i (seen i ∪ seen j)
  | .copyFrom i j => Function.update seen i (seen j)
  | .clear i => Function.update seen i ∅

/-- The frequencies that are added are positive, and the norms are not zero. -/
def Op.Valid : Op → Prop
  | .add _ freq norm => 1 ≤ freq ∧ norm ≠ 0
  | _ => True

/-- One operation. -/
theorem step_represents {seen : Nat → Set Impact} (h : ∀ i, Represents (accs i) (seen i)) {op : Op}
    (hop : op.Valid) (k : Nat) : Represents (step accs op k) (given seen op k) := by
  have hupdate (i : Nat) (acc : CompetitiveImpactAccumulator) (s : Set Impact)
      (hacc : Represents acc s) :
      Represents (Function.update accs i acc k) (Function.update seen i s k) := by
    by_cases hk : k = i
    · subst hk
      rwa [Function.update_self, Function.update_self]
    · rw [Function.update_of_ne hk, Function.update_of_ne hk]
      exact h k
  cases op with
  | add i freq norm => exact hupdate i _ _ ((h i).add hop.1)
  | addAll i j => exact hupdate i _ _ ((h i).addAll (h j))
  | copyFrom i j => exact hupdate i _ _ (h j)
  | clear i => exact hupdate i _ _ represents_new

/-- A run of operations. -/
theorem run_represents {seen : Nat → Set Impact} (h : ∀ i, Represents (accs i) (seen i))
    {ops : List Op} (hops : ∀ op ∈ ops, op.Valid) (k : Nat) :
    Represents (ops.foldl step accs k) (ops.foldl given seen k) := by
  induction ops generalizing accs seen with
  | nil => exact h k
  | cons op ops ih =>
    exact ih (step_represents h (hops op mem_cons_self)) (forall_mem_cons.mp hops).2

/-- Whatever was done with the accumulators, each gives the frontier of what it was given. -/
theorem run_isFrontier (ops : List Op) (hops : ∀ op ∈ ops, op.Valid) (k : Nat) :
    IsFrontier Impact.freq (fun e : Impact => e.norm.toNat)
      (ops.foldl given (fun _ => ∅) k)
      (ops.foldl step (fun _ => new) k).getCompetitiveFreqNormPairs :=
  (run_represents (fun _ => represents_new) hops k).getCompetitiveFreqNormPairs

/-- Two accumulators that are merged. -/
theorem run_isFrontier_merged :
    IsFrontier Impact.freq (fun e : Impact => e.norm.toNat)
      ([Op.add 0 3 5, .add 1 7 (-2), .add 1 4 1000, .addAll 0 1].foldl given (fun _ => ∅) 0)
      ([Op.add 0 3 5, .add 1 7 (-2), .add 1 4 1000, .addAll 0 1].foldl step
        (fun _ => new) 0).getCompetitiveFreqNormPairs := by
  refine run_isFrontier _ (fun op hop => ?_) 0
  simp only [mem_cons, not_mem_nil, or_false] at hop
  rcases hop with rfl | rfl | rfl | rfl
  · exact ⟨by decide, by decide⟩
  · exact ⟨by decide, by decide⟩
  · exact ⟨by decide, by decide⟩
  · trivial

end

end CompetitiveImpactAccumulator

end RLucene.Codecs
