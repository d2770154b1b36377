import RLucene.Search.BooleanScorer
import RLucene.Util.FixedBitSet

/-!
# The window of the boolean scorer

`Shows window marks` says what the bit set and the buckets of a window stand for: for each position
the scores marked there, in their order. Scoring a wrapper appends what its clause contributes to
each position, whichever of the two loops does it, and replaying hands out the positions with enough
marks in increasing order and leaves a window that shows none.
-/

namespace RLucene.Search

open Nat List Lib Util

namespace ScoreOps

variable {S D : Type} (ops : ScoreOps S D)

/-- The wide sum of scores, from left to right. -/
def total (scores : List S) : D :=
  scores.foldl (fun sum score => ops.add sum (ops.widen score)) ops.zero

theorem total_append (scores : List S) (score : S) :
    ops.total (scores ++ [score]) = ops.add (ops.total scores) (ops.widen score) := by
  simp [total]

end ScoreOps

variable {words : List Word} {i minShouldMatch : Nat} {lower middle upper : Int}

namespace BooleanScorer

variable {S D : Type} (ops : ScoreOps S D)

/-- The window stands for these marks. -/
structure Shows (needsScores : Bool) (window : ScoringWindow D) (marks : Nat → List S) : Prop where
  length_eq : window.matching.length = setSize
  bit : ∀ i, bitAt window.matching i = !(marks i).isEmpty
  bucket : ∀ buckets, window.buckets = some buckets → buckets.length = size ∧
    ∀ i < size, buckets[i]? =
      some ⟨if needsScores then ops.total (marks i) else ops.zero, (marks i).length⟩

variable {ops} {needsScores : Bool} {window : ScoringWindow D} {marks : Nat → List S}

/-! ## Marking -/

/-- One bit is set. -/
theorem bitAt_modify (hi : i / 64 < words.length) (p : Nat) :
    bitAt (words.modify (i >>> 6) (· ||| 1#64 <<< (i % 64))) p =
      (bitAt words p || decide (p = i)) := by
  rw [← FixedBitSet.bitAt_set_bit hi, FixedBitSet.shiftRight_six, modify_eq_set_getElem?,
    getElem?_eq_getElem hi]
  rfl

/-- One match. -/
theorem Shows.mark (h : Shows ops needsScores window marks) (hi : i < size) (score : S) :
    Shows ops needsScores (mark ops needsScores window i score)
      (Function.update marks i (marks i ++ [score])) := by
  have hword : i / 64 < window.matching.length := by
    rw [h.length_eq, setSize]
    unfold size at hi
    omega
  refine ⟨?_, ?_, ?_⟩
  · simpa [BooleanScorer.mark] using h.length_eq
  · intro p
    show bitAt (window.matching.modify (i >>> 6) (· ||| 1#64 <<< (i % 64))) p = _
    rw [bitAt_modify hword, h.bit]
    by_cases hp : p = i
    · simp [hp]
    · simp [hp]
  · intro buckets hbuckets
    obtain ⟨old, hold, rfl⟩ := Option.map_eq_some_iff.mp hbuckets
    obtain ⟨hlength, hbucket⟩ := h.bucket old hold
    refine ⟨by rw [length_modify, hlength], fun p hp => ?_⟩
    rw [getElem?_modify, hbucket p hp]
    by_cases hpi : p = i
    · subst hpi
      cases needsScores <;> simp [ScoreOps.total_append]
    · simp [hpi, Ne.symm hpi]

/-! ## What a clause contributes -/

/-- The mark of a clause at a position: its score, if it matches there within the bounds and the
document is accepted. -/
def contribution (acceptDocs : Option (Nat → Bool)) (base : Nat) (lower upper : Int)
    (clause : Clause S) (i : Nat) : List S :=
  if base + i ∈ clause.docs ∧ lower ≤ (base + i : Nat) ∧ ((base + i : Nat) : Int) < upper ∧
      accepted acceptDocs (base + i) then
    [clause.score (base + i)]
  else []

variable {acceptDocs : Option (Nat → Bool)} {base : Nat} {clause : Clause S} {w : DisiWrapper S}
  {place : Int}

/-- Two ranges of documents. -/
theorem contribution_append (hlow : lower ≤ middle) (hup : middle ≤ upper) (i : Nat) :
    contribution acceptDocs base lower middle clause i ++
        contribution acceptDocs base middle upper clause i =
      contribution acceptDocs base lower upper clause i := by
  unfold contribution
  by_cases hmem : base + i ∈ clause.docs ∧ accepted acceptDocs (base + i) = true
  · obtain ⟨hmem, haccepted⟩ := hmem
    by_cases hmiddle : ((base + i : Nat) : Int) < middle
    · rw [if_neg (c := _ ∧ middle ≤ _ ∧ _) (by omega), append_nil]
      congr 1
      simp only [hmem, haccepted, true_and, and_true, eq_iff_iff]
      omega
    · rw [if_neg (c := _ ∧ lower ≤ _ ∧ _ < middle ∧ _) (by omega), nil_append]
      congr 1
      simp only [hmem, haccepted, true_and, and_true, eq_iff_iff]
      omega
  · rw [if_neg (fun h => hmem ⟨h.1, h.2.2.2⟩), if_neg (fun h => hmem ⟨h.1, h.2.2.2⟩),
      if_neg (fun h => hmem ⟨h.1, h.2.2.2⟩), nil_append]

/-- Without documents in between the lower bound may be raised. -/
theorem contribution_raise {lower' : Int} (hle : lower ≤ lower')
    (hnone : ∀ doc ∈ clause.docs, lower ≤ doc → lower' ≤ doc) (i : Nat) :
    contribution acceptDocs base lower' upper clause i =
      contribution acceptDocs base lower upper clause i := by
  unfold contribution
  congr 1
  simp only [eq_iff_iff]
  constructor
  · rintro ⟨hmem, hlow, hrest⟩
    exact ⟨hmem, hle.trans hlow, hrest⟩
  · rintro ⟨hmem, hlow, hrest⟩
    exact ⟨hmem, hnone _ hmem hlow, hrest⟩

/-- Nothing is contributed within empty bounds. -/
theorem contribution_empty (h : upper ≤ lower) (i : Nat) :
    contribution acceptDocs base lower upper clause i = [] := by
  unfold contribution
  rw [if_neg]
  omega

/-! ## The plain loop -/

/-- One document is marked. -/
theorem Shows.mark_doc (acceptDocs : Option (Nat → Bool))
    (h : Shows ops needsScores window marks) (hplaced : w.Placed) (hend : w.doc < noMoreDocs)
    (hbase : base % size = 0) (hlow : (base : Int) ≤ w.doc) (hup : w.doc < base + size) :
    Shows ops needsScores
      (if accepted acceptDocs w.doc.toNat then
        BooleanScorer.mark ops needsScores window (w.doc.toNat % size) (w.clause.score w.doc.toNat)
      else window)
      (fun i => marks i ++ contribution acceptDocs base w.doc (w.doc + 1) w.clause i) := by
  have hmem := hplaced.toNat_mem (by omega) hend
  obtain ⟨i, hdoc⟩ : ∃ i : Nat, w.doc.toNat = base + i := ⟨w.doc.toNat - base, by omega⟩
  have hi : i < size := by omega
  have hpos : w.doc.toNat % size = i := by
    rw [hdoc, add_mod, hbase, Nat.zero_add, mod_mod, mod_eq_of_lt hi]
  have hother : ∀ p, p ≠ i → contribution acceptDocs base w.doc (w.doc + 1) w.clause p = [] := by
    intro p hp
    unfold contribution
    rw [if_neg]
    omega
  split
  · rename_i haccepted
    have hnew := h.mark hi (w.clause.score w.doc.toNat)
    convert hnew using 2 with p
    by_cases hp : p = i
    · subst hp
      rw [Function.update_self, contribution, if_pos, hdoc]
      rw [← hdoc]
      exact ⟨hmem, by omega, by omega, haccepted⟩
    · rw [Function.update_of_ne hp, hother p hp, append_nil]
  · rename_i hrejected
    convert h using 2 with p
    by_cases hp : p = i
    · subst hp
      rw [contribution, if_neg, append_nil]
      rw [← hdoc]
      exact fun hall => hrejected hall.2.2.2
    · rw [hother p hp, append_nil]

/-- What is left of a clause once it has been scored up to a bound. -/
structure Scored (w w' : DisiWrapper S) (upper : Int) : Prop where
  clause_eq : w'.clause = w.clause
  reaches : w'.Reaches upper
  le_doc : upper ≤ w'.doc

theorem Scored.of_le (hreach : w.Reaches place)
    (hplace : place ≤ upper) (hdone : upper ≤ w.doc) : Scored w w upper :=
  ⟨rfl, hreach.mono hplace, hdone⟩

/-- One move after the other. -/
theorem Scored.trans {w w' w'' : DisiWrapper S} (h : Scored w w' middle)
    (h' : Scored w' w'' upper) : Scored w w'' upper :=
  ⟨h'.clause_eq.trans h.clause_eq, h'.reaches, h'.le_doc⟩

/-- One document. -/
theorem scored_nextDoc (hend : w.doc < noMoreDocs) : Scored w w.nextDoc (w.doc + 1) :=
  ⟨rfl, w.nextDoc_reaches, w.lt_nextDoc hend⟩

/-- The contribution goes on where the clause stands once it has been scored up to a bound. -/
theorem Scored.contribution_append {w w' : DisiWrapper S} (h : Scored w w' middle)
    (hlow : lower ≤ middle) (hup : middle ≤ upper) (i : Nat) :
    contribution acceptDocs base lower middle w.clause i ++
        contribution acceptDocs base w'.doc upper w'.clause i =
      contribution acceptDocs base lower upper w.clause i := by
  rw [contribution_raise h.le_doc h.reaches.ahead, h.clause_eq,
    BooleanScorer.contribution_append hlow hup]

/-- The documents of a clause, one by one. -/
theorem Shows.markDocs (acceptDocs : Option (Nat → Bool)) (hbase : base % size = 0)
    (hupper : upper ≤ base + size) (hupper' : upper ≤ noMoreDocs) (fuel : Nat)
    (h : Shows ops needsScores window marks) (hreach : w.Reaches place) (hplace : place ≤ upper)
    (hlow : (base : Int) ≤ w.doc) (hfuel : upper ≤ w.doc + fuel) :
    Shows ops needsScores (markDocs ops needsScores acceptDocs upper fuel window w).1
        (fun i => marks i ++ contribution acceptDocs base w.doc upper w.clause i) ∧
      (markDocs ops needsScores acceptDocs upper fuel window w).1.buckets.isSome =
        window.buckets.isSome ∧
      Scored w (markDocs ops needsScores acceptDocs upper fuel window w).2 upper := by
  induction fuel generalizing window marks w place with
  | zero =>
    refine ⟨?_, rfl, .of_le hreach hplace (by simpa using hfuel)⟩
    simpa [BooleanScorer.markDocs, contribution_empty (show upper ≤ w.doc by simpa using hfuel)]
      using h
  | succ fuel ih =>
    unfold BooleanScorer.markDocs
    split
    · rename_i hlt
      have hstep := h.mark_doc acceptDocs hreach.placed (by omega) hbase hlow (by omega)
      have hnext := w.lt_nextDoc (by omega)
      have hscored := scored_nextDoc (show w.doc < noMoreDocs by omega)
      have hrest := ih hstep hscored.reaches (by omega) (by omega) (by push_cast at hfuel; omega)
      refine ⟨?_, ?_, hscored.trans hrest.2.2⟩
      · have hshows := hrest.1
        simp only [append_assoc,
          hscored.contribution_append (show w.doc ≤ w.doc + 1 by omega) hlt] at hshows
        exact hshows
      · rw [hrest.2.1]
        split
        · simp [BooleanScorer.mark]
        · rfl
    · refine ⟨?_, rfl, .of_le hreach hplace (by omega)⟩
      simpa [contribution_empty (show upper ≤ w.doc by omega)] using h

/-! ## The loop over words -/

/-- The documents up to the end of a word lie in it. -/
theorem word_of_lt_wordEndOf {doc other : Nat} (hle : doc ≤ other) (hlt : other < wordEndOf doc) :
    other % size / 64 = doc % size / 64 := by
  unfold wordEndOf at hlt
  have hlast := or_63 doc
  unfold size
  omega

theorem lt_wordEndOf {doc : Nat} (hlt : doc < noMoreDocs) : (doc : Int) < wordEndOf doc := by
  unfold wordEndOf
  have := left_le_or (n := doc) (m := 63)
  omega

theorem modify_set (words : List Word) (index : Nat) (bits : Word) (f : Word → Word) :
    (words.set index bits).modify index f = words.set index (f bits) := by
  apply ext_getElem?
  intro p
  by_cases hp : index = p
  · subst hp
    by_cases hlt : index < words.length <;> simp [hlt]
  · simp [hp]

/-- Setting the bits of one word is marking its documents. -/
theorem markDocs_setBitsOfWord (ops : ScoreOps S D) (needsScores : Bool) (words : List Word)
    (wordEnd : Int) (index : Nat) (fuel : Nat) (bits : Word) (hpos : 0 ≤ w.doc)
    (hword : ∀ doc : Nat, w.doc ≤ doc → doc < wordEnd → doc % size / 64 = index)
    (hend : wordEnd ≤ noMoreDocs) :
    markDocs ops needsScores none wordEnd fuel ⟨words.set index bits, none⟩ w =
      (⟨words.set index (setBitsOfWord wordEnd fuel bits w).1, none⟩,
        (setBitsOfWord wordEnd fuel bits w).2) := by
  induction fuel generalizing bits w with
  | zero => rfl
  | succ fuel ih =>
    unfold BooleanScorer.markDocs setBitsOfWord
    split
    · have hnext := w.lt_nextDoc (by omega)
      have hindex := hword w.doc.toNat (by omega) (by omega)
      have hbit : w.doc.toNat % size % 64 = w.doc.toNat % 64 :=
        mod_mod_of_dvd _ (by unfold size; decide)
      rw [← ih _ (by omega) fun doc hdoc => hword doc (by omega)]
      simp only [accepted, if_true, mark, Option.map_none, FixedBitSet.shiftRight_six, hindex,
        hbit, modify_set]
    · rfl

/-- The documents of one word are marked at once. -/
theorem Shows.setWord {wordEnd : Int} (h : Shows ops needsScores ⟨words, none⟩ marks)
    (hbase : base % size = 0) (hupper : wordEnd ≤ base + size) (hupper' : wordEnd ≤ noMoreDocs)
    (hword : wordEnd ≤ wordEndOf w.doc.toNat) (hplaced : w.Placed) (hlt : w.doc < wordEnd)
    (hlow : (base : Int) ≤ w.doc) {index : Nat} (hindex : index = (w.doc.toNat % size) >>> 6) :
    Shows ops needsScores
        ⟨words.set index (setBitsOfWord wordEnd (wordEnd - w.doc).toNat (words.getD index 0) w).1,
          none⟩
        (fun i => marks i ++ contribution none base w.doc wordEnd w.clause i) ∧
      Scored w (setBitsOfWord wordEnd (wordEnd - w.doc).toNat
        (words.getD index 0) w).2 wordEnd := by
  rw [FixedBitSet.shiftRight_six] at hindex
  have hsame : ∀ doc : Nat, w.doc ≤ doc → doc < wordEnd → doc % size / 64 = index := by
    intro doc hdoc hdoc'
    rw [word_of_lt_wordEndOf (show w.doc.toNat ≤ doc by omega) (by omega), hindex]
  have hlength : index < words.length := by
    rw [h.length_eq, setSize, hindex]
    unfold size
    omega
  have hmark := markDocs_setBitsOfWord ops needsScores words wordEnd index (wordEnd - w.doc).toNat
    (words.getD index 0) (by omega) hsame hupper'
  rw [getD_eq_getElem _ _ hlength, set_getElem_self] at hmark
  have hshows := Shows.markDocs none hbase hupper hupper' (wordEnd - w.doc).toNat h
    hplaced.reaches hlt.le hlow (by omega)
  rw [hmark] at hshows
  rw [getD_eq_getElem _ _ hlength]
  exact ⟨hshows.1, hshows.2.2⟩

/-- The documents of a clause, word by word. -/
theorem Shows.setBitsByWord (hbase : base % size = 0) (hupper : upper ≤ base + size)
    (hupper' : upper ≤ noMoreDocs) (fuel : Nat) (h : Shows ops needsScores ⟨words, none⟩ marks)
    (hreach : w.Reaches place) (hplace : place ≤ upper) (hlow : (base : Int) ≤ w.doc)
    (hfuel : upper ≤ w.doc + fuel) :
    Shows ops needsScores ⟨(setBitsByWord upper fuel words w).1, none⟩
        (fun i => marks i ++ contribution none base w.doc upper w.clause i) ∧
      Scored w (setBitsByWord upper fuel words w).2 upper := by
  induction fuel generalizing words marks w place with
  | zero =>
    refine ⟨?_, .of_le hreach hplace (by simpa using hfuel)⟩
    simpa [BooleanScorer.setBitsByWord,
      contribution_empty (show upper ≤ w.doc by simpa using hfuel)] using h
  | succ fuel ih =>
    unfold BooleanScorer.setBitsByWord
    split
    · rename_i hlt
      have hend := @lt_wordEndOf w.doc.toNat (by omega)
      have hstart : w.doc < min upper (wordEndOf w.doc.toNat) := lt_min hlt (by omega)
      have hleft := min_le_left upper (wordEndOf w.doc.toNat)
      have hright := min_le_right upper (wordEndOf w.doc.toNat)
      generalize min upper (wordEndOf w.doc.toNat) = wordEnd at hstart hleft hright
      obtain ⟨hshows, hscored⟩ := h.setWord hbase (by omega) (by omega) hright hreach.placed
        hstart hlow rfl
      have hdoc := hscored.le_doc
      obtain ⟨hrest, hrest'⟩ := ih hshows hscored.reaches hleft (by omega)
        (by push_cast at hfuel; omega)
      refine ⟨?_, hscored.trans hrest'⟩
      simp only [append_assoc, hscored.contribution_append hstart.le hleft] at hrest
      exact hrest
    · refine ⟨?_, .of_le hreach hplace (by omega)⟩
      simpa [contribution_empty (show upper ≤ w.doc by omega)] using h

/-! ## Scoring wrappers -/

/-- A wrapper is scored from `lower` to `upper`, by one of the two loops. -/
theorem Shows.scoreDisiWrapper (s : BooleanScorer S D) (acceptDocs : Option (Nat → Bool))
    (h : Shows ops s.needsScores window marks) (hbase : base % size = 0)
    (hlower : (base : Int) ≤ lower) (hle : lower ≤ upper) (hupper : upper ≤ base + size)
    (hupper' : upper ≤ noMoreDocs) (hreach : w.Reaches lower) :
    let result := s.scoreDisiWrapperIntoBitset ops acceptDocs lower upper window w
    Shows ops s.needsScores result.1
        (fun i => marks i ++ contribution acceptDocs base lower upper w.clause i) ∧
      result.1.buckets.isSome = window.buckets.isSome ∧ Scored w result.2 upper := by
  have hstart : Scored w (w.advanceTo lower) lower :=
    ⟨w.advanceTo_clause lower, hreach.advanceTo le_rfl, w.le_advanceTo (by omega)⟩
  have hdoc := hstart.le_doc
  have hraise : ∀ i, contribution acceptDocs base (w.advanceTo lower).doc upper
      (w.advanceTo lower).clause i = contribution acceptDocs base lower upper w.clause i := by
    intro i
    rw [contribution_raise hdoc hstart.reaches.ahead, hstart.clause_eq]
  simp only [scoreDisiWrapperIntoBitset]
  by_cases hcached : window.buckets.isNone = true ∧ acceptDocs.isNone = true ∧
      s.wordCacheMinCost ≤ (w.advanceTo lower).cost
  · rw [if_pos hcached]
    obtain ⟨hbuckets, haccept, -⟩ := hcached
    rw [Option.isNone_iff_eq_none] at hbuckets haccept
    subst haccept
    obtain ⟨words, buckets⟩ := window
    cases hbuckets
    have hrun := Shows.setBitsByWord hbase hupper hupper' (upper - (w.advanceTo lower).doc).toNat h
      hstart.reaches hle (by omega) (by omega)
    simp only [hraise] at hrun
    exact ⟨hrun.1, rfl, hstart.trans hrun.2⟩
  · rw [if_neg hcached]
    have hrun := Shows.markDocs acceptDocs hbase hupper hupper'
      (upper - (w.advanceTo lower).doc).toNat h hstart.reaches hle (by omega) (by omega)
    simp only [hraise] at hrun
    exact ⟨hrun.1, hrun.2.1, hstart.trans hrun.2.2⟩

/-- All wrappers of a window are scored. -/
theorem Shows.scoreWrappers (s : BooleanScorer S D) (acceptDocs : Option (Nat → Bool))
    (hbase : base % size = 0) (hlower : (base : Int) ≤ lower) (hle : lower ≤ upper)
    (hupper : upper ≤ base + size) (hupper' : upper ≤ noMoreDocs) {ws : List (DisiWrapper S)}
    (h : Shows ops s.needsScores window marks) (hreach : ∀ w ∈ ws, w.Reaches lower) :
    let result := s.scoreWrappers ops acceptDocs lower upper window ws
    Shows ops s.needsScores result.1 (fun i => marks i ++
        ws.flatMap fun w => contribution acceptDocs base lower upper w.clause i) ∧
      result.1.buckets.isSome = window.buckets.isSome ∧
      List.Forall₂ (fun w w' => Scored w w' upper) ws result.2 := by
  induction ws generalizing window marks with
  | nil =>
    refine ⟨?_, rfl, .nil⟩
    simpa [BooleanScorer.scoreWrappers] using h
  | cons w ws ih =>
    have hstep := h.scoreDisiWrapper s acceptDocs hbase hlower hle hupper hupper'
      (hreach w (mem_cons_self ..))
    have hrest := ih hstep.1 (forall_mem_cons.mp hreach).2
    refine ⟨?_, hrest.2.1.trans hstep.2.1, .cons hstep.2.2 hrest.2.2⟩
    simpa [BooleanScorer.scoreWrappers, append_assoc] using hrest.1

/-! ## Replaying -/

/-- Replay positions one after another. -/
def replayPositions (ops : ScoreOps S D) (minShouldMatch base : Nat) :
    List Nat → Option (List (Bucket D)) → List (Hit S) × Option (List (Bucket D))
  | [], buckets => ([], buckets)
  | i :: is, buckets =>
    let first := replayAt ops minShouldMatch base i buckets
    let rest := replayPositions ops minShouldMatch base is first.2
    (first.1 ++ rest.1, rest.2)

/-- Some positions after others. -/
theorem replayPositions_append (minShouldMatch : Nat) (is js : List Nat)
    (buckets : Option (List (Bucket D))) :
    replayPositions ops minShouldMatch base (is ++ js) buckets =
      let first := replayPositions ops minShouldMatch base is buckets
      let rest := replayPositions ops minShouldMatch base js first.2
      (first.1 ++ rest.1, rest.2) := by
  induction is generalizing buckets with
  | nil => rfl
  | cons i is ih => simp [replayPositions, ih, append_assoc]

/-- A word replays its set bits. -/
theorem replayWord_eq (minShouldMatch idx fuel : Nat) (bits : Word)
    (buckets : Option (List (Bucket D))) (hfuel : (setBits bits).length ≤ fuel) :
    replayWord ops minShouldMatch base idx fuel bits buckets =
      replayPositions ops minShouldMatch base ((setBits bits).map (64 * idx + ·)) buckets := by
  induction fuel generalizing bits buckets with
  | zero =>
    rw [eq_nil_of_length_eq_zero (le_zero.mp hfuel)]
    rfl
  | succ fuel ih =>
    unfold replayWord
    split
    · rename_i hzero
      rw [setBits_eq_nil_iff.mpr hzero]
      rfl
    · rename_i hne
      have hposition : idx <<< 6 ||| trailingZeros bits = 64 * idx + trailingZeros bits := by
        rw [shiftLeft_eq, Nat.mul_comm, ← two_pow_add_eq_or_of_lt (trailingZeros_lt hne)]
      rw [setBits_eq_cons hne] at hfuel ⊢
      have hrest := fun buckets => ih (bits &&& (bits - 1)) buckets (by simpa using hfuel)
      rw [map_cons, replayPositions, hposition]
      simp only [hrest]

/-- The words are replayed position by position. -/
theorem forEach_eq (minShouldMatch : Nat) (words : List Word) (idx : Nat)
    (buckets : Option (List (Bucket D))) :
    forEach ops minShouldMatch base idx words buckets =
      replayPositions ops minShouldMatch base ((positions words).map (64 * idx + ·)) buckets := by
  induction words generalizing idx buckets with
  | nil => rfl
  | cons bits words ih =>
    rw [positions, map_append, map_add_map_add, ← Nat.mul_add_one, replayPositions_append, forEach,
      replayWord_eq _ _ _ _ _ (countOnes_le bits)]
    simp only [ih]

/-- Without buckets every position is a hit. -/
theorem replayPositions_none (minShouldMatch : Nat) (is : List Nat) :
    replayPositions ops minShouldMatch base is none =
      (is.map fun i => ⟨base ||| i, none⟩, none) := by
  induction is with
  | nil => rfl
  | cons i is ih => simp [replayPositions, replayAt, ih]

/-- With buckets, each position is handed out if its bucket counts enough, and cleared. -/
theorem replayPositions_some (ops : ScoreOps S D) (base minShouldMatch : Nat) {is : List Nat}
    (hnodup : is.Nodup) (buckets : List (Bucket D)) :
    ∃ buckets', replayPositions ops minShouldMatch base is (some buckets) =
        ((is.filter fun i => decide (minShouldMatch ≤ (buckets.getD i ⟨ops.zero, 0⟩).freq)).map
          fun i => ⟨base ||| i, some (ops.narrow (buckets.getD i ⟨ops.zero, 0⟩).score)⟩,
          some buckets') ∧
      buckets'.length = buckets.length ∧
      ∀ i < buckets.length, buckets'[i]? = if i ∈ is then some ⟨ops.zero, 0⟩ else buckets[i]? := by
  induction is generalizing buckets with
  | nil => exact ⟨buckets, rfl, rfl, by simp⟩
  | cons i is ih =>
    obtain ⟨hnot, hnodup⟩ := nodup_cons.mp hnodup
    obtain ⟨buckets', hrun, hlength, hcleared⟩ := ih hnodup (buckets.set i ⟨ops.zero, 0⟩)
    have hother : ∀ j ∈ is, (buckets.set i ⟨ops.zero, 0⟩).getD j ⟨ops.zero, 0⟩ =
        buckets.getD j ⟨ops.zero, 0⟩ := by
      intro j hj
      have hne : i ≠ j := fun h => hnot (h ▸ hj)
      simp [getD_eq_getElem?_getD, hne]
    refine ⟨buckets', ?_, by simpa using hlength, ?_⟩
    · have hfilter : (is.filter fun j => decide (minShouldMatch ≤
            ((buckets.set i ⟨ops.zero, 0⟩).getD j ⟨ops.zero, 0⟩).freq)) =
          is.filter fun j => decide (minShouldMatch ≤ (buckets.getD j ⟨ops.zero, 0⟩).freq) :=
        filter_congr fun j hj => by rw [hother j hj]
      have hmap : ∀ l : List Nat, (∀ j ∈ l, j ∈ is) →
          (l.map fun j => (⟨base ||| j, some (ops.narrow
            ((buckets.set i ⟨ops.zero, 0⟩).getD j ⟨ops.zero, 0⟩).score)⟩ : Hit S)) =
          l.map fun j => ⟨base ||| j, some (ops.narrow (buckets.getD j ⟨ops.zero, 0⟩).score)⟩ :=
        fun l hl => map_congr_left fun j hj => by rw [hother j (hl j hj)]
      rw [hfilter, hmap _ (fun j hj => (mem_filter.mp hj).1)] at hrun
      simp only [replayPositions, replayAt, hrun]
      by_cases henough : minShouldMatch ≤ (buckets.getD i ⟨ops.zero, 0⟩).freq
      · rw [filter_cons_of_pos (by simpa using henough), if_pos henough]
        rfl
      · rw [filter_cons_of_neg (by simpa using henough), if_neg henough]
        rfl
    · intro j hj
      rw [hcleared j (by simpa using hj), getElem?_set]
      by_cases hji : i = j
      · subst hji
        simp [hj]
      · simp [hji, Ne.symm hji]

/-- The document of a position. -/
theorem base_or (hbase : base % size = 0) (hi : i < size) : base ||| i = base + i := by
  have hsplit : base = 2 ^ 12 * (base / size) := by
    unfold size at *
    omega
  rw [hsplit, ← two_pow_add_eq_or_of_lt hi]

/-- Positions are within the window. -/
theorem Shows.lt_size (h : Shows ops needsScores window marks)
    (hi : i ∈ positions window.matching) : i < size := by
  have := lt_of_mem_positions hi
  rw [h.length_eq] at this
  exact this

/-- The positions with enough marks are all among the set bits. -/
theorem Shows.filter_positions (h : Shows ops needsScores window marks)
    (hpos : 1 ≤ minShouldMatch) :
    ((positions window.matching).filter fun i => decide (minShouldMatch ≤ (marks i).length)) =
      (range size).filter fun i => decide (minShouldMatch ≤ (marks i).length) := by
  apply ((positions_increasing _).filter _).ext ((Increasing.range _).filter _)
  intro i
  rw [mem_filter, mem_filter, mem_range]
  refine and_congr_left fun henough => ⟨h.lt_size, fun _ => ?_⟩
  rw [mem_positions, h.bit]
  have : marks i ≠ [] := by
    intro hnil
    simp [hnil] at henough
    omega
  simpa using this

/-- A window that was cleared. -/
theorem shows_clear {words : List Word} {buckets : Option (List (Bucket D))}
    (hlength : words.length = setSize)
    (hbuckets : ∀ list, buckets = some list →
      list.length = size ∧ ∀ i < size, list[i]? = some ⟨ops.zero, 0⟩) :
    Shows ops needsScores ⟨words.map fun _ => 0, buckets⟩ (fun _ => []) := by
  refine ⟨by simpa using hlength, fun i => ?_, fun list hlist => ?_⟩
  · unfold bitAt
    cases words[i / 64]? <;> simp
  · obtain ⟨hsize, hzero⟩ := hbuckets list hlist
    refine ⟨hsize, fun i hi => ?_⟩
    rw [hzero i hi]
    simp [ScoreOps.total]

/-- What replaying a window hands to the collector, and that it leaves the window clean. -/
theorem Shows.forEach (h : Shows ops needsScores window marks) (hpos : 1 ≤ minShouldMatch)
    (hnone : window.buckets = none → minShouldMatch = 1) (hbase : base % size = 0) :
    ∃ hits buckets,
      forEach ops minShouldMatch base 0 window.matching window.buckets = (hits, buckets) ∧
      hits.map Hit.doc =
        ((range size).filter fun i => decide (minShouldMatch ≤ (marks i).length)).map (base + ·) ∧
      (window.buckets.isSome → needsScores → ∀ hit ∈ hits, ∀ i, hit.doc = base + i →
        hit.score = some (ops.narrow (ops.total (marks i)))) ∧
      buckets.isSome = window.buckets.isSome ∧
      Shows ops needsScores ⟨window.matching.map fun _ => 0, buckets⟩ (fun _ => []) := by
  have hzero : (positions window.matching).map (64 * 0 + ·) = positions window.matching := by
    simp
  have hdocs : ∀ l : List Nat, (∀ i ∈ l, i ∈ positions window.matching) →
      l.map (base ||| ·) = l.map (base + ·) :=
    fun l hl => map_congr_left fun i hi => base_or hbase (h.lt_size (hl i hi))
  rw [forEach_eq, hzero]
  cases hbuckets : window.buckets with
  | none =>
    -- without buckets every marked document is a match
    have hone := hnone hbuckets
    subst hone
    refine ⟨_, _, replayPositions_none _ _, ?_, by simp, rfl, shows_clear h.length_eq (by simp)⟩
    rw [← h.filter_positions le_rfl, map_map, filter_eq_self.mpr]
    · exact hdocs _ fun _ hi => hi
    · intro i hi
      have hbit := mem_positions.mp hi
      rw [h.bit] at hbit
      cases hmarks : marks i with
      | nil => simp [hmarks] at hbit
      | cons score scores => simp
  | some list =>
    obtain ⟨hlength, hbucket⟩ := h.bucket list hbuckets
    have hget : ∀ i ∈ positions window.matching, list.getD i ⟨ops.zero, 0⟩ =
        ⟨if needsScores then ops.total (marks i) else ops.zero, (marks i).length⟩ := by
      intro i hi
      rw [getD_eq_getElem?_getD, hbucket i (h.lt_size hi)]
      rfl
    have hnodup : (positions window.matching).Nodup :=
      (positions_increasing _).imp fun hlt => Nat.ne_of_lt hlt
    obtain ⟨list', hrun, hlength', hcleared⟩ :=
      replayPositions_some ops base minShouldMatch hnodup list
    have hfilter : ((positions window.matching).filter fun i =>
          decide (minShouldMatch ≤ (list.getD i ⟨ops.zero, 0⟩).freq)) =
        (range size).filter fun i => decide (minShouldMatch ≤ (marks i).length) := by
      rw [← h.filter_positions hpos]
      exact filter_congr fun i hi => by rw [hget i hi]
    refine ⟨_, _, hrun, ?_, ?_, rfl, shows_clear h.length_eq ?_⟩
    · rw [← hfilter, map_map]
      exact hdocs _ fun i hi => (mem_filter.mp hi).1
    · intro _ hneeds hit hhit i hdoc
      obtain ⟨j, hj, rfl⟩ := mem_map.mp hhit
      have hjmem := (mem_filter.mp hj).1
      have hij : j = i := by
        have := base_or hbase (h.lt_size hjmem)
        simp only at hdoc
        omega
      subst hij
      simp only [hget j hjmem, hneeds, if_true]
    · rintro list'' ⟨rfl⟩
      refine ⟨hlength'.trans hlength, fun i hi => ?_⟩
      rw [hcleared i (hlength ▸ hi)]
      split
      · rfl
      · rename_i hnot
        -- a bucket without marks was empty before
        rw [mem_positions, h.bit] at hnot
        have hnil : marks i = [] := by simpa using hnot
        rw [hbucket i hi, hnil]
        simp [ScoreOps.total]

end BooleanScorer

end RLucene.Search
