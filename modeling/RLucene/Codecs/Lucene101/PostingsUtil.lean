import RLucene.Util.GroupVIntUtil

/-!
# Postings blocks that are not full

The tail of a postings list is not packed. The document deltas are written as group varints; where
there are frequencies, each delta carries in its low bit whether its frequency is one, and the other
frequencies follow as variable-length integers.
-/

namespace RLucene.Codecs.Lucene101.PostingsUtil

open List Lib Store Internal.Vectorization Util.GroupVIntUtil

/-! ## Writing -/

/-- A delta with the flag of its frequency. -/
def foldFlag (doc freq : I32) : I32 :=
  doc <<< 1 ||| if freq = 1 then 1 else 0

/-- A lane of the vectorised form: a comparison gives minus one where it holds, and is
subtracted. -/
def foldFlagLane (doc freq : I32) : I32 :=
  doc <<< 1 - if freq = 1 then BitVec.allOnes 32 else 0

/-- Shift every delta and set its low bit if its frequency is one. Short blocks go four at a
time. -/
def foldFlags (docs freqs : List I32) (num : Nat) : Result (List I32) :=
  if (4 ≤ num ∧ num ≤ 16) ∧ docs.length ≥ num ∧ freqs.length ≥ num then
    let head := docs.take num
    let freqHead := freqs.take num
    let lanes := zipWith (zipWith foldFlagLane) (chunksExact 4 head) (chunksExact 4 freqHead)
    let tail := zipWith foldFlag (head.drop (4 * (num / 4))) (freqHead.drop (4 * (num / 4)))
    .ok (lanes.flatten ++ tail ++ docs.drop num)
  else
    (range num).foldlM (fun docs i => do
      setInt docs i (foldFlag (← getInt docs i) (← getInt freqs i))) docs

/-- The output and the document buffer, which the flags are folded into. -/
def writeVIntBlock (out : Bytes) (docs freqs : List I32) (num : Nat) (writeFreqs : Bool) :
    Result (Bytes × List I32) := do
  let docs ← if writeFreqs then foldFlags docs freqs num else .ok docs
  let out ← writeGroupVInts out docs num
  let out := if writeFreqs then
      (freqs.take num).foldl
        (fun out freq => if freq ≠ 1 then writeVInt out freq.toInt else out) out
    else out
  return (out, docs)

/-! ## Reading -/

/-- Take the flag off a delta, and read the frequency if it is not set. -/
def readFreq (state : List I32 × List I32 × IndexInput) (i : Nat) :
    Result (List I32 × List I32 × IndexInput) := do
  let (docs, freqs, input) := state
  let doc ← getInt docs i
  let freqs ← setInt freqs i (doc &&& 1)
  let docs ← setInt docs i (doc >>> 1)
  if (← getInt freqs i) = 0 then
    let (freq, input) ← input.readVInt
    return (docs, ← setInt freqs i (BitVec.ofInt 32 freq), input)
  else
    return (docs, freqs, input)

/-- Read a block of deltas and frequencies. -/
def readVIntBlock (remaining : IndexInput → Nat) (input : IndexInput) (docs freqs : List I32)
    (num : Nat) (indexHasFreq decodeFreq : Bool) : Result (List I32 × List I32 × IndexInput) := do
  let (docs, input) ← readGroupVInts remaining input docs num
  if indexHasFreq ∧ decodeFreq then
    if freqs.length < num then
      (range num).foldlM readFreq (docs, freqs, input)
    else
      -- The loop is the same, over the first integers of both buffers.
      let head ← sliceInts docs 0 num
      let freqHead ← sliceInts freqs 0 num
      let (head, freqHead, input) ← (range num).foldlM readFreq (head, freqHead, input)
      return (head ++ docs.drop num, freqHead ++ freqs.drop num, input)
  else if indexHasFreq then
    return ((docs.take num).map (fun doc : I32 => doc >>> (1 : Nat)) ++ docs.drop num, freqs, input)
  else
    return (docs, freqs, input)

/-! ## What is written -/

variable {i pos : Nat} {file : Bytes}

section

variable {docs freqs : List I32} {num : Nat}

/-- The vectorised form does the same. -/
theorem foldFlagLane_eq (doc freq : I32) : foldFlagLane doc freq = foldFlag doc freq := by
  rw [foldFlagLane, foldFlag]
  split
  · rw [BitVec.sub_eq_add_neg, show -BitVec.allOnes 32 = (1 : I32) by decide]
    refine BitVec.add_eq_or_of_and_eq_zero _ _ ?_
    ext i hi
    rcases i with - | i <;> simp [BitVec.getElem_one]
  · exact (BitVec.sub_zero _).trans BitVec.or_zero.symm

theorem intAt_zipWith (f : I32 → I32 → I32) (hdocs : i < docs.length) (hfreqs : i < freqs.length) :
    intAt (zipWith f docs freqs) i = f (intAt docs i) (intAt freqs i) := by
  rw [intAt_eq_getElem (by rw [length_zipWith]; omega), getElem_zipWith, intAt_eq_getElem hdocs,
    intAt_eq_getElem hfreqs]

/-- Both forms fold all flags. -/
theorem foldFlags_spec (hdocs : num ≤ docs.length) (hfreqs : num ≤ freqs.length) :
    foldFlags docs freqs num = .ok (replaceFirst (zipWith foldFlag docs freqs) docs num) := by
  rw [foldFlags]
  split
  · dsimp only
    have hlane : foldFlagLane = foldFlag := funext₂ foldFlagLane_eq
    rw [chunksExact, chunksExact, length_take_of_le hdocs, length_take_of_le hfreqs, pieces_zipWith,
      pieces_flatten, hlane, ← drop_zipWith, take_append_drop, replaceFirst, take_zipWith]
  · refine foldlM_range_eq (replaceFirst (zipWith foldFlag docs freqs) docs) (fun i hi => ?_)
      (by simp [replaceFirst])
    have hzip : (zipWith foldFlag docs freqs).length = min docs.length freqs.length :=
      length_zipWith
    have hlen := @replaceFirst_length (zipWith foldFlag docs freqs) docs i (by omega) (by omega)
    rw [getInt_eq (by omega), ok_bind, getInt_eq (by omega), ok_bind, intAt_replaceFirst (by omega),
      if_neg (lt_irrefl i), setInt_eq (by omega), ← intAt_zipWith foldFlag (by omega) (by omega),
      replaceFirst_set (by omega) (by omega)]

/-- The bytes of the frequencies that are not one. -/
def freqBytes (freqs : List I32) : Bytes :=
  freqs.flatMap fun freq => if freq = 1 then [] else vIntBytes freq.toInt

/-- Frequencies other than one are written. -/
theorem foldl_writeVInt (freqs : List I32) (out : Bytes) :
    freqs.foldl (fun out freq => if freq ≠ 1 then writeVInt out freq.toInt else out) out =
      out ++ freqBytes freqs := by
  induction freqs generalizing out with
  | nil => simp [freqBytes]
  | cons freq freqs ih =>
    rw [foldl_cons, ih, show freqBytes (freq :: freqs) =
      (if freq = 1 then [] else vIntBytes freq.toInt) ++ freqBytes freqs from flatMap_cons]
    by_cases hone : freq = 1
    · rw [if_neg (not_not_intro hone), if_pos hone, nil_append]
    · rw [if_pos hone, if_neg hone, writeVInt, append_assoc]

/-- The deltas as they are written. -/
def stored (docs freqs : List I32) (hasFreq : Bool) : List I32 :=
  if hasFreq then zipWith foldFlag docs freqs else docs

theorem groupVIntBytes_replaceFirst {values dst : List I32} (hvalues : num ≤ values.length) :
    groupVIntBytes (replaceFirst values dst num) num = groupVIntBytes values num := by
  have hat (i : Nat) (hi : i < num) : intAt (replaceFirst values dst num) i = intAt values i := by
    rw [intAt_replaceFirst hvalues, if_pos hi]
  have hgroup : ∀ k ∈ range (num / 4),
      groupAt (replaceFirst values dst num) k = groupAt values k := by
    intro k hk
    rw [mem_range] at hk
    rw [groupAt, hat _ (by omega), hat _ (by omega), hat _ (by omega), hat _ (by omega), groupAt]
  have htail : ∀ k ∈ range (num % 4),
      tailAt (replaceFirst values dst num) num k = tailAt values num k := by
    intro k hk
    rw [mem_range] at hk
    rw [tailAt, hat _ (by omega), tailAt]
  rw [groupVIntBytes, flatMap_congr hgroup, flatMap_congr htail, groupVIntBytes]

/-- What is written. -/
theorem writeVIntBlock_spec (hdocs : num ≤ docs.length) (hfreqs : num ≤ freqs.length) (out : Bytes)
    (hasFreq : Bool) :
    ∃ docs', writeVIntBlock out docs freqs num hasFreq =
      .ok (out ++ (groupVIntBytes (stored docs freqs hasFreq) num ++
        if hasFreq then freqBytes (freqs.take num) else []), docs') := by
  have hzip : (zipWith foldFlag docs freqs).length = min docs.length freqs.length :=
    length_zipWith
  cases hasFreq with
  | false =>
    refine ⟨docs, ?_⟩
    rw [writeVIntBlock, if_neg Bool.false_ne_true, ok_bind]
    dsimp only
    rw [writeGroupVInts_spec hdocs, ok_bind]
    simp [stored]
  | true =>
    refine ⟨replaceFirst (zipWith foldFlag docs freqs) docs num, ?_⟩
    rw [writeVIntBlock, if_pos rfl, foldFlags_spec hdocs hfreqs, ok_bind]
    dsimp only
    rw [writeGroupVInts_spec (by rw [replaceFirst_length (by omega) hdocs]; exact hdocs), ok_bind,
      if_pos rfl, foldl_writeVInt, groupVIntBytes_replaceFirst (by omega), append_assoc]
    rfl

end

/-! ## What is read back -/

section

variable {docs freqs : List I32} {num : Nat}

/-- The flag says that the frequency is one. -/
theorem foldFlag_and_one (doc freq : I32) :
    foldFlag doc freq &&& 1 = if freq = 1 then 1 else 0 := by
  rw [foldFlag]
  ext i hi
  rcases i with - | i
  · split <;> simp
  · split <;> simp [BitVec.getElem_one]

/-- The flag took the place of a sign bit that is not set. -/
theorem foldFlag_shift {doc : I32} (hdoc : 1 ≤ doc.toInt) (freq : I32) :
    foldFlag doc freq >>> (1 : Nat) = doc := by
  have hmsb : doc.msb = false := by
    rw [BitVec.msb_eq_toInt, decide_eq_false_iff_not]
    omega
  have hflag (i : Nat) : (if freq = 1 then (1 : I32) else 0).getLsbD (1 + i) = false := by
    split <;> simp [BitVec.getLsbD_one]
  rw [foldFlag]
  apply BitVec.eq_of_getLsbD_eq
  intro i hi
  rw [BitVec.getLsbD_ushiftRight, BitVec.getLsbD_or, hflag, Bool.or_false, BitVec.getLsbD_shiftLeft]
  rcases Nat.lt_or_ge (1 + i) 32 with hlt | hge
  · simp [hlt]
  · obtain rfl : i = 31 := by omega
    rw [BitVec.msb_eq_getLsbD_last] at hmsb
    simpa using hmsb.symm

/-- One frequency is read: its delta is bare and its bytes are consumed. -/
theorem readFreq_spec {docBuffer freqBuffer : List I32} {doc freq : I32} (hdoc : 1 ≤ doc.toInt)
    (hi : i < docBuffer.length) (hi' : i < freqBuffer.length)
    (hstored : intAt docBuffer i = foldFlag doc freq) (hat : At file pos (freqBytes [freq])) :
    readFreq (docBuffer, freqBuffer, ⟨file, pos⟩) i =
      .ok (docBuffer.set i doc, freqBuffer.set i freq,
        ⟨file, pos + (freqBytes [freq]).length⟩) := by
  have hvalue : BitVec.ofInt 32 (asI 32 freq.toInt) = freq := by
    rw [asI, BitVec.toInt_eq_toNat_bmod, Int.bmod_bmod, ← BitVec.toInt_eq_toNat_bmod,
      BitVec.ofInt_toInt]
  have hflag (v : I32) : intAt (freqBuffer.set i v) i = v := by
    rw [intAt_set hi', if_pos rfl]
  rw [readFreq]
  rw [getInt_eq hi, ok_bind, setInt_eq hi', ok_bind, setInt_eq hi, ok_bind,
    getInt_eq (by rwa [length_set]), ok_bind, hflag, hstored, foldFlag_and_one, foldFlag_shift hdoc]
  by_cases hone : freq = 1
  · simp [hone, freqBytes]
  · have hbytes : freqBytes [freq] = vIntBytes freq.toInt := by
      rw [freqBytes, flatMap_singleton, if_neg hone]
    rw [hbytes] at hat
    rw [if_neg hone, if_pos rfl, IndexInput.readVInt_mk hat, ok_bind]
    dsimp only
    rw [setInt_eq (by rwa [length_set]), ok_bind, set_set, hvalue, hbytes, pure_eq_ok]

/-- The frequencies of a block are read one after the other. -/
theorem readFreqs_spec {docBuffer freqBuffer : List I32} (hdocs : num ≤ docs.length)
    (hfreqs : num ≤ freqs.length) (hrange : ∀ doc ∈ docs.take num, 1 ≤ doc.toInt)
    (hbuffer : docBuffer.length = num) (hbuffer' : freqBuffer.length = num)
    (hstored : ∀ i < num, intAt docBuffer i = foldFlag (intAt docs i) (intAt freqs i))
    (hat : At file pos (freqBytes (freqs.take num))) :
    (range num).foldlM readFreq (docBuffer, freqBuffer, ⟨file, pos⟩) =
      .ok (docs.take num, freqs.take num, ⟨file, pos + (freqBytes (freqs.take num)).length⟩) := by
  have hsplit (i : Nat) (hi : i < num) :
      freqBytes (freqs.take (i + 1)) = freqBytes (freqs.take i) ++ freqBytes [intAt freqs i] := by
    rw [← take_append_getElem (show i < freqs.length by omega), freqBytes,
      flatMap_append, ← freqBytes, intAt_eq_getElem (show i < freqs.length by omega), ← freqBytes]
  rw [foldlM_range_eq (fun i => (replaceFirst docs docBuffer i, replaceFirst freqs freqBuffer i,
      ⟨file, pos + (freqBytes (freqs.take i)).length⟩)) (fun i hi => by
      have hlen := @replaceFirst_length docs docBuffer i (by omega) (by omega)
      have hlen' := @replaceFirst_length freqs freqBuffer i (by omega) (by omega)
      have hdoc : 1 ≤ (intAt docs i).toInt := by
        rw [intAt_eq_getElem (show i < docs.length by omega)]
        exact hrange _ (mem_take_iff_getElem.mpr ⟨i, by omega, rfl⟩)
      have hrest : intAt (replaceFirst docs docBuffer i) i = intAt docBuffer i := by
        rw [intAt_replaceFirst (by omega), if_neg (lt_irrefl i)]
      have hmine : At file (pos + (freqBytes (freqs.take i)).length)
        (freqBytes [intAt freqs i]) := by
        have hprefix : At file pos (freqBytes (freqs.take (i + 1)) ++
            freqBytes ((freqs.take num).drop (i + 1))) := by
          have htake : freqs.take (i + 1) = (freqs.take num).take (i + 1) := by
            rw [take_take, Nat.min_eq_left hi]
          rwa [freqBytes, freqBytes, ← flatMap_append, htake, take_append_drop]
        have hhead := (at_append_iff.mp hprefix).1
        rw [hsplit i hi] at hhead
        exact (at_append_iff.mp hhead).2
      rw [readFreq_spec hdoc (by omega) (by omega) (hrest.trans (hstored i hi)) hmine,
        replaceFirst_set (by omega) (by omega), replaceFirst_set (by omega) (by omega), hsplit i hi,
        length_append, add_assoc]) (by simp [replaceFirst, freqBytes]), replaceFirst, replaceFirst,
        drop_of_length_le hbuffer.le, drop_of_length_le hbuffer'.le,
    append_nil, append_nil]

end

/-! ## Blocks -/

section

variable {docs freqs docBuffer freqBuffer : List I32} {num : Nat} {remaining : IndexInput → Nat}

/-- The block is read back. -/
theorem readVIntBlock_spec
    (hremaining : ∀ input : IndexInput, remaining input ≤ input.bytes.length - input.pos)
    (hdocs : num ≤ docs.length) (hfreqs : num ≤ freqs.length)
    (hrange : ∀ doc ∈ docs.take num, 1 ≤ doc.toInt) (hbuffer : num ≤ docBuffer.length)
    (hbuffer' : num ≤ freqBuffer.length) (hasFreq decodeFreq : Bool)
    (hat : At file pos (groupVIntBytes (stored docs freqs hasFreq) num ++
      if hasFreq then freqBytes (freqs.take num) else [])) :
    readVIntBlock remaining ⟨file, pos⟩ docBuffer freqBuffer num hasFreq decodeFreq =
      .ok (replaceFirst docs docBuffer num,
        if hasFreq && decodeFreq then replaceFirst freqs freqBuffer num else freqBuffer,
        ⟨file, pos + (groupVIntBytes (stored docs freqs hasFreq) num).length +
          if hasFreq && decodeFreq then (freqBytes (freqs.take num)).length else 0⟩) := by
  obtain ⟨hgroups, htail⟩ := at_append_iff.mp hat
  have hzip : (zipWith foldFlag docs freqs).length = min docs.length freqs.length :=
    length_zipWith
  cases hasFreq with
  | false =>
    rw [readVIntBlock, readGroupVInts_spec hremaining (by exact hdocs) hbuffer hgroups, ok_bind]
    rfl
  | true =>
    have hhead : (replaceFirst (zipWith foldFlag docs freqs) docBuffer num).take num =
        (zipWith foldFlag docs freqs).take num :=
      replaceFirst_take (by omega)
    have hdrop : (replaceFirst (zipWith foldFlag docs freqs) docBuffer num).drop num =
        docBuffer.drop num := by
      rw [replaceFirst, drop_left' (length_take_of_le (by omega))]
    have hlen := @replaceFirst_length (zipWith foldFlag docs freqs) docBuffer num (by omega)
      (by omega)
    rw [readVIntBlock, readGroupVInts_spec hremaining (show num ≤ (stored docs freqs true).length by
      rw [stored, if_pos rfl]; omega) hbuffer hgroups, ok_bind]
    dsimp only
    rw [show stored docs freqs true = zipWith foldFlag docs freqs from rfl] at htail ⊢
    cases decodeFreq with
    | true =>
      rw [if_pos ⟨rfl, rfl⟩, if_neg (by omega), sliceInts, if_pos (by omega), ok_bind,
        sliceInts, if_pos (by omega), ok_bind, drop_zero, drop_zero, hhead, hdrop,
        readFreqs_spec hdocs hfreqs hrange (length_take_of_le (by omega))
          (length_take_of_le hbuffer')
          (fun i hi => by
            rw [intAt_eq_getElem?, getElem?_take_of_lt hi, ← intAt_eq_getElem?,
              intAt_zipWith foldFlag (by omega) (by omega)])
          htail, ok_bind]
      rfl
    | false =>
      have hshift : ((zipWith foldFlag docs freqs).take num).map
          (fun doc : I32 => doc >>> (1 : Nat)) = docs.take num := by
        apply ext_getElem
        · rw [length_map, length_take, length_take]
          omega
        · intro i hi hi'
          rw [length_take] at hi'
          rw [getElem_map, getElem_take, getElem_zipWith, foldFlag_shift, getElem_take]
          exact hrange _ (mem_take_iff_getElem.mpr ⟨i, by omega, rfl⟩)
      rw [if_neg (by simp), if_pos rfl, hhead, hdrop, hshift]
      rfl

/-- A block is read back as it was written, with the frequencies if they are asked for. The bytes
are consumed, apart from those of frequencies that are not asked for. A list of integers in group
varints is read back by both readers, with all its bytes. -/
theorem readVIntBlock_writeVIntBlock :
    (∀ (num : Nat) (docs freqs docBuffer freqBuffer : List I32) (out rest : Bytes)
      (remaining : IndexInput → Nat) (hasFreq decodeFreq : Bool),
      num < 128 → num ≤ docs.length → num ≤ freqs.length → num ≤ docBuffer.length →
      num ≤ freqBuffer.length → (∀ doc ∈ docs.take num, 1 ≤ doc.toInt) →
      (∀ input : IndexInput, remaining input ≤ input.bytes.length - input.pos) →
      ∃ written docs' docBuffer' freqBuffer' pos,
        writeVIntBlock out docs freqs num hasFreq = .ok (out ++ written, docs') ∧
        readVIntBlock remaining ⟨out ++ written ++ rest, out.length⟩ docBuffer
          freqBuffer num hasFreq
          decodeFreq = .ok (docBuffer', freqBuffer', ⟨out ++ written ++ rest, pos⟩) ∧
        docBuffer'.take num = docs.take num ∧
        (hasFreq ∧ decodeFreq → freqBuffer'.take num = freqs.take num) ∧
        pos + (if hasFreq ∧ ¬decodeFreq then (freqBytes (freqs.take num)).length else 0) =
          (out ++ written).length) ∧
    ∀ (values dst : List I32) (out rest : Bytes), values.length ≤ dst.length →
      ∃ written, writeGroupVInts out values values.length = .ok (out ++ written) ∧
        ∀ remaining ∈ [fun _ => 0, fun input : IndexInput => input.bytes.length - input.pos],
          readGroupVInts remaining ⟨out ++ written ++ rest, out.length⟩ dst values.length =
            .ok (values ++ dst.drop values.length,
              ⟨out ++ written ++ rest, (out ++ written).length⟩) := by
  constructor
  · intro num docs freqs docBuffer freqBuffer out rest remaining hasFreq decodeFreq _ hdocs hfreqs
      hbuffer hbuffer' hrange hremaining
    obtain ⟨docs', hwrite⟩ := writeVIntBlock_spec hdocs hfreqs out hasFreq
    refine ⟨_, docs', _, _, _, hwrite, readVIntBlock_spec hremaining hdocs hfreqs hrange hbuffer
      hbuffer' hasFreq decodeFreq (at_of_append out _ rest), replaceFirst_take hdocs, ?_, ?_⟩
    · rintro ⟨rfl, rfl⟩
      exact replaceFirst_take hfreqs
    · cases hasFreq <;> cases decodeFreq <;> simp [add_assoc]
  · intro values dst out rest hdst
    refine ⟨_, writeGroupVInts_spec (le_refl _) out, ?_⟩
    intro remaining hmem
    have hremaining : ∀ input : IndexInput, remaining input ≤ input.bytes.length - input.pos := by
      rcases mem_pair.mp hmem with rfl | rfl
      · exact fun _ => Nat.zero_le _
      · exact fun _ => le_refl _
    rw [readGroupVInts_spec hremaining (le_refl _) hdst (at_of_append out _ rest), replaceFirst,
      take_length, length_append]

/-- Two documents, one of them with frequency one. -/
theorem readVIntBlock_writeVIntBlock_pair :
    ∃ written docs' docBuffer' freqBuffer' pos,
      writeVIntBlock [] [5, 7] [3, 1] 2 true = .ok ([] ++ written, docs') ∧
      readVIntBlock (fun _ => 0) ⟨[] ++ written ++ [], 0⟩ [0, 0] [0, 0] 2 true true =
        .ok (docBuffer', freqBuffer', ⟨[] ++ written ++ [], pos⟩) ∧
      docBuffer'.take 2 = [5, 7] := by
  have hrange : ∀ doc ∈ List.take 2 [(5 : I32), 7], 1 ≤ doc.toInt := by
    intro doc hdoc
    rcases mem_pair.mp hdoc with rfl | rfl <;> decide
  obtain ⟨written, docs', docBuffer', freqBuffer', pos, hwrite, hread, hdocs, -⟩ :=
    readVIntBlock_writeVIntBlock.1 2 [5, 7] [3, 1] [0, 0] [0, 0] [] [] (fun _ => 0) true true
      (by decide) (by decide) (by decide) (by decide) (by decide) hrange (fun _ => Nat.zero_le _)
  exact ⟨written, docs', docBuffer', freqBuffer', pos, hwrite, hread, hdocs⟩

/-- The frequencies of a block are behind its deltas, and stay there if they are not asked for. -/
theorem readVIntBlock_leaves_freqs :
    writeVIntBlock [] [5] [3] 1 true = .ok ([10, 3], [10]) ∧
      readVIntBlock (fun _ => 0) ⟨[10, 3], 0⟩ [0] [0] 1 true false =
        .ok ([5], [0], ⟨[10, 3], 1⟩) := by
  decide +kernel

end

end RLucene.Codecs.Lucene101.PostingsUtil
