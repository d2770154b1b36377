import Mathlib.Algebra.Order.BigOperators.Group.List
import RLucene.Codecs.Lucene90.IndexedDISI.Layout

/-!
# Flushing a block

Whatever loop `flush` selects for the cardinality of the buffer, the bytes it appends are the
encoding of the block that the buffer holds: the document-wise, word-wise and vectorised sparse
loops all emit the set positions in increasing order, and both vectorised rank loops count the ones
of the words exactly, since no lane overflows.
-/

namespace RLucene.Codecs.Lucene90.IndexedDISI

open Nat List Lib Store Search Util

@[simp] theorem shorts_nil : shorts [] = [] := rfl

theorem shorts_cons (d : Nat) (docs : List Nat) : shorts (d :: docs) = intLE 2 d ++ shorts docs :=
  rfl

theorem shorts_append (a b : List Nat) : shorts (a ++ b) = shorts a ++ shorts b := by
  simp [shorts]

/-- Writing a document number appends the short of its low half. -/
theorem writeShort_doc (out : Bytes) (d : Int) : writeShort out (asI 16 d) = out ++ intLE 2 d := by
  rw [writeShort_eq, intLE_asI 2]

/-! ## The document-wise loop -/

/-- An iterator over a buffer whose positions all lie below the number of bits. -/
structure Walks (iter : BitSetIterator) : Prop where
  length_eq : iter.length = iter.bits.numBits
  ghost : ∀ p ∈ positions iter.bits.bits, p < iter.bits.numBits
  numBits_le : iter.bits.numBits ≤ blockSize

variable {iter : BitSetIterator} {p d i n bound : Nat} {word : Word} {words bits : List Word}
  {lanes : List Nat} {count : List Word → Nat}

theorem Walks.setDocId (h : Walks iter) (doc : Int) : Walks (iter.setDocId doc) :=
  ⟨h.length_eq, h.ghost, h.numBits_le⟩

theorem Walks.ne_noMoreDocs (h : Walks iter) (hp : p ∈ positions iter.bits.bits) :
    p < noMoreDocs := by
  have hghost := h.ghost p hp
  have hbits := h.numBits_le
  unfold noMoreDocs
  unfold blockSize at hbits
  omega

/-- The iterator goes to the next bit that is set. -/
theorem Walks.nextDoc (h : Walks iter) (hd : iter.doc = d) :
    iter.nextDoc = .ok ((leastFrom (positions iter.bits.bits) (d + 1) : Int),
      iter.setDocId (leastFrom (positions iter.bits.bits) (d + 1))) := by
  rw [BitSetIterator.nextDoc_eq iter h.length_eq h.ghost (by omega), hd,
    show ((d : Int) + 1).toNat = d + 1 by omega]

/-- From the least document not below `t`, the loop writes all documents from `t` on. -/
theorem writeDocs_eq (fuel t : Nat) (out : Bytes) (iter : BitSetIterator) (h : Walks iter)
    (hdoc : iter.doc = leastFrom (positions iter.bits.bits) t)
    (hfuel : ((positions iter.bits.bits).filter (t ≤ ·)).length < fuel) :
    writeDocs out iter (leastFrom (positions iter.bits.bits) t) fuel =
      .ok (out ++ shorts ((positions iter.bits.bits).filter (t ≤ ·))) := by
  induction fuel generalizing t out iter with
  | zero => omega
  | succ fuel ih =>
    rw [writeDocs]
    cases hfind : (positions iter.bits.bits).find? (t ≤ ·) with
    | none =>
      rw [filter_le_eq_nil hfind]
      simp [leastFrom, hfind]
    | some d =>
      have hleast : leastFrom (positions iter.bits.bits) t = d := by simp [leastFrom, hfind]
      have hcons := (positions_increasing iter.bits.bits).filter_le_eq_cons hfind
      have hne : (d : Int) ≠ noMoreDocs := by
        have := h.ne_noMoreDocs (mem_of_find?_eq_some hfind)
        omega
      rw [hcons, length_cons] at hfuel
      rw [hleast, if_neg hne, h.nextDoc (hdoc.trans (by rw [hleast])), ok_bind, hcons, shorts_cons,
        ← append_assoc, ← writeShort_doc]
      exact ih (d + 1) _ (iter.setDocId _) (h.setDocId _) rfl (lt_of_succ_lt_succ hfuel)

/-! ## The word-wise loop -/

/-- The inner loop writes the documents of a nonempty word and ends on one of them. -/
theorem writeWordDocs_eq (fuel wordIndex : Nat) (out : Bytes) (hne : word ≠ 0)
    (hfuel : countOnes word ≤ fuel) :
    ∃ last ∈ setBits word,
      writeWordDocs out wordIndex word ((wordIndex <<< 6) + trailingZeros word : Nat) fuel =
        (out ++ shorts ((setBits word).map (64 * wordIndex + ·)),
          ((64 * wordIndex + last : Nat) : Int)) := by
  have hbase : wordIndex <<< 6 = 64 * wordIndex := by rw [shiftLeft_eq]; ring
  induction fuel generalizing word out with
  | zero =>
    rw [countOnes_eq_succ hne] at hfuel
    omega
  | succ fuel ih =>
    have hcons := setBits_eq_cons hne
    rw [writeWordDocs, writeShort_doc, hbase]
    by_cases hlast : word &&& (word - 1) = 0
    · refine ⟨trailingZeros word, trailingZeros_mem hne, ?_⟩
      rw [if_pos hlast, hcons, hlast, setBits_eq_nil_iff.mpr rfl]
      simp [shorts]
    · rw [countOnes_eq_succ hne] at hfuel
      obtain ⟨last, hmem, hrest⟩ := ih (out ++ intLE 2 (64 * wordIndex + trailingZeros word : Nat))
        hlast (by omega)
      refine ⟨last, by rw [hcons]; exact mem_cons_of_mem _ hmem, ?_⟩
      rw [hbase] at hrest
      rw [if_neg hlast, hrest, hcons, map_cons, shorts_cons, append_assoc]

/-- The least position from word `i` on is the lowest bit of its word, the first that is left. -/
theorem least_in_word {ws : List Word} (hfind : (positions ws).find? (64 * i ≤ ·) = some d) :
    ∃ hj : d / 64 < ws.length, i ≤ d / 64 ∧ ws[d / 64] ≠ 0 ∧
      d = 64 * (d / 64) + trailingZeros ws[d / 64] ∧
      (positions ws).filter (64 * i ≤ ·) = (setBits ws[d / 64]).map (64 * (d / 64) + ·) ++
        (positions ws).filter (64 * (d / 64 + 1) ≤ ·) := by
  have hmem := mem_of_find?_eq_some hfind
  have hge : 64 * i ≤ d := by simpa using find?_some hfind
  have hlt := lt_of_mem_positions hmem
  have hj : d / 64 < ws.length := by omega
  have hbit : d % 64 ∈ setBits ws[d / 64] := by
    rw [mem_setBits, ← FixedBitSet.bitAt_of_lt hj, ← mem_positions]
    exact hmem
  have hne : ws[d / 64] ≠ 0 := by
    intro hzero
    rw [setBits_eq_nil_iff.mpr hzero] at hbit
    simp at hbit
  have hleast (p : Nat) (hp : p ∈ positions ws) (hip : 64 * i ≤ p) : d ≤ p := by
    have hpf : p ∈ (positions ws).filter (64 * i ≤ ·) := mem_filter.mpr ⟨hp, by simpa using hip⟩
    rw [(positions_increasing ws).filter_le_eq_cons hfind] at hpf
    rcases mem_cons.mp hpf with rfl | hpf
    · exact le_rfl
    · have := (mem_filter.mp hpf).2
      simp only [decide_eq_true_eq] at this
      omega
  have hlow := trailingZeros_le hbit
  have hword : 64 * (d / 64) + trailingZeros ws[d / 64] ∈ positions ws := by
    rw [mem_positions, FixedBitSet.bitAt_getElem hj (trailingZeros_lt hne), ← mem_setBits]
    exact trailingZeros_mem hne
  have hd := hleast _ hword (by omega)
  refine ⟨hj, by omega, hne, by omega, ?_⟩
  rw [← filter_positions hj]
  apply filter_congr
  intro p hp
  have := hleast p hp
  simp only [decide_eq_decide]
  omega

/-- From the least document not below word `i`, the loop writes the documents of all words from
there on. -/
theorem writeWords_eq (fuel i : Nat) (out : Bytes) (iter : BitSetIterator) (h : Walks iter)
    (hi : i ≤ iter.bits.bits.length) (hfuel : iter.bits.bits.length < fuel + i) :
    writeWords out iter (leastFrom (positions iter.bits.bits) (64 * i)) fuel =
      .ok (out ++ shorts ((positions iter.bits.bits).filter (64 * i ≤ ·))) := by
  induction fuel generalizing i out iter with
  | zero => omega
  | succ fuel ih =>
    rw [writeWords]
    cases hfind : (positions iter.bits.bits).find? (64 * i ≤ ·) with
    | none =>
      rw [filter_le_eq_nil hfind]
      simp [leastFrom, hfind]
    | some d =>
      have hleast : leastFrom (positions iter.bits.bits) (64 * i) = d := by
        simp [leastFrom, hfind]
      have hdoc : (d : Int) ≠ noMoreDocs := by
        have := h.ne_noMoreDocs (mem_of_find?_eq_some hfind)
        omega
      obtain ⟨hj, hij, hne, hd, hfilter⟩ := least_in_word hfind
      obtain ⟨last, hlast, hinner⟩ := writeWordDocs_eq 64 (d / 64) out hne (countOnes_le _)
      rw [shiftLeft_eq, show d / 64 * 2 ^ 6 = 64 * (d / 64) by ring, ← hd] at hinner
      have hpos : (64 * (d / 64) + last) ||| 63 = 64 * (d / 64) + 63 := by
        have := lt_of_mem_setBits hlast
        rw [or_63]
        omega
      have hnext := (h.setDocId ((64 * (d / 64) + 63 : Nat) : Int)).nextDoc rfl
      rw [hleast, if_neg hdoc]
      simp only [Int.toNat_natCast, FixedBitSet.shiftRight_six, FixedBitSet.wordAt_eq hj, ok_bind,
        hinner, hpos, hnext]
      rw [hfilter, shorts_append, ← append_assoc]
      exact ih (d / 64 + 1) _ (iter.setDocId _) (h.setDocId _) hj (by
        show iter.bits.bits.length < _
        omega)

/-! ## The vectorised loop -/

/-- The loop that tests last writes the documents of a nonzero word. -/
theorem writeNonemptyWord_eq (fuel docBase : Nat) (out : Bytes) (hne : word ≠ 0)
    (hfuel : countOnes word ≤ fuel) :
    writeNonemptyWord out docBase word fuel = out ++ shorts ((setBits word).map (docBase + ·)) := by
  induction fuel generalizing word out with
  | zero =>
    rw [countOnes_eq_succ hne] at hfuel
    omega
  | succ fuel ih =>
    have hcons := setBits_eq_cons hne
    rw [writeNonemptyWord, writeShort_doc, hcons, map_cons, shorts_cons, ← append_assoc]
    by_cases hlast : word &&& (word - 1) = 0
    · rw [if_pos hlast, hlast, setBits_eq_nil_iff.mpr rfl]
      simp
    · rw [countOnes_eq_succ hne] at hfuel
      rw [if_neg hlast]
      exact ih _ hlast (by omega)

/-- The loop that tests first writes the documents of any word. -/
theorem writeWord_eq (fuel docBase : Nat) (out : Bytes) (word : Word)
    (hfuel : countOnes word < fuel) :
    writeWord out docBase word fuel = out ++ shorts ((setBits word).map (docBase + ·)) := by
  induction fuel generalizing word out with
  | zero => omega
  | succ fuel ih =>
    rw [writeWord]
    by_cases hne : word = 0
    · rw [if_neg (by simpa using hne), setBits_eq_nil_iff.mpr hne]
      simp
    · rw [countOnes_eq_succ hne] at hfuel
      simp only [if_pos hne, writeShort_doc]
      rw [setBits_eq_cons hne, map_cons, shorts_cons, ← append_assoc]
      exact ih _ _ (by omega)

/-- The mask has a bit for each nonzero lane. -/
theorem mem_nonemptyMask {words : List Word} (hlen : words.length ≤ 64) {lane : Nat} :
    lane ∈ setBits (nonemptyMask words) ↔ words.getD lane 0 ≠ 0 := by
  have hmask : lane ∈ setBits (nonemptyMask words) ↔ ∃ word, words[lane]? = some word ∧ word ≠ 0 :=
    @mem_setBits_zipIdx _ _ (· ≠ 0) _ _ hlen
  rw [hmask, getD_eq_getElem?_getD]
  cases words[lane]? <;> simp

/-- Visiting the lanes of the mask writes the documents of those lanes. -/
theorem writeLanes_eq (fuel group : Nat) (words : List Word) (out : Bytes) (nonempty : Word)
    (hfuel : countOnes nonempty < fuel) :
    writeLanes out group words nonempty fuel =
      out ++ shorts ((setBits nonempty).flatMap
        (fun lane => (setBits (words.getD lane 0)).map ((group * 4 + lane) * 64 + ·))) := by
  induction fuel generalizing nonempty out with
  | zero => omega
  | succ fuel ih =>
    rw [writeLanes]
    by_cases hne : nonempty = 0
    · rw [if_neg (by simpa using hne), setBits_eq_nil_iff.mpr hne]
      simp
    · rw [countOnes_eq_succ hne] at hfuel
      simp only [if_pos hne, writeWord_eq 65 _ _ _ (lt_succ_of_le (countOnes_le _))]
      rw [ih _ _ (by omega), setBits_eq_cons hne, flatMap_cons, shorts_append, append_assoc]

/-- A group of nonzero words is written word by word. -/
theorem writeFullGroup_eq (group k : Nat) (words : List Word) (out : Bytes)
    (hne : ∀ word ∈ words, word ≠ 0) :
    (words.zipIdx k).foldl (fun out (word, lane) =>
      writeNonemptyWord out ((group * 4 + lane) * 64) word 64) out =
      out ++ shorts ((positions words).map ((group * 4 + k) * 64 + ·)) := by
  induction words generalizing k out with
  | nil => simp [positions]
  | cons word words ih =>
    rw [zipIdx_cons, foldl_cons, ih (k + 1) _ (forall_mem_cons.mp hne).2]
    simp only [writeNonemptyWord_eq 64 _ out (hne word (by simp)) (countOnes_le _)]
    rw [positions, map_append, shorts_append, append_assoc, map_add_map_add,
      show (group * 4 + k) * 64 + 64 = (group * 4 + (k + 1)) * 64 by ring]

/-- Either way of walking a group of four words writes its documents. -/
theorem writeGroup_eq (group : Nat) (hlen : words.length = 4) (out : Bytes) :
    (if nonemptyMask words = 0b1111 then
      words.zipIdx.foldl (fun out (word, lane) =>
        writeNonemptyWord out ((group * 4 + lane) * 64) word 64) out
    else writeLanes out group words (nonemptyMask words) 5) =
      out ++ shorts ((positions words).map (256 * group + ·)) := by
  have hmem {lane : Nat} := @mem_nonemptyMask words (by omega) lane
  split
  · rename_i hfull
    rw [writeFullGroup_eq]
    · rw [show (group * 4 + 0) * 64 = 256 * group by ring]
    · intro word hword
      obtain ⟨lane, hlane, rfl⟩ := getElem_of_mem hword
      have hbit : lane ∈ setBits (nonemptyMask words) := by
        have hall : ∀ lane < 4, lane ∈ setBits (0b1111 : Word) := by decide
        rw [hfull]
        exact hall lane (by omega)
      rw [hmem, getD_eq_getElem _ _ hlane] at hbit
      exact hbit
  · have hlanes : setBits (nonemptyMask words) =
        (range 4).filter (fun lane => words.getD lane 0 ≠ 0) := by
      refine Increasing.ext (setBits_increasing _) ((Increasing.range 4).filter _) fun lane => ?_
      rw [mem_filter, mem_range, hmem, decide_eq_true_eq]
      refine ⟨fun h => ⟨?_, h⟩, And.right⟩
      by_contra hge
      exact h (getD_eq_default _ _ (by omega))
    have hcount : countOnes (nonemptyMask words) < 5 := by
      rw [← setBits_length, hlanes]
      have := length_filter_le (fun lane => decide (words.getD lane 0 ≠ 0)) (range 4)
      rw [length_range] at this
      omega
    rw [writeLanes_eq 5 group words out _ hcount, hlanes, positions_eq_flatMap, hlen, map_flatMap]
    congr 2
    rw [flatMap_filter_of_nil]
    · congr 1
      funext lane
      rw [map_add_map_add, show 256 * group + 64 * lane = (group * 4 + lane) * 64 by ring]
    · intro lane hzero
      have hword : words.getD lane 0 = 0 := by simpa using hzero
      rw [hword, setBits_eq_nil_iff.mpr rfl, map_nil]

/-- Groups of four words are written one after the other. -/
theorem writeGroups_eq (k : Nat) (groups : List (List Word)) (out : Bytes)
    (hlen : ∀ words ∈ groups, words.length = 4) :
    (groups.zipIdx k).foldl (fun out (words, group) =>
      let nonempty := nonemptyMask words
      if nonempty = 0b1111 then
        words.zipIdx.foldl (fun out (word, lane) =>
          writeNonemptyWord out ((group * 4 + lane) * 64) word 64) out
      else writeLanes out group words nonempty 5) out =
      out ++ shorts ((positions groups.flatten).map (256 * k + ·)) := by
  induction groups generalizing k out with
  | nil => simp [positions]
  | cons words groups ih =>
    have hfour := hlen words (by simp)
    rw [zipIdx_cons, foldl_cons, ih (k + 1) _ (forall_mem_cons.mp hlen).2]
    simp only [writeGroup_eq k hfour out]
    rw [flatten_cons, positions_append, map_append, shorts_append, append_assoc, map_add_map_add,
      hfour, show 256 * k + 64 * 4 = 256 * (k + 1) by ring]

/-- The vectorised loop writes the documents of a bitmap of whole groups. -/
theorem writeSparseSimd_eq (hlen : bits.length = 4 * n) (out : Bytes) :
    writeSparseSimd bits out = out ++ shorts (positions bits) := by
  rw [writeSparseSimd, writeGroups_eq 0 _ out
    (fun words hw => length_of_mem_chunksExact (by omega) hlen hw),
    chunksExact_flatten (by omega) hlen]
  simp

/-! ## Ranks -/

/-- Lanes of a vector register, none above a bound. -/
structure Lanes (n bound : Nat) (lanes : List Nat) : Prop where
  length_eq : lanes.length = n
  le : ∀ lane ∈ lanes, lane ≤ bound

/-- Adding lanes that do not overflow adds their sums. -/
theorem addLanes_spec {width n ca cb : Nat} {a b : List Nat} (ha : Lanes n ca a) (hb : Lanes n cb b)
    (hbound : ca + cb < 2 ^ width) :
    Lanes n (ca + cb) (addLanes width a b) ∧ (addLanes width a b).sum = a.sum + b.sum := by
  obtain ⟨halen, hale⟩ := ha
  obtain ⟨hblen, hble⟩ := hb
  induction n generalizing a b with
  | zero =>
    rw [length_eq_zero_iff] at halen hblen
    subst halen hblen
    exact ⟨⟨rfl, by simp [addLanes]⟩, rfl⟩
  | succ n ih =>
    obtain ⟨x, a, rfl⟩ := exists_cons_of_length_eq_add_one halen
    obtain ⟨y, b, rfl⟩ := exists_cons_of_length_eq_add_one hblen
    have hx := hale x (by simp)
    have hy := hble y (by simp)
    obtain ⟨⟨hlen, hle⟩, hsum⟩ := ih (by simpa using halen)
      (forall_mem_cons.mp hale).2 (by simpa using hblen)
      (forall_mem_cons.mp hble).2
    have hcons : addLanes width (x :: a) (y :: b) = (x + y) :: addLanes width a b := by
      rw [addLanes, zipWith_cons_cons, mod_eq_of_lt (by omega), ← addLanes]
    rw [hcons]
    refine ⟨⟨by simp [hlen], forall_mem_cons.mpr ⟨by omega, hle⟩⟩, ?_⟩
    simp only [sum_cons, hsum]
    omega

/-- The lanes together do not overflow. -/
theorem Lanes.sum_le (h : Lanes n bound lanes) : lanes.sum ≤ n * bound := by
  simpa [h.length_eq] using sum_le_card_nsmul lanes bound h.le

private theorem foldl_mod_sum (lanes : List Nat) (acc : Nat) (h : acc + lanes.sum < 2 ^ 16) :
    lanes.foldl (fun sum lane => (sum + lane) % 2 ^ 16) acc = acc + lanes.sum := by
  induction lanes generalizing acc with
  | nil => rfl
  | cons lane lanes ih =>
    rw [sum_cons] at h ⊢
    rw [foldl_cons, mod_eq_of_lt (by omega), ih _ (by omega)]
    omega

/-- The widened lanes add up without overflow. -/
theorem reduceLanes_eq {counts : List Nat} (h : Lanes 16 128 counts) :
    reduceLanes counts = counts.sum := by
  have hlow : Lanes 8 128 (counts.take 8) :=
    ⟨by rw [length_take, h.length_eq]; rfl, fun x hx => h.le x (mem_of_mem_take hx)⟩
  have hhigh : Lanes 8 128 (counts.drop 8) :=
    ⟨by rw [length_drop, h.length_eq], fun x hx => h.le x (mem_of_mem_drop hx)⟩
  obtain ⟨hlanes, hsum⟩ := @addLanes_spec 16 _ _ _ _ _ hlow hhigh (by omega)
  have hle := hlanes.sum_le
  rw [reduceLanes, foldl_mod_sum _ 0 (by omega), hsum, zero_add, ← sum_append_nat, take_append_drop]

/-- The bytes of words: eight each, each byte with at most eight ones. -/
theorem popcounts_bytesOfWords (words : List Word) :
    Lanes (8 * words.length) 8 (popcounts (bytesOfWords words)) ∧
      (popcounts (bytesOfWords words)).sum = (words.map countOnes).sum := by
  have hle : ∀ lane ∈ popcounts (bytesOfWords words), lane ≤ 8 := by
    intro lane hlane
    obtain ⟨b, _, rfl⟩ := mem_map.mp hlane
    exact popCount_le 8 _
  induction words with
  | nil => exact ⟨⟨rfl, hle⟩, rfl⟩
  | cons word words ih =>
    have hcons : popcounts (bytesOfWords (word :: words)) =
        popcounts (leBytes 8 word.toNat) ++ popcounts (bytesOfWords words) := by
      rfl
    obtain ⟨⟨hlen, _⟩, hsum⟩ := ih (fun lane hlane => hle lane (by
      rw [hcons]
      exact mem_append_right _ hlane))
    refine ⟨⟨?_, hle⟩, ?_⟩
    · rw [hcons, length_append, hlen, popcounts, length_map, leBytes_length, length_cons]
      omega
    · rw [hcons, sum_append_nat, hsum, popcounts, sum_popCount_leBytes, map_cons, sum_cons]
      rfl

/-- Adding up to thirty-one registers of byte counts is exact: no lane exceeds 248. -/
private theorem foldl_addLanes {counts : List Nat} (registers : List (List Nat))
    (hregisters : ∀ lanes ∈ registers, Lanes 16 8 lanes) (hcounts : Lanes 16 bound counts)
    (hbound : bound + 8 * registers.length < 256) :
    Lanes 16 (bound + 8 * registers.length) (registers.foldl (addLanes 8) counts) ∧
      (registers.foldl (addLanes 8) counts).sum = counts.sum + registers.flatten.sum := by
  induction registers generalizing counts bound with
  | nil => exact ⟨by simpa using hcounts, by simp⟩
  | cons lanes registers ih =>
    rw [length_cons] at hbound ⊢
    obtain ⟨hadd, hsadd⟩ := @addLanes_spec 8 _ _ _ _ _ hcounts (hregisters lanes (by simp))
      (by omega)
    obtain ⟨hrest, hsrest⟩ := ih (forall_mem_cons.mp hregisters).2 hadd (by omega)
    rw [foldl_cons]
    refine ⟨?_, ?_⟩
    · rwa [show bound + 8 + 8 * registers.length = bound + 8 * (registers.length + 1) by
        ring] at hrest
    · rw [hsrest, hsadd, flatten_cons, sum_append_nat, add_assoc]

/-- The count for rank entries of eight words is exact. -/
theorem countEightWords_eq (hlen : words.length = 8) :
    countEightWords words = (words.map countOnes).sum := by
  obtain ⟨hlanes, hsum⟩ := popcounts_bytesOfWords words
  have hbytes : (bytesOfWords words).length = 16 * 4 := by
    have := hlanes.length_eq
    rwa [popcounts, length_map, hlen] at this
  have hflat := chunksExact_flatten (by omega) hbytes
  have hpiece (piece : Bytes) (h : piece ∈ chunksExact 16 (bytesOfWords words)) :
      Lanes 16 8 (popcounts piece) := by
    refine ⟨?_, fun lane hlane => ?_⟩
    · rw [popcounts, length_map, length_of_mem_chunksExact (by omega) hbytes h]
    · obtain ⟨b, _, rfl⟩ := mem_map.mp hlane
      exact popCount_le 8 _
  obtain ⟨a, b, c, d, hchunks⟩ : ∃ a b c d, chunksExact 16 (bytesOfWords words) = [a, b, c, d] :=
    ⟨_, _, _, _, by rw [chunksExact, hbytes]; rfl⟩
  rw [hchunks] at hflat hpiece
  obtain ⟨htotal, hstotal⟩ := foldl_addLanes [popcounts b, popcounts c, popcounts d]
    (by simp [hpiece]) (hpiece a (by simp)) (by simp)
  simp only [foldl_cons, foldl_nil] at htotal hstotal
  simp only [countEightWords, hchunks]
  rw [reduceLanes_eq ⟨htotal.length_eq, fun x hx => (htotal.le x hx).trans (by simp)⟩]
  rw [hstotal, ← hsum, ← hflat]
  simp [popcounts]

/-- The vectors count the bits that are set. -/
theorem countPairs_eq {pairs : List (List Word)} (hpairs : ∀ pair ∈ pairs, pair.length = 2)
    (hlen : pairs.length ≤ 16) : countPairs pairs = (pairs.flatten.map countOnes).sum := by
  have hzero : Lanes 16 0 (replicate 16 0) :=
    ⟨by simp, fun x hx => Nat.le_of_eq (eq_of_mem_replicate hx)⟩
  have hregisters : ∀ lanes ∈ pairs.map (fun pair => popcounts (bytesOfWords pair)),
      Lanes 16 8 lanes := by
    intro lanes h
    obtain ⟨pair, hpair, rfl⟩ := mem_map.mp h
    have hlanes := (popcounts_bytesOfWords pair).1
    rwa [hpairs pair hpair] at hlanes
  obtain ⟨hlanes, hsum⟩ := foldl_addLanes _ hregisters hzero (by rw [length_map]; omega)
  rw [length_map, foldl_map] at hlanes
  rw [foldl_map] at hsum
  rw [countPairs, reduceLanes_eq ⟨hlanes.length_eq, fun x hx => (hlanes.le x hx).trans (by omega)⟩,
    hsum, sum_flatten, map_map, map_flatten, sum_flatten, map_map]
  simp [Function.comp_def, popcounts_bytesOfWords]

/-- The count for rank entries of any even number of words is exact. -/
theorem countRankWords_eq (hlen : words.length = 2 * n) :
    countRankWords words = (words.map countOnes).sum := by
  have hfold (groups : List (List (List Word))) (acc : Nat)
      (hgroups : ∀ group ∈ groups, group.length ≤ 16 ∧ ∀ pair ∈ group, pair.length = 2) :
      groups.foldl (fun count group => count + countPairs group) acc =
        acc + (groups.flatten.flatten.map countOnes).sum := by
    induction groups generalizing acc with
    | nil => simp
    | cons group groups ih =>
      obtain ⟨hle, hpairs⟩ := hgroups group (by simp)
      rw [foldl_cons, ih _ (forall_mem_cons.mp hgroups).2, countPairs_eq hpairs hle, flatten_cons,
        flatten_append, map_append, sum_append_nat]
      omega
  have hflat := chunks_flatten (k := 16) (by omega) (chunksExact 2 words)
  rw [countRankWords, hfold, hflat, chunksExact_flatten (by omega) hlen, zero_add]
  intro group hgroup
  refine ⟨length_le_of_mem_chunks hgroup, fun pair hpair => ?_⟩
  apply length_of_mem_chunksExact (by omega) hlen
  rw [← hflat]
  exact mem_flatten_of_mem hgroup hpair

/-- Counting exactly, the entries hold the number of ones before each group. -/
theorem rankEntries_eq (groups : List (List Word)) (bitCount : Nat)
    (hcount : ∀ words ∈ groups, count words = (words.map countOnes).sum) :
    rankEntries count bitCount groups = (range groups.length).flatMap
      (fun k => rankEntry (bitCount + (positions (groups.take k).flatten).length)) := by
  induction groups generalizing bitCount with
  | nil => rfl
  | cons words groups ih =>
    rw [rankEntries, ih _ (forall_mem_cons.mp hcount).2, hcount words (by simp), length_cons,
      range_succ_eq_map, flatMap_cons, flatMap_map]
    congr 1
    congr 1
    funext k
    rw [succ_eq_add_one, take_succ_cons, flatten_cons, positions_append, length_append, length_map,
      positions_length words, add_assoc]

/-- The entries of groups of equal size hold the ranks of the multiples of that size. -/
private theorem rankEntries_chunksExact {size : Nat} (hsize : 0 < size)
    (hlen : bits.length = size * n)
    (hcount : ∀ words, words.length = size → count words = (words.map countOnes).sum) :
    rankEntries count 0 (chunksExact size bits) = (range n).flatMap
      (fun k => rankEntry ((positions bits).countP (· < k * (64 * size)))) := by
  have hpieces : chunksExact size bits = pieces n size bits := by
    rw [chunksExact, hlen, Nat.mul_div_cancel_left _ hsize]
  rw [rankEntries_eq _ 0 (fun words hw =>
    hcount words (length_of_mem_chunksExact hsize hlen hw)), hpieces, pieces_length]
  apply flatMap_congr
  intro k hk
  have hkn := mem_range.mp hk
  rw [pieces_take (le_of_lt hkn), pieces_flatten, zero_add, positions_take_length]
  · congr 3
    funext p
    rw [show 64 * (size * k) = k * (64 * size) by ring]
  · rw [hlen]
    exact Nat.mul_le_mul_left size (le_of_lt hkn)

/-- The rank table of the bits. -/
theorem createRank_eq {power : Nat} (hlen : bits.length = denseBlockLongs) (hlo : 7 ≤ power)
    (hhi : power ≤ 15) : createRank bits power = rankTable power (positions bits) := by
  have hlongs : denseBlockLongs = 2 ^ 10 := rfl
  have hsize : 1 <<< (power - 6) = 2 ^ (power - 6) := by rw [shiftLeft_eq, one_mul]
  have hentries : denseBlockLongs >>> (power - 6) = 2 ^ (16 - power) := by
    rw [shiftRight_eq_div_pow, hlongs, Nat.pow_div (by omega) (by omega)]
    congr 1
    omega
  have hsplit : bits.length = 2 ^ (power - 6) * 2 ^ (16 - power) := by
    rw [hlen, hlongs, ← pow_add]
    congr 1
    omega
  have heven : 2 ^ (power - 6) = 2 * 2 ^ (power - 7) := by
    rw [← pow_succ']
    congr 1
    omega
  have hpow : 64 * 2 ^ (power - 6) = 2 ^ power := by
    rw [show 64 = 2 ^ 6 by rfl, ← pow_add]
    congr 1
    omega
  have htake : bits.take denseBlockLongs = bits := take_of_length_le (by omega)
  have hpath {count : List Word → Nat}
      (hcount : ∀ words, words.length = 2 ^ (power - 6) → count words = (words.map countOnes).sum) :
      rankEntries count 0 (chunksExact (2 ^ (power - 6)) bits) =
        rankTable power (positions bits) := by
    rw [rankEntries_chunksExact (Nat.two_pow_pos _) hsplit hcount, rankTable, hentries, hpow]
  rw [createRank, htake]
  by_cases hnine : power = 9
  · rw [if_pos ⟨hnine, by omega⟩]
    have height : 8 = 2 ^ (power - 6) := by rw [hnine]; rfl
    rw [height]
    exact hpath (fun words hw => countEightWords_eq (by omega))
  · rw [if_neg (by omega), if_pos (by omega), hsize]
    exact hpath (fun words hw => countRankWords_eq (hw.trans heven))

/-! ## All encodings -/

private theorem foldl_writeLong (words : List Word) (out : Bytes) :
    words.foldl (fun out word => writeLong out word.toInt) out = out ++ bytesOfWords words := by
  induction words generalizing out with
  | nil => simp [bytesOfWords]
  | cons word words ih =>
    rw [foldl_cons, ih, writeLong_eq, intLE_toInt, append_assoc]
    rfl

/-- The buffer holds the documents of the block. -/
structure Holds (buffer : FixedBitSet) (docs : List Nat) : Prop where
  numBits_eq : buffer.numBits = blockSize
  length_eq : buffer.bits.length = denseBlockLongs
  positions_eq : positions buffer.bits = docs

/-- Flushing a buffer appends the encoding of the block it holds. -/
theorem flush_eq (b : Block) {buffer : FixedBitSet} (hholds : Holds buffer b.docs)
    {denseRankPower : Int} (hpower : ValidPower denseRankPower) (out : Bytes) :
    flush b.id buffer b.card denseRankPower out = .ok (out ++ b.encode denseRankPower) := by
  obtain ⟨hnum, hlen, hpos⟩ := hholds
  have hheader : writeShort (writeShort out (asI 16 b.id)) (asI 16 ((b.card : Int) - 1)) =
      out ++ b.header := by
    rw [writeShort_doc, writeShort_doc, Block.header, append_assoc]
  have hwalks : Walks (BitSetIterator.new buffer) :=
    ⟨rfl, fun p hp => hnum ▸ b.lt p (hpos ▸ hp), Nat.le_of_eq hnum⟩
  have hcard : (positions buffer.bits).length = b.card := by rw [hpos]; rfl
  rw [flush, hheader, Block.encode, ← append_assoc, Block.body]
  by_cases hdense : maxArrayLength < b.card
  · rw [if_pos hdense, if_neg (show ¬ b.card ≤ maxArrayLength by omega)]
    by_cases hall : b.card = blockSize
    · rw [if_neg (not_not.mpr hall), if_pos hall, append_nil]
    · have hrank : (if denseRankPower ≠ -1 then
          writeBytes (out ++ b.header) (createRank buffer.bits denseRankPower.toNat)
          else out ++ b.header) = out ++ b.header ++ rankBytes denseRankPower b.docs := by
        rcases hpower with hpower | ⟨hlo, hhi⟩
        · simp [hpower, rankBytes]
        · rw [if_pos (by omega), rankBytes, if_neg (by omega), writeBytes,
            createRank_eq hlen (by omega) (by omega), hpos]
      rw [if_pos hall, if_neg hall]
      simp only [hrank, foldl_writeLong]
      conv_lhs => rw [eq_bitmapOf hlen, hpos, append_assoc]
  · rw [if_neg hdense, if_pos (show b.card ≤ maxArrayLength by omega)]
    by_cases hsimd : denseBlockLongs < b.card ∧ b.card ≤ 2 * denseBlockLongs
    · rw [if_pos hsimd, writeSparseSimd_eq (n := 256) (by rw [hlen]; rfl), hpos]
    · have hfirst := BitSetIterator.nextDoc_eq (BitSetIterator.new buffer) rfl hwalks.ghost le_rfl
      have hall : b.docs.filter (0 ≤ ·) = b.docs := by simp
      rw [if_neg hsimd, hfirst, ok_bind]
      by_cases hfew : b.card ≤ 3 * denseBlockLongs / 4
      · have hdocs := writeDocs_eq (buffer.numBits + 1) 0 (out ++ b.header)
          ((BitSetIterator.new buffer).setDocId (leastFrom (positions buffer.bits) 0))
          (hwalks.setDocId _) rfl (by
            have := length_filter_le (fun p => decide (0 ≤ p)) (positions buffer.bits)
            have := b.card_le
            show ((positions buffer.bits).filter (0 ≤ ·)).length < _
            omega)
        simp only [if_pos hfew]
        rw [← hall, ← hpos]
        exact hdocs
      · have hwords := writeWords_eq (buffer.numBits + 1) 0 (out ++ b.header)
          ((BitSetIterator.new buffer).setDocId (leastFrom (positions buffer.bits) 0))
          (hwalks.setDocId _) (zero_le _) (by
            show buffer.bits.length < _
            rw [hlen, hnum]
            decide)
        simp only [if_neg hfew]
        rw [← hall, ← hpos]
        exact hwords

end RLucene.Codecs.Lucene90.IndexedDISI
