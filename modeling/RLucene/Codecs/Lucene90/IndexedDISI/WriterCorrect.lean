import RLucene.Codecs.Lucene90.IndexedDISI.Flush

/-!
# The writer produces the layout

The document loop keeps an invariant: the output holds the encodings of the closed blocks, the
buffer the documents of the open one, and the jump table the entries of all block numbers up to the
last closed one. Closing the open block and starting another preserves it, and what follows the loop
completes the layout. `writeBitset_layout` states the result for every increasing list of documents.
-/

namespace RLucene.Codecs.Lucene90.IndexedDISI

open Nat List Lib Store Search Util Util.ArrayUtil

/-! ## Jump entries -/

/-- The table holds the entries of the first `n` block numbers. -/
structure JumpsOk (denseRankPower : Int) (blocks : List Block) (jumps : List Int) (n : Nat) :
    Prop where
  length_le : 2 * n ≤ jumps.length
  index_eq : ∀ i < n, jumps.getD (2 * i) 0 = totalCard (blocksBelow blocks i)
  offset_eq : ∀ i < n, jumps.getD (2 * i + 1) 0 =
    asI 32 (blockBytes denseRankPower (blocksBelow blocks i)).length

@[simp] theorem fillEntries_length (jumps : List Int) (index offset : Int) (s e : Nat) :
    (fillEntries jumps index offset s e).length = jumps.length := by
  unfold fillEntries
  generalize range' s (e - s) = blocks
  induction blocks generalizing jumps with
  | nil => rfl
  | cons block blocks ih => rw [foldl_cons, ih]; simp

/-- Filling stores the pair in the entries of the range and leaves the others. -/
theorem fillEntries_getD (jumps : List Int) (index offset : Int) {s e : Nat}
    (hlen : 2 * e ≤ jumps.length) (i : Nat) :
    (fillEntries jumps index offset s e).getD (2 * i) 0 =
        (if s ≤ i ∧ i < e then index else jumps.getD (2 * i) 0) ∧
      (fillEntries jumps index offset s e).getD (2 * i + 1) 0 =
        (if s ≤ i ∧ i < e then offset else jumps.getD (2 * i + 1) 0) := by
  obtain ⟨n, hn⟩ : ∃ n, n = e - s := ⟨_, rfl⟩
  induction n generalizing s jumps with
  | zero =>
    have hempty : ¬ (s ≤ i ∧ i < e) := by omega
    simp [fillEntries, ← hn, hempty]
  | succ n ih =>
    have hcons : fillEntries jumps index offset s e =
        fillEntries ((jumps.set (2 * s) index).set (2 * s + 1) offset) index offset (s + 1) e := by
      rw [fillEntries, ← hn, range'_succ, foldl_cons, fillEntries, show e - (s + 1) = n by omega]
    obtain ⟨h1, h2⟩ := ih ((jumps.set (2 * s) index).set (2 * s + 1) offset) (s := s + 1)
      (by simpa using hlen) (by omega)
    rw [hcons, h1, h2]
    by_cases hin : s + 1 ≤ i ∧ i < e
    · rw [if_pos hin, if_pos hin, if_pos (by omega), if_pos (by omega)]
      exact ⟨rfl, rfl⟩
    · rw [if_neg hin, if_neg hin]
      by_cases his : i = s
      · subst his
        have h3 : i ≤ i ∧ i < e := by omega
        have h4 : 2 * i < jumps.length := by omega
        have h5 : 2 * i + 1 < jumps.length := by omega
        simp [h3, h4, h5]
      · have h3 : ¬ (s ≤ i ∧ i < e) := by omega
        have h4 : ¬ 2 * s + 1 = 2 * i := by omega
        have h5 : ¬ 2 * s = 2 * i := by omega
        have h6 : ¬ 2 * s = 2 * i + 1 := by omega
        simp [h3, h4, h5, h6]

theorem blocksBelow_append (a b : List Block) (i : Nat) :
    blocksBelow (a ++ b) i = blocksBelow a i ++ blocksBelow b i := by
  simp [blocksBelow]

variable {blocks closed : List Block} {i x n doc : Nat} {b : Block} {jumps : List Int}
  {buffer : FixedBitSet} {docs : List Nat} {state : WriterState}

/-- All blocks are below. -/
theorem blocksBelow_eq_self (h : ∀ b ∈ blocks, b.id < i) : blocksBelow blocks i = blocks := by
  rw [blocksBelow, filter_eq_self]
  intro b hb
  simpa using h b hb

/-- No block is below. -/
theorem blocksBelow_eq_nil (h : ∀ b ∈ blocks, i ≤ b.id) : blocksBelow blocks i = [] := by
  rw [blocksBelow, filter_eq_nil_iff]
  intro b hb
  simpa using h b hb

@[simp] theorem lastBlock_append_singleton (blocks : List Block) (b : Block) :
    lastBlock (blocks ++ [b]) = b.id + 1 := by
  simp [lastBlock]

/-- In ascending blocks every number is below that of the sentinel entry. -/
theorem Ascending.lt_lastBlock (h : Ascending blocks) (hb : b ∈ blocks) :
    b.id < lastBlock blocks := by
  rcases eq_nil_or_concat' blocks with rfl | ⟨init, last, rfl⟩
  · simp at hb
  · rw [lastBlock_append_singleton]
    rcases mem_append.mp hb with hb | hb
    · have := (pairwise_append.mp h).2.2 b hb last (by simp)
      omega
    · rw [mem_singleton.mp hb]
      omega

/-- Growing keeps the entries and provides room. -/
theorem growJumps_ok (jumps : List Int) {required : Nat} (hsmall : required ≤ 100000) :
    ∃ padded, growJumps jumps required = .ok padded ∧ required ≤ padded.length ∧
      jumps.length ≤ padded.length ∧ ∀ i < jumps.length, padded.getD i 0 = jumps.getD i 0 := by
  by_cases hlen : jumps.length < required
  · have hover : ∃ size, oversize required 4 = .ok size := by
      unfold oversize
      rw [if_neg (by omega)]
      simp only [show (4 : Nat) ≠ 0 by omega, ↓reduceIte]
      rw [if_neg (by omega)]
      exact ⟨_, rfl⟩
    obtain ⟨size, hsize⟩ := hover
    refine ⟨jumps ++ replicate (required - jumps.length) 0, ?_, ?_, ?_, fun i hi => ?_⟩
    · rw [growJumps, if_pos hlen, hsize]
      rfl
    · simp
      omega
    · simp
    · rw [getD_append _ _ _ _ hi]
  · exact ⟨jumps, by rw [growJumps, if_neg hlen], by omega, le_rfl, fun _ _ => rfl⟩

/-- `addJumps` extends the table by entries that point behind all the blocks so far. -/
theorem addJumps_ok {denseRankPower : Int} (later : List Block) {endBlock : Nat}
    (hasc : Ascending blocks) (hlater : ∀ b ∈ later, endBlock ≤ b.id + 1)
    (hstart : lastBlock blocks < endBlock) (hend : endBlock ≤ 40000)
    (hok : JumpsOk denseRankPower blocks jumps (lastBlock blocks)) :
    ∃ jumps', addJumps jumps (blockBytes denseRankPower blocks).length (totalCard blocks)
        (lastBlock blocks) endBlock = .ok jumps' ∧
      JumpsOk denseRankPower (blocks ++ later) jumps' endBlock := by
  obtain ⟨padded, hpad, hrequired, -, hkeep⟩ := @growJumps_ok jumps ((endBlock + 1) * 2) (by omega)
  have hbelow (i : Nat) (hi : i < endBlock) :
      blocksBelow (blocks ++ later) i = blocksBelow blocks i := by
    have hnone : blocksBelow later i = [] := by
      apply blocksBelow_eq_nil
      intro b hb
      have := hlater b hb
      omega
    rw [blocksBelow_append, hnone, append_nil]
  have hall (i : Nat) (hi : lastBlock blocks ≤ i) : blocksBelow blocks i = blocks :=
    blocksBelow_eq_self (fun b hb => lt_of_lt_of_le (hasc.lt_lastBlock hb) hi)
  have hfill := fillEntries_getD padded (totalCard blocks)
    (asI 32 (blockBytes denseRankPower blocks).length) (s := lastBlock blocks) (e := endBlock)
    (by omega)
  refine ⟨fillEntries padded (totalCard blocks)
    (asI 32 (blockBytes denseRankPower blocks).length) (lastBlock blocks) endBlock, ?_,
    ⟨?_, fun i hi => ?_, fun i hi => ?_⟩⟩
  · rw [addJumps, hpad]
    simp only [ok_bind, if_pos hstart, pure_eq_ok]
  · rw [fillEntries_length]
    omega
  · rw [(hfill i).1, hbelow i hi]
    split
    · rename_i hin
      rw [hall i hin.1]
    · rw [hkeep _ (by have := hok.length_le; omega), hok.index_eq i (by omega)]
  · rw [(hfill i).2, hbelow i hi]
    split
    · rename_i hin
      rw [hall i hin.1]
    · rw [hkeep _ (by have := hok.length_le; omega), hok.offset_eq i (by omega)]

/-! ## The open block -/

/-- The block of a single document. -/
def Block.single (doc : Nat) (h : doc < 2 ^ 31) : Block where
  id := doc / blockSize
  docs := [doc % blockSize]
  id_lt := by unfold blockSize; omega
  nonempty := by simp
  increasing := by simp
  lt := by
    intro d hd
    rw [mem_singleton.mp hd]
    exact mod_lt _ (by decide)

/-- The block with one more document, beyond those it has. -/
def Block.snoc (b : Block) (d : Nat) (hd : d < blockSize) (hgt : ∀ x ∈ b.docs, x < d) : Block where
  id := b.id
  docs := b.docs ++ [d]
  id_lt := b.id_lt
  nonempty := by simp
  increasing := by
    rw [Increasing, pairwise_append]
    refine ⟨b.increasing, by simp, fun x hx y hy => ?_⟩
    rw [mem_singleton.mp hy]
    exact hgt x hx
  lt := forall_mem_append.mpr ⟨b.lt, forall_mem_singleton.mpr hd⟩

/-- The last document of a block is the largest. -/
theorem Block.le_getLast (b : Block) (hx : x ∈ b.docs) : x ≤ b.docs.getLast b.nonempty := by
  obtain ⟨init, last, hsplit⟩ := eq_nil_or_concat' b.docs |>.resolve_left b.nonempty
  have hinc := b.increasing
  simp only [hsplit, getLast_append_singleton]
  rw [hsplit] at hx hinc
  rcases mem_append.mp hx with hx | hx
  · exact le_of_lt ((pairwise_append.mp hinc).2.2 x hx last (by simp))
  · rw [mem_singleton.mp hx]

theorem Block.head_le (b : Block) (hx : x ∈ b.docs) : b.docs.head b.nonempty ≤ x := by
  obtain ⟨first, rest, hsplit⟩ := exists_cons_of_ne_nil b.nonempty
  have hinc := b.increasing
  simp only [hsplit, head_cons]
  rw [hsplit] at hx hinc
  rcases mem_cons.mp hx with rfl | hx
  · exact le_rfl
  · exact le_of_lt ((pairwise_cons.mp hinc).1 x hx)

theorem and_low_half (n : Nat) : n &&& 0xFFFF = n % blockSize :=
  and_two_pow_sub_one_eq_mod n 16

theorem shiftRight_sixteen (n : Nat) : n >>> 16 = n / blockSize :=
  shiftRight_eq_div_pow n 16

theorem int_shiftRight_sixteen (n : Nat) :
    (n : Int) >>> (16 : Nat) = ((n / blockSize : Nat) : Int) := by
  rw [Int.shiftRight_eq_div_pow, Int.natCast_div]
  rfl

/-- Clearing the low six bits rounds down to a word boundary. -/
theorem and_word_mask (hn : n < blockSize) : n &&& 0xFFFFFFFFFFFFFFC0 = 64 * (n / 64) := by
  apply eq_of_testBit_eq
  intro i
  have hmask : (0xFFFFFFFFFFFFFFC0 : Nat) = 2 ^ 6 * (2 ^ 58 - 1) := by norm_num
  rw [testBit_and, hmask, show 64 = 2 ^ 6 by norm_num, testBit_two_pow_mul, testBit_two_pow_mul,
    testBit_two_pow_sub_one, testBit_div_two_pow]
  by_cases hi : 6 ≤ i
  · rw [Nat.sub_add_cancel hi]
    by_cases hlt : i - 6 < 58
    · simp [hi, hlt]
    · have hbig : n.testBit i = false := by
        apply testBit_lt_two_pow
        calc n < 2 ^ 16 := hn
          _ ≤ 2 ^ i := Nat.pow_le_pow_right (by omega) (by omega)
      simp [hbig]
  · simp [hi]

/-- Setting the next document of the block. -/
theorem Holds.set (h : Holds buffer docs) {d : Nat} (hd : d < blockSize) (hgt : ∀ x ∈ docs, x < d) :
    ∃ buffer', buffer.set d = .ok buffer' ∧ Holds buffer' (docs ++ [d]) := by
  obtain ⟨buffer', hset, hnum, hlen, hbits⟩ := buffer.set_ok (h.numBits_eq ▸ hd)
  refine ⟨buffer', hset, hnum.trans h.numBits_eq, hlen.trans h.length_eq, ?_⟩
  have hinc : Increasing (docs ++ [d]) := by
    rw [Increasing, pairwise_append]
    refine ⟨h.positions_eq ▸ positions_increasing _, by simp, fun x hx y hy => ?_⟩
    rw [mem_singleton.mp hy]
    exact hgt x hx
  refine Increasing.ext (positions_increasing _) hinc fun p => ?_
  rw [mem_positions, hbits, Bool.or_eq_true, ← mem_positions, h.positions_eq, decide_eq_true_eq,
    mem_append, mem_singleton]

private theorem holds_nil (hnum : buffer.numBits = blockSize)
    (hlen : buffer.bits.length = denseBlockLongs) (hbits : ∀ p, bitAt buffer.bits p = false) :
    Holds buffer [] := by
  refine ⟨hnum, hlen, eq_nil_iff_forall_not_mem.mpr fun p hp => ?_⟩
  rw [mem_positions, hbits] at hp
  exact Bool.noConfusion hp

/-- Clearing the words from the first to the last document empties the buffer. -/
theorem clearBlock_ok (b : Block) (h : Holds buffer b.docs) :
    ∃ buffer', clearBlock buffer (b.docs.head b.nonempty &&& 0xFFFFFFFFFFFFFFC0)
        ((b.docs.getLast b.nonempty ||| 63) + 1) = .ok buffer' ∧ Holds buffer' [] := by
  have hhead := b.lt _ (head_mem b.nonempty)
  have hlast := b.lt _ (getLast_mem b.nonempty)
  have hround : (b.docs.getLast b.nonempty ||| 63) + 1 =
      64 * (b.docs.getLast b.nonempty / 64) + 64 := by
    rw [or_63]
  rw [clearBlock, and_word_mask hhead, hround]
  by_cases hwhole : 64 * (b.docs.head b.nonempty / 64) = 0 ∧
      64 * (b.docs.getLast b.nonempty / 64) + 64 = blockSize
  · refine ⟨buffer.clear, by rw [if_pos hwhole], holds_nil h.numBits_eq ?_ buffer.clear_bitAt⟩
    rw [← h.length_eq]
    simp [FixedBitSet.clear]
  · have hend : 64 * (b.docs.getLast b.nonempty / 64) + 64 ≤ buffer.numBits := by
      rw [h.numBits_eq]
      unfold blockSize at hlast ⊢
      omega
    obtain ⟨buffer', hclear, hnum, hlen, hbits⟩ :=
      @FixedBitSet.clearRange_ok buffer (64 * (b.docs.head b.nonempty / 64)) _ hend
    refine ⟨buffer', by rw [if_neg hwhole, hclear], holds_nil (hnum.trans h.numBits_eq)
      (hlen.trans h.length_eq) fun p => ?_⟩
    rw [hbits]
    by_cases hp : bitAt buffer.bits p = true
    · have hmem : p ∈ b.docs := by rw [← h.positions_eq, mem_positions]; exact hp
      have hfirst := b.head_le hmem
      have hfinal := b.le_getLast hmem
      have h1 : 64 * (b.docs.head b.nonempty / 64) ≤ p := by omega
      have h2 : p < 64 * (b.docs.getLast b.nonempty / 64) + 64 := by omega
      simp [h1, h2]
    · simp [hp]

/-! ## The document loop -/

/-- The state of the loop after at least one document: the blocks closed so far and the open one. -/
structure LoopInv (denseRankPower : Int) (before : Bytes) (closed : List Block) (b : Block)
    (state : WriterState) : Prop where
  ascending : Ascending (closed ++ [b])
  out_eq : state.out = before ++ blockBytes denseRankPower closed
  holds : Holds state.buffer b.docs
  total_eq : state.totalCardinality = totalCard closed
  card_eq : state.blockCardinality = b.card
  prev_eq : state.prevDoc = ((b.base + b.docs.getLast b.nonempty : Nat) : Int)
  index_eq : state.jumpBlockIndex = lastBlock closed
  first_eq : state.firstInBlock = b.docs.head b.nonempty
  jumps_ok : JumpsOk denseRankPower closed state.jumps (lastBlock closed)

variable {denseRankPower : Int} {before : Bytes}

/-- The block number of the last document is that of the open block, its low half is the last of
the block. -/
theorem Block.prev_split (b : Block) :
    (b.base + b.docs.getLast b.nonempty) / blockSize = b.id ∧
      (b.base + b.docs.getLast b.nonempty) % blockSize = b.docs.getLast b.nonempty := by
  have hlast := b.lt _ (getLast_mem b.nonempty)
  unfold Block.base
  unfold blockSize at *
  omega

/-- The block of the last document. -/
theorem LoopInv.prevBlock (h : LoopInv denseRankPower before closed b state) :
    state.prevDoc >>> (16 : Nat) = (b.id : Int) := by
  rw [h.prev_eq, int_shiftRight_sixteen, b.prev_split.1]

/-- How much has been written. -/
theorem LoopInv.offset (h : LoopInv denseRankPower before closed b state) :
    state.out.length - before.length = (blockBytes denseRankPower closed).length := by
  rw [h.out_eq, length_append, Nat.add_sub_cancel_left]

theorem blockBytes_append (a b : List Block) :
    blockBytes denseRankPower (a ++ b) = blockBytes denseRankPower a ++
      blockBytes denseRankPower b := by
  simp [blockBytes]

theorem totalCard_append (a b : List Block) : totalCard (a ++ b) = totalCard a + totalCard b := by
  simp [totalCard]

theorem allDocs_append (a b : List Block) : allDocs (a ++ b) = allDocs a ++ allDocs b := by
  simp [allDocs]

section

variable (h : LoopInv denseRankPower before closed b state)

include h

/-- Recording and writing the open block completes the layout of the blocks so far. -/
theorem LoopInv.flush (hpower : ValidPower denseRankPower) :
    ∃ jumps, addJumps state.jumps (state.out.length - before.length) state.totalCardinality
        state.jumpBlockIndex (b.id + 1) = .ok jumps ∧
      JumpsOk denseRankPower (closed ++ [b]) jumps (lastBlock (closed ++ [b])) ∧
      IndexedDISI.flush b.id state.buffer state.blockCardinality denseRankPower state.out =
        .ok (before ++ blockBytes denseRankPower (closed ++ [b])) := by
  have hasc := (pairwise_append.mp h.ascending).1
  have hstart : lastBlock closed < b.id + 1 := by
    rcases eq_nil_or_concat' closed with rfl | ⟨init, last, rfl⟩
    · simp [lastBlock]
    · rw [lastBlock_append_singleton]
      have := (pairwise_append.mp h.ascending).2.2 last (by simp) b (by simp)
      omega
  obtain ⟨jumps, hjumps, hok⟩ := addJumps_ok [b] hasc
    (fun b' hb' => by rw [mem_singleton.mp hb']) hstart (by have := b.id_lt; omega) h.jumps_ok
  refine ⟨jumps, ?_, ?_, ?_⟩
  · rw [h.offset, h.total_eq, h.index_eq, hjumps]
  · rwa [lastBlock_append_singleton]
  · rw [h.card_eq, flush_eq b h.holds hpower, h.out_eq, blockBytes_append, append_assoc]
    simp [blockBytes]

/-- A further document of the open block. -/
theorem addDoc_same
    (hblock : doc / blockSize = b.id) (hgt : b.base + b.docs.getLast b.nonempty < doc) :
    ∃ state' b', addDoc before.length denseRankPower state doc = .ok state' ∧
      state'.prevDoc = doc ∧ LoopInv denseRankPower before closed b' state' ∧
      allDocs (closed ++ [b']) = allDocs (closed ++ [b]) ++ [doc] := by
  have hlow : doc % blockSize < blockSize := mod_lt _ (by decide)
  have hsplit : doc = b.base + doc % blockSize := by
    rw [Block.base, ← hblock, div_add_mod]
  have hbeyond (x : Nat) (hx : x ∈ b.docs) : x < doc % blockSize := by
    have := b.le_getLast hx
    omega
  obtain ⟨buffer', hset, hholds⟩ := h.holds.set hlow hbeyond
  refine ⟨{ state with
      buffer := buffer', blockCardinality := state.blockCardinality + 1, prevDoc := doc },
    b.snoc (doc % blockSize) hlow hbeyond, ?_, rfl, ?_, ?_⟩
  · have hcond : ¬ (state.prevDoc >>> (16 : Nat) ≠ -1 ∧
        ((doc >>> 16 : Nat) : Int) ≠ state.prevDoc >>> (16 : Nat)) := by
      rw [h.prevBlock, shiftRight_sixteen, hblock]
      simp
    simp only [addDoc, if_neg hcond, ok_bind, and_low_half, hset, pure_eq_ok]
  · have hdocs : (b.snoc (doc % blockSize) hlow hbeyond).docs = b.docs ++ [doc % blockSize] := rfl
    refine ⟨?_, h.out_eq, hholds, h.total_eq, ?_, ?_, h.index_eq, ?_, h.jumps_ok⟩
    · have hasc := pairwise_append.mp h.ascending
      refine pairwise_append.mpr ⟨hasc.1, by simp, fun a ha c hc => ?_⟩
      rw [mem_singleton.mp hc]
      exact hasc.2.2 a ha b (by simp)
    · simp [Block.card, hdocs, h.card_eq]
    · simp only [hdocs, getLast_append_singleton]
      exact congrArg _ hsplit
    · simp only [hdocs]
      rw [head_append_left b.nonempty]
      exact h.first_eq
  · rw [allDocs_append, allDocs_append, append_assoc]
    congr 1
    simp only [allDocs, flatMap_cons, flatMap_nil, append_nil, Block.globalDocs]
    show (b.docs ++ [doc % blockSize]).map (b.base + ·) = _
    rw [map_append, map_singleton, ← hsplit]

/-- The first document of a later block closes the open one. -/
theorem addDoc_next
    (hpower : ValidPower denseRankPower) (hblock : b.id < doc / blockSize) (hdoc : doc < 2 ^ 31) :
    ∃ state', addDoc before.length denseRankPower state doc = .ok state' ∧
      state'.prevDoc = doc ∧
      LoopInv denseRankPower before (closed ++ [b]) (Block.single doc hdoc) state' := by
  have hlow : doc % blockSize < blockSize := mod_lt _ (by decide)
  obtain ⟨jumps, hjumps, hok, hflush⟩ := h.flush hpower
  obtain ⟨empty, hclear, hempty⟩ := clearBlock_ok b h.holds
  obtain ⟨buffer', hset, hholds⟩ := hempty.set hlow (by simp)
  have hprev : state.prevDoc.toNat % blockSize = b.docs.getLast b.nonempty := by
    rw [h.prev_eq, Int.toNat_natCast, b.prev_split.2]
  have hcond : state.prevDoc >>> (16 : Nat) ≠ -1 ∧
      ((doc >>> 16 : Nat) : Int) ≠ state.prevDoc >>> (16 : Nat) := by
    rw [h.prevBlock, shiftRight_sixteen]
    omega
  have hnext : ((b.id : Int) + 1).toNat = b.id + 1 := by omega
  refine ⟨{
      out := before ++ blockBytes denseRankPower (closed ++ [b])
      jumps := jumps
      buffer := buffer'
      totalCardinality := state.totalCardinality + state.blockCardinality
      blockCardinality := 0 + 1
      prevDoc := doc
      jumpBlockIndex := b.id + 1
      firstInBlock := doc % blockSize }, ?_, rfl, ?_⟩
  · rw [addDoc, if_pos hcond, closeBlock, h.prevBlock, hnext, hjumps]
    simp only [ok_bind, Int.toNat_natCast, hflush, and_low_half, hprev,
      h.first_eq, hclear, pure_eq_ok, hset]
  · refine ⟨?_, rfl, hholds, ?_, rfl, ?_, ?_, rfl, ?_⟩
    · refine pairwise_append.mpr ⟨h.ascending, by simp, fun a ha c hc => ?_⟩
      rw [mem_singleton.mp hc]
      have hle := h.ascending.lt_lastBlock ha
      rw [lastBlock_append_singleton] at hle
      show a.id < doc / blockSize
      omega
    · simp [h.total_eq, h.card_eq, totalCard]
    · show (doc : Int) = ((blockSize * (doc / blockSize) + doc % blockSize : Nat) : Int)
      rw [div_add_mod]
    · rw [lastBlock_append_singleton]
    · exact hok

/-- The loop keeps the invariant over all documents and loses none. -/
theorem foldlM_addDoc (hpower : ValidPower denseRankPower) (hdocs : Increasing docs)
    (hrange : ∀ d ∈ docs, b.base + b.docs.getLast b.nonempty < d ∧ d < 2 ^ 31) :
    ∃ state' closed' b', docs.foldlM (addDoc before.length denseRankPower) state = .ok state' ∧
      LoopInv denseRankPower before closed' b' state' ∧
      allDocs (closed' ++ [b']) = allDocs (closed ++ [b]) ++ docs := by
  induction docs generalizing closed b state with
  | nil => exact ⟨state, closed, b, rfl, h, by simp⟩
  | cons doc docs ih =>
    obtain ⟨hprev, hdoc⟩ := hrange doc (by simp)
    obtain ⟨hlater, hdocs⟩ := pairwise_cons.mp hdocs
    -- after either step the open block ends with this document
    have hrest {closed' : List Block} {b' : Block} {state' : WriterState}
        (hstep : addDoc before.length denseRankPower state doc = .ok state')
        (hinv : LoopInv denseRankPower before closed' b' state')
        (hprev' : state'.prevDoc = (doc : Int))
        (hall : allDocs (closed' ++ [b']) = allDocs (closed ++ [b]) ++ [doc]) :
        ∃ state'' closed'' b'',
          (doc :: docs).foldlM (addDoc before.length denseRankPower) state = .ok state'' ∧
          LoopInv denseRankPower before closed'' b'' state'' ∧
          allDocs (closed'' ++ [b'']) = allDocs (closed ++ [b]) ++ doc :: docs := by
      have hlast : b'.base + b'.docs.getLast b'.nonempty = doc := by
        exact_mod_cast hinv.prev_eq.symm.trans hprev'
      obtain ⟨state'', closed'', b'', hfold, hinv'', hall''⟩ := ih hinv hdocs
        (fun d hd => ⟨hlast ▸ hlater d hd, (hrange d (mem_cons_of_mem _ hd)).2⟩)
      refine ⟨state'', closed'', b'', ?_, hinv'', ?_⟩
      · rw [foldlM_cons, hstep, ok_bind, hfold]
      · rw [hall'', hall, append_assoc, singleton_append]
    have hge : b.id ≤ doc / blockSize := by
      rw [← b.prev_split.1]
      exact Nat.div_le_div_right (le_of_lt hprev)
    rcases Nat.eq_or_lt_of_le hge with hsame | hnext
    · obtain ⟨state', b', hstep, hprev', hinv, hall⟩ := addDoc_same h hsame.symm hprev
      exact hrest hstep hinv hprev' hall
    · obtain ⟨state', hstep, hprev', hinv⟩ := addDoc_next h hpower hnext hdoc
      refine hrest hstep hinv hprev' ?_
      rw [allDocs_append]
      simp only [allDocs, flatMap_cons, flatMap_nil, append_nil, Block.globalDocs, Block.single,
        Block.base, map_singleton, div_add_mod]

end

/-! ## After the loop -/

/-- The three shorts behind the blocks are the encoding of the sentinel. -/
theorem writeSentinel_eq (denseRankPower : Int) (out : Bytes) :
    writeShort (writeShort (writeShort out (asI 16 ((noMoreDocs >>> 16 : Nat) : Int))) 0)
      (asI 16 ((noMoreDocs &&& 0xFFFF : Nat) : Int)) =
      out ++ blockBytes denseRankPower [sentinel] := by
  rw [writeShort_doc, writeShort_doc, writeShort_eq, append_assoc, append_assoc]
  congr 1

/-- The table as written: the entries it holds, as pairs of integers. -/
theorem JumpsOk.flatMap_take (h : JumpsOk denseRankPower blocks jumps n) :
    (jumps.take (2 * n)).flatMap (intLE 4) =
      (range n).flatMap (jumpEntry denseRankPower blocks) := by
  induction n with
  | zero => simp
  | succ n ih =>
    obtain ⟨hlen, hindex, hoffset⟩ := h
    have hpair : jumps.take (2 * (n + 1)) =
        jumps.take (2 * n) ++ [jumps.getD (2 * n) 0, jumps.getD (2 * n + 1) 0] := by
      rw [show 2 * (n + 1) = 2 * n + 1 + 1 by ring, take_succ_eq_append_getElem (by omega),
        take_succ_eq_append_getElem (by omega), getD_eq_getElem _ _ (by omega),
        getD_eq_getElem _ _ (by omega), append_assoc, singleton_append]
    have hentry : intLE 4 (jumps.getD (2 * n) 0) ++ intLE 4 (jumps.getD (2 * n + 1) 0) =
        jumpEntry denseRankPower blocks n := by
      rw [hindex n (by omega), hoffset n (by omega), intLE_asI 4, jumpEntry]
    rw [hpair, flatMap_append, range_succ, flatMap_append,
      ih ⟨by omega, fun i hi => hindex i (by omega), fun i hi => hoffset i (by omega)⟩]
    simp only [flatMap_cons, flatMap_nil, append_nil, hentry]

private theorem foldl_writeInts (groups : List (List Int)) (out : Bytes) :
    groups.foldl writeInts out = out ++ groups.flatten.flatMap (intLE 4) := by
  induction groups generalizing out with
  | nil => simp
  | cons group groups ih =>
    rw [foldl_cons, ih, writeInts_eq, flatten_cons, flatMap_append, append_assoc]

/-- Flushing a complete table appends the jump table of the layout. -/
theorem flushBlockJumps_eq (h : JumpsOk denseRankPower blocks jumps (lastBlock blocks + 1))
    (out : Bytes) :
    flushBlockJumps jumps (lastBlock blocks + 1) out =
      .ok (out ++ jumpTable denseRankPower blocks, asI 16 (entryCount blocks)) := by
  have hle : entryCount blocks ≤ lastBlock blocks + 1 := by
    unfold entryCount
    split <;> omega
  have hlen := h.length_le
  have hcount : JumpsOk denseRankPower blocks jumps (entryCount blocks) :=
    ⟨by omega, fun i hi => h.index_eq i (by omega), fun i hi => h.offset_eq i (by omega)⟩
  show (if entryCount blocks * 2 ≤ jumps.length then
    Except.ok ((chunks 32 (jumps.take (entryCount blocks * 2))).foldl writeInts out,
      asI 16 (entryCount blocks)) else Except.error LuceneError.indexOutOfBounds) = _
  rw [if_pos (by omega), foldl_writeInts, chunks_flatten (by omega), Nat.mul_comm,
    hcount.flatMap_take]
  rfl

/-- Completing the file behind the blocks, given a table with the entries of their numbers. -/
theorem finish_layout (hasc : Ascending blocks) (hsmall : lastBlock blocks ≤ 32768)
    (hok : JumpsOk denseRankPower blocks jumps (lastBlock blocks)) :
    (do
      let jumps ← addJumps jumps
        ((before ++ blockBytes denseRankPower blocks).length - before.length) (totalCard blocks)
        (lastBlock blocks) (lastBlock blocks + 1)
      let out := writeShort (before ++ blockBytes denseRankPower blocks)
        (asI 16 ((noMoreDocs >>> 16 : Nat) : Int))
      let out := writeShort out 0
      let out := writeShort out (asI 16 ((noMoreDocs &&& 0xFFFF : Nat) : Int))
      flushBlockJumps jumps (lastBlock blocks + 1) out) =
    .ok (before ++ layout denseRankPower blocks, asI 16 (entryCount blocks)) := by
  obtain ⟨jumps', hjumps, hok'⟩ := addJumps_ok [] hasc (by simp) (lt_succ_self _) (by omega) hok
  rw [append_nil] at hok'
  rw [length_append, Nat.add_sub_cancel_left, hjumps, ok_bind]
  simp only [writeSentinel_eq denseRankPower]
  rw [flushBlockJumps_eq hok', layout, blockBytes_append]
  simp only [append_assoc]

/-- From the invariant, what follows the loop completes the layout. -/
theorem LoopInv.finishBlocks (h : LoopInv denseRankPower before closed b state)
    (hpower : ValidPower denseRankPower) :
    IndexedDISI.finishBlocks before.length denseRankPower state =
      .ok (before ++ layout denseRankPower (closed ++ [b]),
        asI 16 (entryCount (closed ++ [b]))) := by
  obtain ⟨jumps, hjumps, hok, hflush⟩ := h.flush hpower
  have hnext : ((b.id : Int) + 1).toNat = b.id + 1 := by omega
  have hpos : 0 < state.blockCardinality := by rw [h.card_eq]; exact b.card_pos
  have htotal : state.totalCardinality + state.blockCardinality = totalCard (closed ++ [b]) := by
    simp [h.total_eq, h.card_eq, totalCard]
  have hlast : finishLastBlock before.length denseRankPower state =
      .ok (jumps, before ++ blockBytes denseRankPower (closed ++ [b]), totalCard (closed ++ [b]),
        ((b.id + 1 : Nat) : Int)) := by
    simp only [finishLastBlock, if_pos hpos, h.prevBlock, hnext, hjumps, ok_bind, Int.toNat_natCast,
      hflush, htotal, pure_eq_ok, cast_add, cast_one]
  have hnum : (if ((b.id + 1 : Nat) : Int) = -1 then 0 else ((b.id + 1 : Nat) : Int).toNat) =
      lastBlock (closed ++ [b]) := by
    rw [if_neg (by omega), Int.toNat_natCast, lastBlock_append_singleton]
  rw [IndexedDISI.finishBlocks, hlast, ok_bind]
  simp only [hnum]
  refine finish_layout h.ascending ?_ hok
  rw [lastBlock_append_singleton]
  exact b.id_lt

/-- The empty set: only the sentinel and its entry. -/
theorem finishBlocks_empty (hout : state.out = before) (hcard : state.blockCardinality = 0)
    (htotal : state.totalCardinality = 0) (hprev : state.prevDoc = -1) :
    finishBlocks before.length denseRankPower state =
      .ok (before ++ layout denseRankPower [], asI 16 (entryCount [])) := by
  have hlast : finishLastBlock before.length denseRankPower state =
      .ok (state.jumps, before ++ blockBytes denseRankPower [], totalCard [], -1) := by
    rw [finishLastBlock, hcard, if_neg (by omega), hout, htotal, hprev]
    simp [blockBytes, totalCard]
    decide
  rw [finishBlocks, hlast, ok_bind]
  exact finish_layout (by simp) (by simp [lastBlock]) ⟨by simp [lastBlock], by simp [lastBlock],
    by simp [lastBlock]⟩

/-- Writing an increasing list of documents succeeds, and the bytes appended are the layout of
blocks that hold exactly these documents. -/
theorem writeBitset_layout (hdocs : Increasing docs) (hlt : ∀ d ∈ docs, d < noMoreDocs)
    (hpower : ValidPower denseRankPower) (before : Bytes) :
    ∃ blocks, Ascending blocks ∧ allDocs blocks = docs ∧
      writeBitsetWithDenseRankPower docs before denseRankPower =
        .ok (before ++ layout denseRankPower blocks, asI 16 (entryCount blocks)) := by
  have haccept : ¬ (¬ (7 ≤ denseRankPower ∧ denseRankPower ≤ 15) ∧ denseRankPower ≠ -1) := by
    rcases hpower with hpower | hpower <;> omega
  have hover : oversize 1 8 = .ok 4 := rfl
  unfold writeBitsetWithDenseRankPower
  simp only [if_neg haccept, hover, ok_bind]
  cases docs with
  | nil =>
    refine ⟨[], .nil, rfl, ?_⟩
    rw [foldlM_nil, pure_eq_ok, ok_bind]
    exact finishBlocks_empty rfl rfl rfl rfl
  | cons doc docs =>
    obtain ⟨hlater, hdocs⟩ := pairwise_cons.mp hdocs
    have hbound (d : Nat) (hd : d ∈ doc :: docs) : d < 2 ^ 31 := by
      have := hlt d hd
      unfold noMoreDocs at this
      omega
    have hdoc := hbound doc (by simp)
    have hne : doc ≠ noMoreDocs := Nat.ne_of_lt (hlt doc (by simp))
    have hlow : doc % blockSize < blockSize := mod_lt _ (by decide)
    have hempty : Holds (FixedBitSet.new blockSize) [] :=
      holds_nil rfl (by simp [FixedBitSet.new]; rfl) (fun p => by
        simp [FixedBitSet.new, bitAt])
    obtain ⟨buffer, hset, hholds⟩ := hempty.set hlow (by simp)
    -- the first document opens the first block
    have hfirst : addDoc before.length denseRankPower
        { out := before
          jumps := replicate 4 0
          buffer := FixedBitSet.new blockSize
          totalCardinality := 0
          blockCardinality := 0
          prevDoc := -1
          jumpBlockIndex := 0
          firstInBlock := doc % blockSize } doc = .ok
        { out := before
          jumps := replicate 4 0
          buffer := buffer
          totalCardinality := 0
          blockCardinality := 1
          prevDoc := doc
          jumpBlockIndex := 0
          firstInBlock := doc % blockSize } := by
      have hcond : ¬ ((-1 : Int) >>> (16 : Nat) ≠ -1 ∧
          ((doc >>> 16 : Nat) : Int) ≠ (-1 : Int) >>> (16 : Nat)) :=
        fun h => h.1 (by decide)
      simp only [addDoc, if_neg hcond, ok_bind, and_low_half, hset, pure_eq_ok]
    have hinv : LoopInv denseRankPower before [] (Block.single doc hdoc)
        { out := before
          jumps := replicate 4 0
          buffer := buffer
          totalCardinality := 0
          blockCardinality := 1
          prevDoc := doc
          jumpBlockIndex := 0
          firstInBlock := doc % blockSize } := by
      refine ⟨by simp, by simp [blockBytes], hholds, rfl, rfl, ?_, rfl, rfl,
        ⟨by simp [lastBlock], by simp [lastBlock], by simp [lastBlock]⟩⟩
      show (doc : Int) = ((blockSize * (doc / blockSize) + doc % blockSize : Nat) : Int)
      rw [div_add_mod]
    have hlast : (Block.single doc hdoc).base +
        (Block.single doc hdoc).docs.getLast (Block.single doc hdoc).nonempty = doc :=
      div_add_mod doc blockSize
    obtain ⟨state, closed, b, hfold, hstate, hall⟩ := foldlM_addDoc hinv hpower hdocs
      (fun d hd => ⟨hlast.trans_lt (hlater d hd), hbound d (mem_cons_of_mem _ hd)⟩)
    refine ⟨closed ++ [b], hstate.ascending, ?_, ?_⟩
    · rw [hall]
      simp only [allDocs, nil_append, flatMap_cons, flatMap_nil, append_nil, Block.globalDocs,
        Block.single, Block.base, map_singleton, div_add_mod, singleton_append]
    · have hsize : (if (doc :: docs).headD noMoreDocs = noMoreDocs then 0 else blockSize) =
          blockSize := by
        rw [headD_cons, if_neg hne]
      rw [hsize, headD_cons, and_low_half, foldlM_cons, hfirst, ok_bind, hfold, ok_bind,
        hstate.finishBlocks hpower]

end RLucene.Codecs.Lucene90.IndexedDISI
