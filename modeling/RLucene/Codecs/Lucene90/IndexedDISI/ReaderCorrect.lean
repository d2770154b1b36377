import RLucene.Codecs.Lucene90.IndexedDISI.BlockReader
import RLucene.Codecs.Lucene90.IndexedDISI.WriterCorrect

/-!
# The reader refines the abstract iterator

The blocks of a file with the sentinel behind them form a chain whose documents increase. `Inv` says
that the iterator stands in a block of the chain, that everything before this block lies before the
current document, and that inside the block it has passed exactly the documents up to the current
one. Going to the block of a target, by the jump table or header by header, and moving inside it
keep `Inv`, so that every legal call answers as the abstract iterator does.
-/

namespace RLucene.Codecs.Lucene90.IndexedDISI

open List hiding count
open Nat Lib Store Search

/-! ## The chain of blocks -/

/-- The blocks of a file in the order the reader meets them. -/
def chain (blocks : List Block) : List Block :=
  blocks ++ [sentinel]

/-- Where the block with index `k` begins. -/
def blockOffset (power : Int) (blocks : List Block) (k : Nat) : Nat :=
  (blockBytes power ((chain blocks).take k)).length

/-- The number of documents before the block with index `k`. -/
def firstIndex (blocks : List Block) (k : Nat) : Nat :=
  totalCard ((chain blocks).take k)

/-- What a file needs to satisfy for the reader: as the writer leaves it. -/
structure WellFormed (power : Int) (blocks : List Block) : Prop where
  power_ok : ValidPower power
  ascending : Ascending blocks
  increasing : Increasing (allDocs blocks)
  lt : ∀ d ∈ allDocs blocks, d < noMoreDocs

variable {power : Int} {blocks : List Block} {b : Block} {bytes : Bytes} {k : Nat} {l : List Block}
  {i j d t p offset : Nat} {a : Block} {table : RandomAccessInput} {doc : Int}

theorem take_succ_of_getElem (hb : l[k]? = some b) : l.take (k + 1) = l.take k ++ [b] := by
  rw [take_add_one, hb]
  rfl

section

variable (hb : (chain blocks)[k]? = some b)

include hb

/-- A block ends where the next one starts. -/
theorem blockOffset_succ :
    blockOffset power blocks (k + 1) = blockOffset power blocks k + (b.encode power).length := by
  rw [blockOffset, take_succ_of_getElem hb, blockBytes_append, length_append]
  simp [blockOffset, blockBytes]

/-- The index of the next block. -/
theorem firstIndex_succ :
    firstIndex blocks (k + 1) = firstIndex blocks k + b.card := by
  rw [firstIndex, take_succ_of_getElem hb, totalCard_append]
  simp [firstIndex, totalCard]

/-- The blocks before, at and behind a place. -/
theorem chain_split :
    chain blocks = (chain blocks).take k ++ ([b] ++ (chain blocks).drop (k + 1)) := by
  obtain ⟨hk, hget⟩ := List.getElem_of_getElem? hb
  conv_lhs => rw [← take_append_drop k (chain blocks), drop_eq_getElem_cons hk, hget]
  rfl

end

/-- Each block of the chain stands at its offset. -/
theorem chain_at (hat : At bytes 0 (blockBytes power (chain blocks)))
    (hb : (chain blocks)[k]? = some b) :
    At bytes (blockOffset power blocks k) (b.encode power) := by
  rw [chain_split hb, blockBytes_append, blockBytes_append, at_append_iff, at_append_iff] at hat
  have henc := hat.2.1
  simpa [blockBytes, blockOffset] using henc

/-- The first block that may hold a document with the block number `i`. -/
theorem first_from (hasc : Ascending blocks) (hi : i ≤ 32767) :
    (chain blocks).take (blocksBelow blocks i).length = blocksBelow blocks i ∧
      ∃ b, (chain blocks)[(blocksBelow blocks i).length]? = some b ∧ i ≤ b.id := by
  unfold chain
  induction blocks with
  | nil => exact ⟨rfl, sentinel, rfl, hi⟩
  | cons a blocks ih =>
    obtain ⟨hhead, htail⟩ := pairwise_cons.mp hasc
    by_cases hlt : a.id < i
    · have hcons : blocksBelow (a :: blocks) i = a :: blocksBelow blocks i := by
        simp [blocksBelow, hlt]
      obtain ⟨htake, b, hb, hib⟩ := ih htail
      rw [hcons, length_cons, cons_append, take_succ_cons, htake]
      exact ⟨rfl, b, hb, hib⟩
    · have hnil : blocksBelow (a :: blocks) i = [] := by
        apply blocksBelow_eq_nil
        intro b hb
        rcases mem_cons.mp hb with rfl | hb
        · omega
        · have := hhead b hb
          omega
      rw [hnil]
      exact ⟨rfl, a, rfl, by omega⟩

/-- Blocks before the first one from `i` on have a smaller number. -/
theorem lt_of_before_first (hasc : Ascending blocks) (hi : i ≤ 32767)
    (hj : j < (blocksBelow blocks i).length) (ha : (chain blocks)[j]? = some a) : a.id < i := by
  have htake := (first_from hasc hi).1
  have hmem : a ∈ (chain blocks).take (blocksBelow blocks i).length := by
    apply mem_of_getElem? (i := j)
    rw [getElem?_take_of_lt hj, ha]
  rw [htake] at hmem
  simpa using (mem_filter.mp hmem).2

/-- A block with a smaller number comes before the first one from `i` on. -/
theorem before_first_of_lt (hasc : Ascending blocks) (hi : i ≤ 32767)
    (hb : (chain blocks)[k]? = some b) (hlt : b.id < i) : k < (blocksBelow blocks i).length := by
  by_contra hge
  obtain ⟨_, a, ha, hia⟩ := first_from hasc hi
  have hordered : (chain blocks).Pairwise (fun a b => a.id ≤ b.id) := by
    refine pairwise_append.mpr ⟨hasc.imp le_of_lt, by simp, fun x _ y hy => ?_⟩
    rw [mem_singleton.mp hy]
    exact le_of_lt_succ x.id_lt
  rcases eq_or_lt_of_le (Nat.le_of_not_lt hge) with heq | hlt'
  · rw [heq, hb] at ha
    cases ha
    omega
  · obtain ⟨hj, rfl⟩ := List.getElem_of_getElem? ha
    obtain ⟨hk, rfl⟩ := List.getElem_of_getElem? hb
    have := pairwise_iff_getElem.mp hordered _ k hj hk hlt'
    omega

theorem length_le_blockBytes (power : Int) (l : List Block) :
    l.length ≤ (blockBytes power l).length := by
  induction l with
  | nil => simp
  | cons b l ih =>
    have hblock : 4 ≤ (b.encode power).length := by simp [Block.encode]
    simp only [blockBytes, flatMap_cons, length_append, length_cons] at ih ⊢
    omega

/-- The documents of a block. -/
theorem Block.mem_globalDocs : d ∈ b.globalDocs ↔ ∃ low ∈ b.docs, d = b.base + low := by
  simp only [globalDocs, mem_map, eq_comm]

/-- The number of a block, from its documents. -/
theorem Block.div_of_mem (hd : d ∈ b.globalDocs) : d / blockSize = b.id := by
  obtain ⟨low, hlow, rfl⟩ := mem_globalDocs.mp hd
  rw [base, mul_add_div (by decide), div_eq_of_lt (b.lt low hlow), add_zero]

/-- The last block has the end only. -/
theorem allDocs_chain (blocks : List Block) :
    allDocs (chain blocks) = allDocs blocks ++ [noMoreDocs] := by
  rw [chain, allDocs_append]
  rfl

/-- The documents of an earlier block lie before those of a later one. -/
theorem chain_ordered (hw : WellFormed power blocks) :
    (chain blocks).Pairwise (fun a b => ∀ x ∈ a.globalDocs, ∀ y ∈ b.globalDocs, x < y) := by
  refine pairwise_append.mpr ⟨hw.ascending.imp ?_, by simp, ?_⟩
  · intro a b hab x hx y hy
    rw [← Block.div_of_mem hx, ← Block.div_of_mem hy] at hab
    exact lt_of_div_lt_div hab
  · intro a ha b hb x hx y hy
    rw [mem_singleton.mp hb] at hy
    rw [mem_singleton.mp (show y ∈ [noMoreDocs] from hy)]
    exact hw.lt x (mem_flatMap.mpr ⟨a, ha, hx⟩)

/-- Documents increase from block to block. -/
theorem chain_lt (hw : WellFormed power blocks) (ha : (chain blocks)[j]? = some a)
    (hb : (chain blocks)[k]? = some b) (hjk : j < k) {x y : Nat} (hx : x ∈ a.globalDocs)
    (hy : y ∈ b.globalDocs) : x < y := by
  obtain ⟨hj, rfl⟩ := List.getElem_of_getElem? ha
  obtain ⟨hk, rfl⟩ := List.getElem_of_getElem? hb
  exact pairwise_iff_getElem.mp (chain_ordered hw) j k hj hk hjk x hx y hy

/-- All documents of the blocks. -/
theorem totalCard_eq (l : List Block) : totalCard l = (allDocs l).length := by
  induction l with
  | nil => rfl
  | cons a l ih =>
    simp only [totalCard, map_cons, sum_cons, allDocs, flatMap_cons, length_append] at ih ⊢
    rw [ih, Block.globalDocs, length_map]
    rfl

/-- The number of documents of the file below a document of a block. -/
theorem countP_chain (hw : WellFormed power blocks) (hb : (chain blocks)[k]? = some b)
    (hd : d ∈ b.docs) :
    (allDocs (chain blocks)).countP (· < b.base + d) =
      firstIndex blocks k + b.docs.countP (· < d) := by
  have hmem : b.base + d ∈ b.globalDocs := Block.mem_globalDocs.mpr ⟨d, hd, rfl⟩
  have hbefore : (allDocs ((chain blocks).take k)).countP (· < b.base + d) =
      firstIndex blocks k := by
    rw [firstIndex, totalCard_eq]
    apply countP_lt_eq_length
    intro x hx
    obtain ⟨a, ha, hxa⟩ := mem_flatMap.mp hx
    obtain ⟨j, hj, rfl⟩ := mem_take_iff_getElem.mp ha
    exact chain_lt hw (getElem?_eq_getElem (by omega)) hb (by omega) hxa hmem
  have hafter : (allDocs ((chain blocks).drop (k + 1))).countP (· < b.base + d) = 0 := by
    apply countP_lt_eq_zero
    intro x hx
    obtain ⟨a, ha, hxa⟩ := mem_flatMap.mp hx
    obtain ⟨j, hj, rfl⟩ := mem_drop_iff_getElem.mp ha
    exact le_of_lt (chain_lt hw hb (getElem?_eq_getElem (by omega)) (by omega) hmem hxa)
  have hsingle : allDocs [b] = b.docs.map (b.base + ·) := by simp [allDocs, Block.globalDocs]
  conv_lhs => rw [chain_split hb]
  rw [allDocs_append, allDocs_append, countP_append, countP_append, hbefore, hafter, hsingle,
    countP_lt_map_add, add_zero]

/-! ## Going to a block -/

/-- The opened file holds the chain of blocks and, if there is a jump table, its entries. -/
structure FileFor (power : Int) (blocks : List Block) (config : Config) : Prop
    extends config.For config.bytes power where
  chain_at : At config.bytes 0 (blockBytes power (chain blocks))
  count_eq : ∀ table, config.jumpTable = some table →
    config.jumpTableEntryCount = (lastBlock blocks + 1 : Nat)
  jump_at : ∀ table, config.jumpTable = some table → ∀ i ≤ lastBlock blocks,
    At table.bytes (8 * i) (jumpEntry power blocks i)

/-- The next header to read is that of the block with index `k`. -/
structure Before (power : Int) (blocks : List Block) (k : Nat) (disi : IndexedDISIImpl) : Prop where
  end_eq : disi.blockEnd = blockOffset power blocks k
  next_eq : disi.nextBlockIndex = (firstIndex blocks k : Int) - 1

/-- The iterator stands in the block with index `k` and has passed the low halves below `p`. -/
abbrev OnBlock (power : Int) (blocks : List Block) (k : Nat) (b : Block) (p : Nat)
    (disi : IndexedDISIImpl) : Prop :=
  InBlock power b (blockOffset power blocks k) (firstIndex blocks k) p disi

variable {disi : IndexedDISIImpl}

/-- In a block, the next header is that of the following one. -/
theorem InBlock.before_next (hb : (chain blocks)[k]? = some b)
    (h : OnBlock power blocks k b p disi) : Before power blocks (k + 1) disi :=
  ⟨by rw [h.end_eq, blockOffset_succ hb], by rw [h.next_eq, firstIndex_succ hb]⟩

/-- The call leads to the begin of the block with index `k`. -/
def Arrives (power : Int) (blocks : List Block) (k : Nat) (b : Block) (disi : IndexedDISIImpl)
    (result : Result IndexedDISIImpl) : Prop :=
  ∃ disi', result = .ok disi' ∧ OnBlock power blocks k b 0 disi' ∧ disi'.doc = disi.doc ∧
    disi'.config = disi.config

/-- Reading the header of a block of the chain. -/
theorem readBlockHeader_chain (hp : ValidPower power) (disi : IndexedDISIImpl)
    (hfile : FileFor power blocks disi.config)
    (hb : (chain blocks)[k]? = some b) (hpos : disi.slice.pos = blockOffset power blocks k)
    (hnext : disi.nextBlockIndex = (firstIndex blocks k : Int) - 1) :
    Arrives power blocks k b disi (readBlockHeader disi) :=
  readBlockHeader_spec hp (IndexedDISI.chain_at hfile.chain_at hb) hfile.toFor hpos hnext

/-- The file goes on to where a block starts. -/
theorem seek_offset (hfile : FileFor power blocks disi.config) (hb : (chain blocks)[k]? = some b) :
    disi.slice.seek (blockOffset power blocks k) =
      .ok ⟨disi.slice.bytes, blockOffset power blocks k⟩ := by
  have hat := (Block.header_at (IndexedDISI.chain_at hfile.chain_at hb)).1
  have hle := hat.le_length (ne_nil_of_length_pos (by simp))
  exact IndexInput.seek_ok (Nat.le_trans (Nat.le_add_right _ _) hle)

/-- The block bytes before any block stay in the range of a signed integer. -/
theorem blockBytes_length_lt (hp : ValidPower power) (hasc : Ascending l) :
    (blockBytes power l).length < 2 ^ 31 := by
  have hrank : rankLength power ≤ 1024 := by
    unfold rankLength
    split
    · omega
    · exact shiftRight_le _ _
  have hblock (b : Block) : (b.encode power).length ≤ 9220 := by
    rw [b.encode_length hp]
    have hlongs : denseBlockLongs = 1024 := rfl
    cases hm : b.method with
    | sparse =>
      have hcard : b.card ≤ maxArrayLength := Block.method_spec hm
      unfold maxArrayLength at hcard
      simp only
      omega
    | all => simp
    | dense =>
      simp only
      omega
  have hbound : (blockBytes power l).length ≤ 9220 * l.length := by
    clear hasc
    induction l with
    | nil => simp [blockBytes]
    | cons b l ih =>
      have := hblock b
      simp only [blockBytes, flatMap_cons, length_append, length_cons] at ih ⊢
      omega
  have hnumber : l.length ≤ 32768 := by
    have hsub : l.map Block.id ⊆ range 32768 := by
      intro i hi
      obtain ⟨b, _, rfl⟩ := mem_map.mp hi
      exact mem_range.mpr b.id_lt
    have hnd : (l.map Block.id).Nodup := pairwise_map.mpr (hasc.imp Nat.ne_of_lt)
    have := (subperm_of_subset hnd hsub).length_le
    simpa using this
  omega

theorem Ascending.blocksBelow (hasc : Ascending blocks) (i : Nat) :
    Ascending (IndexedDISI.blocksBelow blocks i) :=
  List.Pairwise.filter _ hasc

/-- Ranks are numbers of 32 bits. -/
theorem totalCard_blocksBelow_lt (hw : WellFormed power blocks) (i : Nat) :
    totalCard (blocksBelow blocks i) < 2 ^ 31 := by
  have hsub : (blocksBelow blocks i).Sublist blocks := filter_sublist
  have hle : totalCard (blocksBelow blocks i) ≤ totalCard blocks :=
    (hsub.map Block.card).sum_le_sum (fun _ _ => zero_le _)
  have hall : (allDocs blocks).length ≤ noMoreDocs := by
    have hsubset : allDocs blocks ⊆ range noMoreDocs :=
      fun d hd => mem_range.mpr (hw.lt d hd)
    have := (subperm_of_subset (hw.increasing.imp Nat.ne_of_lt) hsubset).length_le
    rwa [length_range] at this
  rw [totalCard_eq blocks] at hle
  unfold noMoreDocs at hall
  omega

/-- A jump entry read as one long: the index in the low half, the offset in the high half. -/
theorem readLong_jump {pos index : Nat} (hat : At table.bytes pos (intLE 4 index ++ intLE 4 offset))
    (hindex : index < 2 ^ 31) (hoffset : offset < 2 ^ 31) :
    ∃ entry, table.readLong pos = .ok entry ∧ asI 32 entry = index ∧
      asI 32 (entry >>> (32 : Nat)) = offset := by
  have hhigh : ((index + offset * 2 ^ 32 : Nat) : Int) >>> (32 : Nat) = offset := by
    rw [Int.shiftRight_eq_div_pow]
    omega
  have hlow : asI 32 ((index + offset * 2 ^ 32 : Nat) : Int) = index := by
    have hmod : asU 32 ((index + offset * 2 ^ 32 : Nat) : Int) = asU 32 (index : Nat) := by
      rw [asU_natCast, asU_natCast]
      omega
    rw [asI_eq_of_asU_eq hmod]
    exact asI_32 (by omega) (by omega)
  have hlong : intLE 8 ((index + offset * 2 ^ 32 : Nat) : Int) = intLE 4 index ++
    intLE 4 offset := by
    rw [intLE_add 4 4, hhigh, ← intLE_asI 4 ((index + offset * 2 ^ 32 : Nat) : Int), hlow]
  rw [← hlong] at hat
  have hrange : asI 64 ((index + offset * 2 ^ 32 : Nat) : Int) = _ :=
    asI_64 (by omega) (by omega)
  refine ⟨_, RandomAccessInput.readLong_at hat, ?_, ?_⟩
  · rw [hrange, hlow]
  · rw [hrange, hhigh]
    exact asI_32 (by omega) (by omega)

section

variable (hw : WellFormed power blocks) (hi : i ≤ 32767) (hfile : FileFor power blocks disi.config)
  (hb : (chain blocks)[(blocksBelow blocks i).length]? = some b)

include hw hi hfile hb

/-- From header to header, the reader stops at the first block that is not below the target. -/
theorem iterateBlocks_spec {m fuel : Nat} (hbefore : Before power blocks m disi)
    (hm : m ≤ (blocksBelow blocks i).length) (hfuel : (blocksBelow blocks i).length - m < fuel) :
    Arrives power blocks (blocksBelow blocks i).length b disi
      (iterateBlocks disi (blockSize * i : Nat) fuel) := by
  induction fuel generalizing disi m with
  | zero => omega
  | succ fuel ih =>
    obtain ⟨hlen, _⟩ := List.getElem_of_getElem? hb
    obtain ⟨a, ha⟩ : ∃ a, (chain blocks)[m]? = some a :=
      ⟨_, getElem?_eq_getElem (by omega)⟩
    obtain ⟨disi', hread, hon, hdoc, hcfg⟩ := readBlockHeader_chain hw.power_ok
      { disi with slice := ⟨disi.slice.bytes, disi.blockEnd⟩ } hfile ha hbefore.end_eq
      hbefore.next_eq
    have hseek : disi.slice.seek disi.blockEnd = .ok ⟨disi.slice.bytes, disi.blockEnd⟩ := by
      rw [hbefore.end_eq, seek_offset hfile ha]
    rw [iterateBlocks, hseek]
    simp only [ok_bind, hread, pure_eq_ok, hon.block_eq, Block.base]
    rcases eq_or_lt_of_le hm with heq | hlt
    · -- the block that was looked for
      subst heq
      obtain rfl : a = b := Option.some.inj (ha.symm.trans hb)
      have hid : i ≤ a.id := by
        obtain ⟨_, b', hb', hle⟩ := first_from hw.ascending hi
        rwa [Option.some.inj (hb'.symm.trans hb)] at hle
      have hge := Nat.mul_le_mul_left blockSize hid
      rw [if_neg (by omega)]
      exact ⟨disi', rfl, hon, hdoc, hcfg⟩
    · have hid := lt_of_before_first hw.ascending hi hlt ha
      have hless : blockSize * a.id < blockSize * i :=
        Nat.mul_lt_mul_of_pos_left hid (by decide)
      rw [if_pos (by omega)]
      obtain ⟨disi'', hiter, hon', hdoc', hcfg'⟩ := @ih disi'
        (by rw [hcfg]; exact hfile) (m + 1) (hon.before_next ha) (by omega) (by omega)
      exact ⟨disi'', hiter, hon', hdoc'.trans hdoc, hcfg'.trans hcfg⟩

/-- The jump table leads to the first block that is not below the target. -/
theorem jumpTo_spec (htable : disi.jumpTable = some table) :
    Arrives power blocks (blocksBelow blocks i).length b disi (jumpTo disi table i) := by
  have hcount : disi.jumpTableEntryCount = _ := hfile.count_eq table htable
  -- an entry beyond the table is replaced by the last one, which stands for the sentinel
  obtain ⟨i', hi', hle, hsame⟩ : ∃ i' : Nat, (if (i : Int) < disi.jumpTableEntryCount then (i : Int)
      else disi.jumpTableEntryCount - 1) = i' ∧ i' ≤ lastBlock blocks ∧
      blocksBelow blocks i' = blocksBelow blocks i := by
    by_cases hin : i ≤ lastBlock blocks
    · exact ⟨i, by rw [if_pos (by omega)], hin, rfl⟩
    · refine ⟨lastBlock blocks, by rw [if_neg (by omega)]; omega, le_rfl, ?_⟩
      rw [blocksBelow_eq_self (fun _ => hw.ascending.lt_lastBlock), blocksBelow_eq_self]
      intro a ha
      have := hw.ascending.lt_lastBlock ha
      omega
  obtain ⟨entry, hread, hindex, hoffset⟩ := readLong_jump (hfile.jump_at table htable i' hle)
    (totalCard_blocksBelow_lt hw i')
    (blockBytes_length_lt hw.power_ok (hw.ascending.blocksBelow i'))
  obtain ⟨htake, _⟩ := first_from hw.ascending hi
  have hoff : (blockBytes power (blocksBelow blocks i')).length =
      blockOffset power blocks (blocksBelow blocks i).length := by
    rw [blockOffset, htake, hsame]
  have hfirst : totalCard (blocksBelow blocks i') =
      firstIndex blocks (blocksBelow blocks i).length := by
    rw [firstIndex, htake, hsame]
  rw [hoff] at hoffset
  rw [hfirst] at hindex
  obtain ⟨disi', hheader, hon, hdoc, hcfg⟩ := readBlockHeader_chain hw.power_ok
    { disi with
      nextBlockIndex := (firstIndex blocks (blocksBelow blocks i).length : Int) - 1
      slice := ⟨disi.slice.bytes, blockOffset power blocks (blocksBelow blocks i).length⟩ }
    hfile hb rfl rfl
  refine ⟨disi', ?_, hon, hdoc, hcfg⟩
  rw [jumpTo, hi', Int.toNat_natCast, mul_comm, hread]
  simp only [ok_bind, hindex, hoffset, Int.toNat_natCast, seek_offset hfile hb]
  exact hheader

end

/-! ## The invariant -/

/-- The iterator stands for the document `doc`: it has not opened a block yet, or it is in a block
that `doc` has reached or not passed, with only smaller documents before it. -/
inductive Place (power : Int) (blocks : List Block) (doc : Int) (disi : IndexedDISIImpl) :
    Prop where
  | unopened (hdoc : doc = -1) (hblock : disi.block = -1) (hbefore : Before power blocks 0 disi)
  | block (k : Nat) (b : Block) (hb : (chain blocks)[k]? = some b)
      (hin : OnBlock power blocks k b (doc + 1 - b.base).toNat disi)
      (hdoc : doc < b.base + blockSize)
      (hbefore : ∀ j < k, ∀ a, (chain blocks)[j]? = some a → ∀ e ∈ a.globalDocs, (e : Int) < doc)

/-- The iterator is on a document, and can go on from there. -/
structure Inv (power : Int) (blocks : List Block) (doc : Int) (disi : IndexedDISIImpl) : Prop where
  doc_eq : disi.doc = doc
  doc_ge : -1 ≤ doc
  file : FileFor power blocks disi.config
  place : Place power blocks doc disi

/-- The block of a target. -/
theorem highHalf_eq (ht : t ≤ noMoreDocs) : highHalf t = (blockSize * (t / blockSize) : Nat) := by
  replace ht : t < 2 ^ 31 := lt_succ_of_le ht
  have hmask : t &&& 0xFFFF0000 = 2 ^ 16 * (t / 2 ^ 16) := by
    apply eq_of_testBit_eq
    intro j
    rw [testBit_and, show 0xFFFF0000 = 2 ^ 16 * (2 ^ 16 - 1) by norm_num, testBit_two_pow_mul,
      testBit_two_pow_mul, testBit_two_pow_sub_one, testBit_div_two_pow]
    by_cases hj : 16 ≤ j
    · rw [Nat.sub_add_cancel hj]
      by_cases hhigh : j < 32
      · simp [hj]
        omega
      · have : t.testBit j = false := testBit_lt_two_pow
          (Nat.lt_of_lt_of_le ht (Nat.pow_le_pow_right (by norm_num) (by omega)))
        simp [this]
    · simp [hj]
  rw [highHalf, asU_of_lt (by omega), hmask]
  exact asI_32 (by omega) (by omega)

/-- If the block of the iterator lies before a block, so does its document. -/
theorem Place.doc_lt (h : Place power blocks doc disi) (hahead : disi.block < (blockSize * i : Nat))
    (hid : i ≤ b.id) : doc < b.base := by
  cases h with
  | unopened hdoc => omega
  | block k a _ hin hdoc =>
    rw [hin.block_eq, Block.base] at hahead
    have hlt : a.id < i := by
      by_contra hge
      have := Nat.mul_le_mul_left blockSize (Nat.le_of_not_lt hge)
      omega
    have hnext : blockSize * (a.id + 1) ≤ blockSize * b.id := Nat.mul_le_mul_left _ (by omega)
    rw [Block.base] at hdoc ⊢
    rw [mul_succ] at hnext
    omega

/-- By the jump table or from header to header, the reader gets to the first block that is not below
the target. -/
theorem advanceBlock_spec (hw : WellFormed power blocks) (hfile : FileFor power blocks disi.config)
    (hplace : Place power blocks doc disi) (hi : i ≤ 32767)
    (hahead : disi.block < (blockSize * i : Nat))
    (hb : (chain blocks)[(blocksBelow blocks i).length]? = some b) :
    Arrives power blocks (blocksBelow blocks i).length b disi
      (advanceBlock disi (blockSize * i : Nat)) := by
  obtain ⟨m, hm, hbefore⟩ : ∃ m ≤ (blocksBelow blocks i).length, Before power blocks m disi := by
    cases hplace with
    | unopened _ _ hbefore => exact ⟨0, zero_le _, hbefore⟩
    | block k a ha hin _ _ =>
      refine ⟨k + 1, before_first_of_lt hw.ascending hi ha ?_, hin.before_next ha⟩
      rw [hin.block_eq, Block.base] at hahead
      exact Nat.lt_of_mul_lt_mul_left (Int.ofNat_lt.mp hahead)
  have hfuel : (blocksBelow blocks i).length - m < disi.slice.length + 1 := by
    obtain ⟨hlen, _⟩ := List.getElem_of_getElem? hb
    have hchain := length_le_blockBytes power (chain blocks)
    have hbytes : (blockBytes power (chain blocks)).length ≤ disi.slice.bytes.length :=
      List.IsPrefix.length_le hfile.chain_at
    unfold IndexInput.length
    omega
  have hiterate := iterateBlocks_spec hw hi hfile hb hbefore hm hfuel
  have hindex : ((blockSize * i : Nat) : Int) >>> (16 : Nat) = i := by
    rw [int_shiftRight_sixteen, Nat.mul_div_cancel_left i (by decide)]
  unfold advanceBlock
  rw [hindex]
  cases htable : disi.jumpTable with
  | none => exact hiterate
  | some table =>
    simp only
    split
    · exact jumpTo_spec hw hi hfile hb htable
    · exact hiterate

/-- The state that both kinds of advance reach before they look into a block: in the first block
that is not below the target, or in a later one the iterator was in already. -/
structure Seeked (power : Int) (blocks : List Block) (doc : Int) (t k : Nat) (b : Block)
    (disi disi' : IndexedDISIImpl) : Prop where
  doc_eq : disi'.doc = disi.doc
  config_eq : disi'.config = disi.config
  get : (chain blocks)[k]? = some b
  inb : OnBlock power blocks k b (doc + 1 - b.base).toNat disi'
  le_id : t / blockSize ≤ b.id
  doc_lt : doc < b.base + blockSize
  before : ∀ j < k, ∀ a, (chain blocks)[j]? = some a → ∀ e ∈ a.globalDocs, e < t

/-- The block of the target, or the next one. -/
theorem seekBlock_spec (hw : WellFormed power blocks) (h : Inv power blocks doc disi)
    (hdt : doc ≤ t) (ht : t ≤ noMoreDocs) :
    ∃ disi' k b, seekBlock disi (highHalf t) = .ok disi' ∧
      Seeked power blocks doc t k b disi disi' := by
  have hi : t / blockSize ≤ 32767 := Nat.div_le_div_right ht
  rw [seekBlock, highHalf_eq ht]
  by_cases hahead : disi.block < (blockSize * (t / blockSize) : Nat)
  · rw [if_pos hahead]
    obtain ⟨_, b, hb, hid⟩ := first_from hw.ascending hi
    obtain ⟨disi', hadvance, hon, hdoc, hcfg⟩ := advanceBlock_spec hw h.file h.place hi hahead hb
    have hlt : doc < b.base := h.place.doc_lt hahead hid
    refine ⟨disi', _, b, hadvance, hdoc, hcfg, hb, ?_, hid, by omega, fun j hj a ha e he => ?_⟩
    · rwa [show (doc + 1 - b.base).toNat = 0 by omega]
    · have hsmall := lt_of_before_first hw.ascending hi hj ha
      rw [← Block.div_of_mem he] at hsmall
      exact lt_of_div_lt_div hsmall
  · rw [if_neg hahead]
    cases h.place with
    | unopened _ hblock _ => omega
    | block k b hb hin hdoc hbefore =>
      refine ⟨disi, k, b, rfl, rfl, rfl, hb, hin, ?_, hdoc, fun j hj a ha e he => ?_⟩
      · rw [hin.block_eq, Block.base] at hahead
        by_contra hlt
        have := Nat.mul_lt_mul_of_pos_left (Nat.lt_of_not_le hlt) (show 0 < blockSize by decide)
        omega
      · have := hbefore j hj a ha e he
        omega

/-! ## The calls -/

section

/-! Before the block with index `k` there are only documents below the target. -/

variable (hw : WellFormed power blocks) (hb : (chain blocks)[k]? = some b)
  (hbefore : ∀ j < k, ∀ a, (chain blocks)[j]? = some a → ∀ e ∈ a.globalDocs, e < t)
  (hfile : FileFor power blocks disi.config)

section

include hw hb hbefore

/-- The least document from a target on, found in a block with nothing but smaller documents before
it. -/
theorem leastFrom_chain (hd : d ∈ b.globalDocs) (hle : t ≤ d)
    (hmin : ∀ e ∈ b.globalDocs, t ≤ e → d ≤ e) : leastFrom (allDocs blocks) t = d := by
  have hleast (e : Nat) (he : e ∈ allDocs (chain blocks)) (hte : t ≤ e) : d ≤ e := by
    obtain ⟨a, ha, hea⟩ := mem_flatMap.mp he
    obtain ⟨j, hj, hget⟩ := getElem_of_mem ha
    have ha' : (chain blocks)[j]? = some a := by rw [getElem?_eq_getElem hj, hget]
    rcases Nat.lt_trichotomy j k with hjk | rfl | hjk
    · have := hbefore j hjk a ha' e hea
      omega
    · obtain rfl : a = b := Option.some.inj (ha'.symm.trans hb)
      exact hmin e hea hte
    · exact le_of_lt (chain_lt hw hb ha' hjk hd hea)
  rw [allDocs_chain] at hleast
  have hmem : d ∈ allDocs blocks ++ [noMoreDocs] := by
    rw [← allDocs_chain]
    exact mem_flatMap.mpr ⟨b, mem_of_getElem? hb, hd⟩
  rcases mem_append.mp hmem with hmem | hmem
  · exact leastFrom_eq_of_mem hw.increasing hmem hle (fun e he hte => hleast e (by simp [he]) hte)
  · obtain rfl := mem_singleton.mp hmem
    apply leastFrom_eq_noMoreDocs
    intro e he
    by_contra hge
    have := hleast e (by simp [he]) (by omega)
    have := hw.lt e he
    omega

/-- A target is written exactly if it is a document of the first block that is not below it. -/
theorem mem_allDocs_iff (hid : t / blockSize ≤ b.id) (ht : t < noMoreDocs) :
    t ∈ allDocs blocks ↔ t ∈ b.globalDocs := by
  constructor
  · intro hin
    obtain ⟨a, ha, hta⟩ := mem_flatMap.mp hin
    obtain ⟨j, hj, hget⟩ := getElem_of_mem ha
    have ha' : (chain blocks)[j]? = some a := by
      rw [chain, getElem?_append_left hj, getElem?_eq_getElem hj, hget]
    rcases Nat.lt_trichotomy j k with hjk | rfl | hjk
    · exact absurd (hbefore j hjk a ha' t hta) (lt_irrefl t)
    · rwa [Option.some.inj (ha'.symm.trans hb)] at hta
    · rw [chain, getElem?_append_left (Nat.lt_trans hjk hj)] at hb
      obtain ⟨hk, rfl⟩ := List.getElem_of_getElem? hb
      have hless := pairwise_iff_getElem.mp hw.ascending k j hk hj hjk
      rw [hget, ← Block.div_of_mem hta] at hless
      omega
  · intro hin
    have hchain : t ∈ allDocs (chain blocks) :=
      mem_flatMap.mpr ⟨b, mem_of_getElem? hb, hin⟩
    rw [allDocs_chain, mem_append, mem_singleton] at hchain
    exact hchain.resolve_right (Nat.ne_of_lt ht)

end

include hb hbefore hfile

/-- Moving to a document of a block with only smaller documents before it keeps the invariant. -/
theorem Found.inv {disi' : IndexedDISIImpl} (hd : d ∈ b.docs)
    (h : Found power b (blockOffset power blocks k) (firstIndex blocks k) d disi disi')
    (hle : t ≤ b.base + d) : Inv power blocks (b.base + d : Nat) disi' := by
  have hlt := b.lt d hd
  refine ⟨h.doc_eq, by omega, by rw [h.config_eq]; exact hfile,
    .block k b hb ?_ (by push_cast; omega) fun j hj a ha e he => ?_⟩
  · have hp : (((b.base + d : Nat) : Int) + 1 - b.base).toNat = d + 1 := by omega
    rw [hp]
    exact h.toInBlock
  · have := hbefore j hj a ha e he
    omega

include hw

/-- The first document of a block that the target has not reached. -/
theorem advanceToBlockStart_spec (hin : OnBlock power blocks k b 0 disi)
    (hle : ∀ e ∈ b.globalDocs, t ≤ e) :
    ∃ disi', advanceToBlockStart disi = .ok ((leastFrom (allDocs blocks) t : Nat), disi') ∧
      Inv power blocks (leastFrom (allDocs blocks) t : Nat) disi' := by
  obtain ⟨d, rest, hdocs⟩ := exists_cons_of_ne_nil b.nonempty
  have hmem : d ∈ b.docs := by simp [hdocs]
  have hfind : b.docs.find? (0 ≤ ·) = some d := by simp [hdocs]
  have hglobal : b.base + d ∈ b.globalDocs := Block.mem_globalDocs.mpr ⟨d, hmem, rfl⟩
  have hleast : leastFrom (allDocs blocks) t = b.base + d := by
    refine leastFrom_chain hw hb hbefore hglobal (hle _ hglobal) fun e he _ => ?_
    obtain ⟨low, hlow, rfl⟩ := Block.mem_globalDocs.mp he
    have := b.increasing.le_of_find_eq_some hfind hlow (zero_le _)
    omega
  obtain ⟨⟨found, disi'⟩, hadvance, hto⟩ := advanceWithinBlock_spec hw.power_ok
    (IndexedDISI.chain_at hfile.chain_at hb) hin hfile.toFor (t := 0) (by decide) (by omega)
    (fun _ => le_rfl)
  simp only [AdvancedTo, hfind] at hto
  obtain ⟨rfl, hfound⟩ := hto
  rw [hleast]
  refine ⟨disi', ?_, hfound.inv hb hbefore hfile hmem (hle _ hglobal)⟩
  rw [add_zero] at hadvance
  rw [advanceToBlockStart, hin.block_eq, hadvance]
  simp only [ok_bind, pure_eq_ok, hfound.doc_eq]

end

/-- The target in the block of its number. -/
theorem Block.target_eq (hid : t / blockSize = b.id) : b.base + t % blockSize = t := by
  rw [base, ← hid, div_add_mod]

/-- A target before a block. -/
theorem Block.lt_base (hid : t / blockSize < b.id) : t < b.base := by
  rw [base, mul_comm]
  exact (Nat.div_lt_iff_lt_mul (by decide)).mp hid

theorem Block.base_ne (hid : t / blockSize < b.id) :
    ¬ (b.base : Int) = (blockSize * (t / blockSize) : Nat) := by
  have := lt_base hid
  have := mul_div_le t blockSize
  omega

/-- The position inside a block does not depend on the document field. -/
theorem InBlock.withDoc {start first : Nat} (h : InBlock power b start first p disi) (doc : Int) :
    InBlock power b start first p { disi with doc := doc } :=
  ⟨h.toOpened.move .., fun hm => ⟨(h.sparse hm).pos_eq, (h.sparse hm).index_eq,
    (h.sparse hm).exists_eq, (h.sparse hm).look⟩, fun hm =>
    let ⟨n, hd⟩ := h.dense hm
    ⟨n, ⟨hd.pos_eq, hd.ones_eq, hd.word_eq⟩, hd.word_index_eq, hd.le⟩, h.index_of_mem⟩

/-- A block without a document from the target on is followed by another one, which lies beyond the
target. -/
theorem next_block (hasc : Ascending blocks) (hb : (chain blocks)[k]? = some b)
    (ht : t ≤ noMoreDocs) (hid : t / blockSize = b.id)
    (hnone : b.docs.find? (t % blockSize ≤ ·) = none) :
    ∃ b', (chain blocks)[k + 1]? = some b' ∧ ∀ e ∈ b'.globalDocs, t ≤ e := by
  unfold chain at hb ⊢
  have hk : k < blocks.length := by
    by_contra hge
    obtain ⟨hlt, _⟩ := List.getElem_of_getElem? hb
    rw [length_append, length_singleton] at hlt
    obtain rfl : k = blocks.length := by omega
    rw [getElem?_concat_length, Option.some.injEq] at hb
    subst hb
    have hlast : ¬ t % blockSize ≤ 65535 := by
      simpa using find?_eq_none.mp hnone 65535 (mem_singleton.mpr rfl)
    have hmod : t % blockSize < 65536 := mod_lt t (by decide)
    omega
  rw [getElem?_append_left hk] at hb
  rcases eq_or_lt_of_le (show k + 1 ≤ blocks.length by omega) with heq | hlt
  · refine ⟨sentinel, by rw [heq, getElem?_concat_length], fun e he => ?_⟩
    rw [mem_singleton.mp (show e ∈ [noMoreDocs] from he)]
    exact ht
  · refine ⟨blocks[k + 1], ?_, fun e he => ?_⟩
    · rw [getElem?_append_left hlt, getElem?_eq_getElem hlt]
    · obtain ⟨_, rfl⟩ := List.getElem_of_getElem? hb
      have hless := pairwise_iff_getElem.mp hasc k (k + 1) hk hlt (lt_succ_self k)
      rw [← hid, ← Block.div_of_mem he] at hless
      exact (lt_of_div_lt_div hless).le

section

variable (hw : WellFormed power blocks)

include hw

/-- One call of `advance`. -/
theorem advance_spec (h : Inv power blocks doc disi)
    (ht : t ≤ noMoreDocs) (hlegal : doc < t ∨ doc = t ∧ t ∉ allDocs blocks ∧ t < noMoreDocs) :
    ∃ disi', advance disi t = .ok ((leastFrom (allDocs blocks) t : Nat), disi') ∧
      Inv power blocks (leastFrom (allDocs blocks) t : Nat) disi' := by
  obtain ⟨disi', k, b, hseek, hs⟩ := seekBlock_spec hw h (by omega) ht
  have hfile : FileFor power blocks disi'.config := by rw [hs.config_eq]; exact h.file
  have hat := IndexedDISI.chain_at hfile.chain_at hs.get
  have hlow : t % blockSize < blockSize := mod_lt _ (by decide)
  rw [advance, hseek]
  simp only [ok_bind, pure_eq_ok]
  rw [hs.inb.block_eq, highHalf_eq ht]
  rcases eq_or_lt_of_le hs.le_id with hid | hid
  · -- the target lies in the range of the block
    have htarget := Block.target_eq hid
    have hnew : t % blockSize ∈ b.docs → (doc + 1 - b.base).toNat ≤ t % blockSize := by
      intro hmem
      have hin : t ∈ allDocs (chain blocks) := mem_flatMap.mpr
        ⟨b, mem_of_getElem? hs.get, Block.mem_globalDocs.mpr ⟨_, hmem, htarget.symm⟩⟩
      rw [allDocs_chain, mem_append, mem_singleton] at hin
      rcases hlegal with hlt | ⟨_, hnot, hless⟩
      · omega
      · rcases hin with hin | hin
        · exact absurd hin hnot
        · omega
    rw [if_pos (by rw [hid]; rfl)]
    obtain ⟨⟨found, disi''⟩, hadvance, hto⟩ := advanceWithinBlock_spec hw.power_ok hat hs.inb
      hfile.toFor hlow (by omega) hnew
    rw [htarget] at hadvance
    rw [hadvance]
    cases hfind : b.docs.find? (t % blockSize ≤ ·) with
    | some d =>
      simp only [AdvancedTo, hfind] at hto
      obtain ⟨rfl, hfound⟩ := hto
      have hmem := mem_of_find?_eq_some hfind
      have hle : t % blockSize ≤ d := by simpa using find?_some hfind
      have hleast : leastFrom (allDocs blocks) t = b.base + d := by
        refine leastFrom_chain hw hs.get hs.before
          (Block.mem_globalDocs.mpr ⟨d, hmem, rfl⟩) (by omega) fun e he hte => ?_
        obtain ⟨low, hlow, rfl⟩ := Block.mem_globalDocs.mp he
        have := b.increasing.le_of_find_eq_some hfind hlow (by omega)
        omega
      rw [hleast]
      refine ⟨disi'', ?_, hfound.inv hs.get hs.before hfile hmem (by omega)⟩
      simp only [ok_bind, if_true, hfound.doc_eq]
    | none =>
      -- nothing is left in the block: the next one begins with the answer
      simp only [AdvancedTo, hfind] at hto
      obtain ⟨rfl, hend⟩ := hto
      obtain ⟨b', hb', hbeyond⟩ := next_block hw.ascending hs.get ht hid hfind
      obtain ⟨next, hheader, hon, _, hcfg⟩ := readBlockHeader_chain hw.power_ok disi''
        (by rw [hend.config_eq]; exact hfile) hb'
        (by rw [hend.pos_eq, blockOffset_succ hs.get])
        (by rw [hend.next_eq, firstIndex_succ hs.get])
      simp only [ok_bind, Bool.false_eq_true, if_false, hheader]
      refine advanceToBlockStart_spec hw hb' (fun j hj a ha e he => ?_)
        (by rw [hcfg, hend.config_eq]; exact hfile) hon hbeyond
      rcases eq_or_lt_of_le (le_of_lt_succ hj) with rfl | hjk
      · obtain rfl : a = b := Option.some.inj (ha.symm.trans hs.get)
        obtain ⟨low, hlow', rfl⟩ := Block.mem_globalDocs.mp he
        have := find?_eq_none.mp hfind low hlow'
        simp only [decide_eq_true_eq] at this
        omega
      · exact hs.before j hjk a ha e he
  · -- the block begins beyond the target
    have hbase := Block.lt_base hid
    rw [if_neg (Block.base_ne hid)]
    have hin := hs.inb
    rw [show (doc + 1 - b.base).toNat = 0 by omega] at hin
    refine advanceToBlockStart_spec hw hs.get hs.before hfile hin fun e he => ?_
    obtain ⟨low, _, rfl⟩ := Block.mem_globalDocs.mp he
    omega

/-- One call of `advance_exact`. -/
theorem advanceExact_spec (h : Inv power blocks doc disi) (hdt : doc ≤ t) (ht : t < noMoreDocs) :
    ∃ disi', advanceExact disi t = .ok (decide (t ∈ allDocs blocks), disi') ∧
      Inv power blocks t disi' := by
  obtain ⟨disi', k, b, hseek, hs⟩ := seekBlock_spec hw h hdt (le_of_lt ht)
  have hfile : FileFor power blocks disi'.config := by rw [hs.config_eq]; exact h.file
  have hbefore (j : Nat) (hj : j < k) (a : Block) (ha : (chain blocks)[j]? = some a) (e : Nat)
      (he : e ∈ a.globalDocs) : (e : Int) < t := by
    exact_mod_cast hs.before j hj a ha e he
  have hmem := mem_allDocs_iff hw hs.get hs.before hs.le_id ht
  rw [advanceExact, hseek]
  simp only [ok_bind, pure_eq_ok]
  rw [hs.inb.block_eq, highHalf_eq ht.le]
  rcases eq_or_lt_of_le hs.le_id with hid | hid
  · -- the target lies in the range of the block
    have htarget := Block.target_eq hid
    have hlow : t % blockSize < blockSize := mod_lt _ (by decide)
    have hsame : disi'.doc = (b.base + t % blockSize : Nat) ↔
        (doc + 1 - b.base).toNat = t % blockSize + 1 := by
      rw [hs.doc_eq, h.doc_eq]
      omega
    obtain ⟨disi'', hexact, hin, hcfg⟩ := advanceExactWithinBlock_spec hw.power_ok
      (IndexedDISI.chain_at hfile.chain_at hs.get) hs.inb hfile.toFor hlow (by omega) hsame
    have hfound : decide (t % blockSize ∈ b.docs) = decide (t ∈ allDocs blocks) := by
      rw [decide_eq_decide, hmem, Block.mem_globalDocs]
      constructor
      · exact fun hd => ⟨_, hd, htarget.symm⟩
      · rintro ⟨low, hd, heq⟩
        rwa [show t % blockSize = low by omega]
    rw [htarget, hfound] at hexact
    rw [if_pos (by rw [hid]; rfl), hexact]
    refine ⟨{ disi'' with doc := t }, rfl, rfl, by omega, ?_,
      .block k b hs.get ?_ (by omega) hbefore⟩
    · exact hcfg ▸ hfile
    · rw [show ((t : Int) + 1 - b.base).toNat = t % blockSize + 1 by omega]
      exact hin.withDoc t
  · -- the block begins beyond the target
    have hbase := Block.lt_base hid
    have hnot : t ∉ allDocs blocks := by
      rw [hmem]
      intro hin
      obtain ⟨low, _, rfl⟩ := Block.mem_globalDocs.mp hin
      omega
    rw [if_neg (Block.base_ne hid), decide_eq_false hnot]
    refine ⟨{ disi' with doc := t }, rfl, rfl, by omega, hfile,
      .block k b hs.get ?_ (by omega) hbefore⟩
    have hin := hs.inb
    rw [show (doc + 1 - b.base).toNat = 0 by omega] at hin
    rw [show ((t : Int) + 1 - b.base).toNat = 0 by omega]
    exact hin.withDoc t

/-- On a written document, the index is the number of written documents before it. -/
theorem Inv.index_eq (h : Inv power blocks d disi)
    (hd : d ∈ allDocs blocks) : disi.index = ((allDocs blocks).countP (· < d) : Nat) := by
  cases h.place with
  | unopened hdoc => omega
  | block k b hb hin hdoc hbefore =>
    have hid : d / blockSize ≤ b.id := by
      rw [← Nat.lt_succ_iff, Nat.div_lt_iff_lt_mul (by decide), succ_mul, mul_comm]
      exact_mod_cast hdoc
    have hmem := (mem_allDocs_iff hw hb
      (fun j hj a ha e he => by exact_mod_cast hbefore j hj a ha e he) hid (hw.lt d hd)).mp hd
    obtain ⟨low, hlow, rfl⟩ := Block.mem_globalDocs.mp hmem
    have hcount := countP_chain hw hb hlow
    have hlast : [noMoreDocs].countP (· < b.base + low) = 0 :=
      countP_lt_eq_zero (by simpa using le_of_lt (hw.lt _ hd))
    rw [allDocs_chain, countP_append, hlast, add_zero] at hcount
    rw [hin.index_of_mem low hlow (by omega), hcount]

/-- Every legal call answers as the abstract iterator does and keeps the invariant. -/
theorem step_correct : StepCorrect (allDocs blocks) (Inv power blocks) step := by
  intro doc disi call h hlegal
  cases call with
  | nextDoc =>
    have hless : doc < noMoreDocs := hlegal
    have hge := h.doc_ge
    have htarget : asI 32 (disi.doc + 1) = ((doc + 1).toNat : Int) := by
      rw [h.doc_eq, Int.toNat_of_nonneg (by omega)]
      unfold noMoreDocs at hless
      exact asI_32 (by omega) (by omega)
    obtain ⟨disi', hadvance, hinv⟩ := advance_spec hw h (t := (doc + 1).toNat) (by omega)
      (.inl (by omega))
    refine ⟨disi', ?_, hinv⟩
    simp only [step, nextDoc, htarget, hadvance, ok_bind, pure_eq_ok]
    rfl
  | advance target =>
    obtain ⟨disi', hadvance, hinv⟩ := advance_spec hw h hlegal.1 hlegal.2
    refine ⟨disi', ?_, hinv⟩
    simp only [step, hadvance, ok_bind, pure_eq_ok]
    rfl
  | advanceExact target =>
    obtain ⟨disi', hexact, hinv⟩ := advanceExact_spec hw h hlegal.1 hlegal.2
    refine ⟨disi', ?_, hinv⟩
    simp only [step, hexact, ok_bind, pure_eq_ok]
    rfl

end

/-! ## Opening -/

/-- The jump table is small. -/
theorem entryCount_le (blocks : List Block) : entryCount blocks ≤ 32769 := by
  have hlast : lastBlock blocks ≤ 32768 := by
    unfold lastBlock
    split
    · exact succ_le_of_lt (Block.id_lt _)
    · omega
  unfold entryCount
  split <;> omega

/-- The bytes of the jump table. -/
theorem jumpTable_length (power : Int) (blocks : List Block) :
    (jumpTable power blocks).length = 8 * entryCount blocks := by
  rw [jumpTable, flatMap_length (k := 8), length_range]
  intro i _
  simp [jumpEntry]

/-- A file has less than `2 ^ 32` bytes. -/
theorem layout_length_lt (hp : ValidPower power) (hasc : Ascending blocks) :
    (layout power blocks).length < 2 ^ 32 := by
  have hblocks := blockBytes_length_lt hp hasc
  have hcount := entryCount_le blocks
  have hsentinel : (sentinel.encode power).length = 6 := rfl
  rw [layout, length_append, jumpTable_length, blockBytes, flatMap_append, flatMap_singleton,
    length_append, ← blockBytes, hsentinel]
  omega

theorem blockBytes_chain_ne_nil (power : Int) (blocks : List Block) :
    blockBytes power (chain blocks) ≠ [] := by
  have := length_le_blockBytes power (chain blocks)
  rw [chain, length_append, length_singleton] at this
  exact ne_nil_of_length_pos (by rw [chain]; omega)

/-- What opening returns for a slice that begins with the blocks and a table with the entries. -/
theorem fromComponents_inv {slice : IndexInput} {table : Option RandomAccessInput}
    {count cost : Int} (hp : ValidPower power)
    (hat : At slice.bytes 0 (blockBytes power (chain blocks)))
    (hcount : ∀ t, table = some t → count = (lastBlock blocks + 1 : Nat))
    (hjump : ∀ t, table = some t → ∀ i ≤ lastBlock blocks,
      At t.bytes (8 * i) (jumpEntry power blocks i)) :
    ∃ disi, fromComponents slice table count power cost = .ok disi ∧
      Inv power blocks (-1) disi := by
  have hvalid : ¬ (¬ (7 ≤ power ∧ power ≤ 15) ∧ power ≠ -1) := by
    rintro ⟨hrange, hne⟩
    exact hp.elim hne hrange
  unfold fromComponents
  rw [if_neg hvalid]
  refine ⟨_, rfl, rfl, le_rfl, ⟨⟨rfl, rfl, fun hne => ?_, ?_⟩, hat, hcount, hjump⟩,
    .unopened rfl rfl ⟨rfl, rfl⟩⟩
  · simp [IndexedDISIImpl.config, hne, Int.shiftLeft_eq]
  · by_cases hne : power = -1
    · simp [IndexedDISIImpl.config, hne]
    · simp [IndexedDISIImpl.config, hne, rankLength]

/-- Opening what the writer has written, with the jump-table count it returned. -/
theorem new_inv (hp : ValidPower power) (input : IndexInput)
    (hat : At input.bytes offset (layout power blocks)) (cost : Int) :
    ∃ disi, new input offset (layout power blocks).length (asI 16 (entryCount blocks)) power cost =
        .ok disi ∧ Inv power blocks (-1) disi := by
  have hle := entryCount_le blocks
  have hsplit : layout power blocks = blockBytes power (chain blocks) ++
    jumpTable power blocks := rfl
  have hlength : (layout power blocks).length =
      (blockBytes power (chain blocks)).length + 8 * entryCount blocks := by
    rw [hsplit, length_append, jumpTable_length]
  have hne : layout power blocks ≠ [] := by
    exact append_ne_nil_of_left_ne_nil (blockBytes_chain_ne_nil power blocks) _
  by_cases htable : 0 < entryCount blocks ∧ entryCount blocks < 32768
  · have hcount : asI 16 (entryCount blocks) = entryCount blocks :=
      asI_of_range (by norm_num) (by omega) (by push_cast; omega)
    have hbytes : jumpTableBytes (entryCount blocks : Nat) = 8 * entryCount blocks := by
      rw [jumpTableBytes, if_neg (by omega), Int.toNat_natCast]
      omega
    have hparts := (at_append_iff (a := blockBytes power (chain blocks))).mp (hsplit ▸ hat)
    have htable' : jumpTable power blocks ≠ [] :=
      ne_nil_of_length_pos (by rw [jumpTable_length]; omega)
    have hslice := IndexInput.slice_at hparts.1 (blockBytes_chain_ne_nil power blocks)
    have hjump := IndexInput.slice_at hparts.2 htable'
    rw [jumpTable_length] at hjump
    have hentry : entryCount blocks = lastBlock blocks + 1 := by
      have hpos := htable.1
      unfold entryCount at hpos ⊢
      split
      · rename_i htwo
        rw [if_pos htwo] at hpos
        omega
      · rfl
    obtain ⟨disi, hopen, hinv⟩ := @fromComponents_inv power blocks
      ⟨blockBytes power (chain blocks), 0⟩ (some ⟨jumpTable power blocks⟩)
      (entryCount blocks : Nat) cost hp prefix_rfl (fun _ _ => by rw [hentry])
      (fun t ht i hi => by
        cases ht
        have hself : At (jumpTable power blocks) 0 (jumpTable power blocks) := prefix_rfl
        have hflat := At.flatMap (k := 8) hself (fun _ _ => by simp [jumpEntry])
          (i := i) (by rw [length_range]; omega)
        simpa using hflat)
    refine ⟨disi, ?_, hinv⟩
    have hsub : (layout power blocks).length - 8 * entryCount blocks =
        (blockBytes power (chain blocks)).length := by omega
    have hoff : offset + (layout power blocks).length - 8 * entryCount blocks =
        offset + (blockBytes power (chain blocks)).length := by omega
    rw [hcount, new, createBlockSlice, createJumpTable, hbytes, if_pos (by omega), hsub, hslice,
      if_neg (by omega), if_pos (by omega), hoff, IndexInput.randomAccessSlice, hjump]
    simpa only [ok_bind, pure_eq_ok] using hopen
  · -- no table, or a count that has wrapped around: the slice covers the table as well
    have hcount : asI 16 (entryCount blocks) ≤ 0 := by
      have hcases : entryCount blocks = 0 ∨ entryCount blocks = 32768 ∨
          entryCount blocks = 32769 := by omega
      rcases hcases with h | h | h <;> rw [h] <;> decide
    have hbytes : jumpTableBytes (asI 16 (entryCount blocks)) = 0 := by
      unfold jumpTableBytes
      split
      · rfl
      · rw [show asI 16 (entryCount blocks) = 0 by omega]
        rfl
    have hslice := IndexInput.slice_at hat hne
    obtain ⟨disi, hopen, hinv⟩ := @fromComponents_inv power blocks
      ⟨layout power blocks, 0⟩ none (asI 16 (entryCount blocks)) cost hp (prefix_append _ _)
      (by rintro _ ⟨⟩) (by rintro _ ⟨⟩)
    refine ⟨disi, ?_, hinv⟩
    rw [new, createBlockSlice, createJumpTable, hbytes, if_pos (zero_le _), Nat.sub_zero, hslice,
      if_pos hcount]
    exact hopen

/-! ## Writing and reading -/

/-- Write the documents behind some bytes, open what was written and make the calls. -/
def writeAndRun (docs : List Nat) (before after : Bytes) (power cost : Int) (calls : List Call) :
    Result (List (Answer × IndexedDISIImpl)) := do
  let (out, count) ← writeBitsetWithDenseRankPower docs before power
  let disi ← new ⟨out ++ after, 0⟩ before.length (out.length - before.length) count power cost
  run step disi calls

/-- Whatever sequence of documents is written, every sequence of calls that keeps the contract of
document iterators is answered as by the abstract iterator over these documents, and on a written
document the index is the number of those before it. -/
theorem writeAndRun_refines {docs : List Nat} {power : Int} (hinc : Increasing docs)
    (hlt : ∀ d ∈ docs, d < noMoreDocs) (hp : ValidPower power) (before after : Bytes) (cost : Int)
    {calls : List Call} (hlegal : LegalRun docs (-1) calls) :
    ∃ trace, writeAndRun docs before after power cost calls = .ok trace ∧
      trace.map (fun entry => (entry.1, entry.2.doc)) = specRun docs (-1) calls ∧
      ∀ entry ∈ trace, ∀ d ∈ docs, entry.2.doc = d →
        entry.2.index = (docs.countP (· < d) : Nat) := by
  obtain ⟨blocks, hasc, hdocs, hwrite⟩ := writeBitset_layout hinc hlt hp before
  subst hdocs
  have hw : WellFormed power blocks := ⟨hp, hasc, hinc, hlt⟩
  have hat := at_of_append before (layout power blocks) after
  obtain ⟨disi, hopen, hinv⟩ := new_inv hp ⟨before ++ layout power blocks ++ after, 0⟩ hat cost
  obtain ⟨trace, hrun, hspec, htrace⟩ := run_of_step_correct (step_correct hw)
    IndexedDISIImpl.doc (fun _ _ h => h.doc_eq) hinv hlegal
  refine ⟨trace, ?_, hspec, fun entry hentry d hd hdoc => ?_⟩
  · have hlen : (before ++ layout power blocks).length - before.length =
        (layout power blocks).length := by
      rw [length_append, Nat.add_sub_cancel_left]
    rw [writeAndRun, hwrite, ok_bind]
    simp only [hlen, hopen]
    exact hrun
  · have hentry' := htrace entry hentry
    rw [hdoc] at hentry'
    exact hentry'.index_eq hw hd

/-- Mixed calls over a file with two sparse blocks. -/
theorem writeAndRun_refines_two_blocks :
    LegalRun [100, 200, 70000] (-1)
        [.nextDoc, .advanceExact 150, .advance 150, .advanceExact 70000, .nextDoc] ∧
      ∃ trace, writeAndRun [100, 200, 70000] [1, 2] [3] 9 3
          [.nextDoc, .advanceExact 150, .advance 150, .advanceExact 70000, .nextDoc] = .ok trace ∧
        trace.map (fun entry => (entry.1, entry.2.doc)) =
          specRun [100, 200, 70000] (-1)
            [.nextDoc, .advanceExact 150, .advance 150, .advanceExact 70000, .nextDoc] ∧
        ∀ entry ∈ trace, ∀ d ∈ ([100, 200, 70000] : List Nat), entry.2.doc = d →
          entry.2.index = ([100, 200, 70000].countP (· < d) : Nat) :=
  ⟨by decide, @writeAndRun_refines [100, 200, 70000] 9 (by decide) (by decide) (by decide)
    [1, 2] [3] 3 [.nextDoc, .advanceExact 150, .advance 150, .advanceExact 70000, .nextDoc]
    (by decide)⟩

/-- Outside the contract the answers differ: a sparse block does not return the document it is on
again, and the document of the sentinel block is found. -/
theorem writeAndRun_outside_contract :
    (writeAndRun [100, 200] [] [] 9 2 [.advanceExact 100, .advance 100]).toOption.map
        (List.map Prod.fst) = some [.found true, .doc 200] ∧
      leastFrom [100, 200] 100 = 100 ∧
      (writeAndRun [100, 200] [] [] 9 2 [.advanceExact noMoreDocs]).toOption.map
        (List.map Prod.fst) = some [.found true] ∧
      noMoreDocs ∉ [100, 200] := by
  decide +kernel

end RLucene.Codecs.Lucene90.IndexedDISI
