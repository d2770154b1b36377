import RLucene.Codecs.Lucene90.IndexedDISI.Writer

/-!
# The layout of an indexed document set

What the file is for, independent of how it is written and read: a list of blocks with increasing
numbers, each a nonempty increasing list of the low halves of its documents, followed by the block
of the sentinel and a jump table. `Block.encode` gives the bytes of a block in the encoding that its
cardinality selects, and `layout` those of the whole file.
-/

namespace RLucene.Codecs.Lucene90.IndexedDISI

open List Lib Store Util

/-! ## Bitmaps of documents -/

/-- The word with index `i` of the bitmap of the documents. -/
def wordOf (docs : List Nat) (i : Nat) : Word :=
  docs.foldl (fun word d => if d / 64 = i then word ||| 1#64 <<< (d % 64) else word) 0

/-- The bitmap of the documents of a block. -/
def bitmapOf (docs : List Nat) : List Word :=
  (List.range denseBlockLongs).map (wordOf docs)

@[simp] theorem bitmapOf_length (docs : List Nat) : (bitmapOf docs).length = denseBlockLongs := by
  simp [bitmapOf]

/-- The bits of a word are the documents. -/
theorem getLsbD_wordOf (docs : List Nat) (i : Nat) {p : Nat} (hp : p < 64) :
    (wordOf docs i).getLsbD p = decide (64 * i + p ∈ docs) := by
  rw [Bool.eq_iff_iff, ← mem_setBits, wordOf, mem_setBits_foldl fun d _ => Nat.mod_lt d (by omega),
    setBits_eq_nil_iff.mpr rfl, decide_eq_true_eq]
  constructor
  · rintro (h | ⟨d, hd, hword, hbit⟩)
    · exact absurd h not_mem_nil
    · rwa [show 64 * i + p = d by omega]
  · exact fun h => .inr ⟨_, h, by omega, by omega⟩

/-- A bitmap of the right length whose positions are the documents is their bitmap. -/
theorem eq_bitmapOf {ws : List Word} (hlen : ws.length = denseBlockLongs) :
    ws = bitmapOf (positions ws) := by
  apply ext_getElem
  · rw [hlen, bitmapOf_length]
  · intro i hi hi'
    apply BitVec.eq_of_getLsbD_eq
    intro p hp
    simp only [bitmapOf, getElem_map, getElem_range]
    rw [getLsbD_wordOf _ _ hp, ← FixedBitSet.bitAt_getElem hi hp, Bool.eq_iff_iff,
      decide_eq_true_eq, mem_positions]

/-- The bitmap of the documents of a block holds exactly these documents. -/
theorem positions_bitmapOf {docs : List Nat} (hinc : Increasing docs)
    (hlt : ∀ d ∈ docs, d < blockSize) : positions (bitmapOf docs) = docs := by
  refine Increasing.ext (positions_increasing _) hinc fun d => ?_
  rw [mem_positions]
  by_cases hd : d < blockSize
  · have hword : d / 64 < (bitmapOf docs).length := by
      rw [bitmapOf_length, denseBlockLongs]
      unfold blockSize at hd ⊢
      omega
    rw [FixedBitSet.bitAt_of_lt hword]
    simp only [bitmapOf, getElem_map, getElem_range]
    rw [getLsbD_wordOf _ _ (Nat.mod_lt d (by omega)), decide_eq_true_eq, Nat.div_add_mod]
  · constructor
    · intro hbit
      have := lt_of_mem_positions (mem_positions.mpr hbit)
      rw [bitmapOf_length] at this
      unfold denseBlockLongs blockSize at *
      omega
    · exact fun h => absurd (hlt d h) hd

/-! ## Blocks -/

/-- The documents as consecutive shorts. -/
def shorts (docs : List Nat) : Bytes :=
  docs.flatMap (fun d : Nat => intLE 2 d)

/-- The rank table: the number of documents below each multiple of `2 ^ power`. -/
def rankTable (power : Nat) (docs : List Nat) : Bytes :=
  (List.range (denseBlockLongs >>> (power - 6))).flatMap
    (fun k => rankEntry (docs.countP (· < k * 2 ^ power)))

/-- The powers that the writer and the reader accept; `-1` disables ranks. -/
def ValidPower (denseRankPower : Int) : Prop :=
  denseRankPower = -1 ∨ (7 ≤ denseRankPower ∧ denseRankPower ≤ 15)

/-- Whether a power is valid is decided by its value. -/
instance (denseRankPower : Int) : Decidable (ValidPower denseRankPower) :=
  inferInstanceAs (Decidable (_ ∨ _))

/-- The rank table of a dense block, empty where ranks are disabled. -/
def rankBytes (denseRankPower : Int) (docs : List Nat) : Bytes :=
  if denseRankPower = -1 then [] else rankTable denseRankPower.toNat docs

/-- A block with at least one document. -/
structure Block where
  id : Nat
  docs : List Nat
  id_lt : id < 32768
  nonempty : docs ≠ []
  increasing : Increasing docs
  lt : ∀ d ∈ docs, d < blockSize

namespace Block

/-- The number of documents of the block. -/
def card (b : Block) : Nat :=
  b.docs.length

/-- The first document number of the block's range. -/
def base (b : Block) : Nat :=
  blockSize * b.id

/-- The documents of the block as document numbers. -/
def globalDocs (b : Block) : List Nat :=
  b.docs.map (b.base + ·)

/-- What follows the header of a block, in the encoding that the cardinality selects. -/
def body (denseRankPower : Int) (b : Block) : Bytes :=
  if b.card ≤ maxArrayLength then shorts b.docs
  else if b.card = blockSize then []
  else rankBytes denseRankPower b.docs ++ bytesOfWords (bitmapOf b.docs)

/-- The number of the block and its cardinality less one. -/
def header (b : Block) : Bytes :=
  intLE 2 b.id ++ intLE 2 ((b.card : Int) - 1)

/-- The bytes of a block. -/
def encode (denseRankPower : Int) (b : Block) : Bytes :=
  b.header ++ b.body denseRankPower

theorem card_pos (b : Block) : 0 < b.card :=
  length_pos_iff.mpr b.nonempty

/-- A block has at most so many documents. -/
theorem card_le (b : Block) : b.card ≤ blockSize := by
  have hsub : b.docs ⊆ List.range blockSize := fun d hd => mem_range.mpr (b.lt d hd)
  have hnd : b.docs.Nodup := b.increasing.imp (fun h => Nat.ne_of_lt h)
  have hle := (subperm_of_subset hnd hsub).length_le
  rwa [length_range] at hle

@[simp] theorem header_length (b : Block) : b.header.length = 4 := by
  simp [header]

end Block

theorem shorts_length (docs : List Nat) : (shorts docs).length = 2 * docs.length := by
  rw [shorts, flatMap_length (k := 2) (fun _ _ => intLE_length 2 _)]

/-- A word and its signed value have the same bytes. -/
theorem intLE_toInt (word : Word) : intLE 8 word.toInt = leBytes 8 word.toNat := by
  have hsigned : word.toInt = asI 64 (word.toNat : Int) := BitVec.toInt_eq_toNat_bmod word
  rw [intLE, hsigned, asU_asI, asU_of_lt word.isLt]

theorem bytesOfWords_length (words : List Word) :
    (bytesOfWords words).length = 8 * words.length := by
  rw [bytesOfWords, flatMap_length (k := 8) (fun _ _ => leBytes_length 8 _)]

/-- The bytes of the rank table. -/
theorem rankTable_length {power : Nat} (hlo : 7 ≤ power) (hhi : power ≤ 15) (docs : List Nat) :
    (rankTable power docs).length = denseBlockLongs >>> (power - 7) := by
  have hlongs : denseBlockLongs = 2 ^ 10 := rfl
  rw [rankTable, flatMap_length (k := 2) (fun _ _ => rfl), length_range,
    Nat.shiftRight_eq_div_pow, Nat.shiftRight_eq_div_pow, hlongs,
    Nat.pow_div (by omega) (by omega), Nat.pow_div (by omega) (by omega), ← pow_succ']
  congr 1
  omega

/-- The block behind the real ones: its only document is the sentinel. -/
def sentinel : Block where
  id := 32767
  docs := [65535]
  id_lt := by decide
  nonempty := by decide
  increasing := by simp
  lt := by simp [blockSize]

/-! ## The file -/

/-- The number of documents of the blocks. -/
def totalCard (blocks : List Block) : Nat :=
  (blocks.map Block.card).sum

/-- The encodings of the blocks, one after the other. -/
def blockBytes (denseRankPower : Int) (blocks : List Block) : Bytes :=
  blocks.flatMap (Block.encode denseRankPower)

/-- The blocks with a number below `i`. -/
def blocksBelow (blocks : List Block) (i : Nat) : List Block :=
  blocks.filter (·.id < i)

/-- The jump entry of block number `i`: the documents and the bytes before the first block whose
number is not below it. -/
def jumpEntry (denseRankPower : Int) (blocks : List Block) (i : Nat) : Bytes :=
  intLE 4 (totalCard (blocksBelow blocks i)) ++
    intLE 4 (blockBytes denseRankPower (blocksBelow blocks i)).length

/-- The number of the block behind the last one, which the sentinel stands for. -/
def lastBlock (blocks : List Block) : Nat :=
  match blocks.getLast? with
  | some b => b.id + 1
  | none => 0

/-- The number of jump entries; a single real entry is not worth a table. -/
def entryCount (blocks : List Block) : Nat :=
  if lastBlock blocks + 1 = 2 then 0 else lastBlock blocks + 1

/-- The bytes of the jump table. -/
def jumpTable (denseRankPower : Int) (blocks : List Block) : Bytes :=
  (List.range (entryCount blocks)).flatMap (jumpEntry denseRankPower blocks)

/-- The whole file. -/
def layout (denseRankPower : Int) (blocks : List Block) : Bytes :=
  blockBytes denseRankPower (blocks ++ [sentinel]) ++ jumpTable denseRankPower blocks

/-- The numbers of the blocks increase. -/
abbrev Ascending (blocks : List Block) : Prop :=
  blocks.Pairwise (fun a b => a.id < b.id)

/-- The documents of the blocks. -/
def allDocs (blocks : List Block) : List Nat :=
  blocks.flatMap Block.globalDocs

end RLucene.Codecs.Lucene90.IndexedDISI
