import RLucene.Codecs.Lucene90.IndexedDISI.Reader
import RLucene.Codecs.Lucene90.IndexedDISI.Layout

/-!
# Reading inside one block

The three block methods on a block that stands in the file. A position inside the block is the
number `p` of low halves that have been passed, so that `p = 0` is the state just after the header
and `p = d + 1` the state after the document `d`. `InBlock` relates the fields of the iterator to
such a position by counting the documents below `p`: a sparse block has read that many shorts, a
dense one the words up to some boundary not beyond `p`. `advanceWithinBlock_spec` and
`advanceExactWithinBlock_spec` say how the two kinds of advance
move the position, for every method.
-/

namespace RLucene.Codecs.Lucene90.IndexedDISI

open Nat List Lib Store

/-! ## Where the parts of a block stand -/

/-- The method that the cardinality of a block selects. -/
def Block.method (b : Block) : Method :=
  if b.card ≤ maxArrayLength then .sparse else if b.card = blockSize then .all else .dense

/-- The length of the rank table before the bitmap of a dense block. -/
def rankLength (denseRankPower : Int) : Nat :=
  if denseRankPower = -1 then 0 else denseBlockLongs >>> (denseRankPower - 7).toNat

/-- Where the bitmap of a dense block begins. -/
def bitmapStart (denseRankPower : Int) (start : Nat) : Nat :=
  start + 4 + rankLength denseRankPower

variable {bytes : Bytes} {power : Int} {b : Block} {start first : Nat} {d w m : Nat} {index : Int}

theorem rankBytes_length (hp : ValidPower power) (docs : List Nat) :
    (rankBytes power docs).length = rankLength power := by
  unfold rankBytes rankLength
  rcases hp with rfl | ⟨hlo, hhi⟩
  · rfl
  · have hne : ¬ power = -1 := by omega
    rw [if_neg hne, if_neg hne, rankTable_length (by omega) (by omega)]
    congr 1
    omega

/-- What the method of a block says about its cardinality. -/
theorem Block.method_spec {method : Method} : b.method = method → match method with
    | .sparse => b.card ≤ maxArrayLength
    | .all => ¬b.card ≤ maxArrayLength ∧ b.card = blockSize
    | .dense => ¬b.card ≤ maxArrayLength ∧ b.card ≠ blockSize := by
  rintro rfl
  rw [Block.method]
  split_ifs with hs ha
  · exact hs
  · exact ⟨hs, ha⟩
  · exact ⟨hs, ha⟩

/-- A list of documents. -/
theorem Block.body_sparse (h : b.method = .sparse) : b.body power = shorts b.docs := by
  rw [body, if_pos (method_spec h)]

/-- Nothing. -/
theorem Block.body_all (h : b.method = .all) : b.body power = [] := by
  rw [body, if_neg (method_spec h).1, if_pos (method_spec h).2]

/-- A rank table and a bitmap. -/
theorem Block.body_dense (h : b.method = .dense) :
    b.body power = rankBytes power b.docs ++ bytesOfWords (bitmapOf b.docs) := by
  rw [body, if_neg (method_spec h).1, if_neg (method_spec h).2]

/-- A dense block has room for its cardinality in a rank entry. -/
theorem Block.card_lt_of_dense (h : b.method = .dense) : b.card < blockSize := by
  exact lt_of_le_of_ne b.card_le (method_spec h).2

/-- A full block holds every document of its range. -/
theorem Block.docs_eq_range (h : b.method = .all) : b.docs = range blockSize := by
  exact b.increasing.eq_range b.lt (method_spec h).2

/-- A full block has every document. -/
theorem Block.mem_of_all (h : b.method = .all) (hd : d < blockSize) : d ∈ b.docs := by
  rw [docs_eq_range h]
  exact mem_range.mpr hd

/-- The rank of a document in a full block. -/
theorem Block.card_eq_of_all (h : b.method = .all) (hd : d ≤ blockSize) :
    b.docs.countP (· < d) = d := by
  rw [docs_eq_range h]
  rcases lt_or_ge d blockSize with hlt | hge
  · have := (Increasing.range blockSize).countP_lt_getElem (i := d) (by simpa using hlt)
    simpa using this
  · rw [countP_lt_eq_length (fun a ha => by have := mem_range.mp ha; omega), length_range]
    omega

section

variable (h : At bytes start (b.encode power))

include h

/-- The header of a block. -/
theorem Block.header_at :
    At bytes start (intLE 2 b.id) ∧ At bytes (start + 2) (intLE 2 ((b.card : Int) - 1)) ∧
      At bytes (start + 4) (b.body power) := by
  rw [encode, header, at_append_iff, at_append_iff, length_append, intLE_length, intLE_length] at h
  exact ⟨h.1.1, h.1.2, h.2⟩

/-- A document of a list. -/
theorem Block.doc_at (hm : b.method = .sparse) {c : Nat}
    (hc : c < b.docs.length) : At bytes (start + 4 + 2 * c) (intLE 2 (b.docs[c] : Nat)) := by
  have hbody := (header_at h).2.2
  rw [body_sparse hm, shorts] at hbody
  exact hbody.flatMap (fun _ _ => intLE_length 2 _) hc

/-- The rank table of a bitmap. -/
theorem Block.rank_at (hm : b.method = .dense) :
    At bytes (start + 4) (rankBytes power b.docs) := by
  have hbody := (header_at h).2.2
  rw [body_dense hm, at_append_iff] at hbody
  exact hbody.1

end

/-- A word of a bitmap. -/
theorem Block.word_at (hp : ValidPower power) (h : At bytes start (b.encode power))
    (hm : b.method = .dense) {n : Nat} (hn : n < denseBlockLongs) :
    At bytes (bitmapStart power start + 8 * n) (leBytes 8 (wordOf b.docs n).toNat) := by
  have hbody := (header_at h).2.2
  rw [body_dense hm, at_append_iff, rankBytes_length hp, bytesOfWords] at hbody
  have hlen : n < (bitmapOf b.docs).length := by rwa [bitmapOf_length]
  have hword := hbody.2.flatMap (fun _ _ => leBytes_length 8 _) hlen
  simpa only [bitmapStart, bitmapOf, getElem_map, getElem_range] using hword

/-- The length of a block, method by method. -/
theorem Block.encode_length (hp : ValidPower power) (b : Block) :
    (b.encode power).length =
      match b.method with
      | .sparse => 4 + 2 * b.card
      | .all => 4
      | .dense => 4 + rankLength power + 8 * denseBlockLongs := by
  rw [encode, length_append, header_length]
  cases hm : b.method with
  | sparse => rw [body_sparse hm, shorts_length]; rfl
  | all => rw [body_all hm]; rfl
  | dense =>
    rw [body_dense hm, length_append, rankBytes_length hp, bytesOfWords_length, bitmapOf_length]
    simp only [add_assoc]

/-- A long that holds a word of the bitmap is read as that word. -/
theorem readLong_word {input : IndexInput} {word : Word}
    (h : At input.bytes input.pos (leBytes 8 word.toNat)) :
    input.readLong = .ok (asI 64 word.toInt, input.skip 8) :=
  IndexInput.readLong_at (by rwa [intLE_toInt])

theorem ofInt_asI (word : Word) : BitVec.ofInt 64 (asI 64 word.toInt) = word := by
  rw [asI, ← BitVec.toInt_ofInt, BitVec.ofInt_toInt, BitVec.ofInt_toInt]

/-! ## Positions inside a block -/

/-- What opening the file fixes: no later call changes it. -/
structure Config where
  bytes : Bytes
  jumpTable : Option RandomAccessInput
  jumpTableEntryCount : Int
  denseRankPower : Int
  denseRankWords : Int
  rankTableLength : Option Nat

/-- The part of an iterator that never changes. -/
def IndexedDISIImpl.config (disi : IndexedDISIImpl) : Config where
  bytes := disi.slice.bytes
  jumpTable := disi.jumpTable
  jumpTableEntryCount := disi.jumpTableEntryCount
  denseRankPower := disi.denseRankPower
  denseRankWords := disi.denseRankWords
  rankTableLength := disi.denseRankTable.map length

/-- The configuration of an iterator over the bytes with the given power. -/
structure Config.For (config : Config) (bytes : Bytes) (power : Int) : Prop where
  bytes_eq : config.bytes = bytes
  power_eq : config.denseRankPower = power
  words_eq : power ≠ -1 → config.denseRankWords = 2 ^ (power - 6).toNat
  table_eq : config.rankTableLength = if power = -1 then none else some (rankLength power)

/-- The fields that the header of a block sets and that the methods leave alone: the block stands at
`start` and `first` documents come before it. -/
structure Opened (power : Int) (b : Block) (start first : Nat) (disi : IndexedDISIImpl) : Prop where
  block_eq : disi.block = b.base
  next_eq : disi.nextBlockIndex = (first + b.card : Nat) - 1
  end_eq : disi.blockEnd = start + (b.encode power).length
  method_eq : disi.method = b.method
  gap_eq : b.method = .all → disi.gap = b.base - first
  bitmap_eq : b.method = .dense → disi.denseBitmapOffset = some (bitmapStart power start)
  rank_eq : b.method = .dense → power ≠ -1 → disi.denseRankTable = some (rankBytes power b.docs)
  origo_eq : b.method = .dense → disi.denseOrigoIndex = first

/-- The methods only move the fields that do not belong to the header. -/
theorem Opened.move {disi : IndexedDISIImpl} (h : Opened power b start first disi)
    (slice : IndexInput) (doc index : Int) (docExists : Bool) (nextExistDocInBlock : Int)
    (word : Word) (wordIndex numberOfOnes : Int) :
    Opened power b start first { disi with
      slice := slice
      doc := doc
      index := index
      docExists := docExists
      nextExistDocInBlock := nextExistDocInBlock
      word := word
      wordIndex := wordIndex
      numberOfOnes := numberOfOnes } :=
  ⟨h.block_eq, h.next_eq, h.end_eq, h.method_eq, h.gap_eq, h.bitmap_eq, h.rank_eq, h.origo_eq⟩

/-- A sparse block has read the documents below `p`. The document it has looked at last lies below
`p`, or it has been put back and is the next one. -/
structure SparseAt (b : Block) (start first p : Nat) (disi : IndexedDISIImpl) : Prop where
  pos_eq : disi.slice.pos = start + 4 + 2 * b.docs.countP (· < p)
  index_eq : disi.index = (first + b.docs.countP (· < p) : Nat) - 1
  exists_eq : 0 < p → disi.docExists = decide (p - 1 ∈ b.docs)
  look : disi.nextExistDocInBlock < p ∨
    disi.docExists = false ∧ ∀ d ∈ b.docs, p ≤ d → disi.nextExistDocInBlock ≤ d

/-- The first `n` words of a dense block have been read. -/
structure WordsRead (power : Int) (b : Block) (start first n : Nat) (disi : IndexedDISIImpl) :
    Prop where
  pos_eq : disi.slice.pos = bitmapStart power start + 8 * n
  ones_eq : disi.numberOfOnes = (first + b.docs.countP (· < 64 * n) : Nat)
  word_eq : 0 < n → disi.word = wordOf b.docs (n - 1)

/-- A dense block has read its words up to the one of the last document passed, or fewer. -/
structure DenseAt (power : Int) (b : Block) (start first p n : Nat) (disi : IndexedDISIImpl) : Prop
    extends WordsRead power b start first n disi where
  word_index_eq : disi.wordIndex = (n : Int) - 1
  le : 64 * n < p + 64

/-- The iterator is in the block and has passed the low halves below `p`. -/
structure InBlock (power : Int) (b : Block) (start first p : Nat) (disi : IndexedDISIImpl) : Prop
    extends Opened power b start first disi where
  sparse : b.method = .sparse → SparseAt b start first p disi
  dense : b.method = .dense → ∃ n, DenseAt power b start first p n disi
  index_of_mem : ∀ d ∈ b.docs, p = d + 1 → disi.index = (first + b.docs.countP (· < d) : Nat)

/-- In a sparse block the index follows from what has been read. -/
theorem SparseAt.inBlock {disi : IndexedDISIImpl} {p : Nat} (h : SparseAt b start first p disi)
    (hm : b.method = .sparse) (ho : Opened power b start first disi) :
    InBlock power b start first p disi := by
  refine ⟨ho, fun _ => h, fun hdense => (nomatch hm.symm.trans hdense), fun d hd hp => ?_⟩
  have hsucc := b.increasing.countP_lt_succ d
  rw [if_pos hd] at hsucc
  rw [h.index_eq, hp, hsucc]
  omega

/-- The iterator has moved to the document `d` of the block. -/
structure Found (power : Int) (b : Block) (start first d : Nat) (disi disi' : IndexedDISIImpl) :
    Prop extends InBlock power b start first (d + 1) disi' where
  doc_eq : disi'.doc = (b.base + d : Nat)
  config_eq : disi'.config = disi.config

/-- The iterator has read the block to its end. -/
structure Exhausted (power : Int) (b : Block) (start first : Nat) (disi disi' : IndexedDISIImpl) :
    Prop where
  pos_eq : disi'.slice.pos = start + (b.encode power).length
  next_eq : disi'.nextBlockIndex = (first + b.card : Nat) - 1
  config_eq : disi'.config = disi.config

/-- What an advance to the low half `t` returns: the iterator is on the least document from there
on, or it has read the block to its end. -/
def AdvancedTo (power : Int) (b : Block) (start first t : Nat) (disi : IndexedDISIImpl)
    (result : Bool × IndexedDISIImpl) : Prop :=
  match b.docs.find? (t ≤ ·) with
  | some d => result.1 = true ∧ Found power b start first d disi result.2
  | none => result.1 = false ∧ Exhausted power b start first disi result.2

/-! ## Sparse blocks -/

theorem lowHalf_eq {target : Nat} (hlt : target < 2 ^ 31) :
    lowHalf target = target % blockSize := by
  rw [lowHalf, asU_of_lt (by omega)]
  exact and_two_pow_sub_one_eq_mod target 16

/-- A document of the block as the methods put it together. -/
theorem Block.or_eq (b : Block) (hd : d < blockSize) : (b.base : Int).toNat ||| d = b.base + d := by
  exact (two_pow_add_eq_or_of_lt (i := 16) hd b.id).symm

section

variable {disi : IndexedDISIImpl} {docs : List Nat} {origin c n : Nat}

variable (hinc : Increasing docs) (hlt : ∀ d ∈ docs, d < blockSize)
  (hat : ∀ (i : Nat) (hi : i < docs.length), At bytes (origin + 2 * i) (intLE 2 (docs[i] : Nat)))

include hlt hat in
/-- The next document of a list is read. -/
theorem readShort_doc (hslice : disi.slice = ⟨bytes, origin + 2 * c⟩) (hlen : c < docs.length) :
    ∃ short, disi.slice.readShort = .ok (short, disi.slice.skip 2) ∧ asU 16 short = docs[c] := by
  have hdoc : At disi.slice.bytes disi.slice.pos (intLE 2 (docs[c] : Nat)) := by
    rw [hslice]
    exact hat c hlen
  exact ⟨_, IndexInput.readShort_at hdoc, by rw [asU_asI, asU_of_lt (hlt _ (getElem_mem hlen))]⟩

include hinc hlt hat

/-- Reading on in a sparse block stops at the least document from the target on. -/
theorem sparseAdvance_eq {base : Nat} (target : Nat) (hslice : disi.slice = ⟨bytes, origin + 2 * c⟩)
    (hindex : disi.index = index + c) (hblock : disi.block = base) (hc : c + n = docs.length)
    (hle : c ≤ docs.countP (· < target)) :
    sparseAdvance disi target n =
      match docs[docs.countP (· < target)]? with
      | some d => .ok (true, { disi with
          slice := ⟨bytes, origin + 2 * (docs.countP (· < target) + 1)⟩
          index := index + docs.countP (· < target) + 1
          doc := (((base : Int).toNat ||| d : Nat) : Int)
          docExists := true
          nextExistDocInBlock := d })
      | none => .ok (false, { disi with
          slice := ⟨bytes, origin + 2 * docs.countP (· < target)⟩
          index := index + docs.countP (· < target) }) := by
  induction n generalizing disi c with
  | zero =>
    have hcount : docs.countP (· < target) = c :=
      (countP_le_length.trans_eq hc.symm).antisymm hle
    rw [hcount, getElem?_eq_none (by omega), sparseAdvance, ← hslice, ← hindex]
  | succ n ih =>
    have hlen : c < docs.length := by omega
    obtain ⟨short, hread, hshort⟩ := readShort_doc hlt hat hslice hlen
    rw [sparseAdvance, hread]
    simp only [ok_bind, hshort, pure_eq_ok]
    have hiff := hinc.getElem_lt_iff (k := target) hlen
    by_cases hreach : target ≤ docs[c]
    · have hcount : docs.countP (· < target) = c := by omega
      rw [if_pos hreach, hcount, getElem?_eq_getElem hlen, hslice, hindex, hblock]
      rfl
    · rw [if_neg hreach]
      exact ih (c := c + 1) (by rw [hslice]; rfl) (by rw [hindex]; push_cast; ring) hblock
        (by omega) (by omega)

/-- Looking for a target in a sparse block stops behind it, or before the next document. -/
theorem sparseAdvanceExact_eq (target : Nat) (hslice : disi.slice = ⟨bytes, origin + 2 * c⟩)
    (hindex : disi.index = index + c) (hc : c + n = docs.length)
    (hle : c ≤ docs.countP (· < target)) :
    sparseAdvanceExact disi target n =
      match docs[docs.countP (· < target)]? with
      | some d =>
        .ok (decide (d = target), { disi with
          slice := ⟨bytes, origin + 2 * docs.countP (· < target + 1)⟩
          index := index + docs.countP (· < target + 1)
          docExists := decide (d = target)
          nextExistDocInBlock := d })
      | none => .ok (false, { disi with
          slice := ⟨bytes, origin + 2 * docs.countP (· < target + 1)⟩
          index := index + docs.countP (· < target + 1)
          docExists := false }) := by
  induction n generalizing disi c with
  | zero =>
    have hcount : docs.countP (· < target) = c :=
      (countP_le_length.trans_eq hc.symm).antisymm hle
    have hnext : docs.countP (· < target + 1) = c :=
      (countP_le_length.trans_eq hc.symm).antisymm (hle.trans (countP_lt_mono (by omega)))
    rw [hcount, hnext, getElem?_eq_none (by omega), sparseAdvanceExact, ← hslice, ← hindex]
  | succ n ih =>
    have hlen : c < docs.length := by omega
    obtain ⟨short, hread, hshort⟩ := readShort_doc hlt hat hslice hlen
    rw [sparseAdvanceExact, hread]
    simp only [ok_bind, hshort, pure_eq_ok]
    have hiff := hinc.getElem_lt_iff (k := target) hlen
    have hiff' := hinc.getElem_lt_iff (k := target + 1) hlen
    have hsucc := hinc.countP_lt_succ target
    by_cases hreach : target ≤ docs[c]
    · have hcount : docs.countP (· < target) = c := by omega
      rw [if_pos hreach, hcount, getElem?_eq_getElem hlen]
      by_cases hfound : docs[c] = target
      · have hmem : target ∈ docs := hfound ▸ getElem_mem hlen
        rw [if_pos hmem, hcount] at hsucc
        rw [if_neg (not_not_intro hfound), hsucc, hslice, hindex]
        simp only [hfound, decide_true]
        congr 3
        push_cast
        ring
      · have hnext : docs.countP (· < target + 1) = c := by split at hsucc <;> omega
        -- the document read is beyond the target: the slice goes back to it
        have hback : (disi.slice.skip 2).pos - 2 = origin + 2 * c := by rw [hslice]; simp
        have hseek : (disi.slice.skip 2).seek (origin + 2 * c) = .ok ⟨bytes, origin + 2 * c⟩ := by
          have hle := (hat c hlen).le_length (ne_nil_of_length_pos (by simp))
          rw [hslice]
          exact IndexInput.seek_ok (le_trans (Nat.le_add_right _ _) hle)
        rw [if_pos hfound, hback, hseek, hnext]
        simp only [ok_bind, hfound, decide_false, hindex]
        congr 3
        ring
    · rw [if_neg hreach]
      exact ih (c := c + 1) (by rw [hslice]; rfl) (by rw [hindex]; push_cast; ring) (by omega)
        (by omega)

end

variable {t : Nat}

/-- The target of an advance, given by its low half, lies in the range of machine integers. -/
theorem Block.target_lt (b : Block) (ht : t < blockSize) : b.base + t < 2 ^ 31 := by
  have := b.id_lt
  unfold base
  unfold blockSize at ht ⊢
  omega

theorem Block.lowHalf_target (b : Block) (ht : t < blockSize) : lowHalf (b.base + t : Nat) = t := by
  rw [lowHalf_eq (b.target_lt ht), base, mul_add_mod, mod_eq_of_lt ht]

section

variable {disi : IndexedDISIImpl} {p : Nat} (hat : At bytes start (b.encode power))
  (hm : b.method = .sparse) (h : InBlock power b start first p disi)
  (hbytes : disi.slice.bytes = bytes)

include hm h

/-- A position between two documents of a sparse block may move up to the next document. -/
theorem InBlock.sparse_move (hle : p ≤ t + 1) (hnone : ∀ d ∈ b.docs, p ≤ d → t < d)
    (hex : disi.docExists = false)
    (hnot : t ∉ b.docs) (hlook : ∀ d ∈ b.docs, p ≤ d → disi.nextExistDocInBlock ≤ d) :
    InBlock power b start first (t + 1) disi := by
  have hs := h.sparse hm
  have hcount : b.docs.countP (· < t + 1) = b.docs.countP (· < p) := by
    apply countP_congr
    intro a ha
    have := hnone a ha
    simp only [decide_eq_true_eq]
    omega
  refine SparseAt.inBlock ⟨?_, ?_, ?_, .inr ⟨hex, fun d hd htd => ?_⟩⟩ hm h.toOpened
  · rw [hs.pos_eq, hcount]
  · rw [hs.index_eq, hcount]
  · simpa [hnot] using hex
  · exact hlook d hd (by omega)

include hbytes

/-- Where a sparse block reads on, and how much of it is left. -/
theorem InBlock.sparse_rest :
    disi.slice = ⟨bytes, start + 4 + 2 * b.docs.countP (· < p)⟩ ∧
      disi.index = (first - 1 : Int) + b.docs.countP (· < p) ∧
      b.docs.countP (· < p) + (disi.nextBlockIndex - disi.index).toNat = b.docs.length := by
  have hs := h.sparse hm
  have hle := countP_le_length (p := fun a => decide (a < p)) (l := b.docs)
  have hcard : b.card = b.docs.length := rfl
  refine ⟨by rw [← hs.pos_eq, ← hbytes], by rw [hs.index_eq]; push_cast; ring, ?_⟩
  rw [hs.index_eq, h.next_eq, hcard]
  omega

include hat

/-- Going on in a list. -/
theorem sparse_advance (hp : ValidPower power) (ht : t < blockSize)
    (hle : b.docs.countP (· < p) ≤ b.docs.countP (· < t)) :
    ∃ result, sparseAdvanceWithinBlock disi (b.base + t : Nat) = .ok result ∧
      AdvancedTo power b start first t disi result := by
  obtain ⟨hslice, hindex, hrest⟩ := h.sparse_rest hm hbytes
  rw [sparseAdvanceWithinBlock, b.lowHalf_target ht, sparseAdvance_eq b.increasing b.lt
    (fun i hi => Block.doc_at hat hm hi) t hslice hindex h.block_eq hrest hle]
  simp only [AdvancedTo, b.increasing.find_eq]
  cases hd : b.docs[b.docs.countP (· < t)]? with
  | some d =>
    have hcount : b.docs.countP (· < d) = b.docs.countP (· < t) := by
      obtain ⟨hi, rfl⟩ := List.getElem_of_getElem? hd
      exact b.increasing.countP_lt_getElem hi
    have hmem : d ∈ b.docs := mem_of_getElem? hd
    have hsucc := b.increasing.countP_lt_succ d
    rw [if_pos hmem, hcount] at hsucc
    refine ⟨_, rfl, rfl, SparseAt.inBlock ⟨?_, ?_, ?_, ?_⟩ hm (h.toOpened.move ..), ?_, ?_⟩
    · rw [hsucc]
    · simp only [hsucc]
      push_cast
      ring
    · simp [hmem]
    · left
      simp
    · simp only [b.or_eq (b.lt d hmem)]
    · simp only [IndexedDISIImpl.config, hbytes]
  | none =>
    have hcount : b.docs.countP (· < t) = b.card := by
      have hge := List.getElem?_eq_none_iff.mp hd
      have := countP_le_length (p := fun a => decide (a < t)) (l := b.docs)
      have hcard : b.card = b.docs.length := rfl
      omega
    refine ⟨_, rfl, rfl, ?_, h.next_eq, ?_⟩
    · rw [b.encode_length hp, hm]
      simp only [hcount]
      ring
    · simp only [IndexedDISIImpl.config, hbytes]

/-- Looking up a document in a list. -/
theorem sparse_exact (ht : t < blockSize) (hle : p ≤ t + 1)
    (hdoc : disi.doc = (b.base + t : Nat) ↔ p = t + 1) :
    ∃ disi', sparseAdvanceExactWithinBlock disi (b.base + t : Nat) =
        .ok (decide (t ∈ b.docs), disi') ∧
      InBlock power b start first (t + 1) disi' ∧ disi'.config = disi.config := by
  have hs := h.sparse hm
  rw [sparseAdvanceExactWithinBlock, b.lowHalf_target ht]
  by_cases hlook : (t : Int) < disi.nextExistDocInBlock
  · -- the document that has been put back lies beyond the target
    rw [if_pos hlook]
    rcases hs.look with hlow | ⟨hex, hback⟩
    · omega
    · have hnone : ∀ d ∈ b.docs, p ≤ d → t < d := fun d hd hpd => by
        have := hback d hd hpd
        omega
      have hnot : t ∉ b.docs := by
        intro hmem
        rcases lt_or_ge t p with hlt | hge
        · have hexists := hs.exists_eq (by omega)
          rw [hex, show p - 1 = t by omega] at hexists
          simp [hmem] at hexists
        · exact lt_irrefl t (hnone t hmem hge)
      refine ⟨disi, by simp [hnot], h.sparse_move hm hle hnone hex hnot hback, rfl⟩
  · rw [if_neg hlook]
    by_cases hsame : disi.doc = (b.base + t : Nat)
    · obtain rfl := hdoc.mp hsame
      rw [if_pos hsame]
      exact ⟨disi, by rw [hs.exists_eq (by omega), Nat.add_sub_cancel], h, rfl⟩
    · have hpt : p ≤ t := by
        omega
      obtain ⟨hslice, hindex, hrest⟩ := h.sparse_rest hm hbytes
      have hread := sparseAdvanceExact_eq b.increasing b.lt
        (fun i hi => Block.doc_at hat hm hi) t hslice hindex hrest (countP_lt_mono hpt)
      rw [if_neg hsame, hread, ← b.increasing.find_eq]
      cases hfind : b.docs.find? (t ≤ ·) with
      | none =>
        have hnot : t ∉ b.docs := fun hmem => by simpa using find?_eq_none.mp hfind t hmem
        rw [decide_eq_false hnot]
        refine ⟨_, rfl, SparseAt.inBlock ⟨rfl, ?_, ?_, ?_⟩ hm (h.toOpened.move ..),
          by simp only [IndexedDISIImpl.config, hbytes]⟩
        · push_cast
          ring
        · simp [hnot]
        · left
          push_cast
          omega
      | some d =>
        have hge : t ≤ d := by simpa using find?_some hfind
        have hleast (e : Nat) (he : e ∈ b.docs) (hte : t ≤ e) : d ≤ e :=
          b.increasing.le_of_find_eq_some hfind he hte
        have hiff : decide (d = t) = decide (t ∈ b.docs) := by
          rw [decide_eq_decide]
          constructor
          · rintro rfl
            exact mem_of_find?_eq_some hfind
          · intro hmem
            have := hleast t hmem le_rfl
            omega
        rw [← hiff]
        refine ⟨_, rfl, SparseAt.inBlock ⟨rfl, ?_, ?_, ?_⟩ hm (h.toOpened.move ..),
          by simp only [IndexedDISIImpl.config, hbytes]⟩
        · push_cast
          ring
        · simp [hiff]
        · rcases eq_or_lt_of_le hge with rfl | hlt
          · left
            simp
          · right
            exact ⟨decide_eq_false (by omega), fun e he hte =>
              Int.ofNat_le.mpr (hleast e he (by omega))⟩

end

/-! ## Dense blocks -/

section

variable {disi : IndexedDISIImpl} {p n : Nat}

/-- The documents of a block below a position inside a word. -/
theorem Block.countP_word (b : Block) {j : Nat} (hn : n < denseBlockLongs) (hj : j ≤ 64) :
    b.docs.countP (· < 64 * n + j) =
      b.docs.countP (· < 64 * n) + (setBits (wordOf b.docs n)).countP (· < j) := by
  have hlen : n < (bitmapOf b.docs).length := by rwa [bitmapOf_length]
  have hcount := countP_positions hlen hj
  rw [positions_take_length (le_of_lt hlen), positions_bitmapOf b.increasing b.lt] at hcount
  simpa only [bitmapOf, getElem_map, getElem_range] using hcount

/-- The rank of the next word. -/
theorem Block.countP_next_word (b : Block) (hn : n < denseBlockLongs) :
    b.docs.countP (· < 64 * (n + 1)) =
      b.docs.countP (· < 64 * n) + countOnes (wordOf b.docs n) := by
  rw [mul_succ, b.countP_word hn le_rfl, countP_lt_eq_length (fun _ => lt_of_mem_setBits),
    setBits_length]

theorem mem_setBits_wordOf (docs : List Nat) {i : Nat} (hi : i < 64) :
    i ∈ setBits (wordOf docs n) ↔ 64 * n + i ∈ docs := by
  rw [mem_setBits, getLsbD_wordOf _ _ hi, decide_eq_true_eq]

/-- A rank entry is read back from its two bytes. -/
theorem rankEntry_decode {count : Nat} (h : count < blockSize) :
    (UInt8.ofNat (count >>> 8)).toNat <<< 8 ||| (UInt8.ofNat (count &&& 0xFF)).toNat = count := by
  have hlow : count &&& 0xFF = count % 2 ^ 8 := and_two_pow_sub_one_eq_mod count 8
  have hhigh : count >>> 8 = count / 2 ^ 8 := shiftRight_eq_div_pow count 8
  unfold blockSize at h
  rw [hlow, hhigh, UInt8.toNat_ofNat', UInt8.toNat_ofNat', mod_eq_of_lt (by omega),
    mod_eq_of_lt (by omega), shiftLeft_eq, mul_comm,
    ← two_pow_add_eq_or_of_lt (mod_lt _ (by norm_num)), div_add_mod]

/-- An entry of the rank table. -/
theorem rankTable_at {pw r : Nat} (docs : List Nat) (hr : r < denseBlockLongs >>> (pw - 6)) :
    At (rankTable pw docs) (2 * r) (rankEntry (docs.countP (· < r * 2 ^ pw))) := by
  have hself : At (rankTable pw docs) 0 (rankTable pw docs) := prefix_rfl
  have hentry := At.flatMap (k := 2) hself (fun _ _ => rfl) (i := r) (by simpa using hr)
  simpa using hentry

/-- The rank entry of a target, as the word it is aligned to. -/
theorem rank_aligned (pw : Nat) (hlo : 7 ≤ pw) (hhi : pw ≤ 15) (ht : t < blockSize) :
    t >>> pw < denseBlockLongs >>> (pw - 6) ∧
      ((t >>> pw) <<< pw) >>> 6 * 64 = (t >>> pw) * 2 ^ pw ∧
      ((t >>> pw) <<< pw) >>> 6 ≤ t / 64 := by
  obtain ⟨k, rfl⟩ : ∃ k, pw = k + 6 := ⟨pw - 6, by omega⟩
  have hpow : 2 ^ (k + 6) = 2 ^ k * 64 := by rw [pow_add]; norm_num
  have hfactor : (t >>> (k + 6)) <<< (k + 6) = t / (2 ^ (k + 6)) * 2 ^ k * 64 := by
    rw [shiftLeft_eq, shiftRight_eq_div_pow, hpow, mul_assoc]
  have hsix (x : Nat) : (x * 64) >>> 6 = x := by
    omega
  rw [hfactor, hsix, shiftRight_eq_div_pow, Nat.add_sub_cancel, shiftRight_eq_div_pow]
  refine ⟨?_, by rw [hpow, mul_assoc], ?_⟩
  · have hlongs : denseBlockLongs = 2 ^ 10 := rfl
    have hsize : blockSize = 2 ^ 16 := rfl
    rw [hlongs, Nat.pow_div (by omega) (by omega), Nat.div_lt_iff_lt_mul (Nat.two_pow_pos _),
      ← pow_add, show 10 - k + (k + 6) = 16 by omega, ← hsize]
    exact ht
  · rw [Nat.le_div_iff_mul_le (by norm_num), mul_assoc, ← hpow]
    exact div_mul_le_self t _

/-- The state of a dense block after reading the word with index `w`. -/
def atWord (power : Int) (b : Block) (bytes : Bytes) (start first w : Nat)
    (disi : IndexedDISIImpl) : IndexedDISIImpl :=
  { disi with
    slice := ⟨bytes, bitmapStart power start + 8 * (w + 1)⟩
    word := wordOf b.docs w
    wordIndex := w
    numberOfOnes := (first + b.docs.countP (· < 64 * (w + 1)) : Nat) }

@[simp] theorem atWord_word (disi : IndexedDISIImpl) (w : Nat) :
    (atWord power b bytes start first w disi).word = wordOf b.docs w := rfl

@[simp] theorem atWord_wordIndex (disi : IndexedDISIImpl) (w : Nat) :
    (atWord power b bytes start first w disi).wordIndex = w := rfl

/-- The words up to one have been read. -/
theorem atWord_read (bytes : Bytes) (disi : IndexedDISIImpl) (w : Nat) :
    WordsRead power b start first (w + 1) (atWord power b bytes start first w disi) :=
  ⟨rfl, rfl, fun _ => rfl⟩

theorem word_lt (ht : t < blockSize) : t / 64 < denseBlockLongs := by
  unfold denseBlockLongs blockSize at *
  omega

/-- The index that a dense method computes from the ones left in the word. -/
theorem ones_left (b : Block) (first : Nat) (ht : t < blockSize) :
    ((first + b.docs.countP (· < 64 * (t / 64 + 1)) : Nat) : Int) -
        countOnes (wordOf b.docs (t / 64) >>> (t % 64)) =
      (first + b.docs.countP (· < t) : Nat) := by
  have hw := word_lt ht
  have hword := b.countP_word hw (le_of_lt (mod_lt t (by norm_num : 0 < 64)))
  have hsplit := countOnes_eq_countP_add (wordOf b.docs (t / 64)) (t % 64)
  rw [div_add_mod] at hword
  rw [b.countP_next_word hw, hword, ← hsplit]
  push_cast
  ring

theorem and_sixty_three (t : Nat) : t &&& 63 = t % 64 :=
  and_two_pow_sub_one_eq_mod t 6

/-- Being behind the word of a position is a position of the block. -/
theorem InBlock.atWord (hm : b.method = .dense) (h : InBlock power b start first p disi)
    (t : Nat) (doc : Int) :
    InBlock power b start first (t + 1)
      { IndexedDISI.atWord power b bytes start first (t / 64) disi with
        doc := doc, index := (first + b.docs.countP (· < t) : Nat) } := by
  refine ⟨h.toOpened.move .., fun hsparse => (nomatch hm.symm.trans hsparse),
    fun _ => ⟨t / 64 + 1, ⟨rfl, rfl, fun _ => rfl⟩, ?_, ?_⟩, fun d _ hd => ?_⟩
  · simp [IndexedDISI.atWord]
  · omega
  · obtain rfl : t = d := by omega
    rfl

/-- The least document from a position on lies in the position's word, or in a later one. -/
theorem Block.find_word (b : Block) (t : Nat) :
    b.docs.find? (t ≤ ·) =
      if wordOf b.docs (t / 64) >>> (t % 64) = 0 then b.docs.find? (64 * (t / 64 + 1) ≤ ·)
      else some (t + trailingZeros (wordOf b.docs (t / 64) >>> (t % 64))) := by
  have hdiv := div_add_mod t 64
  -- a document of the same word, seen in the shifted word
  have hsame (e : Nat) (he : e ∈ b.docs) (hte : t ≤ e) (hword : e < 64 * (t / 64 + 1)) :
      e - t ∈ setBits (wordOf b.docs (t / 64) >>> (t % 64)) := by
    rw [mem_setBits_ushiftRight, mem_setBits_wordOf _ (by omega)]
    rwa [show 64 * (t / 64) + (t % 64 + (e - t)) = e by omega]
  split
  · rename_i hzero
    rw [b.increasing.find_eq, b.increasing.find_eq]
    congr 1
    apply countP_congr
    intro e he
    simp only [decide_eq_true_eq]
    constructor
    · omega
    · intro hlt
      by_contra hge
      have := hsame e he (by omega) hlt
      rw [hzero, setBits_eq_nil_iff.mpr rfl] at this
      exact not_mem_nil this
  · rename_i hne
    have hmem := trailingZeros_mem hne
    rw [mem_setBits_ushiftRight] at hmem
    have hlt := lt_of_mem_setBits hmem
    rw [mem_setBits_wordOf _ hlt, ← add_assoc, hdiv] at hmem
    refine b.increasing.find_eq_some_of hmem (by omega) fun e he hte => ?_
    by_cases hword : e < 64 * (t / 64 + 1)
    · have := trailingZeros_le (hsame e he hte hword)
      omega
    · omega

theorem words_left (hw : w < denseBlockLongs) :
    w + 1 + ((1023 : Int) - (w : Nat)).toNat = denseBlockLongs := by
  have hlongs : denseBlockLongs = 1024 := rfl
  omega

/-- The next word is there. -/
theorem WordsRead.readLong (h : WordsRead power b start first n disi) (hp : ValidPower power)
    (hat : At bytes start (b.encode power)) (hm : b.method = .dense)
    (hbytes : disi.slice.bytes = bytes)
    (hn : n < denseBlockLongs) :
    disi.slice.readLong = .ok (asI 64 (wordOf b.docs n).toInt, disi.slice.skip 8) := by
  apply readLong_word
  rw [hbytes, h.pos_eq]
  exact Block.word_at hp hat hm hn

/-! The block stands in the file and has a bitmap. -/

variable (hp : ValidPower power) (hat : At bytes start (b.encode power)) (hm : b.method = .dense)

include hp hat hm

/-- Reading words keeps the count of the documents below the word boundary. -/
theorem readWords_spec (h : WordsRead power b start first n disi)
    (hbytes : disi.slice.bytes = bytes) (hn : n + m ≤ denseBlockLongs) :
    ∃ slice word ones, readWords disi m =
        .ok { disi with slice := slice, word := word, numberOfOnes := ones } ∧
      slice.bytes = bytes ∧
      WordsRead power b start first (n + m)
        { disi with slice := slice, word := word, numberOfOnes := ones } := by
  induction m generalizing disi n with
  | zero => exact ⟨_, _, _, rfl, hbytes, h⟩
  | succ m ih =>
    rw [readWords, h.readLong hp hat hm hbytes (by omega)]
    simp only [ok_bind, ofInt_asI]
    have hnext : WordsRead power b start first (n + 1) { disi with
        slice := disi.slice.skip 8
        word := wordOf b.docs n
        numberOfOnes := disi.numberOfOnes + countOnes (wordOf b.docs n) } := by
      refine ⟨?_, ?_, fun _ => rfl⟩
      · rw [IndexInput.skip_pos, h.pos_eq]
        ring
      · simp only [h.ones_eq, b.countP_next_word (show n < denseBlockLongs by omega)]
        push_cast
        ring
    obtain ⟨slice, word, ones, hread, hslice, hwords⟩ := ih hnext hbytes (by omega)
    rw [show n + 1 + m = n + (m + 1) by omega] at hwords
    exact ⟨slice, word, ones, hread, hslice, hwords⟩

/-- Skipping by rank reads the word of the rank entry and restores the count before it. -/
theorem rankSkip_spec (hne : power ≠ -1) (ho : Opened power b start first disi)
    (hpower : disi.denseRankPower = power) (hbytes : disi.slice.bytes = bytes)
    (ht : t < blockSize) : ∃ slice word ones wordIndex, wordIndex ≤ t / 64 ∧ rankSkip disi t =
        .ok { disi with
          slice := slice, wordIndex := (wordIndex : Nat), word := word, numberOfOnes := ones } ∧
      slice.bytes = bytes ∧
      WordsRead power b start first (wordIndex + 1) { disi with
        slice := slice, wordIndex := (wordIndex : Nat), word := word, numberOfOnes := ones } := by
  have hrange : 7 ≤ power ∧ power ≤ 15 := hp.resolve_left hne
  obtain ⟨hentry, haligned, hle⟩ :=
    rank_aligned power.toNat (by omega) (by omega) ht
  set r := t >>> power.toNat with hr
  set w := (r <<< power.toNat) >>> 6 with hw
  have hcount : b.docs.countP (· < r * 2 ^ power.toNat) < blockSize :=
    lt_of_le_of_lt countP_le_length (b.card_lt_of_dense hm)
  have hwlt : w < denseBlockLongs := by
    unfold denseBlockLongs blockSize at *
    omega
  have htable : disi.denseRankTable = some (rankTable power.toNat b.docs) := by
    rw [ho.rank_eq hm hne, rankBytes, if_neg hne]
  have hbyte := rankTable_at b.docs hentry
  have hhigh := hbyte.getElem_cons
  have hlow : (rankTable power.toNat b.docs)[2 * r + 1]? = some _ :=
    (at_append_iff (a := [_]).mp hbyte).2.getElem_cons
  have hword := Block.word_at hp hat hm hwlt
  have hseek : disi.slice.seek (bitmapStart power start + w * 8) =
      .ok ⟨bytes, bitmapStart power start + 8 * w⟩ := by
    have hlen := hword.le_length (ne_nil_of_length_pos (by simp))
    rw [IndexInput.seek_ok (by rw [hbytes]; omega), hbytes, mul_comm]
  have hlong : (IndexInput.mk bytes (bitmapStart power start + 8 * w)).readLong = _ :=
    readLong_word hword
  have hones : (b.docs.countP (· < r * 2 ^ power.toNat) + countOnes (wordOf b.docs w) : Nat) =
      b.docs.countP (· < 64 * (w + 1)) := by
    rw [b.countP_next_word hwlt, ← haligned, mul_comm w 64]
  have hdouble : r <<< 1 = 2 * r := by rw [shiftLeft_eq, pow_one, mul_comm]
  refine ⟨⟨bytes, bitmapStart power start + 8 * (w + 1)⟩, wordOf b.docs w,
    (first + b.docs.countP (· < 64 * (w + 1)) : Nat), w, hle, ?_, rfl, ⟨rfl, rfl, fun _ => rfl⟩⟩
  simp only [rankSkip, hpower, ← hr, htable, hdouble, hhigh, hlow, ho.bitmap_eq hm, ← hw, hseek,
    ok_bind, hlong, ofInt_asI, ho.origo_eq hm, rankEntry_decode hcount, hones, pure_eq_ok]
  rfl

/-- Reading on from any word boundary before the target's word. -/
theorem readWords_to (h : WordsRead power b start first n disi) (hbytes : disi.slice.bytes = bytes)
    (hindex : disi.wordIndex = (n : Int) - 1) (hn : n ≤ w + 1) (hw : w < denseBlockLongs) :
    (do
      let disi ← readWords disi ((w : Int) - disi.wordIndex).toNat
      return { disi with wordIndex := (w : Nat) }) =
      .ok (atWord power b bytes start first w disi) := by
  have hm' : ((w : Int) - disi.wordIndex).toNat = w + 1 - n := by omega
  obtain ⟨slice, word, ones, hread, hslice, hwords⟩ :=
    readWords_spec hp hat hm h hbytes (m := w + 1 - n) (by omega)
  rw [show n + (w + 1 - n) = w + 1 by omega] at hwords
  obtain ⟨hpos, hones, hword⟩ := hwords
  rw [hm', hread, atWord, ← hones, show wordOf b.docs w = word from (hword (by omega)).symm, ← hpos,
    ← hslice]
  rfl

/-- Reading on to the next word that holds a document, or to the end of the block. -/
theorem nextNonzeroWord_spec (hbytes : disi.slice.bytes = bytes)
    (h : WordsRead power b start first n disi) (hindex : disi.wordIndex = (n : Int) - 1)
    (hblock : disi.block = b.base) (hn : n + m = denseBlockLongs) :
    match b.docs.find? (64 * n ≤ ·) with
    | some d => nextNonzeroWord disi m =
        .ok (true, { atWord power b bytes start first (d / 64) disi with
          doc := (b.base + d : Nat), index := (first + b.docs.countP (· < d) : Nat) })
    | none => ∃ word wordIndex, nextNonzeroWord disi m = .ok (false, { disi with
        slice := ⟨bytes, bitmapStart power start + 8 * denseBlockLongs⟩
        word := word
        wordIndex := wordIndex }) := by
  induction m generalizing disi n with
  | zero =>
    have hnone : b.docs.find? (64 * n ≤ ·) = none := by
      rw [find?_eq_none]
      intro d hd
      have hlt := b.lt d hd
      unfold denseBlockLongs blockSize at *
      simp only [decide_eq_true_eq]
      omega
    rw [hnone]
    refine ⟨disi.word, disi.wordIndex + 1, ?_⟩
    rw [nextNonzeroWord, ← show n = denseBlockLongs from hn, ← h.pos_eq, ← hbytes]
  | succ m ih =>
    have hlongs : n < denseBlockLongs := by omega
    have hnext : disi.wordIndex + 1 = (n : Int) := by omega
    have hskip : disi.slice.skip 8 = ⟨bytes, bitmapStart power start + 8 * (n + 1)⟩ := by
      rw [IndexInput.skip, h.pos_eq, hbytes, mul_succ, add_assoc]
    rw [b.find_word, Nat.mul_div_cancel_left _ (by norm_num), mul_mod_right,
      BitVec.ushiftRight_zero,
      nextNonzeroWord, h.readLong hp hat hm hbytes hlongs]
    simp only [ok_bind, ofInt_asI, hnext, hskip, pure_eq_ok]
    by_cases hzero : wordOf b.docs n = 0
    · have hstay : b.docs.countP (· < 64 * (n + 1)) = b.docs.countP (· < 64 * n) := by
        rw [b.countP_next_word hlongs, hzero]
        rfl
      rw [if_pos hzero, if_neg (not_not_intro hzero)]
      refine ih rfl ⟨rfl, ?_, fun _ => rfl⟩ (by push_cast; ring) hblock (by omega)
      rw [hstay]
      exact h.ones_eq
    · obtain ⟨d, hd⟩ : ∃ d, 64 * n + trailingZeros (wordOf b.docs n) = d := ⟨_, rfl⟩
      have htz := trailingZeros_lt hzero
      have hdiv : d / 64 = n := by omega
      have hcount : b.docs.countP (· < d) = b.docs.countP (· < 64 * n) := by
        rw [← hd, b.countP_word hlongs (le_of_lt htz),
          countP_lt_eq_zero (fun a ha => trailingZeros_le ha), add_zero]
      have hor : (n <<< 6) ||| trailingZeros (wordOf b.docs n) = d := by
        rw [← hd, shiftLeft_eq, mul_comm]
        exact (two_pow_add_eq_or_of_lt (i := 6) htz n).symm
      have hdlt : d < blockSize := by
        unfold denseBlockLongs blockSize at *
        omega
      have hdoc : disi.block.toNat ||| d = b.base + d := by rw [hblock, b.or_eq hdlt]
      rw [if_neg hzero, if_pos hzero, hd]
      dsimp only
      rw [hdiv, Int.toNat_natCast n, hor, hdoc, h.ones_eq, hcount, atWord,
        b.countP_next_word hlongs]
      push_cast
      rw [add_assoc]

end

/-! ## All methods -/

section

variable {disi : IndexedDISIImpl} {p : Nat}

/-- A position of a full block. -/
theorem InBlock.all (hm : b.method = .all) (h : InBlock power b start first p disi)
    (ht : t < blockSize) (doc : Int) :
    InBlock power b start first (t + 1)
      { disi with doc := doc, index := (b.base + t : Nat) - disi.gap } := by
  refine ⟨h.toOpened.move .., fun hsparse => (nomatch hm.symm.trans hsparse),
    fun hdense => (nomatch hm.symm.trans hdense), fun d _ hd => ?_⟩
  obtain rfl : t = d := by omega
  simp only [h.gap_eq hm, b.card_eq_of_all hm (le_of_lt ht)]
  push_cast
  ring

/-- A position may move to the target if the target itself has not been passed as a document. -/
theorem Block.passed_le (b : Block) (hle : p ≤ t + 1) (hnew : t ∈ b.docs → p ≤ t) :
    b.docs.countP (· < p) ≤ b.docs.countP (· < t) := by
  by_cases hmem : t ∈ b.docs
  · exact countP_lt_mono (hnew hmem)
  · have hsucc := b.increasing.countP_lt_succ t
    rw [if_neg hmem] at hsucc
    have := countP_lt_mono (l := b.docs) hle
    omega

variable (hp : ValidPower power) (hat : At bytes start (b.encode power))
  (h : InBlock power b start first p disi) (hcfg : disi.config.For bytes power) (ht : t < blockSize)
  (hle : p ≤ t + 1)

include hp hat h hcfg ht hle

/-- Both dense methods begin by moving to the word of the target. -/
theorem seekWord_eq (hm : b.method = .dense) :
    seekWord disi t = .ok (atWord power b bytes start first (t / 64) disi) := by
  have hw := word_lt ht
  have hshift : t >>> 6 = t / 64 := shiftRight_eq_div_pow t 6
  rw [seekWord, hshift]
  by_cases hskip : disi.denseRankPower ≠ -1 ∧
      disi.denseRankWords ≤ ((t / 64 : Nat) : Int) - disi.wordIndex
  · obtain ⟨slice, word, ones, w, hwt, hrank, hslice, hwords⟩ :=
      rankSkip_spec hp hat hm (hcfg.power_eq ▸ hskip.1) h.toOpened hcfg.power_eq hcfg.bytes_eq ht
    rw [if_pos hskip, hrank]
    exact readWords_to hp hat hm hwords hslice (by push_cast; ring) (by omega) hw
  · obtain ⟨n, hd⟩ := h.dense hm
    rw [if_neg hskip]
    have hn := hd.le
    exact readWords_to hp hat hm hd.toWordsRead hcfg.bytes_eq hd.word_index_eq (by omega) hw

/-- Looking up a document in a bitmap. -/
theorem dense_exact (hm : b.method = .dense) :
    ∃ disi', denseAdvanceExactWithinBlock disi (b.base + t : Nat) =
        .ok (decide (t ∈ b.docs), disi') ∧
      InBlock power b start first (t + 1) disi' ∧ disi'.config = disi.config := by
  have hbit : decide (wordOf b.docs (t / 64) >>> (t % 64) &&& 1 ≠ 0) = decide (t ∈ b.docs) := by
    have hmem := mem_setBits_wordOf (n := t / 64) b.docs (mod_lt t (by norm_num : 0 < 64))
    rw [div_add_mod, mem_setBits] at hmem
    rw [decide_eq_decide, ← hmem, and_one_ne_zero, BitVec.getLsbD_ushiftRight, add_zero]
  rw [denseAdvanceExactWithinBlock, b.lowHalf_target ht, seekWord_eq hp hat h hcfg ht hle hm]
  refine ⟨{ atWord power b bytes start first (t / 64) disi with
    index := (first + b.docs.countP (· < t) : Nat) }, ?_, h.atWord hm t disi.doc, ?_⟩
  · simp only [ok_bind, atWord, and_sixty_three, ones_left b first ht, hbit, pure_eq_ok]
  · simp only [IndexedDISIImpl.config, atWord, ← hcfg.bytes_eq]

/-- Going on in a bitmap. -/
theorem dense_advance (hm : b.method = .dense) :
    ∃ result, denseAdvanceWithinBlock disi (b.base + t : Nat) = .ok result ∧
      AdvancedTo power b start first t disi result := by
  have hw := word_lt ht
  have hbytes : disi.slice.bytes = bytes := hcfg.bytes_eq
  rw [denseAdvanceWithinBlock, b.lowHalf_target ht, seekWord_eq hp hat h hcfg ht hle hm]
  simp only [ok_bind, and_sixty_three, atWord_word, atWord_wordIndex, AdvancedTo]
  have hfind := b.find_word t
  by_cases hzero : wordOf b.docs (t / 64) >>> (t % 64) = 0
  · have hread : WordsRead power b start first (t / 64 + 1) _ := atWord_read bytes disi (t / 64)
    have hnext := nextNonzeroWord_spec hp hat hm rfl hread (by simp) h.block_eq (words_left hw)
    rw [if_pos hzero] at hfind
    rw [hfind]
    cases hd : b.docs.find? (64 * (t / 64 + 1) ≤ ·) with
    | some d =>
      rw [hd] at hnext
      exact ⟨_, (if_neg (not_not_intro hzero)).trans hnext, rfl, h.atWord hm d _, rfl,
        by simp only [IndexedDISIImpl.config, atWord, hbytes]⟩
    | none =>
      rw [hd] at hnext
      obtain ⟨word, wordIndex, hnext⟩ := hnext
      refine ⟨_, (if_neg (not_not_intro hzero)).trans hnext, rfl, ?_, h.next_eq, ?_⟩
      · rw [b.encode_length hp, hm, bitmapStart]
        simp only [add_assoc]
      · simp only [IndexedDISIImpl.config, atWord, hbytes]
  · obtain ⟨d, hd⟩ : ∃ d, t + trailingZeros (wordOf b.docs (t / 64) >>> (t % 64)) = d := ⟨_, rfl⟩
    rw [if_neg hzero, hd] at hfind
    have hsame : d / 64 = t / 64 := by
      have := lt_of_mem_setBits (mem_setBits_ushiftRight.mp (trailingZeros_mem hzero))
      omega
    have hcount : b.docs.countP (· < d) = b.docs.countP (· < t) := by
      rw [b.increasing.find_eq] at hfind
      obtain ⟨hi, rfl⟩ := List.getElem_of_getElem? hfind
      exact b.increasing.countP_lt_getElem hi
    rw [hfind]
    refine ⟨(true, { atWord power b bytes start first (d / 64) disi with
      doc := (b.base + d : Nat), index := (first + b.docs.countP (· < d) : Nat) }),
        (if_pos hzero).trans ?_, rfl,
      h.atWord hm d _, rfl, by simp only [IndexedDISIImpl.config, atWord, hbytes]⟩
    rw [hsame, hcount, ← ones_left b first ht, ← hd]
    simp only [atWord, pure_eq_ok]
    push_cast
    rw [add_assoc]

/-- Going on in a block. -/
theorem advanceWithinBlock_spec (hnew : t ∈ b.docs → p ≤ t) :
    ∃ result, advanceWithinBlock disi (b.base + t : Nat) = .ok result ∧
      AdvancedTo power b start first t disi result := by
  rw [advanceWithinBlock, h.method_eq]
  cases hm : b.method with
  | sparse => exact sparse_advance hat hm h hcfg.bytes_eq hp ht (b.passed_le hle hnew)
  | dense => exact dense_advance hp hat h hcfg ht hle hm
  | all =>
    have hfind := b.increasing.find_eq_some_of (b.mem_of_all hm ht) le_rfl (fun _ _ h => h)
    simp only [AdvancedTo, hfind]
    exact ⟨_, rfl, rfl, h.all hm ht _, rfl, rfl⟩

/-- Looking up a document in a block. -/
theorem advanceExactWithinBlock_spec (hdoc : disi.doc = (b.base + t : Nat) ↔ p = t + 1) :
    ∃ disi', advanceExactWithinBlock disi (b.base + t : Nat) =
        .ok (decide (t ∈ b.docs), disi') ∧
      InBlock power b start first (t + 1) disi' ∧ disi'.config = disi.config := by
  rw [advanceExactWithinBlock, h.method_eq]
  cases hm : b.method with
  | sparse => exact sparse_exact hat hm h hcfg.bytes_eq ht hle hdoc
  | dense => exact dense_exact hp hat h hcfg ht hle hm
  | all =>
    rw [decide_eq_true (b.mem_of_all hm ht)]
    exact ⟨_, rfl, h.all hm ht _, rfl⟩

end

/-! ## Headers -/

section

variable {disi : IndexedDISIImpl} (hp : ValidPower power) (hat : At bytes start (b.encode power))
  (hcfg : disi.config.For bytes power)

/-- The header of a block as the reader decodes it. -/
theorem Block.header_decode (b : Block) :
    asI 32 ((asU 16 (asI 16 b.id) <<< 16 : Nat) : Int) = b.base ∧
      1 + asU 16 (asI 16 ((b.card : Int) - 1)) = b.card := by
  have hid := b.id_lt
  have hpos := b.card_pos
  have hle := b.card_le
  constructor
  · rw [asU_asI, asU_of_lt (by omega), shiftLeft_eq, base, blockSize, mul_comm]
    exact asI_of_range (by norm_num) (by omega) (by push_cast; omega)
  · have hcast : (b.card : Int) - 1 = ((b.card - 1 : Nat) : Int) := by omega
    unfold blockSize at hle
    rw [asU_asI, hcast, asU_of_lt (by omega)]
    omega

theorem Config.For.table {config : Config} (h : config.For bytes power) :
    config.rankTableLength.getD 0 = rankLength power := by
  rw [h.table_eq]
  split
  · rename_i hnone
    rw [rankLength, if_pos hnone]
    rfl
  · rfl

include hp hat hcfg

/-- The rank table of a dense block is read as a whole, into a buffer of its length. -/
theorem readRankTable_spec (hm : b.method = .dense) :
    ∃ table, readRankTable disi.denseRankPower disi.denseRankTable ⟨bytes, start + 4⟩ =
        .ok (table, ⟨bytes, bitmapStart power start⟩) ∧
      (power ≠ -1 → table = some (rankBytes power b.docs)) ∧
      table.map length = disi.denseRankTable.map length := by
  have hpower : disi.denseRankPower = power := hcfg.power_eq
  have htable : disi.denseRankTable.map length = _ := hcfg.table_eq
  rw [hpower]
  unfold readRankTable
  by_cases hne : power = -1
  · rw [if_neg (not_not_intro hne)]
    refine ⟨disi.denseRankTable, ?_, fun h => absurd hne h, rfl⟩
    rw [bitmapStart, rankLength, if_pos hne, add_zero]
  · rw [if_neg hne, Option.map_eq_some_iff] at htable
    obtain ⟨table, hsome, hlen⟩ := htable
    have hrank := Block.rank_at hat hm
    have hlen' := rankBytes_length hp b.docs
    have hfile : start + 4 ≤ bytes.length := by
      have := (Block.header_at hat).2.1.le_length (ne_nil_of_length_pos (by simp))
      simpa [add_assoc] using this
    have hread : (IndexInput.mk bytes (start + 4)).readBytes (rankBytes power b.docs).length = _ :=
      IndexInput.readBytes_at hrank hfile
    refine ⟨some (rankBytes power b.docs), ?_, fun _ => rfl, by rw [hsome]; simp [hlen, hlen']⟩
    rw [if_pos hne, hsome]
    simp only [hlen, ← hlen', hread, ok_bind, pure_eq_ok, bitmapStart, IndexInput.skip]

/-- Reading the header of a block leaves the iterator before its first document. -/
theorem readBlockHeader_spec (hpos : disi.slice.pos = start)
    (hnext : disi.nextBlockIndex = (first : Int) - 1) :
    ∃ disi', readBlockHeader disi = .ok disi' ∧ InBlock power b start first 0 disi' ∧
      disi'.doc = disi.doc ∧ disi'.config = disi.config := by
  obtain ⟨hid, hcard, -⟩ := Block.header_at hat
  obtain ⟨hblock, hvalues⟩ := b.header_decode
  have hbytes : disi.slice.bytes = bytes := hcfg.bytes_eq
  have hlength := b.encode_length hp
  have hread := @IndexInput.readShort_at disi.slice _ (by rw [hbytes, hpos]; exact hid)
  have hread' := @IndexInput.readShort_at (disi.slice.skip 2) _
    (by rw [IndexInput.skip_bytes, IndexInput.skip_pos, hbytes, hpos]; exact hcard)
  rw [readBlockHeader, hread]
  simp only [ok_bind, hread', hblock, hvalues, IndexInput.skip_skip, pure_eq_ok]
  have hskip : disi.slice.skip (2 + 2) = ⟨bytes, start + 4⟩ := by
    rw [IndexInput.skip, hbytes, hpos]
  have hindex : disi.nextBlockIndex + (b.card : Nat) = ((first + b.card : Nat) : Int) - 1 := by
    rw [hnext]
    push_cast
    ring
  rw [hskip]
  by_cases hs : b.card ≤ maxArrayLength
  · have hm : b.method = .sparse := by rw [Block.method, if_pos hs]
    rw [if_pos hs]
    refine ⟨_, rfl, SparseAt.inBlock ⟨by simp, by simp [hnext], by simp, by simp⟩ hm
      ⟨rfl, hindex, ?_, hm.symm, ?_, ?_, ?_, ?_⟩,
      rfl, by simp only [IndexedDISIImpl.config, hbytes]⟩
    all_goals simp only [hm, reduceCtorEq, false_implies]
    rw [hlength, hm, shiftLeft_eq]
    simp only
    omega
  · by_cases ha : b.card = blockSize
    · have hm : b.method = .all := by rw [Block.method, if_neg hs, if_pos ha]
      rw [if_neg hs, if_pos ha]
      refine ⟨_, rfl, ⟨⟨rfl, hindex, ?_, hm.symm, fun _ => ?_, ?_, ?_, ?_⟩, ?_, ?_, ?_⟩,
        rfl, by simp only [IndexedDISIImpl.config, hbytes]⟩
      all_goals simp only [hm, reduceCtorEq, false_implies]
      · rw [hlength, hm]
      · rw [hnext]
        ring
      · simp
    · have hm : b.method = .dense := by rw [Block.method, if_neg hs, if_neg ha]
      obtain ⟨table, htable, hsome, hmap⟩ := readRankTable_spec hp hat hcfg hm
      have hlen : (disi.denseRankTable.map length).getD 0 = rankLength power := hcfg.table
      rw [if_neg hs, if_neg ha, htable, hlen]
      refine ⟨_, rfl,
        ⟨⟨rfl, hindex, ?_, hm.symm, ?_, fun _ => rfl, fun _ => hsome, fun _ => ?_⟩, ?_,
        fun _ => ⟨0, ⟨rfl, ?_, ?_⟩, rfl, ?_⟩, ?_⟩, rfl,
        by simp only [IndexedDISIImpl.config, hbytes, hmap]⟩
      · rw [hlength, hm]
        have hlongs : denseBlockLongs = 1024 := rfl
        simp only [hlongs]
        omega
      · simp [hm]
      · simp [hnext]
      · simp [hm]
      · simp [hnext]
      · simp
      · simp
      · simp

end

end RLucene.Codecs.Lucene90.IndexedDISI
