import Mathlib.Algebra.Order.BigOperators.Group.List
import Mathlib.Data.List.Lex
import Mathlib.Data.Prod.Lex
import Mathlib.Tactic.IntervalCases
import RLucene.Index.DocIDMerger
import RLucene.Index.MultiSorter
import RLucene.Lib.Merging

/-!
# What the document maps of a merge do

The order of the merged segment is that of the index sort, then of the readers and then of the
documents in them. A reversed field compares the negated values, so documents are compared by a list
of integers, the number of their reader and their own number, lexicographically. The maps number the
live documents of all readers in this order.
-/

namespace RLucene.Index

open List Lib Store Util

/-! ## Comparing documents -/

/-- The values of a document, negated for reversed fields. -/
def sortKey (reverseMuls values : List Int) : List Int :=
  zipWith (· * ·) reverseMuls values

/-- The place of a document: by index sort, then by reader, then by number. -/
def place (key : Nat × Nat → List Int) (x : Nat × Nat) : List Int ×ₗ Nat ×ₗ Nat :=
  toLex (key x, toLex x)

/-- The order of the merged segment. -/
abbrev PlacedBefore (key : Nat × Nat → List Int) (x y : Nat × Nat) : Prop :=
  place key x < place key y

variable {key : Nat × Nat → List Int} {x y : Nat × Nat}

/-- Documents are ordered by their keys. -/
theorem key_le_of_place_lt (h : place key x < place key y) : key x ≤ key y := by
  rw [place, place, Prod.Lex.toLex_lt_toLex] at h
  exact h.elim le_of_lt fun heq => heq.1.le

/-- Documents with one key are placed by reader and number. -/
theorem place_lt_iff (h : key x = key y) :
    place key x < place key y ↔ x.1 < y.1 ∨ x.1 = y.1 ∧ x.2 < y.2 := by
  rw [place, place, Prod.Lex.toLex_lt_toLex, Prod.Lex.toLex_lt_toLex]
  simp [h]

variable {muls : List Int} {as bs : List Int}

/-- The values decide by their keys, unless these are equal. -/
theorem compareValues_spec (hmuls : ∀ m ∈ muls, m = 1 ∨ m = -1)
    (ha : as.length = muls.length) (hb : bs.length = muls.length) :
    match compareValues muls as bs with
    | none => sortKey muls as = sortKey muls bs
    | some less => sortKey muls as ≠ sortKey muls bs ∧
        (less = true ↔ sortKey muls as < sortKey muls bs) := by
  induction muls generalizing as bs with
  | nil => exact rfl
  | cons m muls ih =>
    obtain ⟨a, as, rfl⟩ := exists_cons_of_length_eq_add_one ha
    obtain ⟨b, bs, rfl⟩ := exists_cons_of_length_eq_add_one hb
    have hrest := ih (forall_mem_cons.mp hmuls).2 (Nat.succ.inj ha) (Nat.succ.inj hb)
    have hm := hmuls m mem_cons_self
    have hkeys : ∀ c cs, sortKey (m :: muls) (c :: cs) = (m * c) :: sortKey muls cs :=
      fun _ _ => rfl
    rw [compareValues, hkeys, hkeys]
    by_cases heq : a = b
    · subst heq
      rw [if_pos rfl]
      split at hrest
      · exact congrArg _ hrest
      · exact ⟨fun h => hrest.1 (List.cons.inj h).2, hrest.2.trans (by rw [cons_lt_cons_iff]; simp)⟩
    · rw [if_neg heq]
      have hne : m * a ≠ m * b := by
        rcases hm with rfl | rfl <;> omega
      refine ⟨fun h => hne (List.cons.inj h).1, ?_⟩
      rw [decide_eq_true_eq, cons_lt_cons_iff]
      rcases hm with rfl | rfl <;> split <;> omega

/-- One field is a special case of several. -/
theorem compareSingle_eq (hlen : muls.length = 1) (ha : as.length = muls.length)
    (hb : bs.length = muls.length) : compareSingle muls as bs = compareValues muls as bs := by
  obtain ⟨m, rfl⟩ := length_eq_one_iff.mp hlen
  obtain ⟨a, rfl⟩ := length_eq_one_iff.mp ha
  obtain ⟨b, rfl⟩ := length_eq_one_iff.mp hb
  simp [compareSingle, compareValues]

/-- The key of a document that stands in the queue. -/
def leafPlace (muls : List Int) {n : Nat} (leaf : LeafAndDocId n) : List Int ×ₗ Nat ×ₗ Nat :=
  toLex (sortKey muls leaf.valuesAsComparableLongs.toList, toLex (leaf.readerIndex, leaf.docId))

/-- The multipliers of a sort, one for each field. -/
structure IsReverse (single : Bool) (muls : List Int) : Prop where
  mul : ∀ m ∈ muls, m = 1 ∨ m = -1
  single : single = true → muls.length = 1

variable {single : Bool}

/-- The order of the queue is that of the places. -/
theorem lessThan_iff (h : IsReverse single muls) (a b : LeafAndDocId muls.length) :
    lessThan single muls a b = true ↔ leafPlace muls a < leafPlace muls b := by
  have ha : a.valuesAsComparableLongs.toList.length = muls.length := by simp
  have hb : b.valuesAsComparableLongs.toList.length = muls.length := by simp
  have hcompare : (if single then compareSingle else compareValues) muls
      a.valuesAsComparableLongs.toList b.valuesAsComparableLongs.toList =
        compareValues muls a.valuesAsComparableLongs.toList b.valuesAsComparableLongs.toList := by
    cases single with
    | false => rfl
    | true => exact compareSingle_eq (h.single rfl) ha hb
  have hspec := compareValues_spec h.mul ha hb
  unfold lessThan leafPlace
  rw [hcompare, Prod.Lex.toLex_lt_toLex, Prod.Lex.toLex_lt_toLex]
  split at hspec
  · rename_i hnone
    rw [hnone, hspec]
    by_cases hreader : a.readerIndex = b.readerIndex
    · simp [hreader]
    · simp [hreader]
  · rename_i less hsome
    rw [hsome]
    simp [hspec.1, hspec.2]

theorem isComparison_lessThan (h : IsReverse single muls) :
    IsComparison (lessThan single muls : LeafAndDocId muls.length → _ → Bool) := by
  refine ⟨fun {a b} hab => ?_, fun {a b c} hab hbc => ?_⟩
  · rw [lessThan_iff h] at hab
    rw [← Bool.not_eq_true, lessThan_iff h]
    exact lt_asymm hab
  · rw [← Bool.not_eq_true, lessThan_iff h, not_lt] at hab hbc ⊢
    exact hbc.trans hab

/-! ## Documents -/

namespace CodecReader

/-- The document is not deleted. -/
def isLiveDoc (reader : CodecReader) (doc : Nat) : Bool :=
  (reader.liveDocs.elim true fun bits => bits.getD doc false)

/-- Whether a document is live. -/
theorem isLive_eq (reader : CodecReader) {doc : Nat} (hdoc : doc < reader.maxDoc) :
    isLive reader.liveDocs doc = .ok (reader.isLiveDoc doc) := by
  unfold isLive isLiveDoc
  cases hbits : reader.liveDocs with
  | none => rfl
  | some bits =>
    have hlt : doc < bits.length := by
      rw [reader.liveDocs_length bits hbits]
      exact hdoc
    simp [bitsGet, hlt]

end CodecReader

variable {j d k d' : Nat} {reader : CodecReader} {bits : List Bool}

section

variable (readers : List CodecReader)

/-- The number of documents of a reader. -/
def readerDocs (j : Nat) : Nat :=
  (readers[j]?.map CodecReader.maxDoc).getD 0

/-- All documents, reader after reader. -/
def allDocuments : List (Nat × Nat) :=
  streamElements readers.length (readerDocs readers)

/-- The reader has the document, and it is live. -/
def isLiveDocument (x : Nat × Nat) : Bool :=
  (readers[x.1]?.map fun reader => reader.isLiveDoc x.2).getD false

/-- The live documents, reader after reader. -/
def liveDocuments : List (Nat × Nat) :=
  (allDocuments readers).filter (isLiveDocument readers)

variable {readers}

theorem readerDocs_eq (h : readers[j]? = some reader) : readerDocs readers j = reader.maxDoc := by
  rw [readerDocs, h]
  rfl

theorem isLiveDocument_eq (h : readers[j]? = some reader) (d : Nat) :
    isLiveDocument readers (j, d) = reader.isLiveDoc d := by
  rw [isLiveDocument, h]
  rfl

/-- All documents of the readers. -/
theorem length_allDocuments :
    (allDocuments readers).length = (readers.map CodecReader.maxDoc).sum := by
  have hmap : (range readers.length).map (readerDocs readers) =
      readers.map CodecReader.maxDoc := by
    refine ext_getElem (by simp) fun j hj hj' => ?_
    rw [length_map] at hj'
    rw [getElem_map, getElem_range, getElem_map, readerDocs_eq (getElem?_eq_getElem hj')]
  rw [allDocuments, streamElements, length_flatMap, ← hmap]
  simp

end

/-! ## The merge -/

variable {order : List (Nat × Nat)} {n : Nat}

section

variable (readers : List CodecReader) (getValues : Nat → Nat → List.Vector Int n)

/-- The entry of the queue for a document. -/
def leafAt (j : Nat) (reader : CodecReader) (d : Nat) : LeafAndDocId n :=
  ⟨j, reader.liveDocs, reader.maxDoc, getValues j d, d⟩

/-- The documents that have been taken, and what is known of them in the loop. -/
structure LoopHolds (lt : LeafAndDocId n → LeafAndDocId n → Bool)
    (before : Nat × Nat → Nat × Nat → Prop) (pos : Nat → Nat) (order : List (Nat × Nat))
    (s : MergeLoop n) : Prop where
  merged : Merged readers.length (readerDocs readers) before pos order
  queue : ∃ items : Multiset (LeafAndDocId n), s.queue.Holds lt items ∧ items.Nodup ∧
    ∀ leaf, leaf ∈ items ↔ ∃ j reader, readers[j]? = some reader ∧ pos j < reader.maxDoc ∧
      leaf = leafAt getValues j reader (pos j)
  builders_length : s.builders.length = readers.length
  builder_length : ∀ j builder, s.builders[j]? = some builder → builder.length = pos j
  ranks : ∀ front j d back, order = front ++ (j, d) :: back →
    (s.builders[j]?.bind fun builder => builder[d]?) =
      some ((front.countP (isLiveDocument readers) : Nat) : Int)
  mapped : s.mappedDocId = ((order.countP (isLiveDocument readers) : Nat) : Int)
  last : ∀ x, order.getLast? = some x → s.lastReaderIndex = x.1
  start : order = [] → s.lastReaderIndex = 0
  sorted : s.isSorted = true ↔ order.Pairwise fun x y => x.1 ≤ y.1

variable {readers getValues}

/-- Readers that are sorted are streams to merge. -/
theorem streamOrder
    (hsorted : ∀ j reader, readers[j]? = some reader → ∀ d d', d < d' → d' < reader.maxDoc →
      key (j, d) ≤ key (j, d')) :
    StreamOrder readers.length (readerDocs readers) (PlacedBefore key) := by
  refine ⟨fun x => lt_irrefl _, fun h h' => h.trans h', fun {x y} hne => ?_,
    fun {j d d'} hj hd hd' => ?_⟩
  · refine lt_or_gt_of_ne fun heq => hne ?_
    exact toLex_inj.mp (Prod.mk.inj (toLex_inj.mp heq)).2
  · have hreader := getElem?_eq_getElem hj
    rw [readerDocs_eq hreader] at hd'
    have hle := hsorted j _ hreader d d' hd hd'
    rcases lt_or_eq_of_le hle with hlt | heq
    · exact Prod.Lex.toLex_lt_toLex.mpr (.inl hlt)
    · exact (place_lt_iff heq).mpr (.inr ⟨rfl, hd⟩)

/-- Documents taken in the order of readers stay so if the next reader is not an earlier one. -/
theorem pairwise_append_iff {last : Nat}
    (hlast : ∀ y, order.getLast? = some y → last = y.1) (hstart : order = [] → last = 0) :
    ((order ++ [x]).Pairwise fun x y => x.1 ≤ y.1) ↔
      last ≤ x.1 ∧ order.Pairwise fun x y => x.1 ≤ y.1 := by
  rw [pairwise_append]
  rcases eq_nil_or_concat order with rfl | ⟨init, l, rfl⟩
  · simp [hstart rfl]
  · rw [concat_eq_append] at hlast ⊢
    have hl : last = l.1 := hlast l (by simp)
    constructor
    · rintro ⟨hsorted, -, hnext⟩
      exact ⟨hl ▸ hnext l (by simp) x (mem_singleton_self x), hsorted⟩
    · rintro ⟨hle, hsorted⟩
      refine ⟨hsorted, pairwise_singleton _ _, fun y hy z hz => ?_⟩
      rw [mem_singleton.mp hz]
      rcases mem_append.mp hy with hy | hy
      · have := (pairwise_append.mp hsorted).2.2 y hy l (mem_singleton_self l)
        omega
      · rw [mem_singleton.mp hy]
        omega

variable {values : Nat → Nat → List.Vector Int muls.length} {pos : Nat → Nat}
  {s : MergeLoop muls.length}
  {lt : LeafAndDocId n → LeafAndDocId n → Bool} {before : Nat × Nat → Nat × Nat → Prop}

/-- The key of a document under given values. -/
def valuesKey (muls : List Int) (values : Nat → Nat → List.Vector Int muls.length)
    (x : Nat × Nat) : List Int :=
  sortKey muls (values x.1 x.2).toList

/-- The loop after a document has been taken. -/
def MergeLoop.taken {n : Nat} (lt : LeafAndDocId n → LeafAndDocId n → Bool)
    (getValues : Nat → Nat → List.Vector Int n) (s : MergeLoop n) (j : Nat) (reader : CodecReader)
    (d : Nat) : MergeLoop n where
  queue := if d + 1 < reader.maxDoc then
      s.queue.updateTopWithNewTop lt (leafAt getValues j reader (d + 1))
    else (s.queue.pop lt).2
  builders := s.builders.modify j (· ++ [s.mappedDocId])
  mappedDocId := if reader.isLiveDoc d then s.mappedDocId + 1 else s.mappedDocId
  lastReaderIndex := j
  isSorted := if s.lastReaderIndex > j then false else s.isSorted

/-- The map of the first document, and the next one. -/
theorem mergeTop_eq (lt : LeafAndDocId n → LeafAndDocId n → Bool)
    (getValues : Nat → Nat → List.Vector Int n) (s : MergeLoop n) (j : Nat)
    (hd : d < reader.maxDoc) : mergeTop lt getValues s (leafAt getValues j reader d) =
      .ok (s.taken lt getValues j reader d) := by
  have hlive : isLive (leafAt getValues j reader d).liveDocs (leafAt getValues j reader d).docId =
      .ok (reader.isLiveDoc d) := reader.isLive_eq hd
  unfold mergeTop
  rw [hlive, ok_bind]
  rfl

/-- A new rank is appended to the builder of the reader, and all others stay. -/
theorem getElem?_modify_append {builders : List (List Int)} {builder : List Int}
    (hbuilder : builders[j]? = some builder) (rank : Int) :
    ((builders.modify j (· ++ [rank]))[j]?.bind fun b => b[builder.length]?) = some rank ∧
      ∀ (j' d : Nat) (old : Int), (builders[j']?.bind fun b => b[d]?) = some old →
        ((builders.modify j (· ++ [rank]))[j']?.bind fun b => b[d]?) = some old := by
  constructor
  · rw [getElem?_modify, hbuilder]
    simp
  · intro j' d old hold
    obtain ⟨b, hb, hget⟩ := Option.bind_eq_some_iff.mp hold
    have hd : d < b.length := (List.getElem_of_getElem? hget).1
    rw [getElem?_modify, hb]
    by_cases heq : j = j'
    · simp [heq, getElem?_append_left hd, hget]
    · simp [heq, hget]

/-- A reader waits with the leaf. -/
def Waits (readers : List CodecReader) (getValues : Nat → Nat → List.Vector Int n) (pos : Nat → Nat)
    (leaf : LeafAndDocId n) : Prop :=
  ∃ j reader, readers[j]? = some reader ∧ pos j < reader.maxDoc ∧
    leaf = leafAt getValues j reader (pos j)

/-- If one reader moves on, then the others wait as before. -/
theorem waits_update (hreader : readers[j]? = some reader) (leaf : LeafAndDocId n) :
    Waits readers getValues (Function.update pos j (pos j + 1)) leaf ↔
      (pos j + 1 < reader.maxDoc ∧ leaf = leafAt getValues j reader (pos j + 1)) ∨
        leaf.readerIndex ≠ j ∧ Waits readers getValues pos leaf := by
  constructor
  · rintro ⟨j', reader', hreader', hpos', rfl⟩
    by_cases heq : j' = j
    · subst heq
      cases hreader.symm.trans hreader'
      rw [Function.update_self] at hpos' ⊢
      exact .inl ⟨hpos', rfl⟩
    · rw [Function.update_of_ne heq] at hpos' ⊢
      exact .inr ⟨heq, j', reader', hreader', hpos', rfl⟩
  · rintro (⟨hpos', rfl⟩ | ⟨hne, j', reader', hreader', hpos', rfl⟩)
    · refine ⟨j, reader, hreader, ?_⟩
      rw [Function.update_self]
      exact ⟨hpos', rfl⟩
    · refine ⟨j', reader', hreader', ?_⟩
      rw [Function.update_of_ne (show j' ≠ j from hne)]
      exact ⟨hpos', rfl⟩

/-- The queue after a document has been taken. -/
theorem LoopHolds.taken_queue {s : MergeLoop n} (hlt : IsComparison lt)
    (h : LoopHolds readers getValues lt before pos order s) (hreader : readers[j]? = some reader)
    (htop : s.queue.top = some (leafAt getValues j reader (pos j))) :
    ∃ items : Multiset (LeafAndDocId n),
      (s.taken lt getValues j reader (pos j)).queue.Holds lt items ∧ items.Nodup ∧
      ∀ leaf, leaf ∈ items ↔ Waits readers getValues (Function.update pos j (pos j + 1)) leaf := by
  obtain ⟨items, hholds, hnodup, hitems⟩ := h.queue
  obtain ⟨rest, hcons, -⟩ := hholds.top hlt htop
  rw [hcons] at hnodup
  obtain ⟨hnot, hnodup⟩ := Multiset.nodup_cons.mp hnodup
  have hrest : ∀ leaf, leaf ∈ rest ↔ leaf.readerIndex ≠ j ∧ Waits readers getValues pos leaf := by
    intro leaf
    constructor
    · intro hleaf
      obtain ⟨j', reader', hreader', hpos', rfl⟩ :=
        (hitems leaf).mp (hcons ▸ Multiset.mem_cons_of_mem hleaf)
      refine ⟨?_, j', reader', hreader', hpos', rfl⟩
      rintro rfl
      cases hreader.symm.trans hreader'
      exact hnot hleaf
    · rintro ⟨hne, hwaits⟩
      have hmem := (hitems leaf).mpr hwaits
      rw [hcons, Multiset.mem_cons] at hmem
      exact hmem.resolve_left fun heq => hne (congrArg LeafAndDocId.readerIndex heq)
  unfold MergeLoop.taken
  by_cases hmore : pos j + 1 < reader.maxDoc
  · rw [if_pos hmore]
    refine ⟨_, hholds.updateTop hlt htop hcons _, Multiset.nodup_cons.mpr
      ⟨fun hmem => ((hrest _).mp hmem).1 rfl, hnodup⟩, fun leaf => ?_⟩
    rw [Multiset.mem_cons, hrest, waits_update hreader]
    simp [hmore]
  · rw [if_neg hmore]
    refine ⟨rest, (hholds.pop hlt htop hcons).2, hnodup, fun leaf => ?_⟩
    rw [hrest, waits_update hreader]
    simp [hmore]

section

variable (hrev : IsReverse single muls)
  (ho : StreamOrder readers.length (readerDocs readers) (PlacedBefore (valuesKey muls values)))

include hrev ho

/-- One document is taken from the queue. -/
theorem LoopHolds.mergeTop
    (h : LoopHolds readers values (lessThan single muls) (PlacedBefore (valuesKey muls values)) pos
      order s) {top : LeafAndDocId muls.length} (htop : s.queue.top = some top) :
    ∃ s' j, mergeTop (lessThan single muls) values s top = .ok s' ∧
      LoopHolds readers values (lessThan single muls) (PlacedBefore (valuesKey muls values))
        (Function.update pos j (pos j + 1)) (order ++ [(j, pos j)]) s' := by
  have hlt := isComparison_lessThan hrev
  obtain ⟨items, hholds, -, hitems⟩ := h.queue
  obtain ⟨rest, hcons, hleast⟩ := hholds.top hlt htop
  obtain ⟨j, reader, hreader, hpos, rfl⟩ := (hitems top).mp (hcons ▸ Multiset.mem_cons_self _ _)
  have hj : j < readers.length := (List.getElem_of_getElem? hreader).1
  have hdocs := readerDocs_eq hreader
  -- the other readers wait with documents that come later
  have hahead : ∀ j', j' < readers.length → j' ≠ j → pos j' < readerDocs readers j' →
      PlacedBefore (valuesKey muls values) (j, pos j) (j', pos j') := by
    intro j' hj' hne hpos'
    have hreader' := getElem?_eq_getElem hj'
    rw [readerDocs_eq hreader'] at hpos'
    have hnot := hleast _ ((hitems _).mpr ⟨j', _, hreader', hpos', rfl⟩)
    rw [← Bool.not_eq_true, lessThan_iff hrev] at hnot
    rcases ho.total (x := (j, pos j)) (y := (j', pos j'))
      (fun heq => hne (Prod.mk.inj heq).1.symm) with hbefore | hbefore
    · exact hbefore
    · exact absurd hbefore hnot
  obtain ⟨builder, hbuilder⟩ : ∃ builder, s.builders[j]? = some builder :=
    ⟨_, getElem?_eq_getElem (h.builders_length ▸ hj)⟩
  obtain ⟨hnew, hold⟩ := getElem?_modify_append hbuilder s.mappedDocId
  rw [h.builder_length j builder hbuilder] at hnew
  have hlive := isLiveDocument_eq hreader (pos j)
  refine ⟨_, j, mergeTop_eq _ _ s j hpos, h.merged.take ho hj (hdocs.symm ▸ hpos) hahead,
    h.taken_queue hlt hreader htop, ?_, ?_, ?_, ?_, ?_, ?_, ?_⟩
  · exact (length_modify _ _ _).trans h.builders_length
  · intro j' builder' hbuilder'
    obtain ⟨b, hb, rfl⟩ :=
      Option.map_eq_some_iff.mp ((getElem?_modify _ _ _ _).symm.trans hbuilder')
    by_cases heq : j = j'
    · subst heq
      simp [h.builder_length j b hb]
    · simp [heq, Function.update_of_ne (Ne.symm heq), h.builder_length j' b hb]
  · intro front j' d back horder
    rcases eq_nil_or_concat back with rfl | ⟨back, x, rfl⟩
    · obtain ⟨rfl, heq⟩ := append_inj' horder rfl
      cases heq
      rw [← h.mapped]
      exact hnew
    · rw [concat_eq_append, ← cons_append, ← append_assoc] at horder
      exact hold j' d _ (h.ranks front j' d back (append_inj' horder rfl).1)
  · show (if reader.isLiveDoc (pos j) then s.mappedDocId + 1 else s.mappedDocId) = _
    rw [countP_append, countP_singleton, hlive, h.mapped]
    split <;> simp
  · intro x hx
    rw [getLast?_concat] at hx
    cases hx
    rfl
  · intro hnil
    exact absurd hnil (by simp)
  · show (if s.lastReaderIndex > j then false else s.isSorted) = true ↔ _
    rw [pairwise_append_iff h.last h.start, ← h.sorted]
    split
    · simp
      omega
    · simp
      omega

/-- All documents are taken. -/
theorem LoopHolds.mergeLoop (fuel : Nat)
    (h : LoopHolds readers values (lessThan single muls) (PlacedBefore (valuesKey muls values)) pos
      order s) (hfuel : (allDocuments readers).length ≤ fuel + order.length) :
    ∃ s' pos' order', mergeLoop (lessThan single muls) values fuel s = .ok s' ∧
      LoopHolds readers values (lessThan single muls) (PlacedBefore (valuesKey muls values)) pos'
        order' s' ∧
      ∀ j, j < readers.length → readerDocs readers j ≤ pos' j := by
  induction fuel generalizing pos order s with
  | zero =>
    rw [Nat.zero_add] at hfuel
    exact ⟨s, pos, order, rfl, h, fun j hj => h.merged.done_of_length ho hfuel hj⟩
  | succ fuel ih =>
    unfold RLucene.Index.mergeLoop
    split
    · rename_i hnone
      refine ⟨s, pos, order, rfl, h, fun j hj => ?_⟩
      obtain ⟨items, hholds, -, hitems⟩ := h.queue
      have hreader := getElem?_eq_getElem hj
      rw [readerDocs_eq hreader]
      by_contra hlt
      have hmem := (hitems _).mpr ⟨j, _, hreader, by omega, rfl⟩
      rw [hholds.top_eq_none.mp hnone] at hmem
      exact absurd hmem (Multiset.notMem_zero _)
    · rename_i top htop
      obtain ⟨s₁, j, hstep, hnext⟩ := h.mergeTop hrev ho htop
      rw [hstep, ok_bind]
      refine ih hnext ?_
      rw [length_append, length_singleton]
      omega

end

variable {q : PriorityQueue (LeafAndDocId n)}

/-- All readers are put into the queue. -/
theorem foldlM_addLeaf (getValues : Nat → Nat → List.Vector Int n) (hlt : IsComparison lt)
    (l : List (CodecReader × Nat)) {items : Multiset (LeafAndDocId n)} (hholds : q.Holds lt items)
    (hroom : items.card + l.length ≤ q.maxSize) :
    ∃ q', l.foldlM (addLeaf lt getValues) q = .ok q' ∧
      q'.Holds lt
        (items + (l.map fun x => leafAt getValues x.2 x.1 0 : List (LeafAndDocId n))) := by
  induction l generalizing q items with
  | nil => exact ⟨q, rfl, by simpa using hholds⟩
  | cons x l ih =>
    rw [length_cons] at hroom
    obtain ⟨q₁, hadd, hsize, hholds₁⟩ := hholds.add hlt (leafAt getValues x.2 x.1 0)
      (PriorityQueue.lt_capacity (by omega))
    obtain ⟨q', hfold, hholds'⟩ := ih hholds₁ (by rw [Multiset.card_cons, hsize]; omega)
    refine ⟨q', ?_, ?_⟩
    · show (q.add lt (leafAt getValues x.2 x.1 0) >>= fun q =>
        l.foldlM (addLeaf lt getValues) q) = _
      rw [hadd, ok_bind, hfold]
    · rw [map_cons, ← Multiset.cons_coe, Multiset.add_cons, ← Multiset.cons_add]
      exact hholds'

/-- The loop starts with the first document of every reader. -/
theorem loopHolds_start (hnonempty : ∀ reader ∈ readers, 0 < reader.maxDoc)
    (hholds : q.Holds lt (readers.zipIdx.map fun x => leafAt getValues x.2 x.1 0 :
      List (LeafAndDocId n))) :
    LoopHolds readers getValues lt before (fun _ => 0) []
      ⟨q, readers.map fun _ => [], 0, 0, true⟩ := by
  refine ⟨Merged.start, ⟨_, hholds, ?_, fun leaf => ?_⟩, by simp, ?_, ?_, rfl, ?_, ?_, ?_⟩
  · refine Multiset.coe_nodup.mpr (List.Nodup.of_map LeafAndDocId.readerIndex ?_)
    rw [map_map]
    show (readers.zipIdx.map Prod.snd).Nodup
    rw [zipIdx_map_snd]
    exact nodup_range'
  · rw [Multiset.mem_coe, mem_map]
    constructor
    · rintro ⟨⟨reader, j⟩, hmem, rfl⟩
      have hreader := mem_zipIdx_iff_getElem?.mp hmem
      exact ⟨j, reader, hreader, hnonempty reader (mem_of_getElem? hreader), rfl⟩
    · rintro ⟨j, reader, hreader, -, rfl⟩
      exact ⟨(reader, j), mem_zipIdx_iff_getElem?.mpr hreader, rfl⟩
  · intro j builder hbuilder
    simp only [getElem?_map, Option.map_eq_some_iff] at hbuilder
    obtain ⟨_, _, rfl⟩ := hbuilder
    rfl
  · intro front j d back horder
    exact absurd horder (by simp)
  · intro x hx
    cases hx
  · intro _
    rfl
  · exact ⟨fun _ => List.Pairwise.nil, fun _ => rfl⟩

end

/-! ## Document maps -/

/-- The maps number the live documents of an order of all documents. -/
structure Numbers (readers : List CodecReader) (order : List (Nat × Nat))
    (maps : List MergeStateDocMap) : Prop where
  length_eq : maps.length = readers.length
  deleted : ∀ (j : Nat) (reader : CodecReader) (map : MergeStateDocMap) (d : Nat),
    readers[j]? = some reader → maps[j]? = some map → d < reader.maxDoc → reader.isLiveDoc d =
      false → map.get d = .ok (-1)
  live : ∀ (front : List (Nat × Nat)) (j d : Nat) (back : List (Nat × Nat))
    (map : MergeStateDocMap), order = front ++ (j, d) :: back → maps[j]? = some map →
    isLiveDocument readers (j, d) = true →
      map.get d = .ok ((front.countP (isLiveDocument readers) : Nat) : Int)

section

variable {readers : List CodecReader}

/-- The rank of a live document is less than their number. -/
theorem countP_front_lt {p : Nat × Nat → Bool} {front back : List (Nat × Nat)}
    (hsplit : order = front ++ x :: back) (hx : p x = true) (hk : order.countP p ≤ k) :
    front.countP p < k := by
  rw [hsplit, countP_append, countP_cons_of_pos hx] at hk
  omega

/-- The ranks that a merge sort has recorded. -/
theorem LoopHolds.numbers {getValues : Nat → Nat → List.Vector Int n}
    {lt : LeafAndDocId n → LeafAndDocId n → Bool} {before : Nat × Nat → Nat × Nat → Prop}
    {pos : Nat → Nat} {s : MergeLoop n} (h : LoopHolds readers getValues lt before pos order s)
    (hsize : order.countP (isLiveDocument readers) ≤ 2147483648) :
    Numbers readers order ((readers.zip s.builders).map fun x => ⟨x.1.liveDocs, .sorted x.2⟩) := by
  have hget : ∀ (j : Nat) (reader : CodecReader) (map : MergeStateDocMap),
      readers[j]? = some reader → ((readers.zip s.builders).map fun x =>
        (⟨x.1.liveDocs, .sorted x.2⟩ : MergeStateDocMap))[j]? = some map →
      ∃ builder, s.builders[j]? = some builder ∧ map = ⟨reader.liveDocs, .sorted builder⟩ := by
    intro j reader map hreader hmap
    rw [getElem?_map, Option.map_eq_some_iff] at hmap
    obtain ⟨⟨reader', builder⟩, hzip, rfl⟩ := hmap
    obtain ⟨hreader', hbuilder⟩ := getElem?_zip_eq_some.mp hzip
    rw [hreader] at hreader'
    cases hreader'
    exact ⟨builder, hbuilder, rfl⟩
  refine ⟨by simp [h.builders_length], ?_, ?_⟩
  · intro j reader map d hreader hmap hd hdeleted
    obtain ⟨builder, -, rfl⟩ := hget j reader map hreader hmap
    unfold MergeStateDocMap.get
    rw [reader.isLive_eq hd, hdeleted]
    rfl
  · intro front j d back map horder hmap hlive
    have hmem : (j, d) ∈ order := horder ▸ mem_append_right _ mem_cons_self
    obtain ⟨hj, hpos⟩ := (h.merged.mem j d).mp hmem
    have hreader := getElem?_eq_getElem hj
    obtain ⟨builder, hbuilder, rfl⟩ := hget j _ map hreader hmap
    have hd : d < readers[j].maxDoc := by
      have := h.merged.pos_le j hj
      rw [readerDocs_eq hreader] at this
      omega
    have hrank := h.ranks front j d back horder
    rw [hbuilder, Option.bind_some] at hrank
    have hsmall := countP_front_lt horder hlive hsize
    unfold MergeStateDocMap.get
    dsimp only
    rw [readers[j].isLive_eq hd, ← isLiveDocument_eq hreader, hlive, ok_bind, if_pos rfl, packedGet,
      hrank, ok_bind, pure_eq_ok, asI_32_eq rfl hsmall]

namespace CodecReader

/-- The live documents among the first ones of a reader. -/
def liveBefore (reader : CodecReader) (d : Nat) : Nat :=
  (range d).countP reader.isLiveDoc

theorem liveBefore_of_none (h : reader.liveDocs = none) (d : Nat) : reader.liveBefore d = d := by
  have hall : ∀ i ∈ range d, reader.isLiveDoc i = true := by
    intro i _
    rw [isLiveDoc, h]
    rfl
  rw [liveBefore, countP_eq_length.mpr hall, length_range]

theorem liveBefore_of_some (h : reader.liveDocs = some bits) (hd : d ≤ bits.length) :
    reader.liveBefore d = (bits.take d).count true := by
  induction d with
  | zero => rfl
  | succ d ih =>
    have hlt : d < bits.length := by omega
    have hlive : reader.isLiveDoc d = bits[d] := by
      rw [isLiveDoc, h, Option.elim_some, getD_eq_getElem _ _ hlt]
    rw [liveBefore] at ih ⊢
    rw [range_succ, countP_append, ih (by omega), take_succ_eq_append_getElem hlt, count_append,
      countP_singleton, hlive, count_singleton]
    cases bits[d] <;> rfl

/-- All live documents. -/
theorem liveBefore_maxDoc (reader : CodecReader) :
    reader.liveBefore reader.maxDoc = reader.numDocs := by
  rw [reader.numDocs_eq]
  cases h : reader.liveDocs with
  | none => exact reader.liveBefore_of_none h _
  | some bits =>
    rw [← reader.liveDocs_length bits h, reader.liveBefore_of_some h (Nat.le_refl _), take_length]
    rfl

end CodecReader

/-- Before a document come those of the readers before its own, and those before it. -/
theorem allDocuments_split (hreader : readers[j]? = some reader) (hd : d < reader.maxDoc) :
    ∃ front back, allDocuments readers = front ++ (j, d) :: back ∧
      front.countP (isLiveDocument readers) =
        ((readers.take j).map CodecReader.numDocs).sum + reader.liveBefore d := by
  have hcount : ∀ (j : Nat) (reader : CodecReader) (d : Nat), readers[j]? = some reader →
      ((range d).map fun d => (j, d)).countP (isLiveDocument readers) = reader.liveBefore d := by
    intro j reader d hreader
    rw [countP_map, CodecReader.liveBefore]
    exact countP_congr fun i _ => by
      rw [Function.comp_apply, isLiveDocument_eq hreader]
  have hreaders : ∀ j, j ≤ readers.length →
      (streamElements j (readerDocs readers)).countP (isLiveDocument readers) =
        ((readers.take j).map CodecReader.numDocs).sum := by
    intro j hj
    induction j with
    | zero => rfl
    | succ j ih =>
      have hlt : j < readers.length := by omega
      have hreader := getElem?_eq_getElem hlt
      rw [streamElements_succ, countP_append, ih (by omega), hcount j _ _ hreader,
        readerDocs_eq hreader, CodecReader.liveBefore_maxDoc, take_succ_eq_append_getElem hlt,
        map_append, sum_append]
      simp
  have hj : j < readers.length := (List.getElem_of_getElem? hreader).1
  obtain ⟨back, hsplit⟩ := streamElements_split hj (show d < readerDocs readers j from
    (readerDocs_eq hreader).symm ▸ hd)
  refine ⟨_, back, hsplit, ?_⟩
  rw [countP_append, hreaders j hj.le, hcount j reader d hreader]

/-- The live documents before one. -/
theorem getElem?_removeDeletesLoop (hd : d < bits.length) (i del : Int) :
    (removeDeletesLoop bits i del)[d]? = some (i - del + ((bits.take d).count true : Nat)) := by
  induction bits generalizing d i del with
  | nil => exact absurd hd (Nat.not_lt_zero _)
  | cons live bits ih =>
    rw [removeDeletesLoop]
    cases d with
    | zero => simp
    | succ d =>
      rw [getElem?_cons_succ, ih (Nat.lt_of_succ_lt_succ hd), take_succ_cons, count_cons]
      cases live
      · simp
      · simp
        omega

/-- The map of a reader. -/
theorem getElem?_buildDeletionDocMaps (readers : List CodecReader) (base : Int)
    (hreader : readers[j]? = some reader) :
    (buildDeletionDocMaps readers (asI 32 base))[j]? = some ⟨reader.liveDocs,
      .deletions (reader.liveDocs.map fun bits => removeDeletes reader.maxDoc bits)
        (asI 32 (base + (((readers.take j).map CodecReader.numDocs).sum : Nat)))⟩ := by
  induction readers generalizing base j with
  | nil => cases hreader
  | cons r readers ih =>
    cases j with
    | zero =>
      cases hreader
      rw [take_zero, map_nil, sum_nil, Nat.cast_zero, add_zero]
      rfl
    | succ j =>
      rw [buildDeletionDocMaps, getElem?_cons_succ, asI_asI_add, ih _ hreader, take_succ_cons,
        map_cons, sum_cons, Nat.cast_add, add_assoc]

theorem length_buildDeletionDocMaps (readers : List CodecReader) (base : Int) :
    (buildDeletionDocMaps readers base).length = readers.length := by
  induction readers generalizing base with
  | nil => rfl
  | cons r readers ih => rw [buildDeletionDocMaps, length_cons, ih, length_cons]

/-- Without a sort the documents are numbered reader after reader. -/
theorem numbers_deletions
    (hsize : (allDocuments readers).countP (isLiveDocument readers) ≤ 2147483648) :
    Numbers readers (allDocuments readers) (buildDeletionDocMaps readers 0) := by
  have hget : ∀ (j : Nat) (reader : CodecReader) (map : MergeStateDocMap),
      readers[j]? = some reader → (buildDeletionDocMaps readers 0)[j]? = some map →
      map = ⟨reader.liveDocs,
        .deletions (reader.liveDocs.map fun bits => removeDeletes reader.maxDoc bits)
          (asI 32 (((readers.take j).map CodecReader.numDocs).sum : Nat))⟩ := by
    intro j reader map hreader hmap
    have hbase := getElem?_buildDeletionDocMaps readers 0 hreader
    rw [show asI 32 0 = 0 from rfl, hmap, zero_add] at hbase
    exact Option.some.inj hbase
  refine ⟨length_buildDeletionDocMaps readers 0, ?_, ?_⟩
  · intro j reader map d hreader hmap hd hdeleted
    rw [hget j reader map hreader hmap]
    unfold MergeStateDocMap.get
    cases hbits : reader.liveDocs with
    | none =>
      rw [CodecReader.isLiveDoc, hbits] at hdeleted
      cases hdeleted
    | some bits =>
      have hlive := reader.isLive_eq hd
      rw [hbits, isLive, hdeleted] at hlive
      dsimp only [Option.map_some]
      rw [hlive]
      rfl
  · intro front j d back map hsplit hmap hlive
    have hmem : (j, d) ∈ allDocuments readers := hsplit ▸ mem_append_right _ mem_cons_self
    obtain ⟨hj, hd⟩ := mem_streamElements.mp hmem
    have hreader := getElem?_eq_getElem hj
    rw [readerDocs_eq hreader] at hd
    obtain ⟨front', back', hsplit', hcount⟩ := allDocuments_split hreader hd
    -- no document occurs twice, so the list splits in one way
    have hfront : front = front' := by
      refine eq_of_append_cons_eq ?_ (hsplit.symm.trans hsplit')
      rw [← hsplit]
      exact streamElements_nodup
    have hsmall := countP_front_lt hsplit hlive hsize
    rw [← hfront] at hcount
    rw [hget j _ map hreader hmap]
    unfold MergeStateDocMap.get
    cases hbits : readers[j].liveDocs with
    | none =>
      rw [CodecReader.liveBefore_of_none hbits] at hcount
      dsimp only [Option.map_none]
      rw [asI_asI_add, ← Nat.cast_add, ← hcount, asI_32_eq rfl hsmall]
    | some bits =>
      have hlen := readers[j].liveDocs_length bits hbits
      have hbit := readers[j].isLive_eq hd
      rw [hbits, isLive, ← isLiveDocument_eq hreader, hlive] at hbit
      rw [CodecReader.liveBefore_of_some hbits (by omega)] at hcount
      have hplace : packedGet (removeDeletes readers[j].maxDoc bits) d =
          .ok (((bits.take d).count true : Nat) : Int) := by
        rw [packedGet, removeDeletes, take_of_length_le hlen.le,
          getElem?_removeDeletesLoop (by omega)]
        simp
      dsimp only [Option.map_some]
      rw [hbit, ok_bind, if_pos rfl, hplace, ok_bind, pure_eq_ok, asI_asI_add,
        asI_32_eq rfl (by omega), ← Nat.cast_add, ← hcount, asI_32_eq rfl hsmall]

end

/-! ## Sorting readers -/

section

variable {readers : List CodecReader}

/-- A merge sort of readers numbers their documents in the order of the sort. It finds nothing to do
exactly if they stand in this order already. -/
theorem sortWithProviders_spec
    {values : Nat → Nat → List.Vector Int muls.length} (hrev : IsReverse single muls)
    (ho : StreamOrder readers.length (readerDocs readers) (PlacedBefore (valuesKey muls values)))
    (hnonempty : ∀ reader ∈ readers, 0 < reader.maxDoc) (hcount : readers.length < 2147483647) :
    ∃ order result, sortWithProviders single readers muls values = .ok result ∧
      order.Perm (allDocuments readers) ∧
      order.Pairwise (PlacedBefore (valuesKey muls values)) ∧
      (result = none ↔ order = allDocuments readers) ∧
      ∀ maps, result = some maps → order.countP (isLiveDocument readers) ≤ 2147483648 →
        Numbers readers order maps := by
  have hlt := isComparison_lessThan hrev
  obtain ⟨q, hnew, hmax, hholds⟩ := PriorityQueue.new_holds (lessThan single muls) hcount
  obtain ⟨q', hadd, hholds'⟩ := foldlM_addLeaf values hlt readers.zipIdx hholds (by simp [hmax])
  obtain ⟨s, pos, order, hloop, hs, hdone⟩ := (loopHolds_start hnonempty hholds').mergeLoop hrev ho
    (readers.map CodecReader.maxDoc).sum (by rw [length_allDocuments]; simp)
  have hperm : order.Perm (allDocuments readers) := hs.merged.perm ho hdone
  have hresult : sortWithProviders single readers muls values = .ok (if s.isSorted then none else
      some ((readers.zip s.builders).map fun x => ⟨x.1.liveDocs, .sorted x.2⟩)) := by
    unfold sortWithProviders
    rw [hnew, ok_bind, hadd, ok_bind, hloop, ok_bind]
    split <;> rfl
  have hsorted : s.isSorted = true ↔ order = allDocuments readers := by
    rw [hs.sorted]
    constructor
    · exact hs.merged.eq_streamElements ho hdone
    · rintro rfl
      refine streamElements_pairwise.imp fun {x y} hlex => ?_
      omega
  refine ⟨order, _, hresult, hperm, hs.merged.sorted, ?_, fun maps hmaps hsize => ?_⟩
  · rw [← hsorted]
    cases s.isSorted <;> simp
  · split at hmaps
    · cases hmaps
    · cases hmaps
      exact hs.numbers hsize

/-- The key of a document: its values for all fields, negated for reversed ones. -/
def documentKey (fields : List SortField) (comparables : List (List (Nat → Int)))
    (x : Nat × Nat) : List Int :=
  valuesKey (fields.map reverseMul) (documentValues _ comparables) x

theorem isReverse_fields (fields : List SortField) :
    IsReverse (fields.length == 1) (fields.map reverseMul) := by
  refine ⟨fun m hm => ?_, fun hsingle => ?_⟩
  · obtain ⟨field, -, rfl⟩ := mem_map.mp hm
    unfold reverseMul
    split
    · exact .inr rfl
    · exact .inl rfl
  · rw [length_map]
    exact beq_iff_eq.mp hsingle

/-- The values of a reader. -/
theorem wrapProviders_getElem? {providers wrapped : List (Nat → Int)}
    (h : wrapProviders readers providers k = .ok wrapped) (hreader : readers[j]? = some reader) :
    ∃ provider w, wrapped[j]? = some w ∧ wrapProvider reader provider = .ok w := by
  induction readers generalizing providers wrapped j k with
  | nil => cases hreader
  | cons r readers ih =>
    cases providers with
    | nil => cases h
    | cons provider providers =>
      obtain ⟨w, hw, h⟩ := bind_eq_ok.mp h
      obtain ⟨rest, hrest, h⟩ := bind_eq_ok.mp h
      cases h
      cases j with
      | zero =>
        cases hreader
        exact ⟨provider, w, rfl, hw⟩
      | succ j =>
        obtain ⟨provider', w', hw', hwrap⟩ := ih hrest hreader
        exact ⟨provider', w', hw', hwrap⟩

/-- Documents with one parent have one key. -/
theorem documentKey_eq_of_parent {fields : List SortField} {comparables : List (List (Nat → Int))}
    (hcomp : fields.mapM (fieldComparables readers) = .ok comparables)
    (hreader : readers[j]? = some reader) (hblocks : reader.hasBlocks = true)
    (hfield : reader.parentField.isSome = true) {parents : List Nat}
    (hparents : reader.parentDocs = some parents)
    (hsame : nextSetBit parents d = nextSetBit parents d') :
    documentKey fields comparables (j, d) = documentKey fields comparables (j, d') := by
  have hvalues : documentValues (fields.map reverseMul).length comparables j d =
      documentValues _ comparables j d' := by
    refine congrArg List.Vector.ofFn (funext fun f => ?_)
    cases hc : comparables[f.val]? with
    | none => rfl
    | some comparable =>
      obtain ⟨field, -, hfieldComp⟩ := mem_of_mapM_eq_ok hcomp (mem_of_getElem? hc)
      unfold fieldComparables at hfieldComp
      split at hfieldComp
      · cases hfieldComp
      · obtain ⟨provider, w, hw, hwrap⟩ := wrapProviders_getElem? hfieldComp hreader
        obtain ⟨name, hname⟩ := Option.isSome_iff_exists.mp hfield
        rw [wrapProvider, if_pos hblocks, hname, hparents] at hwrap
        cases hwrap
        simp only [Option.bind_some, hw, Option.map_some, hsame]
  unfold documentKey valuesKey
  rw [hvalues]

/-- Between two documents of one reader with one key there are only the documents between them. -/
theorem between_same_key
    (hsorted : ∀ j reader, readers[j]? = some reader → ∀ d d', d < d' → d' < reader.maxDoc →
      key (j, d) ≤ key (j, d')) (hperm : order.Perm (allDocuments readers))
    (horder : order.Pairwise (PlacedBefore key)) (hreader : readers[j]? = some reader) (hd : d < d')
    (hd' : d' < reader.maxDoc) (hkey : key (j, d) = key (j, d')) :
    ∃ front mid back, order = (front ++ (j, d) :: mid) ++ (j, d') :: back ∧
      mid.countP (isLiveDocument readers) =
        (range' (d + 1) (d' - d - 1)).countP reader.isLiveDoc := by
  have ho := streamOrder hsorted
  have hj : j < readers.length := (List.getElem_of_getElem? hreader).1
  have hdocs := readerDocs_eq hreader
  have hmem : ∀ e, e < reader.maxDoc → (j, e) ∈ order := fun e he =>
    hperm.mem_iff.mpr (mem_streamElements.mpr ⟨hj, hdocs.symm ▸ he⟩)
  obtain ⟨front, rest, hsplit⟩ := append_of_mem (hmem d (by omega))
  rw [hsplit] at horder
  obtain ⟨-, hrest, hfront⟩ := pairwise_append.mp horder
  obtain ⟨hafter, hrest⟩ := pairwise_cons.mp hrest
  have hlater : ∀ e, d < e → e < reader.maxDoc → (j, e) ∈ rest := by
    intro e hde he
    have hbefore := ho.sorted hj hde (hdocs.symm ▸ he)
    have hin := hmem e he
    rw [hsplit, mem_append, mem_cons] at hin
    rcases hin with hin | hin | hin
    · exact absurd (hfront _ hin _ mem_cons_self) (ho.asymm hbefore)
    · exact absurd (Prod.mk.inj hin).2 (by omega)
    · exact hin
  obtain ⟨mid, back, hsplit'⟩ := append_of_mem (hlater d' hd hd')
  rw [hsplit'] at hrest hafter hlater
  obtain ⟨hmid, hback, hmidback⟩ := pairwise_append.mp hrest
  refine ⟨front, mid, back, by rw [hsplit, hsplit']; simp, ?_⟩
  have hmidmem : ∀ x, x ∈ mid ↔ x ∈ (range' (d + 1) (d' - d - 1)).map fun e => (j, e) := by
    intro x
    rw [mem_map]
    constructor
    · intro hx
      have hlow := hafter x (mem_append_left _ hx)
      have hhigh := hmidback x hx _ mem_cons_self
      -- the key is squeezed between equal ones
      have heq : key x = key (j, d) :=
        le_antisymm ((key_le_of_place_lt hhigh).trans hkey.ge) (key_le_of_place_lt hlow)
      have hlow' := (place_lt_iff heq.symm).mp hlow
      have hhigh' := (place_lt_iff (heq.trans hkey)).mp hhigh
      refine ⟨x.2, mem_range'_1.mpr (by omega), Prod.ext (by omega) rfl⟩
    · rintro ⟨e, he, rfl⟩
      have hrange := mem_range'_1.mp he
      have hin := hlater e (by omega) (by omega)
      rw [mem_append, mem_cons] at hin
      rcases hin with hin | hin | hin
      · exact hin
      · exact absurd (Prod.mk.inj hin).2 (by omega)
      · have hbefore := (pairwise_cons.mp hback).1 _ hin
        exact absurd hbefore (ho.asymm (ho.sorted hj (by omega) (hdocs.symm ▸ hd')))
  have hnodup : mid.Nodup := by
    refine hmid.imp ?_
    rintro x y hxy rfl
    exact lt_irrefl _ hxy
  have hmidperm : mid.Perm ((range' (d + 1) (d' - d - 1)).map fun e => (j, e)) :=
    (perm_ext_iff_of_nodup hnodup
      (List.Nodup.map (fun e e' h => (Prod.mk.inj h).2) nodup_range')).mpr hmidmem
  rw [hmidperm.countP_eq, countP_map]
  exact countP_congr fun e _ => by rw [Function.comp_apply, isLiveDocument_eq hreader]

/-- The maps of a merge with an index sort: the live documents of all readers, and no others, are
numbered in the order of the sort, then of their readers and then of their numbers. Readers that are
only put one after another stand in this order, and with a parent field blocks stay together. -/
theorem buildDocMaps_merged {fields : List SortField} {readers : List CodecReader}
    {comparables : List (List (Nat → Int))}
    (hcomp : fields.mapM (fieldComparables readers) = .ok comparables)
    (hnonempty : ∀ reader ∈ readers, 0 < reader.maxDoc)
    (hsorted : ∀ j reader, readers[j]? = some reader → ∀ d d', d < d' → d' < reader.maxDoc →
      documentKey fields comparables (j, d) ≤ documentKey fields comparables (j, d'))
    (hcount : readers.length < 2147483647) (hsize : (liveDocuments readers).length ≤ maxDocs) :
    ∃ sorted maps, buildDocMaps (some fields) readers = .ok (sorted, maps) ∧
      maps.length = readers.length ∧
      (∀ (j : Nat) (reader : CodecReader) (map : MergeStateDocMap) (d : Nat),
        readers[j]? = some reader → maps[j]? = some map → d < reader.maxDoc →
          reader.isLiveDoc d = false → map.get d = .ok (-1)) ∧
      (∃ merged : List (Nat × Nat), merged.Perm (liveDocuments readers) ∧
        (merged.Pairwise fun x y =>
          place (documentKey fields comparables) x < place (documentKey fields comparables) y) ∧
        ∀ (i j d : Nat) (map : MergeStateDocMap), merged[i]? = some (j, d) →
          maps[j]? = some map → map.get d = .ok (i : Int)) ∧
      (sorted = false → (allDocuments readers).Pairwise fun x y =>
        place (documentKey fields comparables) x < place (documentKey fields comparables) y) ∧
      ∀ (j : Nat) (reader : CodecReader) (parents : List Nat) (map : MergeStateDocMap) (d d' : Nat),
        readers[j]? = some reader → reader.hasBlocks = true → reader.parentField.isSome = true →
          reader.parentDocs = some parents → nextSetBit parents d = nextSetBit parents d' →
          maps[j]? = some map → d < d' → d' < reader.maxDoc → reader.isLiveDoc d = true →
          reader.isLiveDoc d' = true → ∃ k : Nat, map.get d = .ok (k : Int) ∧
            map.get d' = .ok ((k + (range' d (d' - d)).countP reader.isLiveDoc : Nat) : Int) := by
  have ho := streamOrder hsorted
  obtain ⟨order, result, hresult, hperm, horder, hnone, hsome⟩ :=
    sortWithProviders_spec (isReverse_fields fields) ho hnonempty hcount
  have hlive : order.countP (isLiveDocument readers) ≤ 2147483648 := by
    rw [hperm.countP_eq, countP_eq_length_filter]
    exact hsize.trans (by decide)
  have hsort : MultiSorter.sort fields readers = .ok result := by
    unfold MultiSorter.sort
    rw [hcomp, ok_bind]
    exact hresult
  -- both kinds of maps number the documents in this order
  obtain ⟨sorted, maps, hmaps, hnumbers, hfallback⟩ : ∃ sorted maps,
      buildDocMaps (some fields) readers = .ok (sorted, maps) ∧ Numbers readers order maps ∧
        (sorted = false → order = allDocuments readers) := by
    unfold buildDocMaps
    dsimp only
    rw [hsort, ok_bind]
    cases result with
    | none =>
      have hall := hnone.mp rfl
      refine ⟨_, _, rfl, ?_, fun _ => hall⟩
      rw [hall] at hlive ⊢
      exact numbers_deletions hlive
    | some maps => exact ⟨_, _, rfl, hsome maps rfl hlive, fun h => absurd h (by decide)⟩
  refine ⟨sorted, maps, hmaps, hnumbers.length_eq, hnumbers.deleted,
    ⟨order.filter (isLiveDocument readers), hperm.filter _, horder.filter _, ?_⟩,
    fun h => hfallback h ▸ horder, ?_⟩
  · intro i j d map hi hmap
    obtain ⟨front, back, hsplit, hlive, hcount⟩ := getElem?_filter_eq_some hi
    rw [← hcount]
    exact hnumbers.live front j d back map hsplit hmap hlive
  · intro j reader parents map d d' hreader hblocks hfield hparents hsame hmap hd hd' hlive hlive'
    have hkey := documentKey_eq_of_parent hcomp hreader hblocks hfield hparents hsame
    obtain ⟨front, mid, back, hsplit, hmid⟩ :=
      between_same_key hsorted hperm horder hreader hd hd' hkey
    have hget' := hnumbers.live _ j d' back map hsplit hmap
      (by rw [isLiveDocument_eq hreader]; exact hlive')
    rw [append_assoc, cons_append] at hsplit
    have hget := hnumbers.live _ j d _ map hsplit hmap
      (by rw [isLiveDocument_eq hreader]; exact hlive)
    refine ⟨_, hget, ?_⟩
    rw [hget', countP_append, countP_cons, isLiveDocument_eq hreader, hlive, hmid,
      show d' - d = (d' - d - 1) + 1 by omega, range'_succ, countP_cons_of_pos hlive]
    simp

/-- A reader with a block of two documents and a deleted one. -/
def blockReader : CodecReader where
  maxDoc := 3
  liveDocs := some [true, true, false]
  numDocs := 2
  hasBlocks := true
  parentField := some "parent"
  parentDocs := some [1, 2]
  createdVersionMajor := 10
  liveDocs_length := by
    rintro bits ⟨⟩
    rfl
  numDocs_eq := rfl

/-- Two documents, none of them deleted. -/
def plainReader : CodecReader where
  maxDoc := 2
  liveDocs := none
  numDocs := 2
  hasBlocks := false
  parentField := some "parent"
  parentDocs := none
  createdVersionMajor := 10
  liveDocs_length := by
    rintro bits ⟨⟩
  numDocs_eq := rfl

/-- Descending values: 7 for the block, 5 and 8, 3 for the others. -/
def descending : SortField :=
  ⟨"rank", true, some [fun doc => if doc = 1 then 7 else 5, fun doc => if doc = 0 then 8 else 3]⟩

/-- Two readers, one of them with blocks and a deleted document. -/
theorem buildDocMaps_merged_blockReader :
    ∃ sorted maps map k, buildDocMaps (some [descending]) [blockReader, plainReader] =
        .ok (sorted, maps) ∧ maps[0]? = some map ∧ map.get 2 = .ok (-1) ∧
      map.get 0 = .ok ((k : Nat) : Int) ∧ map.get 1 = .ok ((k + 1 : Nat) : Int) := by
  obtain ⟨sorted, maps, hmaps, hlength, hdeleted, -, -, hblock⟩ := @buildDocMaps_merged [descending]
    [blockReader, plainReader] [[fun doc => if nextSetBit [1, 2] doc = 1 then 7 else 5,
      fun doc => if doc = 0 then 8 else 3]] rfl (by decide) (by
        rintro (_ | _ | j) reader hreader d d' hd hd'
        · cases hreader
          change d' < 3 at hd'
          interval_cases d' <;> interval_cases d <;> decide +kernel
        · cases hreader
          change d' < 2 at hd'
          obtain ⟨rfl, rfl⟩ : d = 0 ∧ d' = 1 := by omega
          decide +kernel
        · cases hreader) (by decide) (by decide +kernel)
  obtain ⟨map, hmap⟩ : ∃ map, maps[0]? = some map :=
    ⟨_, getElem?_eq_getElem (hlength ▸ (by decide : 0 < [blockReader, plainReader].length))⟩
  obtain ⟨k, hzero, hone⟩ := hblock 0 blockReader [1, 2] map 0 1 rfl rfl rfl rfl rfl hmap
    (by decide) (by decide) rfl rfl
  exact ⟨sorted, maps, map, k, hmaps, hmap,
    hdeleted 0 blockReader map 2 rfl hmap (by decide) rfl, hzero, hone⟩

/-- A reader of an index that was created before version 10. Its two documents are a block, and it
has no parent field. -/
def oldBlockReader : CodecReader where
  maxDoc := 2
  liveDocs := none
  numDocs := 2
  hasBlocks := true
  parentField := none
  parentDocs := none
  createdVersionMajor := 9
  liveDocs_length := by
    rintro bits ⟨⟩
  numDocs_eq := rfl

/-- A reader with a single document. -/
def singleReader : CodecReader where
  maxDoc := 1
  liveDocs := none
  numDocs := 1
  hasBlocks := false
  parentField := none
  parentDocs := none
  createdVersionMajor := 9
  liveDocs_length := by
    rintro bits ⟨⟩
  numDocs_eq := rfl

/-- The values of the block are 1 and 3, that of the other document is 2. -/
def ascending : SortField :=
  ⟨"rank", false, some [fun doc => if doc = 0 then 1 else 3, fun _ => 2]⟩

/-- The document of the other reader comes between the two of the block. -/
theorem buildDocMaps_oldBlockReader :
    documentKey [ascending] [[fun doc => if doc = 0 then 1 else 3, fun _ => 2]] (0, 0) ≤
      documentKey [ascending] [[fun doc => if doc = 0 then 1 else 3, fun _ => 2]] (0, 1) ∧
    ((buildDocMaps (some [ascending]) [oldBlockReader, singleReader]).map fun r =>
      (r.1, r.2.map fun map => map.get 0, r.2.head?.map fun map => map.get 1)) =
        .ok (true, [.ok 0, .ok 1], some (.ok 2)) := by
  decide +kernel

/-! ## Merging without a sort -/

variable {maps : List MergeStateDocMap} {front back : List (Nat × Nat)}

/-- What the map of a reader has for a document. -/
def mappedDoc (maps : List MergeStateDocMap) (j : Nat) (doc : Int) : Int :=
  ((maps[j]?.map (·.get doc.toNat)).bind Except.toOption).getD (-1)

/-- A sub for each reader, over all of its documents. -/
def readerSubs (readers : List CodecReader) (maps : List MergeStateDocMap) : List Sub :=
  (range readers.length).map fun j =>
    ⟨(range (readerDocs readers j)).map Nat.cast, -1, mappedDoc maps j, 0⟩

/-- Where a document goes, unless it is deleted. -/
def mapped? (maps : List MergeStateDocMap) (x : Nat × Nat) : Option (Nat × Int × Int) :=
  if mappedDoc maps x.1 x.2 ≠ -1 then some (x.1, x.2, mappedDoc maps x.1 x.2) else none

/-- The elements to merge are the live documents. -/
theorem elements_readerSubs : elements 0 ((readerSubs readers maps).map Sub.live) =
    (allDocuments readers).filterMap (mapped? maps) := by
  have hzip : (range readers.length).zipIdx = (range readers.length).map fun j => (j, j) :=
    ext_getElem (by simp) (by simp)
  simp only [elements, readerSubs, map_map, zipIdx_map, hzip, flatMap_map, allDocuments,
    streamElements, filterMap_flatMap, filterMap_map]
  refine flatMap_congr fun j _ => ?_
  simp [Sub.live, map_filterMap, filterMap_map, mapped?, apply_ite, Function.comp_def]

/-- From any document on, the mapped ones are the live ones with their ranks. -/
theorem Numbers.filterMap_eq (h : Numbers readers (allDocuments readers) maps)
    (hsplit : allDocuments readers = front ++ back) : back.filterMap (mapped? maps) =
      ((back.filter (isLiveDocument readers)).zipIdx (front.countP (isLiveDocument readers))).map
        fun x => (x.1.1, (x.1.2 : Int), (x.2 : Int)) := by
  induction back generalizing front with
  | nil => rfl
  | cons x back ih =>
    obtain ⟨hj, hd⟩ := mem_streamElements.mp (hsplit ▸ by simp : x ∈ allDocuments readers)
    have hreader := getElem?_eq_getElem hj
    have hmap := getElem?_eq_getElem (h.length_eq ▸ hj)
    rw [readerDocs_eq hreader] at hd
    have hrest := @ih (front ++ [x]) (by simpa using hsplit)
    cases hx : isLiveDocument readers x with
    | false =>
      have hget := h.deleted _ _ _ _ hreader hmap hd (isLiveDocument_eq hreader x.2 ▸ hx)
      simpa [mapped?, mappedDoc, hmap, hget, hx, Except.toOption] using hrest
    | true =>
      have hget := h.live front _ _ _ _ hsplit hmap hx
      simpa [mapped?, mappedDoc, hmap, hget, hx, Except.toOption] using hrest

/-- Every live document is returned once, reader after reader, with the numbers from zero on. -/
theorem merge_unsorted (hne : readers ≠ []) (hsize : (liveDocuments readers).length ≤ 2147483647) :
    ∃ maps m, buildDocMaps none readers = .ok (false, maps) ∧
      DocIDMerger.ofWithMaxCount (readerSubs readers maps) readers.length false = .ok m ∧
      m.Returns ((liveDocuments readers).zipIdx.map fun x =>
        (x.1.1, (x.1.2 : Int), (x.2 : Int))) := by
  have hnumbers := @numbers_deletions readers (by
    rw [countP_eq_length_filter]
    exact hsize.trans (by decide))
  have hall := elements_readerSubs.trans (hnumbers.filterMap_eq (nil_append _).symm)
  refine ⟨_, _, rfl, rfl, ?_⟩
  cases hsubs : readerSubs readers (buildDeletionDocMaps readers 0) with
  | nil => simp [readerSubs, hne] at hsubs
  | cons sub subs =>
    rw [hsubs] at hall
    have hat : SequentialDocIDMerger.At ⟨sub :: subs, some 0, 1⟩ [] sub subs := ⟨rfl, rfl, rfl⟩
    refine hat.returns hall fun y hy => ?_
    obtain ⟨x, hx, rfl⟩ := mem_map.mp (Eq.mp (congrArg (y ∈ ·) hall) hy)
    have hlt : x.2 < (liveDocuments readers).length := snd_lt_of_mem_zipIdx hx
    exact Int.ofNat_lt.mpr (hlt.trans_le hsize)

/-- Two readers that are not sorted. -/
theorem merge_unsorted_two : ∃ maps m,
    buildDocMaps none [blockReader, plainReader] = .ok (false, maps) ∧
    DocIDMerger.ofWithMaxCount (readerSubs [blockReader, plainReader] maps) 2 false = .ok m ∧
    m.Returns [(0, 0, 0), (0, 1, 1), (1, 0, 2), (1, 1, 3)] :=
  merge_unsorted (by decide) (by decide)

end

end RLucene.Index
