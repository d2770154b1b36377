import RLucene.Search.DocIdSetIterator
import RLucene.Util.PriorityQueue

/-!
# Merging the documents of subs

A merge goes through the documents of several subs, each of which maps its documents to those of the
merged segment and deleted ones to -1. Without an index sort the subs follow each other. With one,
the sub that was returned last stays outside the queue of the others, and is compared with the least
document in there, which is kept beside the queue.

A sub is seen through the documents that it has still to return and the one that it is on.
`Returns` describes the calls of `next` up to `None`.
-/

namespace RLucene.Index

open List Lib Store Search Util
open Multiset (cons_add mem_add cons_coe add_cons)

/-! ## Subs -/

/-- The documents of one segment and where they go. -/
structure Sub where
  docs : List Int
  doc : Int
  docMap : Int → Int
  mappedDocId : Int

namespace Sub

/-- The loop over `next_doc`, which skips documents that are not mapped. -/
def advance (s : Sub) : List Int → Sub
  | [] => { s with docs := [], doc := noMoreDocs, mappedDocId := noMoreDocs }
  | doc :: docs =>
    if s.docMap doc ≠ -1 then { s with docs, doc, mappedDocId := s.docMap doc }
    else s.advance docs

/-- The next document that is not deleted, where it goes. -/
def nextMappedDoc (s : Sub) : Int × Sub :=
  let s := s.advance s.docs
  (s.mappedDocId, s)

/-- The mapped documents that are left, with what they are mapped to. -/
def live (s : Sub) : List (Int × Int) :=
  s.docs.filterMap fun doc => if s.docMap doc ≠ -1 then some (doc, s.docMap doc) else none

/-- The same, with the document that the sub is on. -/
def ahead (s : Sub) : List (Int × Int) :=
  (s.doc, s.mappedDocId) :: s.live

/-- The next live document, or the end. -/
theorem nextMappedDoc_spec (s : Sub) :
    s.nextMappedDoc.2.live = s.live.tail ∧ s.nextMappedDoc.1 = s.nextMappedDoc.2.mappedDocId ∧
      (s.nextMappedDoc.2.doc, s.nextMappedDoc.2.mappedDocId) =
        s.live.headD (noMoreDocs, noMoreDocs) := by
  unfold nextMappedDoc live
  induction s.docs with
  | nil => exact ⟨rfl, rfl, rfl⟩
  | cons doc docs ih =>
    rw [advance, filterMap_cons]
    split
    · exact ⟨rfl, rfl, rfl⟩
    · exact ih

end Sub

/-! ## One sub after the other -/

/-- One segment after the other. -/
structure SequentialDocIDMerger where
  subs : List Sub
  current : Option Nat
  nextIndex : Nat

namespace SequentialDocIDMerger

/-- Start with the first segment. -/
def reset (m : SequentialDocIDMerger) : SequentialDocIDMerger :=
  if m.subs ≠ [] then { m with current := some 0, nextIndex := 1 }
  else { m with current := none, nextIndex := 0 }

/-- A merger of the segments. -/
def new (subs : List Sub) : SequentialDocIDMerger :=
  reset ⟨subs, none, 0⟩

/-- Go on to the next segment that has a document. -/
def nextLoop : Nat → SequentialDocIDMerger → Result (Option Nat × SequentialDocIDMerger)
  | 0, m => .ok (none, m)
  | fuel + 1, m =>
    match m.current with
    | none => .error (.illegalState "current is None")
    | some current =>
      match m.subs[current]? with
      | none => .error .indexOutOfBounds
      | some sub =>
        let (nextMappedDoc, sub) := sub.nextMappedDoc
        let m := { m with subs := m.subs.set current sub }
        if nextMappedDoc ≠ noMoreDocs then .ok (some current, m)
        else if m.nextIndex = m.subs.length then .ok (none, { m with current := none })
        else nextLoop fuel { m with current := some m.nextIndex, nextIndex := m.nextIndex + 1 }

/-- The segment of the next document. -/
def next (m : SequentialDocIDMerger) : Result (Option Nat × SequentialDocIDMerger) :=
  nextLoop (m.subs.length + 1) m

end SequentialDocIDMerger

/-! ## In the order of an index sort -/

/-- Where the current document of a segment goes. -/
def mappedDocId (subs : List Sub) (i : Nat) : Int :=
  (subs[i]?.map Sub.mappedDocId).getD noMoreDocs

/-- The order of the queue. -/
def SubCompare.lessThan (subs : List Sub) (a b : Nat) : Bool :=
  decide (mappedDocId subs a < mappedDocId subs b)

/-- The segments in the order of where their documents go. -/
structure SortedDocIDMerger where
  subs : List Sub
  current : Option Nat
  queue : PriorityQueue Nat
  queueMinDocId : Int

namespace SortedDocIDMerger

/-- Note where the first document of the queue goes. -/
def setQueueMinDocId (m : SortedDocIDMerger) : SortedDocIDMerger :=
  { m with queueMinDocId :=
      match m.queue.top with
      | some top => mappedDocId m.subs top
      | none => noMoreDocs }

/-- A sub goes into the queue, unless it has no documents. -/
def resetSub (m : SortedDocIDMerger) (i : Nat) : Result SortedDocIDMerger :=
  match m.subs[i]? with
  | none => .error .indexOutOfBounds
  | some sub =>
    let (mapped, sub) := sub.nextMappedDoc
    let m := { m with subs := m.subs.set i sub }
    if mapped ≠ noMoreDocs then do
      let queue ← m.queue.add (SubCompare.lessThan m.subs) i
      return { m with queue }
    else .ok m

/-- The first sub is the current one, as if its document before the first had been returned. -/
def reset (m : SortedDocIDMerger) : Result SortedDocIDMerger := do
  let m := { m with
    queue := { m.queue with heap := [] }
    current := if m.subs = [] then none else some 0
    subs := m.subs.modify 0 fun sub => { sub with mappedDocId := -1 } }
  let m ← (List.range' 1 (m.subs.length - 1)).foldlM resetSub m
  return m.setQueueMinDocId

/-- A merger of more than one segment. -/
def new (subs : List Sub) (maxCount : Nat) : Result SortedDocIDMerger :=
  if maxCount ≤ 1 then .error (.illegalArgument "")
  else do
    let queue ← PriorityQueue.new (maxCount - 1)
    reset ⟨subs, none, queue, 0⟩

/-- The next current sub, if the one that was advanced does not stay it. -/
def exchange (m : SortedDocIDMerger) (current : Nat) (nextDoc : Int) : SortedDocIDMerger :=
  match m.queue.top with
  | none => if nextDoc = noMoreDocs then { m with current := none } else m
  | some top =>
    if nextDoc = noMoreDocs then
      { m with queue := (m.queue.pop (SubCompare.lessThan m.subs)).2, current := some top }
    else { m with
      queue := m.queue.updateTopWithNewTop (SubCompare.lessThan m.subs) current
      current := some top }

/-- The segment of the next document. -/
def next (m : SortedDocIDMerger) : Result (Option Nat × SortedDocIDMerger) :=
  match m.current with
  | none => .error (.illegalState "current is None")
  | some current =>
    match m.subs[current]? with
    | none => .error .indexOutOfBounds
    | some sub =>
      let (nextDoc, sub) := sub.nextMappedDoc
      let m := { m with subs := m.subs.set current sub }
      if nextDoc < m.queueMinDocId then .ok (some current, m)
      else
        let m := (m.exchange current nextDoc).setQueueMinDocId
        .ok (m.current, m)

end SortedDocIDMerger

/-- The mergers. -/
inductive DocIDMerger where
  | sequential (merger : SequentialDocIDMerger)
  | sorted (merger : SortedDocIDMerger)

namespace DocIDMerger

/-- The segments. -/
def getSubs : DocIDMerger → List Sub
  | sequential m => m.subs
  | sorted m => m.subs

/-- Start again. -/
def reset : DocIDMerger → Result DocIDMerger
  | sequential m => .ok (sequential m.reset)
  | sorted m => do return sorted (← m.reset)

/-- The segment of the next document. -/
def next : DocIDMerger → Result (Option Nat × DocIDMerger)
  | sequential m => do
    let (current, m) ← m.next
    return (current, sequential m)
  | sorted m => do
    let (current, m) ← m.next
    return (current, sorted m)

/-- The merger for segments that are sorted or not. -/
def ofWithMaxCount (subs : List Sub) (maxCount : Nat) (indexIsSorted : Bool) : Result DocIDMerger :=
  if indexIsSorted && 1 < maxCount then do return sorted (← SortedDocIDMerger.new subs maxCount)
  else .ok (sequential (.new subs))

/-- What `next` returns until `None`: the number of a sub, with the document that this sub is on. -/
inductive Returns : DocIDMerger → List (Nat × Int × Int) → Prop where
  | done {m m' : DocIDMerger} : m.next = .ok (none, m') → Returns m []
  | step {m m' : DocIDMerger} {j : Nat} {sub : Sub} {rest : List (Nat × Int × Int)} :
      m.next = .ok (some j, m') → m'.getSubs[j]? = some sub → Returns m' rest →
      Returns m ((j, sub.doc, sub.mappedDocId) :: rest)

theorem next_sequential {m m' : SequentialDocIDMerger} {current : Option Nat}
    (h : m.next = .ok (current, m')) : (sequential m).next = .ok (current, sequential m') := by
  rw [next, h]
  rfl

theorem next_sorted {m m' : SortedDocIDMerger} {current : Option Nat}
    (h : m.next = .ok (current, m')) : (sorted m).next = .ok (current, sorted m') := by
  rw [next, h]
  rfl

end DocIDMerger

/-! ## All documents -/

/-- The documents of lists, list after list, with the numbers of the lists. -/
def elements (k : Nat) (lists : List (List (Int × Int))) : List (Nat × Int × Int) :=
  (lists.zipIdx k).flatMap fun x => x.1.map fun y => (x.2, y)

/-- Every list is in the order of the mapped documents, and no two documents are mapped to one. -/
structure Mergeable (lists : List (List (Int × Int))) : Prop where
  increasing : ∀ l ∈ lists, l.Pairwise fun x y => x.2 < y.2
  injective : ((elements 0 lists).map fun x => x.2.2).Nodup
  lt : ∀ x ∈ elements 0 lists, x.2.2 < noMoreDocs

variable {lists : List (List (Int × Int))} {j k : Nat} {x : Int × Int} {xs : List (Int × Int)}

theorem elements_cons (k : Nat) (l : List (Int × Int)) (lists : List (List (Int × Int))) :
    elements k (l :: lists) = (l.map fun y => (k, y)) ++ elements (k + 1) lists := by
  rfl

/-- An element comes from its list. -/
theorem mem_elements {y : Nat × Int × Int} (h : y ∈ elements 0 lists) :
    ∃ l, lists[y.1]? = some l ∧ y.2 ∈ l := by
  obtain ⟨⟨l, i⟩, hmem, hy⟩ := mem_flatMap.mp h
  obtain ⟨z, hz, rfl⟩ := mem_map.mp hy
  exact ⟨l, mem_zipIdx_iff_getElem?.mp hmem, hz⟩

/-- One document is taken from the front of its list. -/
theorem elements_set (h : lists[j]? = some (x :: xs)) :
    elements k lists ~ (k + j, x) :: elements k (lists.set j xs) := by
  induction lists generalizing j k with
  | nil => cases h
  | cons l lists ih =>
    cases j with
    | zero =>
      cases h
      rfl
    | succ j =>
      rw [set_cons_succ, elements_cons, elements_cons, show k + (j + 1) = k + 1 + j by omega]
      exact ((ih h).append_left _).trans perm_middle

theorem mem_elements_of (h : lists[j]? = some (x :: xs)) : (j, x) ∈ elements 0 lists := by
  rw [(elements_set h).mem_iff, zero_add]
  exact mem_cons_self

/-- The lists stay so when one goes on. -/
theorem Mergeable.set (h : Mergeable lists) (hj : lists[j]? = some (x :: xs)) :
    Mergeable (lists.set j xs) ∧ ∀ y ∈ elements 0 (lists.set j xs), x.2 ≠ y.2.2 := by
  have hperm := elements_set (k := 0) hj
  have hnodup := (hperm.map _).nodup_iff.mp h.injective
  rw [map_cons, nodup_cons] at hnodup
  refine ⟨⟨fun l hl => ?_, hnodup.2, fun y hy => ?_⟩, fun y hy heq => ?_⟩
  · rcases mem_or_eq_of_mem_set hl with hl | rfl
    · exact h.increasing l hl
    · exact (h.increasing _ (mem_of_getElem? hj)).of_cons
  · exact h.lt y (hperm.mem_iff.mpr (mem_cons_of_mem _ hy))
  · exact hnodup.1 (mem_map.mpr ⟨y, hy, heq.symm⟩)

/-! ## The sequential merger -/

namespace SequentialDocIDMerger

variable {m : SequentialDocIDMerger} {front back : List Sub} {sub : Sub}

/-- The merger is at the sub between the front and the back. -/
structure At (m : SequentialDocIDMerger) (front : List Sub) (sub : Sub) (back : List Sub) :
    Prop where
  subs : m.subs = front ++ sub :: back
  current : m.current = some front.length
  nextIndex : m.nextIndex = front.length + 1

/-- The documents left. -/
def left (front : List Sub) (sub : Sub) (back : List Sub) : List (Nat × Int × Int) :=
  elements front.length ((sub :: back).map Sub.live)

/-- The next document, or the end of all segments. -/
theorem At.nextLoop {fuel : Nat} (h : m.At front sub back) (hfuel : back.length < fuel)
    (hlt : ∀ y ∈ left front sub back, y.2.2 < noMoreDocs) :
    (left front sub back = [] ∧ ∃ m', nextLoop fuel m = .ok (none, m')) ∨
      ∃ m' front' sub' back', nextLoop fuel m = .ok (some front'.length, m') ∧
        m'.At front' sub' back' ∧ left front sub back =
          (front'.length, sub'.doc, sub'.mappedDocId) :: left front' sub' back' := by
  induction fuel generalizing m front sub back with
  | zero => omega
  | succ fuel ih =>
    obtain ⟨hlive, hmapped, hat⟩ := sub.nextMappedDoc_spec
    have hget : m.subs[front.length]? = some sub := by simp [h.subs]
    have hset : m.subs.set front.length sub.nextMappedDoc.2 =
        front ++ sub.nextMappedDoc.2 :: back := by
      simp [h.subs]
    unfold SequentialDocIDMerger.nextLoop
    simp only [h.current, hget, hset, h.nextIndex, hmapped]
    cases hdocs : sub.live with
    | cons x xs =>
      rw [hdocs] at hlive hat
      have hx : x.2 < noMoreDocs := hlt (front.length, x) (by simp [left, elements_cons, hdocs])
      obtain rfl : _ = x := hat
      rw [if_pos hx.ne]
      refine .inr ⟨_, front, _, back, rfl, ⟨rfl, rfl, rfl⟩, ?_⟩
      simp only [left, map_cons, elements_cons, hdocs, hlive, tail_cons, cons_append]
    | nil =>
      rw [hdocs] at hlive hat
      have hend : sub.nextMappedDoc.2.mappedDocId = noMoreDocs := congrArg Prod.snd hat
      rw [if_neg (not_not.mpr hend)]
      cases back with
      | nil => exact .inl ⟨by simp [left, elements, hdocs], _, by simp; rfl⟩
      | cons next back =>
        have hleft : left front sub (next :: back) =
            left (front ++ [sub.nextMappedDoc.2]) next back := by
          simp [left, elements_cons, hdocs]
        rw [hleft] at hlt ⊢
        rw [if_neg (by simp)]
        refine ih ⟨by simp, by simp, by simp⟩ ?_ hlt
        rw [length_cons] at hfuel
        omega

theorem At.length_lt (h : m.At front sub back) : back.length < m.subs.length + 1 := by
  rw [h.subs, length_append, length_cons]
  omega

/-- The segments one after the other. -/
theorem At.returns {outs : List (Nat × Int × Int)} (h : m.At front sub back)
    (houts : left front sub back = outs) (hlt : ∀ y ∈ left front sub back, y.2.2 < noMoreDocs) :
    DocIDMerger.Returns (.sequential m) outs := by
  induction outs generalizing m front sub back with
  | nil =>
    rcases h.nextLoop h.length_lt hlt with ⟨-, m', hnext⟩ | ⟨_, _, _, _, -, -, hcons⟩
    · exact .done (DocIDMerger.next_sequential hnext)
    · cases hcons.symm.trans houts
  | cons y outs ih =>
    rcases h.nextLoop h.length_lt hlt with ⟨hnil, -⟩ | ⟨m', front', sub', back', hnext, hat, hcons⟩
    · cases hnil.symm.trans houts
    · cases hcons.symm.trans houts
      refine .step (DocIDMerger.next_sequential hnext) ?_ (ih hat rfl fun y hy => ?_)
      · simp [DocIDMerger.getSubs, hat.subs]
      · exact hlt y (hcons ▸ mem_cons_of_mem _ hy)

end SequentialDocIDMerger

/-! ## The sorted merger -/

namespace SortedDocIDMerger

variable {subs : List Sub} {left : List (List (Int × Int))} {c : Nat} {s : Sub}
  {pending items : Multiset Nat}

/-- The documents left are those of the sub. -/
def Left (subs : List Sub) (left : List (List (Int × Int))) (docs : Sub → List (Int × Int))
    (j : Nat) : Prop :=
  ∃ s, subs[j]? = some s ∧ left[j]? = some (docs s)

/-- The subs that are pending are before the first of their documents, the items are on it, and the
others have no documents left. -/
structure Standing (subs : List Sub) (left : List (List (Int × Int)))
    (pending items : Multiset Nat) : Prop where
  nodup : (pending + items).Nodup
  before : ∀ j ∈ pending, Left subs left Sub.live j
  on : ∀ j ∈ items, Left subs left Sub.ahead j
  others : ∀ (j : Nat) l, left[j]? = some l → j ∉ pending + items → l = []

/-- A segment is in one place only. -/
theorem Standing.notMem (h : Standing subs left (c ::ₘ pending) items) :
    c ∉ items ∧ c ∉ pending + items ∧ (pending + items).Nodup := by
  have hnodup := h.nodup
  rw [cons_add] at hnodup
  obtain ⟨hc, hrest⟩ := Multiset.nodup_cons.mp hnodup
  exact ⟨fun hmem => hc (mem_add.mpr (.inr hmem)), hc, hrest⟩

theorem mappedDocId_of (hs : subs[j]? = some s) : mappedDocId subs j = s.mappedDocId := by
  rw [mappedDocId, hs]
  rfl

/-- The document of a sub is returned, and it is pending. -/
theorem Standing.take (h : Standing subs left 0 (j ::ₘ items)) :
    ∃ s, subs[j]? = some s ∧ left[j]? = some s.ahead ∧
      Standing subs (left.set j s.live) (j ::ₘ 0) items := by
  obtain ⟨s, hs, hleft⟩ := h.on j (Multiset.mem_cons_self j items)
  have hj := (List.getElem_of_getElem? hleft).1
  have hnodup := h.nodup
  rw [Multiset.zero_add] at hnodup
  refine ⟨s, hs, hleft, hnodup, fun i hi => ?_, fun i hi => ?_, fun i l hl hi => ?_⟩
  · rw [Multiset.mem_singleton.mp hi]
    exact ⟨s, hs, getElem?_set_self hj⟩
  · have hne : j ≠ i := (ne_of_mem_of_not_mem hi (Multiset.nodup_cons.mp hnodup).1).symm
    rw [Left, getElem?_set_ne hne]
    exact h.on i (Multiset.mem_cons_of_mem hi)
  · have hne : j ≠ i := by
      rintro rfl
      exact hi (Multiset.mem_cons_self _ _)
    rw [getElem?_set_ne hne] at hl
    rw [cons_add, Multiset.zero_add, ← Multiset.zero_add (j ::ₘ items)] at hi
    exact h.others i l hl hi

/-- A pending sub goes to its next document, if it has one. -/
theorem Standing.advance (h : Standing subs left (c ::ₘ pending) items) (hs : subs[c]? = some s) :
    (s.nextMappedDoc.1 = noMoreDocs ∧ Standing (subs.set c s.nextMappedDoc.2) left pending items) ∨
      Standing (subs.set c s.nextMappedDoc.2) left pending (c ::ₘ items) := by
  obtain ⟨_, hs', hleft⟩ := h.before c (Multiset.mem_cons_self c pending)
  cases hs.symm.trans hs'
  obtain ⟨hlive, hmapped, hat⟩ := s.nextMappedDoc_spec
  obtain ⟨-, hc, hrest⟩ := h.notMem
  have hother : ∀ j ∈ pending + items, (subs.set c s.nextMappedDoc.2)[j]? = subs[j]? :=
    fun j hj => getElem?_set_ne (ne_of_mem_of_not_mem hj hc).symm
  have hbefore : ∀ j ∈ pending, Left (subs.set c s.nextMappedDoc.2) left Sub.live j := by
    intro j hj
    rw [Left, hother j (mem_add.mpr (.inl hj))]
    exact h.before j (Multiset.mem_cons_of_mem hj)
  have hon : ∀ j ∈ items, Left (subs.set c s.nextMappedDoc.2) left Sub.ahead j := by
    intro j hj
    rw [Left, hother j (mem_add.mpr (.inr hj))]
    exact h.on j hj
  cases hdocs : s.live with
  | nil =>
    rw [hdocs] at hat hleft
    refine .inl ⟨hmapped.trans (congrArg Prod.snd hat), hrest, hbefore, hon, fun j l hl hj => ?_⟩
    by_cases heq : j = c
    · subst heq
      exact Option.some.inj (hl.symm.trans hleft)
    · exact h.others j l hl (by simpa [heq] using hj)
  | cons x xs =>
    rw [hdocs] at hat hleft hlive
    have hswap : pending + c ::ₘ items = c ::ₘ pending + items := by
      rw [cons_add, add_cons]
    refine .inr ⟨hswap ▸ h.nodup, hbefore, fun j hj => ?_, fun j l hl hj => h.others j l hl ?_⟩
    · rcases Multiset.mem_cons.mp hj with rfl | hj
      · refine ⟨_, getElem?_set_self (List.getElem_of_getElem? hs).1, ?_⟩
        rw [hleft, Sub.ahead, hlive, hat]
        rfl
      · exact hon j hj
    · rwa [← hswap]

/-- A segment in the queue has a document. -/
theorem Standing.lt (h : Standing subs left pending items) (hm : Mergeable left) (hj : j ∈ items) :
    mappedDocId subs j < noMoreDocs := by
  obtain ⟨s, hs, hleft⟩ := h.on j hj
  rw [mappedDocId_of hs]
  exact hm.lt _ (mem_elements_of hleft)

/-- A document that is not behind one that a sub is on is not behind any. -/
theorem Standing.least (h : Standing subs left 0 items) (hm : Mergeable left) {v : Int}
    (hv : ∀ j ∈ items, v ≤ mappedDocId subs j) : ∀ y ∈ elements 0 left, v ≤ y.2.2 := by
  intro y hy
  obtain ⟨l, hl, hmem⟩ := mem_elements hy
  by_cases hj : y.1 ∈ items
  · obtain ⟨s, hs, hleft⟩ := h.on _ hj
    cases hl.symm.trans hleft
    have hle := mappedDocId_of hs ▸ hv _ hj
    rcases mem_cons.mp hmem with heq | htail
    · rw [heq]
      exact hle
    · have hlt := rel_of_pairwise_cons (hm.increasing _ (mem_of_getElem? hl)) htail
      exact hle.trans hlt.le
  · rw [h.others _ l hl (by rwa [Multiset.zero_add])] at hmem
    cases hmem

/-! ### Steps -/

/-- The queue holds the other subs, and its least document is known. -/
structure Merging (m : SortedDocIDMerger) (left : List (List (Int × Int))) (c : Nat)
    (items : Multiset Nat) : Prop where
  current : m.current = some c
  holds : m.queue.Holds (SubCompare.lessThan m.subs) items
  min : m.setQueueMinDocId = m
  standing : Standing m.subs left (c ::ₘ 0) items

/-- The queue is ordered. -/
theorem lessThan_isComparison (subs : List Sub) : IsComparison (SubCompare.lessThan subs) :=
  isComparison_lt (mappedDocId subs)

theorem mappedDocId_set (h : c ≠ j) : mappedDocId (subs.set c s) j = mappedDocId subs j := by
  rw [mappedDocId, getElem?_set_ne h, mappedDocId]

/-- The queue does not see that a sub outside it moves. -/
theorem holds_set {q : PriorityQueue Nat} (h : q.Holds (SubCompare.lessThan subs) items)
    (hc : c ∉ items) (s : Sub) : q.Holds (SubCompare.lessThan (subs.set c s)) items := by
  refine h.congr fun a ha b hb => ?_
  rw [SubCompare.lessThan, mappedDocId_set (ne_of_mem_of_not_mem ha hc).symm,
    mappedDocId_set (ne_of_mem_of_not_mem hb hc).symm, SubCompare.lessThan]

variable {m : SortedDocIDMerger}

/-- What is known of the first document of the queue. -/
theorem Merging.queueMin (h : m.Merging left c items) :
    (m.queue.top = none ∧ items = 0 ∧ m.queueMinDocId = noMoreDocs) ∨
      ∃ t rest, m.queue.top = some t ∧ items = t ::ₘ rest ∧ m.queueMinDocId = mappedDocId m.subs t ∧
        ∀ j ∈ items, m.queueMinDocId ≤ mappedDocId m.subs j := by
  have hmin := congrArg queueMinDocId h.min
  cases htop : m.queue.top with
  | none =>
    simp only [setQueueMinDocId, htop] at hmin
    exact .inl ⟨rfl, h.holds.top_eq_none.mp htop, hmin.symm⟩
  | some t =>
    simp only [setQueueMinDocId, htop] at hmin
    obtain ⟨rest, hitems, hleast⟩ := h.holds.top (lessThan_isComparison _) htop
    refine .inr ⟨t, rest, rfl, hitems, hmin.symm, fun j hj => ?_⟩
    rw [← hmin]
    exact not_lt.mp (of_decide_eq_false (hleast j hj))

/-- The least document has been returned: its sub is the current one now. -/
def Took (m : SortedDocIDMerger) (left : List (List (Int × Int))) (j : Nat) : Prop :=
  ∃ s items, m.subs[j]? = some s ∧ left[j]? = some s.ahead ∧
    m.Merging (left.set j s.live) j items ∧ ∀ y ∈ elements 0 left, s.mappedDocId ≤ y.2.2

/-- The first segment of the queue is taken. -/
theorem Standing.took (h : Standing m.subs left 0 (j ::ₘ items)) (hm : Mergeable left)
    (hcurrent : m.current = some j) (hholds : m.queue.Holds (SubCompare.lessThan m.subs) items)
    (hleast : ∀ i ∈ items, mappedDocId m.subs j ≤ mappedDocId m.subs i) :
    m.setQueueMinDocId.Took left j := by
  obtain ⟨s, hs, hleft, hafter⟩ := h.take
  refine ⟨s, items, hs, hleft, ⟨hcurrent, hholds, rfl, hafter⟩, ?_⟩
  rw [← mappedDocId_of hs]
  refine h.least hm fun i hi => ?_
  rcases Multiset.mem_cons.mp hi with rfl | hi
  · exact le_rfl
  · exact hleast i hi

/-- One call. -/
theorem Merging.next (h : m.Merging left c items) (hm : Mergeable left) :
    (elements 0 left = [] ∧ ∃ m', m.next = .ok (none, m')) ∨
      ∃ j m', m.next = .ok (some j, m') ∧ m'.Took left j := by
  obtain ⟨s, hs, -⟩ := h.standing.before c (Multiset.mem_cons_self c 0)
  have hc := h.standing.notMem.1
  have hholds := holds_set h.holds hc s.nextMappedDoc.2
  have hsame : ∀ j ∈ items, mappedDocId (m.subs.set c s.nextMappedDoc.2) j = mappedDocId m.subs j :=
    fun j hj => mappedDocId_set (ne_of_mem_of_not_mem hj hc).symm
  have hself : s.nextMappedDoc.1 = mappedDocId (m.subs.set c s.nextMappedDoc.2) c :=
    (mappedDocId_of (getElem?_set_self (List.getElem_of_getElem? hs).1)).symm
  unfold SortedDocIDMerger.next
  simp only [h.current, hs, exchange]
  rcases h.queueMin with ⟨htop, rfl, hmin⟩ | ⟨t, rest, htop, rfl, hmin, hleast⟩
  · -- the current sub is the last one with documents
    simp only [htop, hmin]
    rcases h.standing.advance hs with ⟨hend, hstanding⟩ | hstanding
    · rw [if_neg (by rw [hend]; exact lt_irrefl _), if_pos hend]
      refine .inl ⟨eq_nil_iff_forall_not_mem.mpr fun y hy => ?_, _, rfl⟩
      obtain ⟨l, hl, hmem⟩ := mem_elements hy
      rw [hstanding.others _ l hl (Multiset.notMem_zero _)] at hmem
      cases hmem
    · rw [if_pos (hself ▸ hstanding.lt hm (Multiset.mem_cons_self c _))]
      have htook := hstanding.took (m := { m with subs := m.subs.set c s.nextMappedDoc.2 }) hm
        h.current hholds (by simp)
      refine .inr ⟨c, _, rfl, ?_⟩
      simpa only [setQueueMinDocId, htop, hmin, h.current] using htook
  · have ht := Multiset.mem_cons_self t rest
    have hleast' : ∀ j ∈ t ::ₘ rest, mappedDocId (m.subs.set c s.nextMappedDoc.2) t ≤
        mappedDocId (m.subs.set c s.nextMappedDoc.2) j := by
      intro j hj
      rw [hsame t ht, hsame j hj, ← hmin]
      exact hleast j hj
    rw [← hsame t ht] at hmin
    simp only [htop, hmin]
    rcases h.standing.advance hs with ⟨hend, hstanding⟩ | hstanding
    · rw [if_neg (by rw [hend]; exact (hstanding.lt hm ht).le.not_gt), if_pos hend]
      refine .inr ⟨t, _, rfl, hstanding.took hm rfl ?_ fun j hj => ?_⟩
      · exact (hholds.pop (lessThan_isComparison _) htop rfl).2
      · exact hleast' j (Multiset.mem_cons_of_mem hj)
    · by_cases hless : s.nextMappedDoc.1 < mappedDocId (m.subs.set c s.nextMappedDoc.2) t
      · rw [if_pos hless]
        have htook := hstanding.took (m := { m with subs := m.subs.set c s.nextMappedDoc.2 }) hm
          h.current hholds fun j hj => (hself ▸ hless.le).trans (hleast' j hj)
        refine .inr ⟨c, _, rfl, ?_⟩
        simpa only [setQueueMinDocId, htop, hmin, h.current] using htook
      · have hne : s.nextMappedDoc.1 ≠ noMoreDocs :=
          hself ▸ (hstanding.lt hm (Multiset.mem_cons_self c _)).ne
        rw [if_neg hless, if_neg hne]
        rw [Multiset.cons_swap] at hstanding
        refine .inr ⟨t, _, rfl, hstanding.took hm rfl ?_ fun j hj => ?_⟩
        · exact hholds.updateTop (lessThan_isComparison _) htop rfl c
        · rcases Multiset.mem_cons.mp hj with rfl | hj
          · exact hself ▸ not_lt.mp hless
          · exact hleast' j (Multiset.mem_cons_of_mem hj)

/-- All documents in their order. -/
theorem Merging.returns (h : m.Merging left c items) (hm : Mergeable left) :
    ∃ outs, DocIDMerger.Returns (.sorted m) outs ∧ outs ~ elements 0 left ∧
      outs.Pairwise fun x y => x.2.2 < y.2.2 := by
  -- on the number of documents left
  generalize hn : (elements 0 left).length = n
  induction n generalizing m left c items with
  | zero =>
    rw [length_eq_zero_iff] at hn
    rcases h.next hm with ⟨-, m', hnext⟩ | ⟨j, m', -, s, _, -, hleft, -⟩
    · exact ⟨[], .done (DocIDMerger.next_sorted hnext), hn ▸ .nil, .nil⟩
    · cases hn ▸ mem_elements_of hleft
  | succ n ih =>
    rcases h.next hm with ⟨hnil, -⟩ | ⟨j, m', hnext, s, items', hs, hleft, hmerging, hleast⟩
    · rw [hnil] at hn
      cases hn
    · have hperm := elements_set (k := 0) hleft
      rw [zero_add] at hperm
      obtain ⟨hm', hne⟩ := hm.set hleft
      obtain ⟨outs, hreturns, houts, hsorted⟩ :=
        ih hmerging hm' (Nat.succ.inj (hperm.length_eq.symm.trans hn))
      refine ⟨_, .step (DocIDMerger.next_sorted hnext) hs hreturns, (houts.cons _).trans hperm.symm,
        hsorted.cons fun y hy => ?_⟩
      have hmem := houts.mem_iff.mp hy
      exact lt_of_le_of_ne (hleast y (hperm.mem_iff.mpr (mem_cons_of_mem _ hmem))) (hne y hmem)

/-! ### Reset -/

/-- One segment. -/
theorem Standing.resetSub {i : Nat} (h : Standing m.subs left (i ::ₘ pending) items)
    (hm : Mergeable left)
    (hholds : m.queue.Holds (SubCompare.lessThan m.subs) items)
    (hroom : items.card < m.queue.maxSize) :
    ∃ m' items', m.resetSub i = .ok m' ∧ m'.current = m.current ∧
      m'.queue.maxSize = m.queue.maxSize ∧ items'.card ≤ items.card + 1 ∧
      m'.queue.Holds (SubCompare.lessThan m'.subs) items' ∧
        Standing m'.subs left pending items' := by
  obtain ⟨s, hs, -⟩ := h.before i (Multiset.mem_cons_self i pending)
  have hholds' := holds_set hholds h.notMem.1 s.nextMappedDoc.2
  unfold SortedDocIDMerger.resetSub
  simp only [hs]
  rcases h.advance hs with ⟨hend, hstanding⟩ | hstanding
  · rw [if_neg (not_not.mpr hend)]
    exact ⟨_, items, rfl, rfl, rfl, by omega, hholds', hstanding⟩
  · have hlt := hstanding.lt hm (Multiset.mem_cons_self i items)
    rw [mappedDocId_of (getElem?_set_self (List.getElem_of_getElem? hs).1)] at hlt
    obtain ⟨q, hadd, hmax, hadded⟩ :=
      hholds'.add (lessThan_isComparison _) i (PriorityQueue.lt_capacity hroom)
    rw [if_pos (show s.nextMappedDoc.1 ≠ noMoreDocs from hlt.ne), hadd]
    exact ⟨_, i ::ₘ items, rfl, rfl, hmax, by simp, hadded, hstanding⟩

/-- All segments. -/
theorem Standing.resetSubs {is : List Nat}
    (h : Standing m.subs left ((is : Multiset Nat) + pending) items) (hm : Mergeable left)
    (hholds : m.queue.Holds (SubCompare.lessThan m.subs) items)
    (hroom : items.card + is.length ≤ m.queue.maxSize) :
    ∃ m' items', is.foldlM SortedDocIDMerger.resetSub m = .ok m' ∧ m'.current = m.current ∧
      m'.queue.Holds (SubCompare.lessThan m'.subs) items' ∧
        Standing m'.subs left pending items' := by
  induction is generalizing m items with
  | nil => exact ⟨m, items, rfl, rfl, hholds, by simpa using h⟩
  | cons i is ih =>
    rw [← cons_coe, cons_add] at h
    rw [length_cons] at hroom
    obtain ⟨m₁, items₁, hsub, hcurrent, hmax, hcard, hholds₁, h₁⟩ := h.resetSub hm hholds (by omega)
    obtain ⟨m', items', hrun, hcurrent', hlast⟩ := ih h₁ hholds₁ (by omega)
    refine ⟨m', items', ?_, hcurrent'.trans hcurrent, hlast⟩
    rw [foldlM_cons, hsub]
    exact hrun

/-- Any merger over fresh subs is reset to one that is before all documents. -/
theorem reset_merging (hne : m.subs ≠ []) (hm : Mergeable (m.subs.map Sub.live))
    (hroom : m.subs.length - 1 ≤ m.queue.maxSize) :
    ∃ m' items, m.reset = .ok m' ∧ m'.Merging (m.subs.map Sub.live) 0 items := by
  obtain ⟨⟨⟩ | ⟨sub, subs⟩, current, queue, queueMinDocId⟩ := m
  · exact absurd rfl hne
  have hstart : Standing ({ sub with mappedDocId := -1 } :: subs) ((sub :: subs).map Sub.live)
      (((range' 1 subs.length : List Nat) : Multiset Nat) + 0 ::ₘ 0) 0 := by
    have hall : 0 :: range' 1 subs.length = range (subs.length + 1) := by
      rw [range_eq_range', range'_succ]
    rw [add_cons, Multiset.add_zero, cons_coe, hall]
    refine ⟨Multiset.add_zero _ ▸ nodup_range, fun j hj => ?_, fun j hj => ?_, fun j l hl hj => ?_⟩
    · cases j with
      | zero => exact ⟨_, rfl, rfl⟩
      | succ j =>
        have hlt : j < subs.length := by simpa using hj
        exact ⟨subs[j], by simp [hlt], by simp [hlt]⟩
    · cases hj
    · have hlt := (List.getElem_of_getElem? hl).1
      exact absurd (by simpa using hlt) hj
  obtain ⟨m', items, hrun, hcurrent, hholds, hstanding⟩ := hstart.resetSubs (m := ⟨_, some 0,
    { queue with heap := [] }, queueMinDocId⟩) hm (PriorityQueue.holds_nil _ _)
    (by simpa using hroom)
  refine ⟨m'.setQueueMinDocId, items, ?_, hcurrent, hholds, rfl, hstanding⟩
  simp [reset, hrun]

end SortedDocIDMerger

/-! ## Both mergers -/

namespace DocIDMerger

/-- A sorted merger has one sub outside its queue. -/
def HasRoom : DocIDMerger → Prop
  | sequential _ => True
  | sorted m => m.subs.length - 1 ≤ m.queue.maxSize

/-- Whether it merges sorted segments. -/
def isSorted : DocIDMerger → Bool
  | sequential _ => false
  | sorted _ => true

/-- All mapped documents, in the order of their own, or sub after sub. -/
def Enumerates (subs : List Sub) (isSorted : Bool) (outs : List (Nat × Int × Int)) : Prop :=
  if isSorted then
    outs ~ elements 0 (subs.map Sub.live) ∧ outs.Pairwise fun x y => x.2.2 < y.2.2
  else outs = elements 0 (subs.map Sub.live)

/-- After a reset all documents come, in their order. -/
theorem reset_returns {m : DocIDMerger} (hne : m.getSubs ≠ [])
    (hm : Mergeable (m.getSubs.map Sub.live)) (hroom : m.HasRoom) :
    ∃ m' outs, m.reset = .ok m' ∧ m'.Returns outs ∧ Enumerates m.getSubs m.isSorted outs := by
  cases m with
  | sequential m =>
    refine ⟨_, _, rfl, ?_, rfl⟩
    obtain ⟨⟨⟩ | ⟨sub, subs⟩, current, nextIndex⟩ := m
    · exact absurd rfl hne
    · have hat : SequentialDocIDMerger.At ⟨sub :: subs, some 0, 1⟩ [] sub subs := ⟨rfl, rfl, rfl⟩
      exact hat.returns rfl hm.lt
  | sorted m =>
    obtain ⟨m', items, hreset, hmerging⟩ := SortedDocIDMerger.reset_merging hne hm hroom
    obtain ⟨outs, hreturns, hperm, hsorted⟩ := hmerging.returns hm
    refine ⟨sorted m', outs, ?_, hreturns, hperm, hsorted⟩
    rw [reset, hreset]
    rfl

/-- A merger is made by a reset. -/
theorem ofWithMaxCount_eq_reset {subs : List Sub} {maxCount : Nat} (hcount : subs.length ≤ maxCount)
    (hmax : maxCount ≤ 2147483647) (indexIsSorted : Bool) :
    ∃ m : DocIDMerger, ofWithMaxCount subs maxCount indexIsSorted = m.reset ∧ m.getSubs = subs ∧
      m.HasRoom ∧ m.isSorted = (indexIsSorted && decide (1 < maxCount)) := by
  unfold ofWithMaxCount
  cases hsorted : indexIsSorted && decide (1 < maxCount) with
  | false => exact ⟨sequential ⟨subs, none, 0⟩, rfl, rfl, trivial, rfl⟩
  | true =>
    have hlt : 1 < maxCount := of_decide_eq_true (Bool.and_eq_true_iff.mp hsorted).2
    refine ⟨sorted ⟨subs, none, ⟨[], maxCount - 1⟩, 0⟩, ?_, rfl, Nat.sub_le_sub_right hcount 1, rfl⟩
    rw [if_pos rfl, SortedDocIDMerger.new, if_neg hlt.not_ge, PriorityQueue.new, if_neg (by omega)]
    rfl

/-- A new merger, and any merger over fresh subs after a reset, returns every mapped document once
and then `None`, each time with the sub on this document. -/
theorem docIDMerger_enumerates {subs : List Sub} (hne : subs ≠ [])
    (hm : Mergeable (subs.map Sub.live)) :
    (∀ m : DocIDMerger, m.getSubs = subs → m.HasRoom →
      ∃ m' outs, m.reset = .ok m' ∧ m'.Returns outs ∧ Enumerates subs m.isSorted outs) ∧
    ∀ maxCount indexIsSorted, subs.length ≤ maxCount → maxCount ≤ 2147483647 →
      ∃ m outs, ofWithMaxCount subs maxCount indexIsSorted = .ok m ∧ m.Returns outs ∧
        Enumerates subs (indexIsSorted && decide (1 < maxCount)) outs := by
  constructor
  · rintro m rfl hroom
    exact reset_returns hne hm hroom
  · intro maxCount indexIsSorted hcount hmax
    obtain ⟨m, hnew, rfl, hroom, hsorted⟩ := ofWithMaxCount_eq_reset hcount hmax indexIsSorted
    rw [hnew, ← hsorted]
    exact reset_returns hne hm hroom

/-- Two subs whose documents interleave, one with a deleted document. -/
theorem docIDMerger_enumerates_two : ∃ m outs,
    ofWithMaxCount [⟨[0, 1], -1, fun d => 2 * d, 0⟩, ⟨[0, 1], -1, fun d => 2 * d - 1, 0⟩] 2 true =
      .ok m ∧ m.Returns outs ∧
    Enumerates [⟨[0, 1], -1, fun d => 2 * d, 0⟩, ⟨[0, 1], -1, fun d => 2 * d - 1, 0⟩] true outs :=
  (docIDMerger_enumerates (by decide) ⟨by decide, by decide, by decide⟩).2 2 true (by decide)
    (by decide)

/-- Without subs there is no current one, and `next` fails at once. -/
theorem docIDMerger_no_subs : Mergeable (([] : List Sub).map Sub.live) ∧ ∃ m,
    ofWithMaxCount [] 0 true = .ok m ∧ m.next = .error (.illegalState "current is None") :=
  ⟨⟨by simp, by simp [elements], by simp [elements]⟩, _, rfl, rfl⟩

end DocIDMerger

end RLucene.Index
