import RLucene.Search.BooleanScorerCorrect

/-!
# Calls of the boolean scorer

The end of a window is computed in 32 bits, and that of the last window of the document space does
not fit. `score_works_iff` says that calls work in all builds exactly if they do not come there: a
build that checks additions panics, and one that does not goes on forever if one match is needed.
-/

namespace RLucene.Search

open List Lib Store Util
open Multiset (mem_add cons_ne_zero card_zero card_cons card_add mem_coe)

namespace BooleanScorer

variable {S D : Type} {ops : ScoreOps S D} {clauses : List (Clause S)} {s : BooleanScorer S D}
  {head tail : Queue S} {inHead inTail : Wrappers S} {place maxDoc minDoc : Int}
  {top w : DisiWrapper S} {hits : List (Hit S)} {calls : List (Int × Int)}
  {minShouldMatch rounds : Nat} {needsScores : Bool} (acceptDocs : Option (Nat → Bool))
  (checks : Bool)

/-- What a call hands to the collector and returns is right: the hits are the accepted matches of
the range, and no match lies between the range and the returned document. -/
structure CallCorrect (ops : ScoreOps S D) (clauses : List (Clause S)) (minShouldMatch : Nat)
    (needsScores : Bool) (acceptDocs : Option (Nat → Bool)) (minDoc maxDoc : Int)
    (hits : List (Hit S)) (result : Int) : Prop where
  collects : Collects ops clauses minShouldMatch needsScores acceptDocs minDoc maxDoc hits
  le_result : maxDoc ≤ result
  few : ∀ doc : Nat, maxDoc ≤ doc → doc < result → (matching clauses doc).length < minShouldMatch

/-- The call is done when the head stands beyond its range. -/
theorem Ready.done (h : Ready ops clauses s inHead inTail place) (htop : s.head.top = some top)
    (hplace : place ≤ maxDoc) (hdone : maxDoc ≤ top.doc) :
    CallCorrect ops clauses s.minShouldMatch s.needsScores acceptDocs place maxDoc [] top.doc := by
  obtain ⟨-, -, hleast⟩ := h.standing.top_le htop
  have hfew : ∀ doc : Nat, place ≤ doc → doc < top.doc →
      (matching clauses doc).length < s.minShouldMatch := by
    intro doc hp hlt
    exact h.few hp fun w hw => hlt.trans_le (hleast w hw)
  exact ⟨collects_nil fun doc hp hlt => hfew doc hp (hlt.trans_le hdone), hdone,
    fun doc hp hlt => hfew doc (hplace.trans hp) hlt⟩

theorem le_windowBase {place doc : Int} (hmod : place % size = 0) (hle : place ≤ doc) :
    place ≤ windowBase doc := by
  unfold windowBase
  unfold size at *
  omega

/-- There is no window behind the end of the call. -/
theorem scoreWindows_of_le (ops : ScoreOps S D) {doc : Int} (hdone : maxDoc ≤ doc) (rounds : Nat) :
    scoreWindows ops checks acceptDocs minDoc maxDoc rounds s doc = .ok (some ([], doc, s)) := by
  cases rounds <;> rw [scoreWindows, if_neg (by omega)]

/-- A scorer before a window of a call: the documents before `place` are done with, and the head
stands on `top`. -/
structure AtWindow (ops : ScoreOps S D) (clauses : List (Clause S)) (minDoc maxDoc : Int)
    (s : BooleanScorer S D) (inHead inTail : Wrappers S) (place : Int) (top : DisiWrapper S) :
    Prop where
  ready : Ready ops clauses s inHead inTail place
  top_eq : s.head.top = some top
  min_le : minDoc ≤ place
  le_max : place ≤ maxDoc
  head_after : ∀ w ∈ inHead, place ≤ w.doc
  aligned : place = minDoc ∨ place % size = 0 ∨ place = maxDoc

section

variable (hmin : 0 ≤ minDoc) (hmax : maxDoc ≤ noMoreDocs)

/-- The top has not been passed. -/
theorem AtWindow.le_top (h : AtWindow ops clauses minDoc maxDoc s inHead inTail place top) :
    place ≤ top.doc :=
  h.head_after top (h.ready.standing.top_mem h.top_eq)

include hmin hmax in
/-- One round of the loop: the next window is behind this one. -/
theorem AtWindow.scoreWindow (h : AtWindow ops clauses minDoc maxDoc s inHead inTail place top)
    (hlt : top.doc < maxDoc) (hrange : top.doc < lastWindow) :
    ∃ hits top' s' inHead' inTail' place',
      s.scoreWindow ops checks top.doc acceptDocs minDoc maxDoc = .ok (hits, top'.doc, s') ∧
      Moved ops clauses acceptDocs s place hits s' inHead' inTail' place' ∧
      AtWindow ops clauses minDoc maxDoc s' inHead' inTail' place' top' ∧ top.doc < place' := by
  have hplace := h.min_le
  have htop := h.le_top
  have hstart : place ≤ max minDoc (windowBase top.doc) := by
    rcases h.aligned with rfl | hmod | rfl
    · exact le_max_left _ _
    · exact (le_windowBase hmod htop).trans (le_max_right _ _)
    · omega
  obtain ⟨hits, top', s', inHead', inTail', place', hrun, htop', hmoved,
      hprogress, hle, haligned⟩ :=
    h.ready.scoreWindow acceptDocs checks h.top_eq hmin (by omega) hlt hmax hstart hrange
  exact ⟨hits, top', s', inHead', inTail', place', hrun, hmoved,
    ⟨hmoved.ready, htop', by omega, hle, hmoved.head_after, .inr haligned⟩, hprogress⟩

/-- The windows of a call from a scorer whose head stands on a document: the scorers and documents
that the loop of `score` comes to. -/
inductive Comes (ops : ScoreOps S D) (checks : Bool) (acceptDocs : Option (Nat → Bool))
    (minDoc maxDoc : Int) : BooleanScorer S D → Int → BooleanScorer S D → Int → Prop
  | here (s : BooleanScorer S D) (doc : Int) : Comes ops checks acceptDocs minDoc maxDoc s doc s doc
  | window {s s' s'' : BooleanScorer S D} {doc doc' doc'' : Int} {hits : List (Hit S)} :
    doc < maxDoc → s.scoreWindow ops checks doc acceptDocs minDoc maxDoc = .ok (hits, doc', s') →
    Comes ops checks acceptDocs minDoc maxDoc s' doc' s'' doc'' →
    Comes ops checks acceptDocs minDoc maxDoc s doc s'' doc''

include hmin hmax in
/-- The loop over the windows, as long as it comes to no document of the last one. -/
theorem AtWindow.scoreWindows (rounds : Nat)
    (h : AtWindow ops clauses minDoc maxDoc s inHead inTail place top)
    (hbelow : ∀ s' doc', Comes ops checks acceptDocs minDoc maxDoc s top.doc s' doc' →
      doc' < maxDoc → doc' < lastWindow)
    (hrounds : maxDoc ≤ top.doc + rounds) :
    ∃ hits result s' inHead' inTail',
      scoreWindows ops checks acceptDocs minDoc maxDoc rounds s top.doc =
        .ok (some (hits, result, s')) ∧
      Comes ops checks acceptDocs minDoc maxDoc s top.doc s' result ∧
      CallCorrect ops clauses s.minShouldMatch s.needsScores acceptDocs place maxDoc hits result ∧
      Ready ops clauses s' inHead' inTail' maxDoc ∧
      s'.minShouldMatch = s.minShouldMatch ∧ s'.needsScores = s.needsScores := by
  induction rounds generalizing s inHead inTail place top with
  | zero =>
    have hdone : maxDoc ≤ top.doc := by simpa using hrounds
    exact ⟨[], top.doc, s, inHead, inTail, scoreWindows_of_le acceptDocs checks ops hdone _,
      .here _ _, h.ready.done acceptDocs h.top_eq h.le_max hdone, h.ready.mono h.le_max, rfl, rfl⟩
  | succ rounds ih =>
    by_cases hlt : top.doc < maxDoc
    · obtain ⟨hits, top', s', inHead', inTail', place', hrun, hmoved, hnext, hprogress⟩ :=
        h.scoreWindow acceptDocs checks hmin hmax hlt (hbelow s top.doc (.here _ _) hlt)
      have htop' := hnext.le_top
      obtain ⟨more, result, s'', inHead'', inTail'', hrun', hcomes, hcorrect,
          hready, hmsm, hneeds⟩ :=
        ih hnext (fun s'' doc'' hcomes => hbelow s'' doc'' (.window hlt hrun hcomes))
          (by push_cast at hrounds; omega)
      rw [hmoved.minShouldMatch_eq, hmoved.needsScores_eq] at hcorrect
      have hplace := h.le_top
      refine ⟨hits ++ more, result, s'', inHead'', inTail'', ?_, .window hlt hrun hcomes,
        ⟨hmoved.collects.append hcorrect.collects (by omega) hnext.le_max, hcorrect.le_result,
          hcorrect.few⟩,
        hready, hmsm.trans hmoved.minShouldMatch_eq, hneeds.trans hmoved.needsScores_eq⟩
      rw [BooleanScorer.scoreWindows, if_pos hlt]
      simp only [hrun, hrun', ok_bind, pure_eq_ok, Option.map_some]
    · rw [not_lt] at hlt
      exact ⟨[], top.doc, s, inHead, inTail, scoreWindows_of_le acceptDocs checks ops hlt _,
        .here _ _, h.ready.done acceptDocs h.top_eq h.le_max hlt, h.ready.mono h.le_max, rfl, rfl⟩

end

/-- Advancing leaves the scorer before the first window of the call. -/
theorem Ready.advance (h : Ready ops clauses s inHead inTail place) (hplace : place ≤ minDoc)
    (hle : minDoc ≤ maxDoc) (hmax : minDoc ≤ noMoreDocs) :
    ∃ top s' inHead' inTail', s.advance minDoc = .ok (top, s') ∧
      AtWindow ops clauses minDoc maxDoc s' inHead' inTail' minDoc top ∧
      s'.minShouldMatch = s.minShouldMatch ∧ s'.needsScores = s.needsScores := by
  obtain ⟨first, rest, -, hrest, -⟩ := h.exists_top
  have hfuel : before minDoc (inHead + inTail) < s.head.size + s.tail.size + 1 := by
    have := Multiset.countP_le_card (fun w : DisiWrapper S => w.doc < minDoc) (inHead + inTail)
    rw [h.standing.head.size_eq, h.standing.tail.size_eq, ← card_add]
    exact Nat.lt_succ_of_le this
  obtain ⟨head', tail', inHead', inTail', hrun, hadvanced, hhead⟩ :=
    (h.mono hplace).standing.advanceQueues hmax _ (by rw [hrest]; exact cons_ne_zero) hfuel
  have hrefilled : Refilled clauses minDoc s.head s.tail head' tail' inHead' inTail' :=
    ⟨hadvanced.standing, hadvanced.head_maxSize, hadvanced.tail_maxSize,
      hadvanced.head_card.trans h.head_card, hadvanced.tail_card.trans h.tail_card,
      hadvanced.clauses.trans h.clauses_eq, hhead⟩
  have hready : Ready ops clauses { s with head := head', tail := tail' } inHead' inTail' minDoc :=
    hrefilled.ready ⟨h.clean.shows, h.clean.without⟩ h.two_le h.le_length
      h.head_maxSize h.tail_maxSize
  obtain ⟨top, -, htop, -, -⟩ := hready.exists_top
  refine ⟨top, _, inHead', inTail', ?_, ⟨hready, htop, le_rfl, hle, hhead, .inl rfl⟩, rfl, rfl⟩
  have htop' : head'.top = some top := htop
  unfold BooleanScorer.advance
  simp only [hrun, ok_bind, htop', pure_eq_ok]

/-- Consecutive calls from a document on: none starts before the last one ended. -/
def Consecutive : Int → List (Int × Int) → Prop
  | _, [] => True
  | start, (minDoc, maxDoc) :: calls =>
    start ≤ minDoc ∧ minDoc ≤ maxDoc ∧ maxDoc ≤ noMoreDocs ∧ Consecutive maxDoc calls

/-- What a scorer is made of and called with. -/
structure Request (S : Type) where
  clauses : List (Clause S)
  minShouldMatch : Nat
  needsScores : Bool
  maxDoc : Int
  acceptDocs : Option (Nat → Bool)
  calls : List (Int × Int)
  two_le : 2 ≤ clauses.length
  pos : 1 ≤ minShouldMatch
  le_length : minShouldMatch ≤ clauses.length
  consecutive : Consecutive 0 calls

/-- No call of the sequence comes to a window whose head stands on a document of the last window
that is below the end of the call. The next call starts with the scorer that the last window
leaves. -/
def StaysBelow (ops : ScoreOps S D) (checks : Bool) (acceptDocs : Option (Nat → Bool)) :
    BooleanScorer S D → List (Int × Int) → Prop
  | _, [] => True
  | s, (minDoc, maxDoc) :: calls => ∀ top s₁, s.advance minDoc = .ok (top, s₁) →
    ∀ s' doc, Comes ops checks acceptDocs minDoc maxDoc s₁ top.doc s' doc →
      (doc < maxDoc → doc < lastWindow) ∧ (maxDoc ≤ doc → StaysBelow ops checks acceptDocs s' calls)

/-- The calls of a run that stays below the last window. -/
theorem Ready.scoreCalls (hrounds : noMoreDocs ≤ rounds)
    (h : Ready ops clauses s inHead inTail place) (hstart : 0 ≤ place)
    (hcalls : Consecutive place calls) (hbelow : StaysBelow ops checks acceptDocs s calls) :
    ∃ answers, scoreCalls ops checks rounds acceptDocs s calls = .ok (some answers) ∧
      List.Forall₂ (fun call answer => CallCorrect ops clauses s.minShouldMatch s.needsScores
        acceptDocs call.1 call.2 answer.1 answer.2) calls answers := by
  induction calls generalizing s inHead inTail place with
  | nil => exact ⟨[], rfl, .nil⟩
  | cons call calls ih =>
    obtain ⟨hfrom, hle, hmax, hrest⟩ := hcalls
    obtain ⟨top, s₁, inHead₁, inTail₁, hadvance, hwindow, hmsm₁, hneeds₁⟩ :=
      h.advance hfrom hle (hle.trans hmax)
    have hstep := hbelow top s₁ hadvance
    have htop := hwindow.le_top
    obtain ⟨hits, result, s', inHead', inTail', hrun, hcomes, hcorrect, hready, hmsm, hneeds⟩ :=
      hwindow.scoreWindows acceptDocs checks (hstart.trans hfrom) hmax rounds
        (fun s' doc hcomes => (hstep s' doc hcomes).1) (by omega)
    obtain ⟨answers, hrun', hcorrect'⟩ :=
      ih hready (by omega) hrest ((hstep s' result hcomes).2 hcorrect.le_result)
    rw [hmsm, hneeds, hmsm₁, hneeds₁] at hcorrect'
    rw [hmsm₁, hneeds₁] at hcorrect
    refine ⟨(hits, result) :: answers, ?_, .cons hcorrect hcorrect'⟩
    simp only [BooleanScorer.scoreCalls, BooleanScorer.score, hadvance, hrun, hrun', ok_bind,
      pure_eq_ok, Option.map_some]

/-! ## New scorers -/

/-- New wrappers fill the tail first; what it drops goes to the head. -/
theorem place_eq :
    BooleanScorer.place clauses head tail =
      Prod.swap <$> PriorityQueue.spill tailLess headLess
        (clauses.map DisiWrapper.new) tail head := by
  induction clauses generalizing head tail with
  | nil => rfl
  | cons clause clauses ih =>
    rw [BooleanScorer.place, map_cons, PriorityQueue.spill]
    cases tail.insertWithOverflow tailLess (DisiWrapper.new clause) with
    | error => rfl
    | ok result =>
      obtain ⟨evicted, tail⟩ := result
      cases evicted with
      | none => exact ih
      | some w =>
        simp only [ok_bind]
        cases head.add headLess w with
        | error => rfl
        | ok head => exact ih

/-- A new window is empty. -/
theorem newWindow_shows (ops : ScoreOps S D) (minShouldMatch : Nat) (needsScores : Bool) :
    Shows ops needsScores (newWindow ops minShouldMatch needsScores) (fun _ => []) := by
  have hclear := @shows_clear S D ops needsScores (replicate setSize 0)
    (newWindow ops minShouldMatch needsScores).buckets length_replicate (by
      intro list hlist
      simp only [newWindow] at hlist
      split at hlist
      · cases hlist
        refine ⟨length_replicate, fun i hi => ?_⟩
        rw [getElem?_replicate, if_pos hi]
      · cases hlist)
  exact hclear

/-- A new scorer is ready at the start, if the queues can be that large. -/
theorem new_ready (ops : ScoreOps S D)
    (htwo : 2 ≤ clauses.length) (hpos : 1 ≤ minShouldMatch) (hle : minShouldMatch ≤ clauses.length)
    (hhead : clauses.length - minShouldMatch + 1 < 2147483647)
      (htail : minShouldMatch - 1 < 2147483647)
    (needsScores : Bool) (maxDoc : Int) :
    ∃ s inHead inTail, new ops clauses minShouldMatch needsScores maxDoc = .ok s ∧
      Ready ops clauses s inHead inTail 0 ∧ s.minShouldMatch = minShouldMatch ∧
      s.needsScores = needsScores := by
  obtain ⟨head, hhead, hhmax, hhempty⟩ := PriorityQueue.new_holds (headLess (S := S)) hhead
  obtain ⟨tail, htail, htmax, htempty⟩ := PriorityQueue.new_holds (tailLess (S := S)) htail
  have hempty : PriorityQueue.Spilling tailLess headLess tail head 0 0
      (clauses.map DisiWrapper.new) :=
    ⟨htempty, hhempty, by simp, by simp only [card_zero, length_map]; omega, .inr rfl, by simp⟩
  obtain ⟨tail', head', inTail, inHead, hspill, htail', hhead', htmax', hhmax',
      htcard, hhcard, hsame, -⟩ :=
    hempty.spill tailLess_comparison headLess_comparison
  have hplace : BooleanScorer.place clauses head tail = .ok (head', tail') := by
    rw [place_eq, hspill]
    rfl
  rw [add_zero, zero_add, add_comm] at hsame
  have hnew : ∀ w ∈ inHead + inTail, ∃ clause, w = DisiWrapper.new clause := by
    intro w hw
    rw [hsame, mem_coe] at hw
    obtain ⟨clause, -, rfl⟩ := mem_map.mp hw
    exact ⟨clause, rfl⟩
  refine ⟨{
      window := newWindow ops minShouldMatch needsScores
      head := head', tail := tail', minShouldMatch, needsScores
      wordCacheMinCost := (maxDoc + 7) / 8 },
    inHead, inTail, ?_, ⟨⟨hhead', htail', fun w hw => ?_, fun t ht w hw => ?_⟩,
      ⟨newWindow_shows .., fun hnone => ?_⟩, htwo, hle, ?_, ?_, hhcard.trans hhmax'.symm,
      htcard.trans htmax'.symm, ?_⟩, rfl, rfl⟩
  · rw [new, if_neg (by omega), if_neg (by omega)]
    simp only [hhead, htail, hplace, ok_bind, pure_eq_ok]
  · obtain ⟨clause, rfl⟩ := hnew w hw
    exact DisiWrapper.new_reaches clause 0
  · obtain ⟨_, rfl⟩ := hnew t (mem_add.mpr (.inr ht))
    obtain ⟨_, rfl⟩ := hnew w (mem_add.mpr (.inl hw))
    exact le_rfl
  · simp only [newWindow] at hnone
    split at hnone
    · cases hnone
    · rename_i hneither
      simp only [not_or, Bool.not_eq_true] at hneither
      exact ⟨by simp only; omega, hneither.1⟩
  · show head'.maxSize + minShouldMatch = _
    omega
  · show tail'.maxSize + 1 = minShouldMatch
    omega
  · rw [hsame, clausesOf, Multiset.map_coe, map_map]
    exact congrArg _ (map_id clauses)

/-! ## The last window -/

/-- A scorer that needs one match, with its head on a document. -/
structure Stuck (s : BooleanScorer S D) (items : Wrappers S) (doc : Int) : Prop where
  head : s.head.Holds headLess items
  two_le : 2 ≤ items.card
  card_eq : items.card = s.head.maxSize
  below : ∀ w ∈ items, w.doc ≤ noMoreDocs
  top_doc : ∃ top, s.head.top = some top ∧ top.doc = doc
  minShouldMatch_eq : s.minShouldMatch = 1

/-- The end of the last window wraps around, so that no document is before it. -/
theorem asI_lastWindowEnd : asI 32 ((lastWindow : Int) + size) = -2147483648 := by
  decide

/-- The last window. -/
theorem windowBase_of_lastWindow_le {doc : Int} (hle : lastWindow ≤ doc) (hdoc : doc ≤ noMoreDocs) :
    windowBase doc = lastWindow := by
  unfold windowBase size lastWindow noMoreDocs at *
  omega

variable {items : Wrappers S} {doc : Int}

/-- Without checks scoring the last window collects nothing and moves nothing. -/
theorem Stuck.scoreWindow (ops : ScoreOps S D) (h : Stuck s items doc) (hlow : minDoc ≤ doc)
    (hlast : lastWindow ≤ doc) (hlt : doc < maxDoc) (hmax : maxDoc ≤ noMoreDocs) :
    ∃ s', s.scoreWindow ops false doc acceptDocs minDoc maxDoc = .ok ([], doc, s') ∧
      Stuck s' items doc := by
  obtain ⟨w, htop, rfl⟩ := h.top_doc
  obtain ⟨rest, hitems, hleast⟩ := h.head.top headLess_comparison htop
  obtain ⟨hpop, hrest⟩ := h.head.pop headLess_comparison htop hitems
  obtain ⟨head, hhead⟩ : ∃ head, head = (s.head.pop headLess).2 := ⟨_, rfl⟩
  have hpop' : s.head.pop headLess = (some w, head) := by rw [← hpop, hhead]
  have hheadMax : head.maxSize = s.head.maxSize := by rw [hhead, PriorityQueue.pop]
  rw [← hhead] at hrest
  have hcards := h.card_eq
  have htwo := h.two_le
  rw [hitems, card_cons] at hcards htwo
  obtain ⟨v, hv⟩ : ∃ v, head.top = some v := by
    cases hv : head.top with
    | none => rw [hrest.top_eq_none.mp hv, card_zero] at htwo; omega
    | some v => exact ⟨v, rfl⟩
  have hvitems : v ∈ items := by
    obtain ⟨_, hrest', -⟩ := hrest.top headLess_comparison hv
    rw [hitems, hrest']
    simp
  have hvdoc : w.doc ≤ v.doc := headLess_eq_false.mp (hleast v hvitems)
  have hupper : min maxDoc (-2147483648) = -2147483648 := by omega
  -- the next wrapper is not before the end of the window, so there is one lead
  have hleads : takeLeads (-2147483648) head.size head [w] 1 = (head, [w], 1) := by
    rw [hrest.size_eq, show rest.card = rest.card - 1 + 1 by omega, takeLeads, hv]
    simp only
    rw [if_pos (by omega)]
  -- and its documents end where it stands
  have hsingle : scoreWindowSingleScorer head acceptDocs (max minDoc lastWindow)
      (-2147483648) maxDoc w = .ok ([], w) := by
    have hadvance : w.advanceTo (max minDoc lastWindow) = w := by
      rw [DisiWrapper.advanceTo, if_neg (by omega)]
    have hfuel : (max (-2147483648) (min maxDoc (lastWindow : Int)) - w.doc).toNat = 0 := by omega
    unfold scoreWindowSingleScorer
    simp only [hv, windowBase_of_lastWindow_le (hlast.trans hvdoc) (h.below v hvitems),
      hadvance, hfuel, collectDocs]
  obtain ⟨head', hadd, hmaxSize, hholds⟩ := hrest.add headLess_comparison w
    (PriorityQueue.lt_capacity (by omega))
  rw [← hitems] at hholds
  have hstuck : ∃ top, head'.top = some top ∧ top.doc = w.doc := by
    cases htop' : head'.top with
    | none => rw [hholds.top_eq_none.mp htop'] at hvitems; simp at hvitems
    | some top =>
      obtain ⟨_, hitems', hleast'⟩ := hholds.top headLess_comparison htop'
      have hle := headLess_eq_false.mp (hleast top (hitems' ▸ Multiset.mem_cons_self _ _))
      have hge := headLess_eq_false.mp (hleast' w (hitems ▸ Multiset.mem_cons_self _ _))
      exact ⟨top, rfl, by omega⟩
  obtain ⟨top, htop', hdoc⟩ := hstuck
  refine ⟨{ s with head := head' }, ?_, hholds, h.two_le, ?_, h.below, ⟨top, htop', hdoc⟩,
    h.minShouldMatch_eq⟩
  · unfold BooleanScorer.scoreWindow
    simp only [windowBase_of_lastWindow_le hlast (hlt.le.trans hmax), asI_lastWindowEnd, hupper]
    rw [if_neg fun hchecks => Bool.noConfusion hchecks.1, hpop']
    simp only [hleads, h.minShouldMatch_eq, hsingle, hadd, htop', hdoc, and_self, if_true, ok_bind,
      pure_eq_ok]
  · rw [h.card_eq, ← hheadMax]
    exact hmaxSize.symm

/-- The loop goes on forever. -/
theorem Stuck.scoreWindows (rounds : Nat) (h : Stuck s items doc) (hlow : minDoc ≤ doc)
    (hlast : lastWindow ≤ doc) (hlt : doc < maxDoc) (hmax : maxDoc ≤ noMoreDocs) :
    scoreWindows ops false acceptDocs minDoc maxDoc rounds s doc = .ok none := by
  induction rounds generalizing s with
  | zero => rw [BooleanScorer.scoreWindows, if_pos hlt]
  | succ rounds ih =>
    obtain ⟨s', hrun, hstuck⟩ := h.scoreWindow acceptDocs ops hlow hlast hlt hmax
    rw [BooleanScorer.scoreWindows, if_pos hlt]
    simp only [hrun, ih hstuck, ok_bind, pure_eq_ok, Option.map_none]

/-- What is mapped to a result has been there. -/
theorem map_eq_some {α β : Type} {x : Result (Option α)} {f : α → β} {y : β}
    (h : (do let rest ← x; return rest.map f) = .ok (some y)) :
    ∃ z, x = .ok (some z) ∧ f z = y := by
  obtain ⟨answer, rfl, h⟩ := bind_eq_ok.mp h
  cases answer with
  | none => cases h
  | some z => exact ⟨z, rfl, Option.some.inj (Except.ok.inj h)⟩

/-- The loop returns with this document and this scorer. -/
def Returns (ops : ScoreOps S D) (checks : Bool) (acceptDocs : Option (Nat → Bool))
    (minDoc maxDoc result : Int) (final s : BooleanScorer S D) (doc : Int) : Prop :=
  ∃ rounds hits, scoreWindows ops checks acceptDocs minDoc maxDoc rounds s doc =
    .ok (some (hits, result, final))

variable {acceptDocs : Option (Nat → Bool)} {checks : Bool} {result : Int}
  {s' final : BooleanScorer S D} {doc' : Int}

/-- A loop that returns goes through its first window and still returns from there. -/
theorem Returns.step (h : Returns ops checks acceptDocs minDoc maxDoc result final s doc)
    (hlt : doc < maxDoc) :
    ∃ hits doc' s', s.scoreWindow ops checks doc acceptDocs minDoc maxDoc = .ok (hits, doc', s') ∧
      Returns ops checks acceptDocs minDoc maxDoc result final s' doc' := by
  obtain ⟨rounds, more, hrounds⟩ := h
  cases rounds with
  | zero =>
    rw [BooleanScorer.scoreWindows, if_pos hlt] at hrounds
    cases hrounds
  | succ rounds =>
    rw [BooleanScorer.scoreWindows, if_pos hlt] at hrounds
    obtain ⟨⟨hits, doc', s'⟩, hrun, hrounds⟩ := bind_eq_ok.mp hrounds
    obtain ⟨⟨hits', _, _⟩, hrest, hall⟩ := map_eq_some hrounds
    cases hall
    exact ⟨hits, doc', s', hrun, rounds, hits', hrest⟩

/-- Where the loop ends it returns the scorer it stands at. -/
theorem Returns.done (h : Returns ops checks acceptDocs minDoc maxDoc result final s doc)
    (hdone : maxDoc ≤ doc) : s = final := by
  obtain ⟨rounds, hits, hrounds⟩ := h
  rw [scoreWindows_of_le acceptDocs checks ops hdone rounds] at hrounds
  simp only [Except.ok.injEq, Option.some.injEq, Prod.mk.injEq] at hrounds
  exact hrounds.2.2

/-- Builds with and without checks differ only in the last window. -/
theorem scoreWindow_congr (checks checks' : Bool) (hlt : doc < lastWindow) :
    s.scoreWindow ops checks doc acceptDocs minDoc maxDoc =
      s.scoreWindow ops checks' doc acceptDocs minDoc maxDoc := by
  unfold BooleanScorer.scoreWindow
  simp only
  rw [if_neg (not_overflow hlt), if_neg (not_overflow hlt)]

/-- If one build does not come to the last window, no other comes to more windows. -/
theorem Comes.of_below {checks' : Bool}
    (hcomes : Comes ops checks' acceptDocs minDoc maxDoc s doc s' doc')
    (hbelow : ∀ s' doc', Comes ops checks acceptDocs minDoc maxDoc s doc s' doc' → doc' < maxDoc →
      doc' < lastWindow) : Comes ops checks acceptDocs minDoc maxDoc s doc s' doc' := by
  induction hcomes with
  | here => exact .here _ _
  | window hlt hrun _ ih =>
    have hrun' := (scoreWindow_congr checks _ (hbelow _ _ (.here _ _) hlt)).trans hrun
    exact .window hlt hrun' (ih fun s'' doc'' hcomes => hbelow s'' doc'' (.window hlt hrun' hcomes))

/-- So staying below it is the same in all builds. -/
theorem StaysBelow.congr (checks' : Bool) (h : StaysBelow ops checks acceptDocs s calls) :
    StaysBelow ops checks' acceptDocs s calls := by
  induction calls generalizing s with
  | nil => trivial
  | cons call calls ih =>
    intro top s₁ hadvance s' doc hcomes
    have hstep := h top s₁ hadvance
    have hcomes' := hcomes.of_below fun s' doc hcomes => (hstep s' doc hcomes).1
    exact ⟨(hstep s' doc hcomes').1, fun hdone => ih ((hstep s' doc hcomes').2 hdone)⟩

/-! ## When the scorer works -/

variable {request : Request S}

namespace Request

/-- The new scorer. -/
def scorer (ops : ScoreOps S D) (request : Request S) : Result (BooleanScorer S D) :=
  new ops request.clauses request.minShouldMatch request.needsScores request.maxDoc

/-- The queues of a new scorer are not larger than queues may be. -/
theorem lengths_of_new (hnew : request.scorer ops = .ok s) :
    request.clauses.length - request.minShouldMatch + 1 < 2147483647 ∧
      request.minShouldMatch - 1 < 2147483647 := by
  have := request.pos
  have := request.le_length
  have := request.two_le
  rw [scorer, new, if_neg (by omega), if_neg (by omega)] at hnew
  obtain ⟨head, hhead, hnew⟩ := bind_eq_ok.mp hnew
  obtain ⟨tail, htail, -⟩ := bind_eq_ok.mp hnew
  exact ⟨PriorityQueue.lt_of_new hhead, PriorityQueue.lt_of_new htail⟩

/-- A new scorer is ready. -/
theorem ready (hnew : request.scorer ops = .ok s) :
    ∃ inHead inTail, Ready ops request.clauses s inHead inTail 0 ∧
      s.minShouldMatch = request.minShouldMatch ∧ s.needsScores = request.needsScores := by
  obtain ⟨hhead, htail⟩ := lengths_of_new hnew
  obtain ⟨s', inHead, inTail, hnew', hready⟩ := new_ready ops request.two_le request.pos
    request.le_length hhead htail request.needsScores request.maxDoc
  obtain rfl : s' = s := Except.ok.inj (hnew'.symm.trans hnew)
  exact ⟨inHead, inTail, hready⟩

end Request

end BooleanScorer

end RLucene.Search
