import Mathlib.Algebra.Order.Group.Multiset
import Mathlib.Tactic.Abel
import RLucene.Search.BooleanScorerWindow

/-!
# The boolean scorer finds the matches

The two queues keep that no wrapper has gone past a document that is still to come, that the tail is
behind the head, and that the tail is one short of a match. So before the top of the head there is
no match, and within a window all matches come from the wrappers that are taken into the lead.
-/

namespace RLucene.Search

open List Lib Store Util
open Multiset (mem_add cons_add cons_ne_zero card_zero card_cons coe_card cons_coe card_add mem_coe
  coe_singleton add_cons)

namespace BooleanScorer

variable {S D : Type} {ops : ScoreOps S D}

theorem headLess_eq_false {a b : DisiWrapper S} : headLess a b = false ↔ b.doc ≤ a.doc := by
  simp only [headLess, decide_eq_false_iff_not, Int.not_lt]

/-- The head is ordered. -/
theorem headLess_comparison : IsComparison (headLess (S := S)) :=
  isComparison_lt _

/-- The tail is ordered. -/
theorem tailLess_comparison : IsComparison (tailLess (S := S)) :=
  isComparison_lt _

/-! ## The queues -/

/-- Wrappers in no order. -/
abbrev Wrappers (S : Type) := Multiset (DisiWrapper S)

/-- The queues hold these wrappers: none has gone past a document from `place` on, and the tail is
behind the head. -/
structure Standing (head tail : Queue S) (inHead inTail : Wrappers S) (place : Int) : Prop where
  head : head.Holds headLess inHead
  tail : tail.Holds tailLess inTail
  reaches : ∀ w ∈ inHead + inTail, w.Reaches place
  behind : ∀ t ∈ inTail, ∀ h ∈ inHead, t.doc ≤ h.doc

variable {head tail : Queue S} {inHead inTail : Wrappers S} {place lower upper : Int}
  {top w w' candidate : DisiWrapper S} {rest others inHead' inTail' : Wrappers S}
  {doc base i rounds : Nat} {middle maxDoc minDoc : Int} {hits : List (Hit S)}
  {ws ws' : List (DisiWrapper S)} {calls : List (Int × Int)}

/-- The top of the head comes first. -/
theorem Standing.top_le (h : Standing head tail inHead inTail place) (htop : head.top = some top) :
    ∃ rest, inHead = top ::ₘ rest ∧ ∀ w ∈ inHead, top.doc ≤ w.doc := by
  obtain ⟨rest, hrest, hleast⟩ := h.head.top headLess_comparison htop
  exact ⟨rest, hrest, fun w hw => headLess_eq_false.mp (hleast w hw)⟩

theorem Standing.top_mem (h : Standing head tail inHead inTail place)
    (htop : head.top = some top) : top ∈ inHead := by
  obtain ⟨rest, rfl, -⟩ := h.top_le htop
  exact Multiset.mem_cons_self _ _

/-- The clauses of wrappers. -/
def clausesOf (ws : Wrappers S) : Multiset (Clause S) :=
  ws.map DisiWrapper.clause

@[simp] theorem clausesOf_add (ws ws' : Wrappers S) :
    clausesOf (ws + ws') = clausesOf ws + clausesOf ws' :=
  Multiset.map_add ..

@[simp] theorem clausesOf_cons (w : DisiWrapper S) (ws : Wrappers S) :
    clausesOf (w ::ₘ ws) = w.clause ::ₘ clausesOf ws :=
  Multiset.map_cons ..

@[simp] theorem clausesOf_singleton (w : DisiWrapper S) : clausesOf {w} = {w.clause} :=
  Multiset.map_singleton ..

/-- The top of the head moves to the lower end. -/
theorem Standing.advance_head (h : Standing head tail inHead inTail lower)
    (htop : head.top = some top) (hlower : lower ≤ noMoreDocs) (hlt : top.doc < lower)
    (hrest : inHead = top ::ₘ rest) :
    Standing (head.updateTopWithNewTop headLess (top.advance lower)) tail
      (top.advance lower ::ₘ rest) inTail lower := by
  have hdoc := top.le_advance hlower
  refine ⟨h.head.updateTop headLess_comparison htop hrest _, h.tail, ?_, ?_⟩
  · intro w hw
    rw [cons_add] at hw
    rcases Multiset.mem_cons.mp hw with rfl | hw
    · exact top.advance_reaches
    · exact h.reaches w (by rw [hrest, cons_add]; exact Multiset.mem_cons_of_mem hw)
  · intro t ht w hw
    rcases Multiset.mem_cons.mp hw with rfl | hw
    · have := h.behind t ht top (h.top_mem htop)
      omega
    · exact h.behind t ht w (hrest ▸ Multiset.mem_cons_of_mem hw)

/-- The top of the tail moves to the lower end and into the head, the top of the head into the
tail. -/
theorem Standing.exchange (h : Standing head tail inHead inTail lower) {other : DisiWrapper S}
    (htop : head.top = some top) (hother : tail.top = some other) (hlower : lower ≤ noMoreDocs)
    (hlt : top.doc < lower) (hrest : inHead = top ::ₘ rest) (hothers : inTail = other ::ₘ others) :
    Standing (head.updateTopWithNewTop headLess (other.advance lower))
      (tail.updateTopWithNewTop tailLess top) (other.advance lower ::ₘ rest) (top ::ₘ others)
      lower := by
  have hdoc := other.le_advance hlower
  obtain ⟨-, -, hleast⟩ := h.top_le htop
  have htopMem := h.top_mem htop
  refine ⟨h.head.updateTop headLess_comparison htop hrest _,
    h.tail.updateTop tailLess_comparison hother hothers _, ?_, ?_⟩
  · intro w hw
    rcases mem_add.mp hw with hw | hw
    · rcases Multiset.mem_cons.mp hw with rfl | hw
      · exact other.advance_reaches
      · exact h.reaches w (mem_add.mpr (.inl (hrest ▸ Multiset.mem_cons_of_mem hw)))
    · rcases Multiset.mem_cons.mp hw with rfl | hw
      · exact h.reaches _ (mem_add.mpr (.inl htopMem))
      · exact h.reaches w (mem_add.mpr (.inr (hothers ▸ Multiset.mem_cons_of_mem hw)))
  · intro t ht w hw
    have hbehind : t.doc ≤ top.doc := by
      rcases Multiset.mem_cons.mp ht with rfl | ht
      · exact le_rfl
      · exact h.behind t (hothers ▸ Multiset.mem_cons_of_mem ht) top htopMem
    rcases Multiset.mem_cons.mp hw with rfl | hw
    · omega
    · exact hbehind.trans (hleast w (hrest ▸ Multiset.mem_cons_of_mem hw))

/-- What advancing the queues leaves. -/
structure Advanced (head tail : Queue S) (inHead inTail : Wrappers S) (lower : Int)
    (head' tail' : Queue S) (inHead' inTail' : Wrappers S) : Prop where
  standing : Standing head' tail' inHead' inTail' lower
  head_maxSize : head'.maxSize = head.maxSize
  tail_maxSize : tail'.maxSize = tail.maxSize
  head_card : inHead'.card = inHead.card
  tail_card : inTail'.card = inTail.card
  clauses : clausesOf (inHead' + inTail') = clausesOf (inHead + inTail)

/-- One move after the other. -/
theorem Advanced.trans {head head' head'' tail tail' tail'' : Queue S}
    {inHead inHead'' inTail inTail'' : Wrappers S}
    (h : Advanced head tail inHead inTail lower head' tail' inHead' inTail')
    (h' : Advanced head' tail' inHead' inTail' lower head'' tail'' inHead'' inTail'') :
    Advanced head tail inHead inTail lower head'' tail'' inHead'' inTail'' :=
  ⟨h'.standing, h'.head_maxSize.trans h.head_maxSize, h'.tail_maxSize.trans h.tail_maxSize,
    h'.head_card.trans h.head_card, h'.tail_card.trans h.tail_card, h'.clauses.trans h.clauses⟩

/-- The number of wrappers before a document. -/
def before (lower : Int) (ws : Wrappers S) : Nat :=
  ws.countP fun w => w.doc < lower

/-- One wrapper less is before the place. -/
theorem before_move (hlt : w.doc < lower) (hle : lower ≤ w'.doc) (ws : Wrappers S) :
    before lower (w' ::ₘ ws) < before lower (w ::ₘ ws) := by
  have hnot : ¬w'.doc < lower := by omega
  simp [before, hlt, hnot]

/-- One round of advancing, from a head before the lower end. -/
theorem Standing.advance_step (h : Standing head tail inHead inTail lower)
    (hlower : lower ≤ noMoreDocs) (htop : head.top = some top) (hlt : top.doc < lower)
    (fuel : Nat) : ∃ head' tail' inHead' inTail',
      advanceQueues lower (fuel + 1) head tail = advanceQueues lower fuel head' tail' ∧
      Advanced head tail inHead inTail lower head' tail' inHead' inTail' ∧
      inHead' ≠ 0 ∧ before lower (inHead' + inTail') < before lower (inHead + inTail) := by
  obtain ⟨rest, rfl, -⟩ := h.top_le htop
  have hhead := h.advance_head htop hlower hlt rfl
  have hfewer : before lower (top.advance lower ::ₘ rest + inTail) <
      before lower (top ::ₘ rest + inTail) := by
    rw [cons_add, cons_add]
    exact before_move hlt (top.le_advance hlower) _
  cases hother : tail.top with
  | none =>
    refine ⟨_, _, _, _, ?_, ⟨hhead, rfl, rfl, by simp, rfl, by simp⟩, cons_ne_zero, hfewer⟩
    simp only [BooleanScorer.advanceQueues, htop, if_pos hlt, hother]
  | some other =>
    obtain ⟨others, rfl, -⟩ := h.tail.top tailLess_comparison hother
    by_cases hcost : top.cost ≤ other.cost
    · refine ⟨_, tail.updateTopWithNewTop tailLess other, _, _, ?_,
        ⟨⟨hhead.head, h.tail.updateTop tailLess_comparison hother rfl other, hhead.reaches,
          hhead.behind⟩, rfl, rfl, by simp, rfl, by simp⟩, cons_ne_zero, hfewer⟩
      simp only [BooleanScorer.advanceQueues, htop, if_pos hlt, hother, if_pos hcost]
    · refine ⟨_, _, _, _, ?_, ⟨h.exchange htop hother hlower hlt rfl rfl, rfl,
        rfl, by simp, by simp, ?_⟩, cons_ne_zero, ?_⟩
      · simp only [BooleanScorer.advanceQueues, htop, if_pos hlt, hother, if_neg hcost]
      · simp only [clausesOf_add, clausesOf_cons, DisiWrapper.advance_clause, cons_add, add_cons,
          Multiset.cons_swap other.clause]
      · have hbehind := h.behind other (Multiset.mem_cons_self _ _) top (Multiset.mem_cons_self _ _)
        simp only [cons_add, add_cons]
        rw [Multiset.cons_swap top (other.advance lower)]
        exact before_move (by omega) (other.le_advance hlower) _

/-- Advancing ends with the whole head on the lower end or beyond. Each round takes one wrapper
there. -/
theorem Standing.advanceQueues (hlower : lower ≤ noMoreDocs) (fuel : Nat)
    (h : Standing head tail inHead inTail lower) (hne : inHead ≠ 0)
    (hfuel : before lower (inHead + inTail) < fuel) :
    ∃ head' tail' inHead' inTail',
      advanceQueues lower fuel head tail = .ok (head', tail') ∧
      Advanced head tail inHead inTail lower head' tail' inHead' inTail' ∧
      ∀ w ∈ inHead', lower ≤ w.doc := by
  induction fuel generalizing head tail inHead inTail with
  | zero => omega
  | succ fuel ih =>
    cases htop : head.top with
    | none => exact absurd (h.head.top_eq_none.mp htop) hne
    | some top =>
      obtain ⟨rest, hrest, hleast⟩ := h.top_le htop
      by_cases hlt : top.doc < lower
      · -- one wrapper moves, the top of the head or that of the tail
        obtain ⟨head', tail', inHead', inTail', hstep, hadvanced, hne', hfewer⟩ :=
          h.advance_step hlower htop hlt fuel
        obtain ⟨head'', tail'', inHead'', inTail'', hrun, hadvanced', hdone⟩ :=
          ih hadvanced.standing hne' (by omega)
        exact ⟨head'', tail'', inHead'', inTail'', hstep.trans hrun, hadvanced.trans hadvanced',
          hdone⟩
      · refine ⟨head.updateTopWithNewTop headLess top, tail, inHead, inTail, ?_, ?_, ?_⟩
        · simp only [BooleanScorer.advanceQueues, htop, if_neg hlt]
        · refine ⟨⟨?_, h.tail, h.reaches, h.behind⟩, rfl, rfl, rfl, rfl, rfl⟩
          have := h.head.updateTop headLess_comparison htop hrest top
          rwa [← hrest] at this
        · intro w hw
          exact (by omega : lower ≤ top.doc).trans (hleast w hw)

/-! ## Taking the leads -/

/-- The leads are the wrappers of the head that stand before the end of the window. -/
theorem takeLeads_spec (fuel : Nat) (leads : List (DisiWrapper S)) (h : head.Holds headLess inHead)
    (hfuel : inHead.card ≤ fuel) :
    ∃ head' inHead' more,
      takeLeads upper fuel head leads leads.length = (head', leads ++ more,
        (leads ++ more).length) ∧
      head'.Holds headLess inHead' ∧ head'.maxSize = head.maxSize ∧
      (more : Wrappers S) + inHead' = inHead ∧
      (∀ w ∈ more, w.doc < upper) ∧ ∀ w ∈ inHead', upper ≤ w.doc := by
  induction fuel generalizing head inHead leads with
  | zero =>
    have hzero : inHead = 0 := Multiset.card_eq_zero.mp (Nat.le_zero.mp hfuel)
    subst hzero
    exact ⟨head, 0, [], by simp [takeLeads], h, rfl, by simp, by simp, by simp⟩
  | succ fuel ih =>
    cases htop : head.top with
    | none =>
      have hzero := h.top_eq_none.mp htop
      subst hzero
      exact ⟨head, 0, [], by simp [takeLeads, htop], h, rfl, by simp, by simp, by simp⟩
    | some top =>
      obtain ⟨rest, rfl, hleast⟩ := h.top headLess_comparison htop
      by_cases hdone : upper ≤ top.doc
      · refine ⟨head, _, [], by simp [takeLeads, htop, hdone], h, rfl, by simp, by simp, ?_⟩
        exact fun w hw => hdone.trans (headLess_eq_false.mp (hleast w hw))
      · obtain ⟨-, hpop⟩ := h.pop headLess_comparison htop rfl
        obtain ⟨head', inHead', more, hrun, hholds, hmax, hparts, hmore, hrest⟩ :=
          ih (leads ++ [top]) hpop (by simpa using hfuel)
        refine ⟨head', inHead', top :: more, ?_, hholds, hmax, ?_,
          forall_mem_cons.mpr ⟨by omega, hmore⟩, hrest⟩
        · simpa [takeLeads, htop, hdone, append_assoc] using hrun
        · rw [← hparts, ← cons_coe, cons_add]

/-- The wrappers while a window is prepared: the leads and the tail may match in it, the head may
not. At most one more than the leads and the tail is needed for a match. -/
structure Gathering (count minShouldMatch : Nat) (lower upper : Int) (head tail : Queue S)
    (inHead inTail : Wrappers S) (leads : List (DisiWrapper S)) : Prop where
  head_holds : head.Holds headLess inHead
  tail_holds : tail.Holds tailLess inTail
  head_maxSize : head.maxSize + minShouldMatch = count + 1
  tail_maxSize : tail.maxSize + 1 = minShouldMatch
  card_eq : inHead.card + inTail.card + leads.length = count
  enough : minShouldMatch ≤ leads.length + inTail.card + 1
  reaches : ∀ w ∈ inHead + inTail + (leads : Wrappers S), w.Reaches lower
  leads_before : ∀ w ∈ leads, w.doc < upper
  tail_before : ∀ w ∈ inTail, w.doc < upper
  head_after : ∀ w ∈ inHead, upper ≤ w.doc

variable {count minShouldMatch : Nat} {leads : List (DisiWrapper S)}

section

variable (h : Gathering count minShouldMatch lower upper head tail inHead
  (candidate ::ₘ rest) leads)
  (htop : tail.top = some candidate)

include h

/-- The wrappers come to every match from the window on. -/
theorem Gathering.reaches_pop
    (hw : w = candidate.advanceTo lower ∨ w ∈ inHead + rest + (leads : Wrappers S)) :
    w.Reaches lower := by
  have hmem : ∀ v, v = candidate ∨ v ∈ inHead + rest + (leads : Wrappers S) → v.Reaches lower := by
    intro v hv
    apply h.reaches
    simp only [mem_add, Multiset.mem_cons] at hv ⊢
    tauto
  rcases hw with rfl | hw
  · exact (hmem candidate (.inl rfl)).advanceTo le_rfl
  · exact hmem w (.inr hw)

include htop

/-- A candidate that stands in the window becomes a lead. -/
theorem Gathering.take_lead (hlt : (candidate.advanceTo lower).doc < upper) :
    Gathering count minShouldMatch lower upper head (tail.pop tailLess).2 inHead rest
      (leads ++ [candidate.advanceTo lower]) := by
  have hcard := h.card_eq
  have henough := h.enough
  rw [card_cons] at hcard henough
  refine ⟨h.head_holds, (h.tail_holds.pop tailLess_comparison htop rfl).2, h.head_maxSize,
    h.tail_maxSize, ?_, ?_,
    fun w hw => h.reaches_pop ?_, ?_, fun w hw => h.tail_before w (Multiset.mem_cons_of_mem hw),
    h.head_after⟩
  · rw [length_append, length_singleton]
    omega
  · rw [length_append, length_singleton]
    omega
  · simp only [mem_add, mem_coe, mem_append, mem_singleton] at hw ⊢
    tauto
  · exact forall_mem_append.mpr ⟨h.leads_before, forall_mem_singleton.mpr hlt⟩

/-- A candidate beyond the window goes to the head, where there is room for it. -/
theorem Gathering.take_head (hge : upper ≤ (candidate.advanceTo lower).doc)
    (hpossible : minShouldMatch ≤ leads.length + (candidate ::ₘ rest).card) :
    ∃ head', head.add headLess (candidate.advanceTo lower) = .ok head' ∧
      Gathering count minShouldMatch lower upper head' (tail.pop tailLess).2
        (candidate.advanceTo lower ::ₘ inHead) rest leads := by
  have hcard := h.card_eq
  have hmax := h.head_maxSize
  rw [card_cons] at hcard hpossible
  obtain ⟨head', hadd, hmax', hholds⟩ := h.head_holds.add headLess_comparison
    (candidate.advanceTo lower) (PriorityQueue.lt_capacity (by omega))
  refine ⟨head', hadd, hholds, (h.tail_holds.pop tailLess_comparison htop rfl).2, hmax' ▸ hmax,
    h.tail_maxSize, ?_, by omega, fun w hw => h.reaches_pop ?_, h.leads_before,
    fun w hw => h.tail_before w (Multiset.mem_cons_of_mem hw), ?_⟩
  · rw [card_cons]
    omega
  · simp only [mem_add, Multiset.mem_cons] at hw ⊢
    tauto
  · exact Multiset.forall_mem_cons.mpr ⟨hge, h.head_after⟩

end

/-- Candidates are taken until there are enough leads, or until there can be no match. -/
theorem Gathering.takeCandidates (fuel : Nat)
    (h : Gathering count minShouldMatch lower upper head tail inHead inTail leads)
    (hfuel : inTail.card ≤ fuel) :
    ∃ head' tail' inHead' inTail' leads',
      takeCandidates minShouldMatch lower upper fuel head tail leads leads.length =
        .ok (head', tail', leads', leads'.length) ∧
      Gathering count minShouldMatch lower upper head' tail' inHead' inTail' leads' ∧
      clausesOf (inHead' + inTail' + (leads' : Wrappers S)) =
        clausesOf (inHead + inTail + (leads : Wrappers S)) ∧
      (minShouldMatch ≤ leads'.length ∨ leads'.length + inTail'.card < minShouldMatch) := by
  induction fuel generalizing head tail inHead inTail leads with
  | zero =>
    refine ⟨head, tail, inHead, inTail, leads, rfl, h, rfl, ?_⟩
    omega
  | succ fuel ih =>
    by_cases hmore : leads.length < minShouldMatch ∧ minShouldMatch ≤ leads.length + inTail.card
    · have hguard : leads.length < minShouldMatch ∧ minShouldMatch ≤ leads.length + tail.size := by
        rw [h.tail_holds.size_eq]
        exact hmore
      cases htop : tail.top with
      | none =>
        have hzero := h.tail_holds.top_eq_none.mp htop
        subst hzero
        rw [card_zero] at hmore
        omega
      | some candidate =>
        obtain ⟨rest, rfl, -⟩ := h.tail_holds.top tailLess_comparison htop
        have hpop : tail.pop tailLess = (some candidate, (tail.pop tailLess).2) := by
          rw [← (h.tail_holds.pop tailLess_comparison htop rfl).1]
        rw [card_cons] at hfuel
        unfold BooleanScorer.takeCandidates
        rw [if_pos hguard, hpop]
        by_cases hlt : (candidate.advanceTo lower).doc < upper
        · obtain ⟨head', tail', inHead', inTail', leads', hrun, hgather, hclauses, hend⟩ :=
            ih (h.take_lead htop hlt) (by omega)
          refine ⟨head', tail', inHead', inTail', leads', ?_, hgather, ?_, hend⟩
          · rw [length_append, length_singleton] at hrun
            simp only [if_pos hlt]
            exact hrun
          · rw [hclauses, ← Multiset.coe_add, coe_singleton]
            simp only [clausesOf_add, ← Multiset.singleton_add, clausesOf_singleton,
              DisiWrapper.advanceTo_clause]
            abel
        · obtain ⟨head₁, hadd, hgather₁⟩ := h.take_head htop (by omega) hmore.2
          obtain ⟨head', tail', inHead', inTail', leads', hrun, hgather, hclauses, hend⟩ :=
            ih hgather₁ (by omega)
          refine ⟨head', tail', inHead', inTail', leads', ?_, hgather, ?_, hend⟩
          · simp only [if_neg hlt, hadd, ok_bind]
            exact hrun
          · rw [hclauses]
            simp only [clausesOf_add, clausesOf_cons, DisiWrapper.advanceTo_clause,
              cons_add, add_cons]
    · have hguard : ¬(leads.length < minShouldMatch ∧
          minShouldMatch ≤ leads.length + tail.size) := by
        rw [h.tail_holds.size_eq]
        exact hmore
      refine ⟨head, tail, inHead, inTail, leads, ?_, h, rfl, by omega⟩
      unfold BooleanScorer.takeCandidates
      rw [if_neg hguard]

/-! ## Giving the leads back -/

/-- The leads spill from the head to the tail. -/
theorem giveBack_eq :
    giveBack leads head tail = PriorityQueue.spill headLess tailLess leads head tail := by
  induction leads generalizing head tail with
  | nil => rfl
  | cons lead leads ih =>
    rw [giveBack, PriorityQueue.spill]
    congr 1
    funext result
    obtain ⟨_ | w, head⟩ := result
    · exact ih
    · simp only [ih]

/-- The queues are full again and have all clauses, with the head at `upper` or beyond. -/
structure Refilled (clauses : List (Clause S)) (upper : Int) (head tail head' tail' : Queue S)
    (inHead' inTail' : Wrappers S) : Prop where
  standing : Standing head' tail' inHead' inTail' upper
  head_maxSize : head'.maxSize = head.maxSize
  tail_maxSize : tail'.maxSize = tail.maxSize
  head_card : inHead'.card = head.maxSize
  tail_card : inTail'.card = tail.maxSize
  clauses_eq : clausesOf (inHead' + inTail') = clauses
  head_after : ∀ w ∈ inHead', upper ≤ w.doc

/-! ## Matches -/

variable {clauses : List (Clause S)} {needsScores : Bool} {acceptDocs : Option (Nat → Bool)}

/-- The clauses that match a document are those of the wrappers that do. -/
theorem matching_perm {others : Wrappers S} {ws : List (DisiWrapper S)}
    (hclauses : clausesOf (others + (ws : Wrappers S)) = clauses) {doc : Nat}
    (hothers : ∀ w ∈ others, doc ∉ w.clause.docs) :
    (matching (ws.map DisiWrapper.clause) doc).Perm (matching clauses doc) := by
  rw [← Multiset.coe_eq_coe]
  unfold matching
  rw [← Multiset.filter_coe, ← Multiset.filter_coe, ← hclauses, clausesOf_add, Multiset.filter_add]
  have hnone : (clausesOf others).filter (fun clause => doc ∈ clause.docs) = 0 := by
    rw [Multiset.filter_eq_nil]
    intro clause hclause
    obtain ⟨w, hw, rfl⟩ := Multiset.mem_map.mp hclause
    simpa using hothers w hw
  rw [hnone, Multiset.zero_add]
  rfl

/-- Where only few wrappers can match, few clauses do. -/
theorem matching_length_le {few : Wrappers S} (hclauses : clausesOf (others + few) = clauses)
    (hothers : ∀ w ∈ others, doc ∉ w.clause.docs) : (matching clauses doc).length ≤ few.card := by
  induction few using Quotient.inductionOn with
  | h ws =>
    rw [← (matching_perm hclauses hothers).length_eq]
    exact (length_filter_le _ _).trans (length_map _).le

/-- The hits are the accepted documents from `lower` to `upper` that enough clauses match, each once
and in increasing order, with the sum of the scores if scores are needed. The sum is taken in some
order. -/
structure Collects (ops : ScoreOps S D) (clauses : List (Clause S)) (minShouldMatch : Nat)
    (needsScores : Bool) (acceptDocs : Option (Nat → Bool)) (lower upper : Int)
    (hits : List (Hit S)) : Prop where
  increasing : Increasing (hits.map Hit.doc)
  mem_iff : ∀ doc : Nat, doc ∈ hits.map Hit.doc ↔
    lower ≤ doc ∧ doc < upper ∧ accepted acceptDocs doc ∧
      minShouldMatch ≤ (matching clauses doc).length
  score : needsScores → ∀ hit ∈ hits, ∃ order : List (Clause S),
    order.Perm (matching clauses hit.doc) ∧
    hit.score = some (ops.narrow (ops.total (order.map fun clause => clause.score hit.doc)))

/-- Without matches nothing is collected. -/
theorem collects_nil
    (hfew : ∀ doc : Nat, lower ≤ doc → doc < upper →
      (matching clauses doc).length < minShouldMatch) :
    Collects ops clauses minShouldMatch needsScores acceptDocs lower upper [] := by
  refine ⟨List.Pairwise.nil, fun doc => ⟨by simp, ?_⟩, by simp⟩
  rintro ⟨hlow, hup, -, henough⟩
  have := hfew doc hlow hup
  omega

/-- Two ranges of documents. -/
theorem Collects.append {hits' : List (Hit S)}
    (h : Collects ops clauses minShouldMatch needsScores acceptDocs lower middle hits)
    (h' : Collects ops clauses minShouldMatch needsScores acceptDocs middle upper hits')
    (hlow : lower ≤ middle) (hup : middle ≤ upper) :
    Collects ops clauses minShouldMatch needsScores acceptDocs lower upper (hits ++ hits') := by
  refine ⟨?_, fun doc => ?_, fun hneeds hit hhit => ?_⟩
  · rw [map_append, Increasing, pairwise_append]
    refine ⟨h.increasing, h'.increasing, fun doc hdoc doc' hdoc' => ?_⟩
    have hlt := ((h.mem_iff doc).mp hdoc).2.1
    have hge := ((h'.mem_iff doc').mp hdoc').1
    omega
  · rw [map_append, mem_append, h.mem_iff, h'.mem_iff]
    constructor
    · rintro (⟨hl, hu, hrest⟩ | ⟨hl, hu, hrest⟩)
      · exact ⟨hl, hu.trans_le hup, hrest⟩
      · exact ⟨hlow.trans hl, hu, hrest⟩
    · rintro ⟨hl, hu, hrest⟩
      rcases Int.lt_or_le doc middle with hlt | hge
      · exact .inl ⟨hl, hlt, hrest⟩
      · exact .inr ⟨hge, hu, hrest⟩
  · rcases mem_append.mp hhit with hhit | hhit
    · exact h.score hneeds hit hhit
    · exact h'.score hneeds hit hhit

/-- Where there is no match before it, the range may start earlier. -/
theorem Collects.extend
    (h : Collects ops clauses minShouldMatch needsScores acceptDocs middle upper hits)
    (hlow : lower ≤ middle) (hup : middle ≤ upper)
    (hfew : ∀ doc : Nat, lower ≤ doc → doc < middle →
      (matching clauses doc).length < minShouldMatch) :
    Collects ops clauses minShouldMatch needsScores acceptDocs lower upper hits :=
  (collects_nil hfew).append h hlow hup

/-! ## A window with several leads -/

/-- What the wrappers of a window mark at a position. -/
def windowMarks (acceptDocs : Option (Nat → Bool)) (base : Nat) (lower upper : Int)
    (ws : List (DisiWrapper S)) (i : Nat) : List S :=
  ws.flatMap fun w => contribution acceptDocs base lower upper w.clause i

/-- Within the window the marks are the scores of the matching clauses. -/
theorem windowMarks_inside (ws : List (DisiWrapper S)) (hlow : lower ≤ (base + i : Nat))
    (hup : ((base + i : Nat) : Int) < upper) (haccepted : accepted acceptDocs (base + i)) :
    windowMarks acceptDocs base lower upper ws i =
      (matching (ws.map DisiWrapper.clause) (base + i)).map fun clause =>
        clause.score (base + i) := by
  unfold windowMarks
  induction ws with
  | nil => rfl
  | cons w ws ih =>
    rw [flatMap_cons, ih, contribution]
    by_cases hmem : base + i ∈ w.clause.docs
    · rw [if_pos ⟨hmem, hlow, hup, haccepted⟩]
      simp [matching, hmem]
    · simp [matching, hmem]

/-- Nothing is marked outside of the window. -/
theorem windowMarks_outside (ws : List (DisiWrapper S))
    (hout : ¬(lower ≤ (base + i : Nat) ∧ ((base + i : Nat) : Int) < upper ∧
      accepted acceptDocs (base + i))) :
    windowMarks acceptDocs base lower upper ws i = [] := by
  unfold windowMarks
  rw [flatMap_eq_nil_iff]
  intro w _
  rw [contribution, if_neg (fun h => hout h.2)]

/-- The positions with enough marks are the accepted matches of the window. -/
theorem mem_docs_iff (hpos : 1 ≤ minShouldMatch) (hlower : (base : Int) ≤ lower)
    (hupper : upper ≤ base + size) (hclauses : clausesOf (others + (ws : Wrappers S)) = clauses)
    (hothers : ∀ w ∈ others, ∀ doc : Nat, lower ≤ doc → doc < upper → doc ∉ w.clause.docs) :
    doc ∈ ((range size).filter fun i =>
        decide (minShouldMatch ≤ (windowMarks acceptDocs base lower upper ws i).length)).map
          (base + ·) ↔
      lower ≤ doc ∧ doc < upper ∧ accepted acceptDocs doc ∧
        minShouldMatch ≤ (matching clauses doc).length := by
  have hlength : ∀ i, lower ≤ (base + i : Nat) → ((base + i : Nat) : Int) < upper →
      accepted acceptDocs (base + i) →
      (windowMarks acceptDocs base lower upper ws i).length =
        (matching clauses (base + i)).length := by
    intro i hlow hup haccepted
    rw [windowMarks_inside ws hlow hup haccepted, length_map]
    exact (matching_perm hclauses fun w hw => hothers w hw _ hlow hup).length_eq
  simp only [mem_map, mem_filter, mem_range, decide_eq_true_eq]
  constructor
  · rintro ⟨i, ⟨-, henough⟩, rfl⟩
    by_cases hin : lower ≤ (base + i : Nat) ∧ ((base + i : Nat) : Int) < upper ∧
        accepted acceptDocs (base + i)
    · rw [hlength i hin.1 hin.2.1 hin.2.2] at henough
      exact ⟨hin.1, hin.2.1, hin.2.2, henough⟩
    · rw [windowMarks_outside ws hin, length_nil] at henough
      omega
  · rintro ⟨hlow, hup, haccepted, henough⟩
    obtain ⟨i, rfl⟩ : ∃ i, doc = base + i := ⟨doc - base, by omega⟩
    refine ⟨i, ⟨by omega, ?_⟩, rfl⟩
    rw [hlength i hlow hup haccepted]
    exact henough

/-- The window shows no marks, and has buckets if they are needed. -/
structure Clean (ops : ScoreOps S D) (s : BooleanScorer S D) : Prop where
  shows : Shows ops s.needsScores s.window (fun _ => [])
  without : s.window.buckets = none → s.minShouldMatch = 1 ∧ s.needsScores = false

variable {s : BooleanScorer S D}

/-- What a window collects. -/
theorem Clean.collects (h : Clean ops s) (acceptDocs : Option (Nat → Bool))
    (hpos : 1 ≤ s.minShouldMatch) (hbase : base % size = 0)
    (hlower : (base : Int) ≤ lower) (hle : lower ≤ upper) (hupper : upper ≤ base + size)
    (hupper' : upper ≤ noMoreDocs) (hreach : ∀ w ∈ ws, w.Reaches lower)
    (hclauses : clausesOf (others + (ws : Wrappers S)) = clauses)
    (hothers : ∀ w ∈ others, ∀ doc : Nat, lower ≤ doc → doc < upper → doc ∉ w.clause.docs) :
    ∃ hits window ws',
      s.scoreWindowIntoBitsetAndReplay ops acceptDocs base lower upper ws ws.length =
        (hits, { s with window }, ws') ∧
      Collects ops clauses s.minShouldMatch s.needsScores acceptDocs lower upper hits ∧
      Clean ops { s with window } ∧ List.Forall₂ (fun w w' => Scored w w' upper) ws ws' := by
  obtain ⟨hshows, hbuckets, hscored⟩ := Shows.scoreWrappers s acceptDocs hbase hlower hle hupper
    hupper' h.shows hreach
  change Shows ops s.needsScores _ (windowMarks acceptDocs base lower upper ws) at hshows
  obtain ⟨⟨window, ws'⟩, hresult⟩ : ∃ result,
      s.scoreWrappers ops acceptDocs lower upper s.window ws = result := ⟨_, rfl⟩
  simp only [hresult] at hshows hbuckets hscored
  have hnone : window.buckets = none → s.window.buckets = none := by
    intro hnone
    rw [hnone] at hbuckets
    simpa using hbuckets.symm
  obtain ⟨hits, buckets, hreplay, hdocs, hscores, hsome, hclear⟩ := hshows.forEach hpos
    (fun hb => (h.without (hnone hb)).1) hbase
  refine ⟨hits, ⟨window.matching.map fun _ => 0, buckets⟩, ws', ?_, ⟨?_, ?_, ?_⟩, ⟨hclear, ?_⟩,
    hscored⟩
  · unfold scoreWindowIntoBitsetAndReplay
    simp only [take_length, hresult, drop_length, Int.toNat_natCast, hreplay, append_nil]
  · rw [hdocs]
    exact ((Increasing.range _).filter _).map_add _
  · intro doc
    rw [hdocs]
    exact mem_docs_iff hpos hlower hupper hclauses hothers
  · intro hneeds hit hhit
    have hmem : hit.doc ∈ hits.map Hit.doc := mem_map_of_mem hhit
    rw [hdocs, mem_docs_iff hpos hlower hupper hclauses hothers] at hmem
    obtain ⟨hlow, hup, haccepted, -⟩ := hmem
    obtain ⟨i, hi⟩ : ∃ i, hit.doc = base + i := ⟨hit.doc - base, by omega⟩
    have hsomeBuckets : window.buckets.isSome := by
      rw [Option.isSome_iff_ne_none]
      intro hb
      rw [(h.without (hnone hb)).2] at hneeds
      cases hneeds
    rw [hi] at hlow hup haccepted
    rw [hscores hsomeBuckets hneeds hit hhit i hi, windowMarks_inside ws hlow hup haccepted, hi]
    exact ⟨_, matching_perm hclauses fun w hw => hothers w hw _ hlow hup, rfl⟩
  · rintro (rfl : buckets = none)
    exact h.without (hnone (by simpa using hsome.symm))

/-! ## Between windows -/

/-- A scorer between windows: all clauses are there, in full queues, the window is clean, and no
wrapper has gone past a document from `place` on. -/
structure Ready (ops : ScoreOps S D) (clauses : List (Clause S)) (s : BooleanScorer S D)
    (inHead inTail : Wrappers S) (place : Int) : Prop where
  standing : Standing s.head s.tail inHead inTail place
  clean : Clean ops s
  two_le : 2 ≤ clauses.length
  le_length : s.minShouldMatch ≤ clauses.length
  head_maxSize : s.head.maxSize + s.minShouldMatch = clauses.length + 1
  tail_maxSize : s.tail.maxSize + 1 = s.minShouldMatch
  head_card : inHead.card = s.head.maxSize
  tail_card : inTail.card = s.tail.maxSize
  clauses_eq : clausesOf (inHead + inTail) = clauses

/-- A scorer is ready for every later place. -/
theorem Ready.mono {place' : Int} (h : Ready ops clauses s inHead inTail place)
    (hle : place ≤ place') : Ready ops clauses s inHead inTail place' :=
  { h with
    standing := { h.standing with reaches := fun w hw => (h.standing.reaches w hw).mono hle } }

/-- After a window the scorer is ready again. -/
theorem Refilled.ready (h : Refilled clauses upper head tail s.head s.tail inHead' inTail')
    (hclean : Clean ops s) (htwo : 2 ≤ clauses.length) (hle : s.minShouldMatch ≤ clauses.length)
    (hhead : head.maxSize + s.minShouldMatch = clauses.length + 1)
    (htail : tail.maxSize + 1 = s.minShouldMatch) : Ready ops clauses s inHead' inTail' upper where
  standing := h.standing
  clean := hclean
  two_le := htwo
  le_length := hle
  head_maxSize := h.head_maxSize ▸ hhead
  tail_maxSize := h.tail_maxSize ▸ htail
  head_card := h.head_card.trans h.head_maxSize.symm
  tail_card := h.tail_card.trans h.tail_maxSize.symm
  clauses_eq := h.clauses_eq

/-- The head has a top, which is the least of it. -/
theorem Ready.exists_top (h : Ready ops clauses s inHead inTail place) :
    ∃ top rest, s.head.top = some top ∧ inHead = top ::ₘ rest ∧ ∀ w ∈ inHead, top.doc ≤ w.doc := by
  cases htop : s.head.top with
  | none =>
    have hzero := h.standing.head.top_eq_none.mp htop
    have hcard := h.head_card
    have hmax := h.head_maxSize
    have hle := h.le_length
    rw [hzero, card_zero] at hcard
    omega
  | some top =>
    obtain ⟨rest, hrest, hleast⟩ := h.standing.top_le htop
    exact ⟨top, rest, rfl, hrest, hleast⟩

/-- Before the head there are too few clauses for a match. -/
theorem Ready.few (h : Ready ops clauses s inHead inTail place) (hplace : place ≤ doc)
    (hhead : ∀ w ∈ inHead, (doc : Int) < w.doc) :
    (matching clauses doc).length < s.minShouldMatch := by
  have hle := matching_length_le h.clauses_eq fun w hw =>
    (h.standing.reaches w (mem_add.mpr (.inl hw))).not_mem hplace (hhead w hw)
  have := h.tail_card
  have := h.tail_maxSize
  omega

/-! ## Gathering the leads of a window -/

theorem windowBase_le (doc : Int) : windowBase doc ≤ doc := by
  unfold windowBase size
  omega

theorem windowBase_mod (doc : Int) : windowBase doc % size = 0 := by
  unfold windowBase size
  omega

/-- A document is within its window. -/
theorem lt_windowBase_add (doc : Int) : doc < windowBase doc + size := by
  unfold windowBase size
  omega

/-- The leads of the window of the top: it and the others of the head that stand in the window. -/
theorem Ready.gather (h : Ready ops clauses s inHead inTail lower) (htop : s.head.top = some top)
    (hrest : inHead = top ::ₘ rest) (hlt : top.doc < upper) :
    ∃ head inHead' more,
      s.head.pop headLess = (some top, (s.head.pop headLess).2) ∧
      takeLeads upper (s.head.pop headLess).2.size (s.head.pop headLess).2 [top] 1 =
        (head, top :: more, more.length + 1) ∧
      Gathering clauses.length s.minShouldMatch lower upper head s.tail inHead' inTail
        (top :: more) ∧
      (top ::ₘ (more : Wrappers S)) + inHead' = inHead := by
  obtain ⟨hpop, hholds⟩ := h.standing.head.pop headLess_comparison htop hrest
  obtain ⟨head, inHead', more, hrun, hhead, hmax, hparts, hmore, hafter⟩ :=
    takeLeads_spec (s.head.pop headLess).2.size [top] hholds hholds.size_eq.ge
  have hsame : (top ::ₘ (more : Wrappers S)) + inHead' = inHead := by
    rw [hrest, ← hparts, cons_add]
  have hcards := congrArg Multiset.card hsame
  rw [card_add, card_cons, coe_card] at hcards
  have hhmax := h.head_maxSize
  have htmax := h.tail_maxSize
  have hhcard := h.head_card
  have htcard := h.tail_card
  refine ⟨head, inHead', more, by rw [← hpop], by simpa using hrun,
    ⟨hhead, h.standing.tail, ?_, htmax, ?_, ?_, ?_, ?_, ?_, hafter⟩, hsame⟩
  · rw [hmax]
    exact hhmax
  · rw [length_cons]
    omega
  · omega
  · intro w hw
    apply h.standing.reaches w
    rw [← hsame]
    simp only [mem_add, mem_coe, mem_cons, Multiset.mem_cons] at hw ⊢
    tauto
  · exact forall_mem_cons.mpr ⟨hlt, hmore⟩
  · intro w hw
    have := h.standing.behind w hw top (h.standing.top_mem htop)
    omega

/-! ## A window with several leads -/

theorem before_add (lower : Int) (ws ws' : Wrappers S) :
    before lower (ws + ws') = before lower ws + before lower ws' :=
  Multiset.countP_add ..

theorem before_eq_card {ws : Wrappers S} (h : ∀ w ∈ ws, w.doc < lower) :
    before lower ws = ws.card :=
  Multiset.countP_eq_card.mpr h

theorem before_eq_zero {ws : Wrappers S} (h : ∀ w ∈ ws, lower ≤ w.doc) : before lower ws = 0 :=
  Multiset.countP_eq_zero.mpr fun w hw => by have := h w hw; omega

/-- If no more wrappers stand before a document than the tail holds, the head is beyond it. -/
theorem head_after_of_before {inHead inTail : Wrappers S}
    (hbehind : ∀ t ∈ inTail, ∀ w ∈ inHead, t.doc ≤ w.doc)
    (hbefore : before upper (inHead + inTail) ≤ inTail.card) : ∀ w ∈ inHead, upper ≤ w.doc := by
  intro w hw
  by_contra hlt
  have htail : before upper inTail = inTail.card :=
    before_eq_card fun t ht => by have := hbehind t ht w hw; omega
  have hhead : 0 < before upper inHead := Multiset.countP_pos.mpr ⟨w, hw, by omega⟩
  rw [before_add] at hbefore
  omega

/-- The wrappers of a prepared window: the head is out of it. -/
theorem Gathering.not_mem
    (h : Gathering count minShouldMatch lower upper head tail inHead inTail leads) (hw : w ∈ inHead)
    (hlow : lower ≤ doc) (hup : doc < upper) : doc ∉ w.clause.docs :=
  (h.reaches w (by simp [hw])).not_mem hlow (hup.trans_le (h.head_after w hw))

/-- Without enough leads there is no match, and the leads go back to the tail. -/
theorem Gathering.no_match
    (h : Gathering clauses.length minShouldMatch lower upper head tail inHead inTail leads)
    (hle : lower ≤ upper) (hclauses : clausesOf (inHead + inTail + (leads : Wrappers S)) = clauses)
    (hfew : leads.length + inTail.card < minShouldMatch) :
    (∀ doc : Nat, lower ≤ doc → doc < upper → (matching clauses doc).length < minShouldMatch) ∧
    ∃ head' tail' inHead' inTail', giveBack leads head tail = .ok (head', tail') ∧
      Refilled clauses upper head tail head' tail' inHead' inTail' := by
  have hhmax := h.head_maxSize
  have htmax := h.tail_maxSize
  have hcard := h.card_eq
  have henough := h.enough
  constructor
  · intro doc hlow hup
    rw [add_assoc] at hclauses
    have hbound := matching_length_le hclauses fun w hw => h.not_mem hw hlow hup
    rw [card_add, coe_card] at hbound
    omega
  · obtain ⟨head', tail', inHead', inTail', hrun, hhead, htail, hhmax', htmax',
      hhcard, htcard, hsame,
        hbehind⟩ := PriorityQueue.Spilling.spill headLess_comparison tailLess_comparison
      ⟨h.head_holds, h.tail_holds, by omega, hcard.trans (by omega), .inl (by omega),
        fun t ht w hw => headLess_eq_false.mpr
          ((h.tail_before t ht).trans_le (h.head_after w hw)).le⟩
    simp only [headLess_eq_false] at hbehind
    have hbefore : before upper (inHead' + inTail') = inTail.card + leads.length := by
      rw [hsame, before_add, before_add, before_eq_zero h.head_after, before_eq_card h.tail_before,
        before_eq_card (fun w hw => h.leads_before w hw), coe_card]
      omega
    refine ⟨head', tail', inHead', inTail', giveBack_eq.trans hrun,
      ⟨hhead, htail, ?_, hbehind⟩, hhmax', htmax', hhcard, htcard, ?_,
      head_after_of_before hbehind (by omega)⟩
    · intro w hw
      exact (h.reaches w (hsame ▸ hw)).mono hle
    · rw [hsame, hclauses]

/-- What scored wrappers leave behind. -/
theorem clausesOf_scored (h : List.Forall₂ (fun w w' => Scored w w' upper) ws ws') :
    clausesOf (ws' : Wrappers S) = clausesOf (ws : Wrappers S) := by
  induction h with
  | nil => rfl
  | cons hscored _ ih =>
    rw [← cons_coe, ← cons_coe, clausesOf_cons, clausesOf_cons, ih, hscored.clause_eq]

/-- Every wrapper goes on behind the window. -/
theorem exists_scored (h : List.Forall₂ (fun w w' => Scored w w' upper) ws ws') (hw' : w' ∈ ws') :
    w'.Reaches upper ∧ upper ≤ w'.doc := by
  induction h with
  | nil => cases hw'
  | cons hscored _ ih =>
    rcases mem_cons.mp hw' with rfl | hw'
    · exact ⟨hscored.reaches, hscored.le_doc⟩
    · exact ih hw'

/-- Scored wrappers fill the queues again, all of them beyond the window. -/
theorem Gathering.fill_scored
    (h : Gathering count minShouldMatch lower upper head tail inHead inTail leads)
    (hle : lower ≤ upper) (hclauses : clausesOf (inHead + inTail + (leads : Wrappers S)) = clauses)
    (hws : (ws : Wrappers S) = inTail + (leads : Wrappers S))
    (hscored : List.Forall₂ (fun w w' => Scored w w' upper) ws ws') :
    ∃ head' tail' inHead' inTail', giveBack ws' head ⟨[], tail.maxSize⟩ = .ok (head', tail') ∧
      Refilled clauses upper head tail head' tail' inHead' inTail' := by
  have hhmax := h.head_maxSize
  have htmax := h.tail_maxSize
  have hcard := h.card_eq
  have henough := h.enough
  have hlength : ws'.length = inTail.card + leads.length := by
    rw [← hscored.length_eq, ← coe_card ws, hws, card_add, coe_card]
  obtain ⟨head', tail', inHead', inTail', hrun, hhead, htail, hhmax', htmax', hhcard, htcard, hsame,
      hbehind⟩ := PriorityQueue.Spilling.spill headLess_comparison tailLess_comparison
    ⟨h.head_holds, PriorityQueue.holds_nil tailLess tail.maxSize, by omega,
      show _ + 0 + ws'.length = _ by dsimp only; omega, .inr rfl, by simp⟩
  simp only [headLess_eq_false] at hbehind
  rw [add_zero] at hsame
  have hbeyond : ∀ w ∈ inHead' + inTail', w.Reaches upper ∧ upper ≤ w.doc := by
    intro w hw
    rw [hsame] at hw
    rcases mem_add.mp hw with hw | hw
    · exact ⟨(h.reaches w (by simp [hw])).mono hle, h.head_after w hw⟩
    · exact exists_scored hscored hw
  refine ⟨head', tail', inHead', inTail', giveBack_eq.trans hrun, ⟨hhead, htail,
    fun w hw => (hbeyond w hw).1, hbehind⟩, hhmax', htmax', hhcard, htcard, ?_,
    fun w hw => (hbeyond w (mem_add.mpr (.inl hw))).2⟩
  rw [hsame, ← hclauses, add_assoc, ← hws, clausesOf_add, clausesOf_add, clausesOf_scored hscored]

/-- A window with several leads. -/
theorem Gathering.scoreWindowMultipleScorers (acceptDocs : Option (Nat → Bool))
    (h : Gathering clauses.length s.minShouldMatch lower upper s.head s.tail inHead inTail leads)
    (hclean : Clean ops s) (htwo : 2 ≤ clauses.length) (hlength : s.minShouldMatch ≤ clauses.length)
    (hclauses : clausesOf (inHead + inTail + (leads : Wrappers S)) = clauses)
    (hbase : base % size = 0) (hlower : (base : Int) ≤ lower) (hle : lower ≤ upper)
    (hupper : upper ≤ base + size) (hupper' : upper ≤ noMoreDocs) :
    ∃ hits s' inHead' inTail',
      s.scoreWindowMultipleScorers ops acceptDocs base lower upper leads.length leads =
        .ok (hits, s') ∧
      Collects ops clauses s.minShouldMatch s.needsScores acceptDocs lower upper hits ∧
      Ready ops clauses s' inHead' inTail' upper ∧
      s'.minShouldMatch = s.minShouldMatch ∧ s'.needsScores = s.needsScores ∧
      ∀ w ∈ inHead', upper ≤ w.doc := by
  obtain ⟨head, tail, inHead₁, inTail₁, leads₁, hrun, hgather, hsame, hend⟩ :=
    h.takeCandidates s.tail.size h.tail_holds.size_eq.ge
  rw [hclauses] at hsame
  have hhmax := hgather.head_maxSize
  have htmax := hgather.tail_maxSize
  unfold BooleanScorer.scoreWindowMultipleScorers
  simp only [hrun, ok_bind]
  by_cases hmatch : s.minShouldMatch ≤ leads₁.length
  · rw [if_pos hmatch]
    have hws : ((leads₁ ++ tail.heap : List (DisiWrapper S)) : Wrappers S) =
        inTail₁ + (leads₁ : Wrappers S) := by
      rw [← Multiset.coe_add, hgather.tail_holds.items_eq, add_comm]
    have hcount : leads₁.length + tail.size = (leads₁ ++ tail.heap).length :=
      length_append.symm
    have hclean' : Clean ops { s with head, tail := { tail with heap := [] } } :=
      ⟨hclean.shows, hclean.without⟩
    obtain ⟨hits, window, ws', hscore, hcollects, hclean'', hscored⟩ :=
      hclean'.collects acceptDocs (by simp only; omega) hbase hlower hle hupper hupper'
        (fun w hw => hgather.reaches w (by
          rw [add_assoc, ← hws]
          exact mem_add.mpr (.inr hw)))
        (by rw [hws, ← add_assoc]; exact hsame)
          (fun w hw doc hlow hup => hgather.not_mem hw hlow hup)
    obtain ⟨head', tail', inHead', inTail', hback, hrefilled⟩ :=
      hgather.fill_scored hle hsame hws hscored
    refine ⟨hits, { s with window, head := head', tail := tail' }, inHead', inTail', ?_, hcollects,
      hrefilled.ready ⟨hclean''.shows, hclean''.without⟩ htwo hlength hhmax htmax, rfl, rfl,
      hrefilled.head_after⟩
    rw [hcount, hscore]
    simp only [hback, ok_bind, pure_eq_ok]
  · rw [if_neg hmatch]
    obtain ⟨hfew, head', tail', inHead', inTail', hback, hrefilled⟩ :=
      hgather.no_match hle hsame (by omega)
    refine ⟨[], { s with head := head', tail := tail' }, inHead', inTail', ?_, collects_nil hfew,
      hrefilled.ready ⟨hclean.shows, hclean.without⟩ htwo hlength hhmax htmax, rfl, rfl,
      hrefilled.head_after⟩
    simp only [hback, ok_bind, pure_eq_ok]

/-! ## A window with one lead -/

/-- The documents of one wrapper are collected directly. -/
theorem collectDocs_spec (acceptDocs : Option (Nat → Bool)) (hupper : upper ≤ noMoreDocs)
    (fuel : Nat) (hreach : w.Reaches place) (hplace : place ≤ upper) (hpos : 0 ≤ w.doc)
    (hfuel : upper ≤ w.doc + fuel) :
    Increasing ((collectDocs acceptDocs upper fuel w).1.map Hit.doc) ∧
    (∀ doc : Nat, doc ∈ (collectDocs acceptDocs upper fuel w).1.map Hit.doc ↔
      doc ∈ w.clause.docs ∧ w.doc ≤ doc ∧ doc < upper ∧ accepted acceptDocs doc) ∧
    (∀ hit ∈ (collectDocs acceptDocs upper fuel w).1, hit.score = some (w.clause.score hit.doc)) ∧
    Scored w (collectDocs acceptDocs upper fuel w).2 upper := by
  induction fuel generalizing w place with
  | zero =>
    refine ⟨List.Pairwise.nil, fun doc => ⟨by simp [collectDocs], ?_⟩, by simp [collectDocs],
      .of_le hreach hplace (by simpa using hfuel)⟩
    rintro ⟨-, hlow, hup, -⟩
    omega
  | succ fuel ih =>
    by_cases hlt : w.doc < upper
    · have hscored := scored_nextDoc (show w.doc < noMoreDocs by omega)
      have hnext := w.lt_nextDoc (show w.doc < noMoreDocs by omega)
      obtain ⟨hincreasing, hmem, hscore, hrest⟩ := ih hscored.reaches (by omega) (by omega)
        (by push_cast at hfuel; omega)
      have hdoc := hreach.placed.toNat_mem hpos (by omega)
      -- the documents of the clause from here on are this one and those from the next on
      have hsplit : ∀ doc : Nat, (doc ∈ w.clause.docs ∧ w.doc ≤ doc ∧ doc < upper ∧
            accepted acceptDocs doc) ↔
          (doc = w.doc.toNat ∧ accepted acceptDocs doc) ∨ (doc ∈ w.clause.docs ∧
            w.nextDoc.doc ≤ doc ∧ doc < upper ∧ accepted acceptDocs doc) := by
        intro doc
        constructor
        · rintro ⟨hd, hlow, hup, hacc⟩
          rcases eq_or_lt_of_le hlow with heq | hgt
          · exact .inl ⟨by omega, hacc⟩
          · exact .inr ⟨hd, hscored.reaches.ahead doc hd hgt, hup, hacc⟩
        · rintro (⟨rfl, hacc⟩ | ⟨hd, hlow, hup, hacc⟩)
          · exact ⟨hdoc, by omega, by omega, hacc⟩
          · exact ⟨hd, by omega, hup, hacc⟩
      simp only [collectDocs, if_pos hlt]
      by_cases hacc : accepted acceptDocs w.doc.toNat = true
      · simp only [if_pos hacc]
        refine ⟨?_, fun doc => ?_, ?_, hscored.trans hrest⟩
        · rw [map_cons, Increasing, pairwise_cons]
          refine ⟨fun doc hd => ?_, hincreasing⟩
          have := ((hmem doc).mp hd).2.1
          show w.doc.toNat < doc
          omega
        · rw [map_cons, mem_cons, hmem, hsplit]
          refine or_congr_left ⟨fun h => ⟨h, ?_⟩, fun h => h.1⟩
          rw [h]
          exact hacc
        · exact forall_mem_cons.mpr ⟨rfl, hscore⟩
      · simp only [if_neg hacc]
        refine ⟨hincreasing, fun doc => ?_, hscore, hscored.trans hrest⟩
        rw [hmem, hsplit]
        refine ⟨.inr, ?_⟩
        rintro (⟨rfl, h⟩ | h)
        · exact absurd h hacc
        · exact h
    · simp only [collectDocs, if_neg hlt]
      refine ⟨List.Pairwise.nil, fun doc => ⟨by simp, ?_⟩, by simp, .of_le hreach hplace (by omega)⟩
      rintro ⟨-, hlow, hup, -⟩
      omega

/-- If only one clause can match, its documents are the matches. -/
theorem collects_single (hclauses : clausesOf (others + {w}) = clauses)
    (hothers : ∀ w' ∈ others, ∀ doc : Nat, lower ≤ doc → doc < upper → doc ∉ w'.clause.docs)
    (hincreasing : Increasing (hits.map Hit.doc))
    (hmem : ∀ doc : Nat, doc ∈ hits.map Hit.doc ↔ doc ∈ w.clause.docs ∧ lower ≤ doc ∧ doc < upper ∧
      accepted acceptDocs doc)
    (hscore : ∀ hit ∈ hits, hit.score = some (w.clause.score hit.doc)) :
    Collects ops clauses 1 needsScores acceptDocs lower upper hits := by
  have hperm : ∀ doc : Nat, lower ≤ doc → doc < upper →
      (matching [w.clause] doc).Perm (matching clauses doc) := fun doc hlow hup =>
    @matching_perm S clauses others [w] (by rw [coe_singleton]; exact hclauses) doc
      fun w' hw' => hothers w' hw' doc hlow hup
  refine ⟨hincreasing, fun doc => ?_, fun _ hit hhit => ?_⟩
  · rw [hmem]
    constructor
    · rintro ⟨hd, hlow, hup, hacc⟩
      refine ⟨hlow, hup, hacc, ?_⟩
      rw [← (hperm doc hlow hup).length_eq]
      simp [matching, hd]
    · rintro ⟨hlow, hup, hacc, henough⟩
      refine ⟨?_, hlow, hup, hacc⟩
      rw [← (hperm doc hlow hup).length_eq] at henough
      by_contra hd
      simp [matching, hd] at henough
  · obtain ⟨hd, hlow, hup, -⟩ := (hmem hit.doc).mp (mem_map_of_mem hhit)
    refine ⟨[w.clause], ?_, ?_⟩
    · have := hperm hit.doc hlow hup
      simpa [matching, hd] using this
    · rw [hscore hit hhit]
      simp [ScoreOps.total, ops.narrow_add_zero]

/-- A window with one lead, of a scorer that needs one match. It goes on up to the window of the
next clause. -/
theorem Gathering.scoreWindowSingleScorer (ops : ScoreOps S D) (needsScores : Bool)
    (acceptDocs : Option (Nat → Bool))
    (h : Gathering clauses.length 1 lower upper head tail inHead 0 [w]) (htwo : 2 ≤ clauses.length)
    (hclauses : clausesOf (inHead + {w}) = clauses) (hpos : 0 ≤ lower) (hle : lower ≤ upper)
    (hupper : upper ≤ maxDoc) (hmax : maxDoc ≤ noMoreDocs)
    (haligned : upper % size = 0 ∨ upper = maxDoc) :
    ∃ hits w' head' last,
      scoreWindowSingleScorer head acceptDocs lower upper maxDoc w = .ok (hits, w') ∧
      head.add headLess w' = .ok head' ∧
      Collects ops clauses 1 needsScores acceptDocs lower last hits ∧
      Standing head' tail (w' ::ₘ inHead) 0 last ∧ head'.maxSize = head.maxSize ∧
      clausesOf (w' ::ₘ inHead) = clauses ∧ (∀ v ∈ w' ::ₘ inHead, last ≤ v.doc) ∧
      upper ≤ last ∧ last ≤ maxDoc ∧ (last % size = 0 ∨ last = maxDoc) := by
  have hcard := h.card_eq
  rw [card_zero, length_singleton] at hcard
  have hhmax := h.head_maxSize
  cases htop : head.top with
  | none =>
    rw [h.head_holds.top_eq_none.mp htop, card_zero] at hcard
    omega
  | some top =>
    obtain ⟨-, -, hleast⟩ := h.head_holds.top headLess_comparison htop
    -- the lead is alone up to the window of the next wrapper
    obtain ⟨last, hlast⟩ : ∃ last, last = max upper (min maxDoc (windowBase top.doc)) := ⟨_, rfl⟩
    have hlow : upper ≤ last := hlast ▸ le_max_left _ _
    have hup : last ≤ maxDoc := hlast ▸ max_le hupper (min_le_left _ _)
    have haligned' : last % size = 0 ∨ last = maxDoc := by
      rw [hlast]
      rcases le_total upper (min maxDoc (windowBase top.doc)) with hmore | hless
      · rw [max_eq_right hmore]
        rcases le_total maxDoc (windowBase top.doc) with hdone | hnext
        · exact .inr (min_eq_left hdone)
        · rw [min_eq_right hnext]
          exact .inl (windowBase_mod top.doc)
      · rw [max_eq_left hless]
        exact haligned
    have hothers : ∀ v ∈ inHead, last ≤ v.doc := by
      intro v hv
      have htopv := headLess_eq_false.mp (hleast v hv)
      rw [hlast]
      exact max_le (h.head_after v hv)
        ((min_le_right _ _).trans ((windowBase_le top.doc).trans htopv))
    have hreach : (w.advanceTo lower).Reaches lower :=
      (h.reaches w (by simp)).advanceTo le_rfl
    have hdoc := w.le_advanceTo (show lower ≤ noMoreDocs by omega)
    obtain ⟨hincreasing, hmem, hscore, hscored⟩ := collectDocs_spec acceptDocs (hup.trans hmax)
      (last - (w.advanceTo lower).doc).toNat hreach (by omega) (by omega) (by omega)
    obtain ⟨⟨hits, w'⟩, hresult⟩ : ∃ result, collectDocs acceptDocs last
      (last - (w.advanceTo lower).doc).toNat (w.advanceTo lower) = result := ⟨_, rfl⟩
    simp only [hresult, DisiWrapper.advanceTo_clause] at hincreasing hmem hscore hscored
    have hclause : w'.clause = w.clause := hscored.clause_eq.trans (w.advanceTo_clause lower)
    obtain ⟨head', hadd, hmaxSize, hholds⟩ := h.head_holds.add headLess_comparison w'
      (PriorityQueue.lt_capacity (by omega))
    refine ⟨hits, w', head', last, ?_, hadd, ?_, ⟨hholds, h.tail_holds, ?_, by simp⟩, hmaxSize, ?_,
      ?_, hlow, hup, haligned'⟩
    · simp only [BooleanScorer.scoreWindowSingleScorer, htop, ← hlast, hresult]
    · refine collects_single hclauses (fun v hv doc hl hu => ?_) hincreasing (fun doc => ?_) hscore
      · exact (h.reaches v (by simp [hv])).not_mem hl (hu.trans_le (hothers v hv))
      · rw [hmem]
        refine and_congr_right fun hd => and_congr_left fun _ => ⟨hdoc.trans, fun hl => ?_⟩
        have := hreach.ahead doc (by rw [DisiWrapper.advanceTo_clause]; exact hd) hl
        exact this
    · rw [add_zero]
      exact Multiset.forall_mem_cons.mpr ⟨hscored.reaches, fun v hv =>
        (h.reaches v (by simp [hv])).mono (hle.trans hlow)⟩
    · rw [clausesOf_cons, hclause, ← hclauses, clausesOf_add, clausesOf_singleton, add_comm,
        Multiset.singleton_add]
    · exact Multiset.forall_mem_cons.mpr ⟨hscored.le_doc, hothers⟩

/-! ## Windows -/

/-- The first document of the last window, where the end of the window leaves 32 bits. -/
def lastWindow : Nat := 2147479552

/-- Before the last window its end is a number of 32 bits. -/
theorem windowEnd_le {doc : Int} (hlt : doc < lastWindow) : windowBase doc + size ≤ 2147483647 := by
  unfold windowBase size
  unfold lastWindow at hlt
  omega

/-- So no build panics there. -/
theorem not_overflow {doc : Int} {checks : Bool} (hlt : doc < lastWindow) :
    ¬(checks = true ∧ 2147483647 < windowBase doc + size) :=
  fun hlarge => hlarge.2.not_ge (windowEnd_le hlt)

/-- It is computed as it should be. -/
theorem asI_windowEnd {doc : Int} (hpos : 0 ≤ doc) (hlt : doc < lastWindow) :
    asI 32 (windowBase doc + size) = windowBase doc + size := by
  apply asI_of_range (by decide)
  · unfold windowBase size
    omega
  · have := windowEnd_le hlt
    omega

/-- The documents from `lower` to `upper` are those of a call that lie in the window of `doc`, which
starts at `base`. -/
structure IsWindow (minDoc maxDoc doc : Int) (base : Nat) (lower upper : Int) : Prop where
  base_mod : base % size = 0
  base_le : (base : Int) ≤ lower
  min_le : minDoc ≤ lower
  lower_le : lower ≤ doc
  doc_lt : doc < upper
  upper_le_max : upper ≤ maxDoc
  upper_le_end : upper ≤ base + size
  aligned : upper % size = 0 ∨ upper = maxDoc

/-- Before the last window the source computes the bounds of the window. -/
theorem isWindow {doc : Int} (hmin : 0 ≤ minDoc) (hlow : minDoc ≤ doc) (hlt : doc < maxDoc)
    (hrange : doc < lastWindow) :
    IsWindow minDoc maxDoc doc (windowBase doc).toNat (max minDoc (windowBase doc))
      (min maxDoc (asI 32 (windowBase doc + size))) := by
  have hpos : 0 ≤ windowBase doc := by
    unfold windowBase size
    omega
  have hmod := windowBase_mod doc
  rw [asI_windowEnd (hmin.trans hlow) hrange]
  refine ⟨by unfold size at *; omega, by omega, le_max_left _ _, max_le hlow (windowBase_le doc),
    lt_min hlt (lt_windowBase_add doc), min_le_left _ _, by omega, ?_⟩
  rcases le_total maxDoc (windowBase doc + size) with hle | hle
  · exact .inr (min_eq_left hle)
  · rw [min_eq_right hle, Int.add_emod_right]
    exact .inl hmod

/-- What scoring a window does: the hits up to a new place, where the scorer is ready again. -/
structure Moved (ops : ScoreOps S D) (clauses : List (Clause S)) (acceptDocs : Option (Nat → Bool))
    (s : BooleanScorer S D) (place : Int) (hits : List (Hit S)) (s' : BooleanScorer S D)
    (inHead' inTail' : Wrappers S) (place' : Int) : Prop where
  collects : Collects ops clauses s.minShouldMatch s.needsScores acceptDocs place place' hits
  ready : Ready ops clauses s' inHead' inTail' place'
  minShouldMatch_eq : s'.minShouldMatch = s.minShouldMatch
  needsScores_eq : s'.needsScores = s.needsScores
  head_after : ∀ w ∈ inHead', place' ≤ w.doc

variable (acceptDocs) (checks : Bool)

/-- A window with one lead, in the scorer. -/
theorem Ready.scoreSingle (h : Ready ops clauses s inHead inTail lower)
    (hwindow : IsWindow minDoc maxDoc top.doc base lower upper) (hmin : 0 ≤ minDoc)
    (hmax : maxDoc ≤ noMoreDocs) (hone : s.minShouldMatch = 1)
    (hgather : Gathering clauses.length s.minShouldMatch lower upper head
      s.tail inHead' inTail [top])
    (hclauses : clausesOf (inHead' + inTail + {top}) = clauses) :
    ∃ hits w' head' top' last,
      BooleanScorer.scoreWindowSingleScorer head acceptDocs lower upper maxDoc top =
        .ok (hits, w') ∧
      head.add headLess w' = .ok head' ∧ head'.top = some top' ∧
      Moved ops clauses acceptDocs s lower hits { s with head := head' } (w' ::ₘ inHead') 0 last ∧
      upper ≤ last ∧ last ≤ maxDoc ∧ (last % size = 0 ∨ last = maxDoc) := by
  obtain rfl : inTail = 0 := by
    have hcard := h.tail_card
    have htmax := h.tail_maxSize
    exact Multiset.card_eq_zero.mp (by omega)
  rw [hone] at hgather
  rw [add_zero] at hclauses
  have := hwindow.min_le
  have := hwindow.lower_le
  have := hwindow.doc_lt
  obtain ⟨hits, w', head', last, hrun, hadd, hcollects, hstanding, hmaxSize, hclauses', hafter, hle,
    hle', haligned⟩ :=
      hgather.scoreWindowSingleScorer ops s.needsScores acceptDocs h.two_le hclauses
      (by omega) (by omega) hwindow.upper_le_max hmax hwindow.aligned
  have hhmax := hgather.head_maxSize
  have hcard := hgather.card_eq
  rw [card_zero, length_singleton] at hcard
  have hready : Ready ops clauses { s with head := head' } (w' ::ₘ inHead') 0 last := by
    refine ⟨hstanding, ⟨h.clean.shows, h.clean.without⟩, h.two_le, h.le_length, ?_, h.tail_maxSize,
      ?_, h.tail_card, by rw [add_zero]; exact hclauses'⟩
    · simp only [hmaxSize, hone]
      exact hhmax
    · rw [card_cons]
      simp only [hmaxSize]
      omega
  obtain ⟨top', -, htop', -, -⟩ := hready.exists_top
  exact ⟨hits, w', head', top', last, hrun, hadd, htop',
    ⟨hone ▸ hcollects, hready, rfl, rfl, hafter⟩, hle, hle', haligned⟩

/-- A window with several leads, in the scorer. -/
theorem Ready.scoreMultiple (h : Ready ops clauses s inHead inTail lower)
    (hwindow : IsWindow minDoc maxDoc top.doc base lower upper) (hmax : maxDoc ≤ noMoreDocs)
    (hgather : Gathering clauses.length s.minShouldMatch lower upper head
      s.tail inHead' inTail leads)
    (hclauses : clausesOf (inHead' + inTail + (leads : Wrappers S)) = clauses) :
    ∃ hits s' inHead'' inTail'' top',
      { s with head }.scoreWindowMultipleScorers ops acceptDocs base lower
      upper leads.length leads =
        .ok (hits, s') ∧
      s'.head.top = some top' ∧
      Moved ops clauses acceptDocs s lower hits s' inHead'' inTail'' upper := by
  obtain ⟨hits, s', inHead'', inTail'', hrun, hcollects, hready, hmsm, hneeds, hafter⟩ :=
    Gathering.scoreWindowMultipleScorers (s := { s with head }) acceptDocs hgather
      ⟨h.clean.shows, h.clean.without⟩ h.two_le h.le_length hclauses hwindow.base_mod
        hwindow.base_le
      (hwindow.lower_le.trans hwindow.doc_lt.le) hwindow.upper_le_end
      (hwindow.upper_le_max.trans hmax)
  obtain ⟨top', -, htop', -, -⟩ := hready.exists_top
  exact ⟨hits, s', inHead'', inTail'', top', hrun, htop', hcollects, hready, hmsm, hneeds, hafter⟩

/-- The window of the top of the head, as long as the source computes its bounds. -/
theorem Ready.scoreWindow (h : Ready ops clauses s inHead inTail place)
    (htop : s.head.top = some top) (hmin : 0 ≤ minDoc) (hlow : minDoc ≤ top.doc)
    (hlt : top.doc < maxDoc) (hmax : maxDoc ≤ noMoreDocs)
    (hplace : place ≤ max minDoc (windowBase top.doc)) (hrange : top.doc < lastWindow) :
    ∃ hits top' s' inHead' inTail' place',
      s.scoreWindow ops checks top.doc acceptDocs minDoc maxDoc = .ok (hits, top'.doc, s') ∧
      s'.head.top = some top' ∧
      Moved ops clauses acceptDocs s place hits s' inHead' inTail' place' ∧
      top.doc < place' ∧ place' ≤ maxDoc ∧ (place' % size = 0 ∨ place' = maxDoc) := by
  obtain ⟨rest, hrest, hleast⟩ := h.standing.top_le htop
  have hwindow := isWindow hmin hlow hlt hrange
  have hbase : ((windowBase top.doc).toNat : Int) = windowBase top.doc := by
    unfold windowBase size
    omega
  unfold BooleanScorer.scoreWindow
  simp only
  rw [if_neg (not_overflow hrange)]
  generalize max minDoc (windowBase top.doc) = lower at hplace hwindow ⊢
  generalize min maxDoc (asI 32 (windowBase top.doc + size)) = upper at hwindow ⊢
  -- before the top there is no match
  have hextend : ∀ {hits s' inHead' inTail' place'}, lower ≤ place' →
      Moved ops clauses acceptDocs s lower hits s' inHead' inTail' place' →
      Moved ops clauses acceptDocs s place hits s' inHead' inTail' place' := fun hle hmoved =>
    { hmoved with
      collects := hmoved.collects.extend hplace hle fun doc hp hl => h.few hp fun w hw => by
        have := hleast w hw
        have := hwindow.lower_le
        omega }
  have hready := h.mono hplace
  obtain ⟨head, inHead', more, hpop, hleads, hgather, hparts⟩ :=
    hready.gather htop hrest hwindow.doc_lt
  have hclauses : clausesOf (inHead' + inTail +
      ((top :: more : List (DisiWrapper S)) : Wrappers S)) = clauses := by
    rw [← h.clauses_eq, ← hparts, ← cons_coe, add_right_comm, add_comm inHead']
  have hle := hwindow.lower_le.trans hwindow.doc_lt.le
  rw [hpop]
  simp only [hleads]
  by_cases hsingle : s.minShouldMatch = 1 ∧ more.length + 1 = 1
  · rw [if_pos hsingle]
    obtain rfl : more = [] := eq_nil_of_length_eq_zero (by omega)
    rw [coe_singleton] at hclauses
    obtain ⟨hits, w', head', top', last, hrun, hadd, htop', hmoved, hlast, hlastMax, haligned⟩ :=
      hready.scoreSingle acceptDocs hwindow hmin hmax hsingle.1 hgather hclauses
    refine ⟨hits, top', _, _, _, last, ?_, htop', hextend (hle.trans hlast) hmoved,
      hwindow.doc_lt.trans_le hlast, hlastMax, haligned⟩
    simp only [hrun, hadd, ok_bind, htop', pure_eq_ok]
  · rw [if_neg hsingle]
    obtain ⟨hits, s', inHead₁, inTail₁, top', hrun, htop', hmoved⟩ :=
      hready.scoreMultiple acceptDocs hwindow hmax hgather hclauses
    refine ⟨hits, top', s', inHead₁, inTail₁, upper, ?_, htop', hextend hle hmoved, hwindow.doc_lt,
      hwindow.upper_le_max, hwindow.aligned⟩
    rw [hbase, length_cons] at hrun
    simp only [hrun, ok_bind, htop', pure_eq_ok]

end BooleanScorer

end RLucene.Search
