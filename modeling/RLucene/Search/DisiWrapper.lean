import RLucene.Search.DocIdSetIterator

/-!
# Clauses of a disjunction

The clauses of a query as their scorers show them to a disjunction: the documents they match, what
it costs to go through them, and the score of each document. A wrapper is a clause with the document
it stands on. `Reaches w place` is what disjunctions keep of a wrapper: it has not gone past a
document from `place` on.
-/

namespace RLucene.Search

open Lib

/-- A clause, with scores of some type. -/
structure Clause (S : Type) where
  docs : List Nat
  cost : Int
  score : Nat → S
  increasing : Increasing docs
  below : ∀ doc ∈ docs, doc < noMoreDocs

/-- The clauses that match a document. -/
def matching {S : Type} (clauses : List (Clause S)) (doc : Nat) : List (Clause S) :=
  clauses.filter fun clause => decide (doc ∈ clause.docs)

/-- A clause and the document it is on. -/
structure DisiWrapper (S : Type) where
  clause : Clause S
  doc : Int

namespace DisiWrapper

variable {S : Type}

/-- Before the first document. -/
def new (clause : Clause S) : DisiWrapper S :=
  ⟨clause, -1⟩

/-- The cost of the clause. -/
def cost (w : DisiWrapper S) : Int :=
  w.clause.cost

/-- Go to the first document from the target on. -/
def advance (w : DisiWrapper S) (target : Int) : DisiWrapper S :=
  { w with doc := leastFrom w.clause.docs target.toNat }

/-- Go to the next document. -/
def nextDoc (w : DisiWrapper S) : DisiWrapper S :=
  { w with doc := leastFrom w.clause.docs (w.doc + 1).toNat }

@[simp] theorem advance_clause (w : DisiWrapper S) (target : Int) :
    (w.advance target).clause = w.clause := rfl

/-- The wrapper stands before all documents, on one, or after all. -/
def Placed (w : DisiWrapper S) : Prop :=
  w.doc = -1 ∨ w.doc = noMoreDocs ∨ ∃ doc ∈ w.clause.docs, w.doc = doc

/-- The wrapper has not gone past a document from `place` on. -/
structure Reaches (w : DisiWrapper S) (place : Int) : Prop where
  placed : w.Placed
  ahead : ∀ doc ∈ w.clause.docs, place ≤ doc → w.doc ≤ doc

variable {w : DisiWrapper S} {place target : Int}

/-- A new wrapper comes to every document. -/
theorem new_reaches (clause : Clause S) (place : Int) : (new clause).Reaches place :=
  ⟨.inl rfl, fun doc _ _ => by
    show (-1 : Int) ≤ doc
    omega⟩

theorem Reaches.mono {place' : Int} (h : w.Reaches place) (hle : place ≤ place') :
    w.Reaches place' :=
  ⟨h.placed, fun doc hdoc hplace => h.ahead doc hdoc (hle.trans hplace)⟩

/-- A wrapper on a document comes to all later ones. -/
theorem Placed.reaches (h : w.Placed) : w.Reaches w.doc :=
  ⟨h, fun _ _ hle => hle⟩

/-- A wrapper that stands on a document from 0 on and before the end matches it. -/
theorem Placed.toNat_mem (h : w.Placed) (hnonneg : 0 ≤ w.doc) (hlt : w.doc < noMoreDocs) :
    w.doc.toNat ∈ w.clause.docs := by
  rcases h with h | h | ⟨doc, hmem, h⟩
  · omega
  · omega
  · rw [h, Int.toNat_natCast]
    exact hmem

theorem Placed.le (h : w.Placed) : w.doc ≤ noMoreDocs := by
  rcases h with h | h | ⟨doc, hmem, h⟩
  · omega
  · omega
  · have := w.clause.below doc hmem
    omega

/-- No document of the clause lies between the place and where the wrapper stands. -/
theorem Reaches.not_mem (h : w.Reaches place) {doc : Nat} (hplace : place ≤ doc)
    (hlt : (doc : Int) < w.doc) : doc ∉ w.clause.docs := by
  intro hmem
  have := h.ahead doc hmem hplace
  omega

/-- The least document is one, or the end. -/
theorem leastFrom_placed (clause : Clause S) (target : Nat) :
    (⟨clause, leastFrom clause.docs target⟩ : DisiWrapper S).Placed := by
  unfold leastFrom
  cases hfind : clause.docs.find? (target ≤ ·) with
  | none => exact .inr (.inl rfl)
  | some doc => exact .inr (.inr ⟨doc, List.mem_of_find?_eq_some hfind, rfl⟩)

/-- No document is passed over. -/
theorem leastFrom_ahead (clause : Clause S) {target doc : Nat} (hmem : doc ∈ clause.docs)
    (hle : target ≤ doc) : leastFrom clause.docs target ≤ doc := by
  unfold leastFrom
  cases hfind : clause.docs.find? (target ≤ ·) with
  | none =>
    have := List.find?_eq_none.mp hfind doc hmem
    simp only [decide_eq_true_eq] at this
    omega
  | some found => exact clause.increasing.le_of_find_eq_some hfind hmem hle

theorem le_leastFrom (docs : List Nat) {target : Nat} (htarget : target ≤ noMoreDocs) :
    target ≤ leastFrom docs target := by
  unfold leastFrom
  cases hfind : docs.find? (target ≤ ·) with
  | none => exact htarget
  | some doc => simpa using List.find?_some hfind

/-- After a move no document from the target on is passed over. -/
theorem advance_reaches (w : DisiWrapper S) : (w.advance target).Reaches target := by
  refine ⟨leastFrom_placed w.clause _, fun doc hdoc htarget => ?_⟩
  have := leastFrom_ahead w.clause hdoc (show target.toNat ≤ doc by omega)
  show ((leastFrom w.clause.docs target.toNat : Nat) : Int) ≤ doc
  omega

/-- A move does not stop before its target. -/
theorem le_advance (w : DisiWrapper S) (htarget : target ≤ noMoreDocs) :
    target ≤ (w.advance target).doc := by
  have := le_leastFrom w.clause.docs (show target.toNat ≤ noMoreDocs by omega)
  show target ≤ ((leastFrom w.clause.docs target.toNat : Nat) : Int)
  omega

theorem nextDoc_eq_advance (w : DisiWrapper S) : w.nextDoc = w.advance (w.doc + 1) := rfl

/-- The wrapper goes on. -/
theorem lt_nextDoc (w : DisiWrapper S) (hlt : w.doc < noMoreDocs) : w.doc < w.nextDoc.doc := by
  have := w.le_advance (show w.doc + 1 ≤ noMoreDocs by omega)
  rw [nextDoc_eq_advance]
  omega

/-- Stepping on leaves behind only the document stood on. -/
theorem nextDoc_reaches (w : DisiWrapper S) : w.nextDoc.Reaches (w.doc + 1) :=
  w.advance_reaches

/-- Advance unless the target is already reached. -/
def advanceTo (w : DisiWrapper S) (target : Int) : DisiWrapper S :=
  if w.doc < target then w.advance target else w

@[simp] theorem advanceTo_clause (w : DisiWrapper S) (target : Int) :
    (w.advanceTo target).clause = w.clause := by
  unfold advanceTo
  split <;> rfl

/-- A move does not stop before its target. -/
theorem le_advanceTo (w : DisiWrapper S) (htarget : target ≤ noMoreDocs) :
    target ≤ (w.advanceTo target).doc := by
  unfold advanceTo
  split
  · exact w.le_advance htarget
  · omega

/-- No document from the target on is passed over. -/
theorem Reaches.advanceTo (h : w.Reaches place) (hle : place ≤ target) :
    (w.advanceTo target).Reaches target := by
  unfold DisiWrapper.advanceTo
  split
  · exact w.advance_reaches
  · exact h.mono hle

end DisiWrapper

end RLucene.Search
