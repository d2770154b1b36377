import RLucene.Store.IndexInput
import RLucene.Lib.BitWord
import RLucene.Lib.Machine

/-!
# Document iterators

The contract of `DocIdSetIterator` with the `advance_exact` call that doc-values iterators add. The
abstract iterator over an increasing list of documents is a position; `specDoc` and `specAnswer` say
where a call moves it and what the call returns. `Legal` is the part of the documented contract a
caller has to keep: `advance` only moves forward, nothing follows exhaustion. An implementation is a
step function with an invariant that relates its states to abstract positions, and
`run_of_step_correct` lifts correctness of one step to every legal sequence of calls.
-/

namespace RLucene.Search

open Lib Store

/-- The document number that marks an exhausted iterator. -/
def noMoreDocs : Nat :=
  2147483647

/-- The calls that move an iterator. -/
inductive Call where
  | nextDoc
  | advance (target : Nat)
  | advanceExact (target : Nat)
  deriving DecidableEq, Repr

/-- What a call returns: a document number, or whether the target has been found. -/
inductive Answer where
  | doc (doc : Int)
  | found (found : Bool)
  deriving DecidableEq, Repr

/-! ## The abstract iterator -/

/-- The least document of the list that is not below the target. -/
def leastFrom (docs : List Nat) (target : Nat) : Nat :=
  (docs.find? (target ≤ ·)).getD noMoreDocs

/-- The position after a call. -/
def specDoc (docs : List Nat) (doc : Int) : Call → Int
  | .nextDoc => leastFrom docs (doc + 1).toNat
  | .advance target => leastFrom docs target
  | .advanceExact target => target

/-- The answer of a call. -/
def specAnswer (docs : List Nat) (doc : Int) : Call → Answer
  | .nextDoc => .doc (leastFrom docs (doc + 1).toNat)
  | .advance target => .doc (leastFrom docs target)
  | .advanceExact target => .found (decide (target ∈ docs))

/-- What the contract allows at a position. `advance` goes beyond the current document, or stays on
a position that a failed `advance_exact` left between two documents. -/
def Legal (docs : List Nat) (doc : Int) : Call → Prop
  | .nextDoc => doc < noMoreDocs
  | .advance target =>
    target ≤ noMoreDocs ∧ (doc < target ∨ doc = target ∧ target ∉ docs ∧ target < noMoreDocs)
  | .advanceExact target => doc ≤ target ∧ target < noMoreDocs

/-- What is asked of a call can be decided. -/
instance (docs : List Nat) (doc : Int) (call : Call) : Decidable (Legal docs doc call) :=
  match call with
  | .nextDoc => inferInstanceAs (Decidable (doc < noMoreDocs))
  | .advance target => inferInstanceAs (Decidable (target ≤ noMoreDocs ∧
      (doc < target ∨ doc = target ∧ target ∉ docs ∧ target < noMoreDocs)))
  | .advanceExact target => inferInstanceAs (Decidable (doc ≤ target ∧ target < noMoreDocs))

/-- The abstract iterator over the documents; its state is the position. -/
def iterator (docs : List Nat) : Machine Int Call Answer :=
  ⟨specDoc docs, specAnswer docs, Legal docs⟩

/-- What is asked of a call can be decided. -/
instance (docs : List Nat) (doc : Int) (call : Call) : Decidable ((iterator docs).Legal doc call) :=
  inferInstanceAs (Decidable (Legal docs doc call))

/-- Every call of the sequence is legal where it is made. -/
abbrev LegalRun (docs : List Nat) (doc : Int) (calls : List Call) : Prop :=
  (iterator docs).LegalRun doc calls

/-- The answers of the abstract iterator, each with the position it leaves. -/
abbrev specRun (docs : List Nat) (doc : Int) (calls : List Call) : List (Answer × Int) :=
  (iterator docs).trace doc calls

variable {docs : List Nat} {target : Nat}

theorem leastFrom_eq_of_mem {doc : Nat} (hdocs : Increasing docs) (hmem : doc ∈ docs)
    (hle : target ≤ doc) (hmin : ∀ d ∈ docs, target ≤ d → doc ≤ d) :
    leastFrom docs target = doc := by
  rw [leastFrom, hdocs.find_eq_some_of hmem hle hmin, Option.getD_some]

theorem leastFrom_eq_noMoreDocs (h : ∀ d ∈ docs, d < target) :
    leastFrom docs target = noMoreDocs := by
  rw [leastFrom, List.find?_eq_none.mpr]
  · rfl
  · intro d hd
    have := h d hd
    simp only [decide_eq_true_eq]
    omega

theorem leastFrom_of_mem (hdocs : Increasing docs) (hmem : target ∈ docs) :
    leastFrom docs target = target :=
  leastFrom_eq_of_mem hdocs hmem le_rfl (fun _ _ h => h)

/-! ## Implementations -/

section

variable {σ : Type}

/-- Make the calls one after another, keeping each answer and the state it leaves. -/
abbrev run (step : σ → Call → Result (Answer × σ)) (state : σ) (calls : List Call) :
    Result (List (Answer × σ)) :=
  Machine.run step state calls

/-- One step is correct: from a state that stands for a position, a legal call answers as the
abstract iterator does and leaves a state that stands for its next position. -/
abbrev StepCorrect (docs : List Nat) (Inv : Int → σ → Prop)
    (step : σ → Call → Result (Answer × σ)) : Prop :=
  (iterator docs).Refines Inv step

/-- If steps are correct, legal runs succeed with the abstract answers and keep the invariant. -/
theorem run_of_step_correct {Inv : Int → σ → Prop} {step : σ → Call → Result (Answer × σ)}
    (hstep : StepCorrect docs Inv step) (docOf : σ → Int)
    (hdoc : ∀ doc state, Inv doc state → docOf state = doc) {doc : Int} {state : σ}
    {calls : List Call} (hinv : Inv doc state) (hlegal : LegalRun docs doc calls) :
    ∃ trace, run step state calls = .ok trace ∧
      trace.map (fun entry => (entry.1, docOf entry.2)) = specRun docs doc calls ∧
      ∀ entry ∈ trace, Inv (docOf entry.2) entry.2 := by
  obtain ⟨trace, hrun, htrace, hstates⟩ :=
    Machine.run_of_refines hstep (f := id) (g := docOf) hdoc hinv hlegal
  refine ⟨trace, hrun, htrace.trans (List.map_id _), ?_⟩
  intro entry hentry
  obtain ⟨doc', hinv'⟩ := hstates entry hentry
  rw [hdoc doc' entry.2 hinv']
  exact hinv'

end

end RLucene.Search
