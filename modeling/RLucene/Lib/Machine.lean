/-!
# Abstract machines and their implementations

A machine says, for every state and every call the state allows, what the call answers and which
state it leaves. An implementation is a step function that may fail. It refines the machine under a
relation between the two kinds of states if each legal call succeeds with the machine's answer and
related states stay related; `run_of_refines` carries this to every legal sequence of calls.
-/

namespace RLucene.Lib

/-- A deterministic machine over calls with a precondition. -/
structure Machine (σ κ α : Type) where
  next : σ → κ → σ
  answer : σ → κ → α
  Legal : σ → κ → Prop

namespace Machine

variable {σ κ α τ ε : Type} (M : Machine σ κ α)

/-- Every call of the sequence is legal where it is made. -/
def LegalRun : σ → List κ → Prop
  | _, [] => True
  | s, call :: calls => M.Legal s call ∧ LegalRun (M.next s call) calls

/-- Whether a run is legal can be decided. -/
instance instDecidableLegalRun [h : ∀ s call, Decidable (M.Legal s call)] :
    (s : σ) → (calls : List κ) → Decidable (M.LegalRun s calls)
  | _, [] => .isTrue trivial
  | s, call :: calls =>
    have := instDecidableLegalRun (M.next s call) calls
    inferInstanceAs (Decidable (_ ∧ _))

/-- The answers of a sequence of calls, each with the state it leaves. -/
def trace : σ → List κ → List (α × σ)
  | _, [] => []
  | s, call :: calls => (M.answer s call, M.next s call) :: trace (M.next s call) calls

/-- Make the calls one after another, keeping each answer and the state it leaves. -/
def run (step : τ → κ → Except ε (α × τ)) : τ → List κ → Except ε (List (α × τ))
  | _, [] => .ok []
  | t, call :: calls => do
    let (answer, t) ← step t call
    let rest ← run step t calls
    return (answer, t) :: rest

/-- The implementation answers every legal call as the machine does and keeps the relation. -/
def Refines (R : σ → τ → Prop) (step : τ → κ → Except ε (α × τ)) : Prop :=
  ∀ s t call, R s t → M.Legal s call →
    ∃ t', step t call = .ok (M.answer s call, t') ∧ R (M.next s call) t'

variable {M}

/-- Legal runs of a refining implementation succeed with the machine's answers and views. -/
theorem run_of_refines {β : Type} {R : σ → τ → Prop} {step : τ → κ → Except ε (α × τ)}
    (hstep : M.Refines R step) {f : σ → β} {g : τ → β} (hobs : ∀ s t, R s t → g t = f s)
    {s : σ} {t : τ} {calls : List κ} (hR : R s t) (hlegal : M.LegalRun s calls) :
    ∃ entries, run step t calls = .ok entries ∧
      entries.map (fun e => (e.1, g e.2)) = (M.trace s calls).map (fun e => (e.1, f e.2)) ∧
      ∀ e ∈ entries, ∃ s', R s' e.2 := by
  induction calls generalizing s t with
  | nil => exact ⟨[], rfl, rfl, nofun⟩
  | cons call calls ih =>
    obtain ⟨hcall, hrest⟩ := hlegal
    obtain ⟨t', hok, hR'⟩ := hstep s t call hR hcall
    obtain ⟨entries, hrun, htrace, hstates⟩ := ih hR' hrest
    refine ⟨(M.answer s call, t') :: entries, ?_, ?_, ?_⟩
    · unfold run
      rw [hok]
      show (run step t' calls >>= fun rest => pure ((M.answer s call, t') :: rest)) = _
      rw [hrun]
      rfl
    · rw [List.map_cons, htrace, hobs _ _ hR']
      rfl
    · intro e he
      cases he with
      | head => exact ⟨_, hR'⟩
      | tail _ he => exact hstates e he

end Machine

end RLucene.Lib
