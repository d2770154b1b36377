import Mathlib.Computability.NFA
import Mathlib.Data.Prod.Lex
import RLucene.Lib.MachineInt
import RLucene.Store.DataOutput
import RLucene.Util.InPlaceMergeSorter

/-!
# Automata

States are numbers, the first one is where every run starts, and a transition has an interval of
labels. The transitions of a state are added one after the other. When the next state has its turn
they are sorted and neighbours with the same destination are merged. A builder takes the transitions
in any order. Labels are numbers of 32 bits, and so is the one behind an interval. The language is
that of the `NFA` with the same steps.
-/

namespace RLucene.Util.Automation

open Lib Store

/-- A transition to `dest` with the labels from `min` to `max`. -/
structure Transition where
  dest : Nat
  min : Int
  max : Int
  deriving DecidableEq, Repr

/-- The transition has a label, and its labels are numbers of 32 bits. -/
def Transition.Labelled (t : Transition) : Prop :=
  -2147483648 ≤ t.min ∧ t.min ≤ t.max ∧ t.max ≤ 2147483647

/-- It is decided by three comparisons. -/
instance (t : Transition) : Decidable t.Labelled :=
  inferInstanceAs (Decidable (_ ∧ _ ∧ _))

/-- The order of `DestMinMaxSorter`. -/
def destMinMax (t : Transition) : Nat ×ₗ Int ×ₗ Int :=
  toLex (t.dest, toLex (t.min, t.max))

/-- The order of `MinMaxDestSorter`. -/
def minMaxDest (t : Transition) : Int ×ₗ Int ×ₗ Nat :=
  toLex (t.min, toLex (t.max, t.dest))

/-- `states` has the transitions of each state. Those of `curState` are still being added. -/
structure Automaton where
  curState : Option Nat
  states : List (List Transition)
  isAccept : Finset Nat
  deterministic : Bool
  deriving DecidableEq

namespace Automaton

/-- An automaton without states. -/
def new : Automaton :=
  ⟨none, [], ∅, true⟩

/-- The number of states. -/
def getNumStates (a : Automaton) : Nat :=
  a.states.length

/-- Add a state without transitions. -/
def createState (a : Automaton) : Automaton :=
  { a with states := a.states ++ [[]] }

/-- Set or clear that a state accepts. -/
def setAccept (a : Automaton) (state : Nat) (accept : Bool) : Automaton :=
  { a with isAccept := if accept then insert state a.isAccept else a.isAccept.erase state }

/-- The transitions that a state has. -/
def transitions (a : Automaton) (state : Nat) : List Transition :=
  a.states.getD state []

/-! ## Finishing a state -/

/-- Merge a transition with the next one if they have the same destination and no label is between
them. `last` is the transition that is not put out yet. -/
def mergeAdjacent (last : Transition) : List Transition → List Transition
  | [] => [last]
  | t :: ts =>
    if last.dest = t.dest ∧ t.min ≤ asI 32 (last.max + 1) then
      mergeAdjacent { last with max := if t.max > last.max then t.max else last.max } ts
    else last :: mergeAdjacent t ts

/-- No transition starts before the last one has ended. -/
def noOverlap : List Transition → Bool
  | t :: t' :: ts => t.max < t'.min && noOverlap (t' :: ts)
  | _ => true

/-- Sort the transitions, merge neighbours, and sort them by their labels. -/
def reduce (ts : List Transition) : List Transition :=
  match InPlaceMergeSorter.sort destMinMax ts with
  | [] => []
  | t :: ts => InPlaceMergeSorter.sort minMaxDest (mergeAdjacent t ts)

/-- Sort and reduce the transitions of a state, and see whether they overlap. -/
def finishCurrentState (a : Automaton) (state : Nat) : Automaton :=
  let reduced := reduce (a.transitions state)
  { a with states := a.states.set state reduced, deterministic := a.deterministic &&
    noOverlap reduced }

/-- Finish the state whose transitions are being added. -/
def finishState (a : Automaton) : Automaton :=
  match a.curState with
  | some state => { a.finishCurrentState state with curState := none }
  | none => a

/-- Add a transition. If it is not of the current state, that one is finished, and the new one must
not have transitions yet. -/
def addTransition (a : Automaton) (source : Nat) (t : Transition) : Result Automaton :=
  if a.curState = some source then
    .ok { a with states := a.states.modify source (· ++ [t]) }
  else
    let a := { a.finishState with curState := some source }
    match a.states[source]? with
    | none => .error .indexOutOfBounds
    | some [] => .ok { a with states := a.states.modify source (· ++ [t]) }
    | some (_ :: _) =>
        .error (.illegalState s!"from state ({source}) already had transitions added")

/-! ## The language -/

/-- Where some transitions lead to with a label. -/
def destsWith (ts : List Transition) (label : Int) : Set Nat :=
  {dest | ∃ t ∈ ts, t.dest = dest ∧ t.min ≤ label ∧ label ≤ t.max}

/-- The `NFA` with the same steps. -/
def nfa (a : Automaton) : NFA Int Nat where
  step state := destsWith (a.transitions state)
  start := {0}
  accept := {state | state ∈ a.isAccept}

/-- The strings that are accepted. -/
def language (a : Automaton) : Language Int :=
  a.nfa.accepts

/-- Each transition has a label and leads to a state. A state that is finished has no overlapping
transitions unless the automaton says so. -/
structure Valid (a : Automaton) : Prop where
  dest_lt : ∀ state, ∀ t ∈ a.transitions state, t.dest < a.getNumStates
  labelled : ∀ state, ∀ t ∈ a.transitions state, t.Labelled
  accept_lt : ∀ state ∈ a.isAccept, state < a.getNumStates
  disjoint : a.deterministic = true → ∀ state, a.curState ≠ some state →
    (a.transitions state).Pairwise fun t t' => t.max < t'.min

/-- All states are finished. -/
structure Finished (a : Automaton) : Prop extends Valid a where
  curState : a.curState = none

end Automaton

/-! ## Builders -/

/-- The states and transitions that were added. The transitions have their sources. -/
structure Builder where
  numStates : Nat
  isAccept : Finset Nat
  transitions : List (Nat × Transition)
  deriving DecidableEq

namespace Builder

/-- A builder without states. -/
def new : Builder :=
  ⟨0, ∅, []⟩

/-- Add a state. Its number is the number of states before. -/
def createState (builder : Builder) : Builder :=
  { builder with numStates := builder.numStates + 1 }

/-- Set or clear that a state accepts. -/
def setAccept (builder : Builder) (state : Nat) (accept : Bool) : Builder :=
  { builder with
    isAccept := if accept then insert state builder.isAccept else builder.isAccept.erase state }

/-- Add a transition of any state. -/
def addTransition (builder : Builder) (source : Nat) (t : Transition) : Builder :=
  { builder with transitions := builder.transitions ++ [(source, t)] }

/-- The order of `InPlaceMergeSorterImpl`. -/
def sourceMinMaxDest (entry : Nat × Transition) : Nat ×ₗ Int ×ₗ Int ×ₗ Nat :=
  toLex (entry.1, minMaxDest entry.2)

/-- The automaton with the states and transitions that were added. -/
def finish (builder : Builder) : Result Automaton := do
  let a : Automaton := ⟨none, List.replicate builder.numStates [],
    builder.isAccept.filter (· < builder.numStates), true⟩
  let a ← (InPlaceMergeSorter.sort sourceMinMaxDest builder.transitions).foldlM
    (fun a (source, t) => a.addTransition source t) a
  return a.finishState

/-- The states in the builder are its own, and the transitions have labels. -/
structure Valid (builder : Builder) : Prop where
  accept_lt : ∀ state ∈ builder.isAccept, state < builder.numStates
  source_lt : ∀ e ∈ builder.transitions, e.1 < builder.numStates
  dest_lt : ∀ e ∈ builder.transitions, e.2.dest < builder.numStates
  labelled : ∀ e ∈ builder.transitions, e.2.Labelled

end Builder

end RLucene.Util.Automation
