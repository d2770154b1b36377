import RLucene.Lib.Worklist
import RLucene.Util.Automation.Automaton

/-!
# Operations on automata

The checks whether an automaton accepts nothing, everything or one string, and the states that are
on the way from the initial state to an accepting one. These are found by two searches, the second
one in the reversed automaton.
-/

namespace RLucene.Util.Automation.Operations

open Lib Store

/-- Where the transitions of a state lead to. -/
def dests (a : Automaton) (state : Nat) : List Nat :=
  (a.transitions state).map Transition.dest

/-- Whether no accepting state is found from the initial one. -/
def isEmpty (a : Automaton) : Bool :=
  if a.getNumStates = 0 then true
  else if 0 ∉ a.isAccept ∧ a.transitions 0 = [] then true
  else if 0 ∈ a.isAccept then false
  else !(explore (dests a) (fun state => state ∈ a.isAccept) (a.getNumStates + 1) [0] {0}).1

/-! ## Live states -/

/-- The states that can be reached from the initial one. -/
def getLiveStatesFromInitial (a : Automaton) : Finset Nat :=
  if a.getNumStates = 0 then ∅
  else (explore (dests a) (fun _ => false) (a.getNumStates + 1) [0] {0}).2

/-- All transitions backwards. -/
def reverseTransitions (a : Automaton) : List (Nat × Transition) :=
  (List.range a.getNumStates).flatMap fun state =>
    (a.transitions state).map fun t => (t.dest, ⟨state, t.min, t.max⟩)

/-- The states that accept, in order. -/
def acceptStates (a : Automaton) : List Nat :=
  (List.range a.getNumStates).filter (· ∈ a.isAccept)

/-- The states from which an accepting state can be reached, found in the reversed automaton. -/
def getLiveStatesToAccept (a : Automaton) : Result (Finset Nat) := do
  let builder := Builder.createState^[a.getNumStates] Builder.new
  let a2 ← ((reverseTransitions a).foldl (fun b (source, t) => b.addTransition source t)
      builder).finish
  let work := acceptStates a
  return (explore (dests a2) (fun _ => false) (a.getNumStates + 1) work work.toFinset).2

/-- The states on the way from the initial one to an accepting one. -/
def getLiveStates (a : Automaton) : Result (Finset Nat) := do
  let toAccept ← getLiveStatesToAccept a
  return getLiveStatesFromInitial a ∩ toAccept

/-! ## Totality -/

/-- The last label of transitions that leave no gap behind `previousLabel`. The label behind it is
computed in 32 bits. -/
def lastLabel (previousLabel : Int) : List Transition → Option Int
  | [] => some previousLabel
  | t :: ts => if t.min > asI 32 (previousLabel + 1) then none else lastLabel t.max ts

/-- The labels of a state reach from one end of the alphabet to the other. -/
def coversRange (minAlphabet maxAlphabet : Int) (ts : List Transition) : Bool :=
  match lastLabel (asI 32 (minAlphabet - 1)) ts with
  | none => false
  | some previousLabel => !decide (previousLabel < maxAlphabet)

/-- Whether all live states accept and have the labels of the alphabet, and there is one. -/
def isTotalWithRange (a : Automaton) (minAlphabet maxAlphabet : Int) : Result Bool := do
  let states ← getLiveStates a
  let live := (List.range a.getNumStates).filter (· ∈ states)
  return live.all (fun state => state ∈ a.isAccept &&
    coversRange minAlphabet maxAlphabet (a.transitions state)) && !live.isEmpty

/-- Strings of code points. -/
def isTotal (a : Automaton) : Result Bool :=
  isTotalWithRange a 0 0x10FFFF

/-! ## Single strings -/

/-- The string on the only path from a state. It is given up at a state that was visited before. -/
def singletonFrom (a : Automaton) : (fuel : Nat) → Finset Nat → Nat → List Int → Option (List Int)
  | 0, _, _, _ => none
  | fuel + 1, visited, s, builder =>
    let visited := insert s visited
    if s ∉ a.isAccept then
      match a.transitions s with
      | [t] =>
        if t.min = t.max ∧ t.dest ∉ visited then
          singletonFrom a fuel visited t.dest (builder ++ [t.min])
        else none
      | _ => none
    else if a.transitions s = [] then some builder
    else none

/-- The one string that a deterministic automaton accepts, if it is found. -/
def getSingleton (a : Automaton) : Result (Option (List Int)) :=
  if a.deterministic then .ok (singletonFrom a (a.getNumStates + 1) ∅ 0 [])
  else .error (.illegalArgument "input automaton must be deterministic")

end RLucene.Util.Automation.Operations
