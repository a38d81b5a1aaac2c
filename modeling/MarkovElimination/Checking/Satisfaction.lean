import MarkovElimination.Checking.Error
import MarkovElimination.Model.Chain

/-! # Satisfaction of state formulas

The states of a chain that satisfy a state formula: connectives are set operations, and a label
stands for the states that carry it. A label that the chain does not know is an error; of several
unknown labels the leftmost is reported. -/

namespace MarkovElimination

variable {α : Type}

/-- The states that satisfy a formula. -/
def Chain.satisfying (c : Chain α) : StateFormula → Except CheckError StateSet
  | .true => pure (.full c.size)
  | .false => pure (.empty c.size)
  | .label name =>
    match c.labelling.get? name with
    | some states => pure states
    | none => throw (.unknownLabel name)
  | .not inner => do pure (← c.satisfying inner).complement
  | .and left right => do
    let states ← c.satisfying left
    pure (states.inter (← c.satisfying right))
  | .or left right => do
    let states ← c.satisfying left
    pure (states.union (← c.satisfying right))

/-- The initial state of a chain that has exactly one. -/
def Chain.initialState (c : Chain α) : Except CheckError Nat :=
  match c.initial.toList with
  | [s] => pure s
  | states => throw (.multipleInitialStates states.length)

end MarkovElimination
