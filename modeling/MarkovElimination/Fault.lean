import MarkovElimination.Number.Shortest

/-! # Faults

A **fault** is a broken precondition: a caller asked for something that has no meaning, such as a
division by zero or a state outside of the model. Operations that can meet one return it as a value.
Faults that are reported to the user have a wording; the others only say that the computation
stopped. -/

namespace MarkovElimination

/-- The ways in which a precondition can be broken. -/
inductive Fault where
  /-- A number is divided by zero. -/
  | divisionByZero
  /-- A rational function is divided by the zero function. -/
  | divisionByZeroFunction
  /-- A polynomial is divided by the zero polynomial. -/
  | polynomialDivisionByZero
  /-- A state is not in the universe of a state set. -/
  | stateOutOfRange (state size : Nat)
  /-- An edge leaves the states of a graph. -/
  | edgeOutOfRange (source target states : Nat)
  /-- An entry lies outside of a matrix. -/
  | entryOutOfRange (row column rows columns : Nat)
  /-- A matrix has no such row. -/
  | rowOutOfRange (row rows : Nat)
  /-- A state that never leaves itself cannot be eliminated. -/
  | certainSelfLoop (state : Nat)
  /-- A predecessor has no transition to the state that lists it. -/
  | missingTransition (source target : Nat)
  /-- A successor does not list the state as a predecessor; it would stand at this position. -/
  | missingPredecessor (position : Nat)
  /-- The last state of an elimination still has other successors. -/
  | lastStateHasSuccessors
  /-- A value is undefined under a valuation. -/
  | undefinedInstance
  /-- The transitions of a state sum to more than one. -/
  | negativeRemainder (mass : Float)
  /-- A successor of the initial state belongs to neither of two required sets. -/
  | unclassifiedSuccessor (state : Nat)
  /-- A kept state leads to a state that is not kept. -/
  | openSelection (state : Nat)
  /-- The states behind a state can be bypassed again and again. -/
  | endlessChain (state : Nat)
  /-- Two arguments disagree about their size. -/
  | sizeMismatch
  /-- The columns of a row are not strictly increasing. -/
  | unsortedRow
  /-- A decimal exponent leaves the range of 32-bit integers. -/
  | exponentOverflow
  /-- The exponent of a parameter leaves the range of unsigned 32-bit integers. -/
  | degreeOverflow
  /-- There are more states, rows or columns than an address space can hold. -/
  | tooManyStates
  /-- A polynomial is not a multiple of its content. -/
  | contentRemainder
  /-- A loop goes on without coming closer to its end. -/
  | stalled

/-- The faults of arithmetic: a division by zero, or a part that cannot be represented. -/
def Fault.isArithmetic : Fault → Bool
  | .divisionByZero | .divisionByZeroFunction | .degreeOverflow => true
  | _ => false

/-- The wording of a fault, for those that have one. -/
def Fault.message? : Fault → Option String
  | .divisionByZero => some "Correctness violation: Division by zero."
  | .divisionByZeroFunction => some "Correctness violation: Division by zero rational function."
  | .polynomialDivisionByZero => some "Correctness violation: Polynomial division by zero."
  | .stateOutOfRange state size =>
    some s!"State {state} out of range for a set over {size} states."
  | .edgeOutOfRange source target states =>
    some s!"Edge {source} -> {target} out of range for {states} states."
  | .entryOutOfRange row column rows columns =>
    some s!"Entry ({row}, {column}) out of range for a {rows}x{columns} matrix."
  | .rowOutOfRange row rows =>
    some s!"Correctness violation: Row {row} out of range for a matrix with {rows} rows."
  | .certainSelfLoop state =>
    some s!"Correctness violation: State {state} has a self-loop with probability one."
  | .missingTransition source target =>
    some s!"Correctness violation: Missing transition {source} -> {target}."
  | .missingPredecessor position =>
    some s!"Correctness violation: Backward transitions are inconsistent.: {position}"
  | .lastStateHasSuccessors =>
    some "Correctness violation: The last state has transitions to other states."
  | .undefinedInstance =>
    some "Correctness violation: Cannot instantiate value with the given valuation."
  | .negativeRemainder mass =>
    some ("Correctness violation: The missing probability is negative (" ++ renderFloat mass ++
      ").")
  | .unclassifiedSuccessor state =>
    some (s!"Correctness violation: Successor {state} of the initial state is neither an event " ++
      "nor a condition state.")
  | .openSelection _ | .endlessChain _ | .sizeMismatch | .unsortedRow => none
  | .contentRemainder => some "Correctness violation: Content must divide the polynomial."
  | .exponentOverflow | .degreeOverflow | .tooManyStates | .stalled => none

/-- What is computed has to stay within the range that can be represented. -/
def requireRange (fits : Bool) : Except Fault Unit :=
  if fits then pure () else throw .degreeOverflow

end MarkovElimination
