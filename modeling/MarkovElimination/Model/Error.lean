import MarkovElimination.Weight

/-! # Errors of models

What can be wrong with the files of a model or with the steps that build it, and how it is told to
the user. -/

namespace MarkovElimination

/-- What is wrong with a line of a model file. -/
inductive LineError where
  | missingHeader
  | missingTransitionCount
  | badHeader
  | notAProbability (value : String)
  | transitionCount (declared found : Nat)
  | expectedDeclaration
  | missingDeclaration
  | missingEnd
  | notAnIndex (token : List Char)
  | expectedPair
  | expectedTriple
  | badValue (text : List Char) (reason : ReadReason)

/-- The wording of what is wrong with a line. -/
def LineError.message : LineError → String
  | .missingHeader => "Missing transition header."
  | .missingTransitionCount => "Expected `TRANSITIONS m`."
  | .badHeader => "Expected `STATES n` or `<states> <transitions>`."
  | .notAProbability value => s!"`{value}` is not a probability."
  | .transitionCount declared found => s!"Declared {declared} transitions, found {found}."
  | .expectedDeclaration => "Expected `#DECLARATION`."
  | .missingDeclaration => "Missing label declaration."
  | .missingEnd => "Missing `#END`."
  | .notAnIndex token => "`" ++ String.ofList token ++ "` is not a state index."
  | .expectedPair => "Expected `state value`."
  | .expectedTriple => "Expected `source target value`."
  | .badValue text reason => reason.describe text

/-- Why there is no model. -/
inductive ModelError where
  /-- A file cannot be read. -/
  | unreadable (path : List Char) (cause : String)
  /-- A line of a file is wrong. -/
  | line (number : Nat) (error : LineError)
  | stateOutOfRange (state states : Nat)
  | invalidProbability (state successor : Nat) (value : String)
  | notStochastic (state : Nat) (sum : String)
  | rewardSizeMismatch (expected actual : Nat)
  | undeclaredLabel (label : String)
  | missingInitialState
  /-- A precondition is broken. -/
  | fault (fault : Fault)

/-- The wording of an error. A fault is worded by itself. -/
def ModelError.message : ModelError → String
  | .unreadable path cause => "Cannot read `" ++ String.ofList path ++ "`: " ++ cause
  | .line number error => s!"Line {number}: " ++ error.message
  | .stateOutOfRange state states =>
    s!"State {state} is out of range for a model with {states} states."
  | .invalidProbability state successor value =>
    s!"The transition {state} -> {successor} has an invalid probability {value}."
  | .notStochastic state sum =>
    s!"The outgoing probabilities of state {state} sum to {sum}, not one."
  | .rewardSizeMismatch expected actual => s!"Expected {expected} state rewards, found {actual}."
  | .undeclaredLabel label => s!"Label `{label}` is not declared."
  | .missingInitialState => "The model has no initial state."
  | .fault cause => (cause.message?).getD ""

end MarkovElimination
