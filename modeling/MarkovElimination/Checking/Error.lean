import MarkovElimination.Elimination.Monitor
import MarkovElimination.Formula.Basic

/-! # Errors of checks

Why a property has no value in a model, and the computations that may end this way. A check runs
under a monitor, so it can also be cancelled. -/

namespace MarkovElimination

/-- Why a property has no value. -/
inductive CheckError where
  /-- A reward is asked for, but the model has no rewards. -/
  | missingRewardModel
  /-- The model does not have exactly one initial state. -/
  | multipleInitialStates (count : Nat)
  /-- The condition of a conditional probability never holds. -/
  | conditionHasZeroProbability
  /-- A conditional probability is not about two reached targets. -/
  | unsupportedProperty (property : Property)
  /-- No state of the model can carry the label. -/
  | unknownLabel (label : String)
  | cancelled
  /-- A precondition is broken. -/
  | fault (cause : Fault)

/-- The wording of an error. A fault is worded by itself. -/
def CheckError.message : CheckError → String
  | .missingRewardModel => "The model does not have a reward model."
  | .multipleInitialStates count =>
    s!"The model is required to have exactly one initial state, but has {count}."
  | .conditionHasZeroProbability =>
    "The condition of the conditional probability has zero probability."
  | .unsupportedProperty property =>
    "Unsupported formula: Expected `eventually` formulas in " ++ property.render ++ "."
  | .unknownLabel label => "The property refers to unknown label `" ++ label ++ "`."
  | .cancelled =>
    "The computation was cancelled (Operation cancelled (caused by `CancelAtomic`))."
  | .fault cause => (cause.message?).getD ""

/-- What an interrupted elimination means for a check. -/
def CheckError.ofInterruption : Interruption → CheckError
  | .cancelled => .cancelled
  | .fault cause => .fault cause

/-- A check under a monitor. -/
abbrev Checked := ExceptT CheckError (StateM Monitor)

namespace Checked

/-- A monitored computation as part of a check. -/
def ofMonitored {β : Type} (computation : Monitored β) : Checked β :=
  ExceptT.adapt CheckError.ofInterruption computation

/-- Stops the check if the trigger is set. -/
def checkpoint : Checked Unit := ofMonitored Monitored.checkpoint

/-- A step that can fail. -/
def ofExcept {β : Type} (result : Except CheckError β) : Checked β :=
  match result with
  | .ok b => pure b
  | .error e => throw e

/-- A step that can meet a fault. -/
def ofFault {β : Type} (result : Except Fault β) : Checked β :=
  ofMonitored (Monitored.ofFault result)

end Checked

end MarkovElimination
