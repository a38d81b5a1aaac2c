import MarkovElimination.Weight

/-! # Results of checks

The value of a property in the initial state, with an account of the work that was done. An expected
reward can be infinite, which no weight expresses. -/

namespace MarkovElimination

/-- The value of a property. -/
inductive CheckValue (α : Type) where
  | finite (value : α)
  | infinite

namespace CheckValue

variable {α : Type}

/-- The value as a weight. -/
def finite? : CheckValue α → Option α
  | .finite value => some value
  | .infinite => none

/-- The nearest binary64 number, if the value is constant. -/
def toFloat? [Weight α] : CheckValue α → Option Float
  | .finite value => Weight.toFloat? value
  | .infinite => some (1 / 0)

/-- The nearest binary64 number of a constant value, if it can be told whether it is constant. -/
def checkedFloat [Weight α] : CheckValue α → Except Fault (Option Float)
  | .finite value => Weight.checkedFloat value
  | .infinite => pure (toFloat? (.infinite : CheckValue α))

/-- The text of a value. -/
def render [WeightText α] : CheckValue α → String
  | .finite value => WeightText.render value
  | .infinite => "inf"

end CheckValue

/-- How much work a check was. -/
structure CheckStatistics where
  /-- The number of states that were handed to elimination. -/
  maybeStates : Nat
  /-- The number of eliminations. -/
  eliminatedStates : Nat := 0
  /-- The greatest nesting of components. -/
  maximalSccDepth : Nat := 0
deriving DecidableEq

/-- The outcome of a check. -/
structure CheckResult (α : Type) where
  /-- The only initial state of the model. -/
  initial : Nat
  value : CheckValue α
  statistics : CheckStatistics

/-- A result that needs no elimination. -/
def CheckResult.immediate {α : Type} (initial : Nat) (value : CheckValue α) (maybeStates : Nat) :
    CheckResult α :=
  ⟨initial, value, { maybeStates := maybeStates }⟩

end MarkovElimination
