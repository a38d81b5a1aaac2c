import MarkovElimination.Fault

/-! # Transition weights

A **weight** is what a transition carries: a binary64 number, a rational number or a rational
function. Elimination only needs the arithmetic of `Weight`; the readers and printers of
`WeightText` connect weights with model files and reports. Arithmetic may leave a weight in a form
that is not reduced; `simplify` brings it into the canonical one. A weight may also **grow** until
it can no longer be represented. Operations compute without bound, and beside each stands a
predicate that tells whether everything it computes can be represented; the checked operations
return a fault if not. -/

namespace MarkovElimination

/-- Why a text is not a weight. -/
inductive ReadReason where
  | zeroDenominator
  | invalidExponent
  | notANumber
  | notAFloat
  | trailingInput
  | unexpectedCharacter (c : Char)
  | unexpectedSymbol (c : Char)
  | divisionByZero
  | negativeExponent
  | missingExponent
  | endOfInput
  | missingParenthesis
deriving DecidableEq

/-- The wording of a reason. -/
def ReadReason.message : ReadReason → String
  | .zeroDenominator => "zero denominator"
  | .invalidExponent => "invalid exponent"
  | .notANumber => "not a number"
  | .notAFloat => "not a floating point number"
  | .trailingInput => "unexpected trailing input"
  | .unexpectedCharacter c => s!"unexpected character `{c}`"
  | .unexpectedSymbol c => s!"unexpected `{c}`"
  | .divisionByZero => "division by zero"
  | .negativeExponent => "exponent must be a non-negative integer"
  | .missingExponent => "expected an exponent"
  | .endOfInput => "unexpected end of input"
  | .missingParenthesis => "missing `)`"

/-- The wording of a refusal of a text. -/
def ReadReason.describe (reason : ReadReason) (text : List Char) : String :=
  "Cannot parse value `" ++ String.ofList text ++ "`: " ++ reason.message ++ "."

/-- Why reading a weight failed. -/
inductive ReadError where
  /-- The text is not of the required form. -/
  | invalid (text : List Char) (reason : ReadReason)
  /-- The text is of the required form, but its value cannot be computed. -/
  | fault (fault : Fault)

/-- The arithmetic that elimination needs. -/
class Weight (α : Type) extends Zero α, One α, Add α, Sub α, Mul α where
  /-- The quotient of two weights; dividing by zero is a fault. -/
  divide : α → α → Except Fault α
  /-- The canonical form of a weight. -/
  simplify : α → α
  /-- Whether a weight is zero. -/
  isZero : α → Bool
  /-- Whether a weight is one. -/
  isOne : α → Bool
  /-- Whether two weights have the same value. -/
  same : α → α → Bool
  /-- The binary64 number nearest to a weight, if the weight is constant. -/
  toFloat? : α → Option Float
  /-- Whether the parts of the sum or difference of two weights can be represented. -/
  addFits : α → α → Bool := fun _ _ => true
  /-- Whether the parts of the product of two weights can be represented. -/
  mulFits : α → α → Bool := fun _ _ => true
  /-- Whether everything that is computed to compare two weights can be represented. -/
  sameFits : α → α → Bool := fun _ _ => true
  /-- Whether everything that is computed to bring a weight into its canonical form, or to find out
  whether it is constant, can be represented. -/
  simplifyFits : α → Bool := fun _ => true
  /-- Division only meets faults of arithmetic. -/
  divide_fault : ∀ (a b : α) (f : Fault), divide a b = .error f → f.isArithmetic = true

/-- The textual form of weights. -/
class WeightText (α : Type) where
  /-- The weight written by a text. -/
  read : List Char → Except ReadError α
  /-- The text of a weight. -/
  render : α → String

namespace Weight

variable {α : Type} [Weight α]

/-- An operation on two weights, provided that its parts can be represented. -/
def checked {β : Type} (partsFit : α → α → Bool) (operation : α → α → β) (a b : α) :
    Except Fault β := do
  requireRange (partsFit a b)
  pure (operation a b)

/-- The sum of two weights, if it can be computed. -/
def checkedAdd : α → α → Except Fault α := checked addFits (· + ·)

/-- The difference of two weights, if it can be computed. -/
def checkedSub : α → α → Except Fault α := checked addFits (· - ·)

/-- The product of two weights, if it can be computed. -/
def checkedMul : α → α → Except Fault α := checked mulFits (· * ·)

/-- Whether two weights have the same value, if that can be computed. -/
def checkedSame : α → α → Except Fault Bool := checked sameFits same

/-- The canonical form of a weight, if it can be computed. -/
def checkedSimplify (w : α) : Except Fault α := do
  requireRange (simplifyFits w)
  pure (simplify w)

/-- The nearest binary64 number of a constant weight, if it can be told whether it is constant. -/
def checkedFloat (w : α) : Except Fault (Option Float) := do
  requireRange (simplifyFits w)
  pure (toFloat? w)

/-- Whether the simplified sum of two weights can be computed. -/
def sumFits (a b : α) : Bool := addFits a b && simplifyFits (a + b)

/-- Whether the simplified product of two weights can be computed. -/
def productFits (a b : α) : Bool := mulFits a b && simplifyFits (a * b)

/-- The reciprocal of a weight. -/
def invert (w : α) : Except Fault α :=
  divide 1 w

/-- `1 / (1 - w)`: the expected number of visits of a state with self-loop `w`. -/
def invertComplement (w : α) : Except Fault α :=
  invert (1 - w)

end Weight

end MarkovElimination
