import MarkovElimination.Number.Rational
import MarkovElimination.Number.Reading

/-! # Binary64 weights

Binary64 numbers as weights. They are read as binary64 texts or, failing that, as rational numbers
that are rounded once. -/

namespace MarkovElimination

/-- The binary64 number written by a text. -/
def readFloat (text : List Char) : Except ReadError Float :=
  let trimmed := Text.trim text
  match readFloat? trimmed with
  | some value => pure value
  | none =>
    match readRational trimmed with
    | .ok value => pure (floatOfRat value)
    | .error (.fault f) => throw (.fault f)
    | .error (.invalid _ _) => throw (.invalid trimmed .notAFloat)

/-- Whether two binary64 numbers are within a tolerance of each other, or the same infinity. -/
def approximatelyEqual (a b tolerance : Float) : Bool :=
  (a - b).abs ≤ tolerance || (a.isInf && b.isInf && (a > 0) == (b > 0))

instance : Weight Float where
  divide a b := if b == 0 then throw .divisionByZero else pure (a / b)
  simplify := id
  isZero a := a == 0
  isOne a := a == 1
  same a b := a == b
  toFloat? a := some a
  divide_fault a b f h := by
    split at h <;> cases h
    rfl

instance : WeightText Float where
  read := readFloat
  render := renderFloat

end MarkovElimination
