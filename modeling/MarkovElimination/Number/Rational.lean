import MarkovElimination.Weight
import MarkovElimination.Text.Blank
import MarkovElimination.Text.Numeral

/-! # Rational weights

A rational number is written as an integer, as a decimal with an optional exponent, or as a quotient
of two such texts. Its value is exact. The decimal exponent and the position of the last digit are
32-bit integers; a text whose last digit lies outside of their range is a fault. -/

namespace MarkovElimination

/-- The least integer that is too large for a decimal exponent. -/
def exponentBound : Nat := Nat.pow 2 31

/-- `mantissa * 10^scale` as a rational number. -/
def scaleByTen (mantissa : Nat) (scale : Int) : Rat :=
  if 0 ≤ scale then ((mantissa * Nat.pow 10 scale.toNat : Nat) : Rat)
  else (mantissa : Rat) / (Nat.pow 10 (-scale).toNat : Rat)

/-- A natural number as a signed 32-bit integer: only its last 32 bits count. -/
def wrapped (n : Nat) : Int :=
  let low := n % (2 * exponentBound)
  if low < exponentBound then low else low - (2 * exponentBound : Int)

/-- The position of the last digit of a decimal: the exponent less the number of digits behind the
point, which is counted in 32-bit integers. The position and its negation have to be such integers
as well. -/
def decimalPlace? (exponent : Int) (fractionDigits : Nat) : Option Int :=
  let place := exponent - wrapped fractionDigits
  if -(exponentBound : Int) < place ∧ place < exponentBound then some place else none

/-- The sign of a numeral and the text behind it. -/
def splitSign : List Char → Bool × List Char
  | '-' :: rest => (true, rest)
  | '+' :: rest => (false, rest)
  | text => (false, text)

/-- A mark of a decimal exponent. -/
def isExponentMark (c : Char) : Bool :=
  c == 'e' || c == 'E'

/-- The rational number written by a decimal without blanks around it. -/
def readDecimalRational (text : List Char) : Except ReadError Rat := do
  let (mantissa, exponent) ← match Text.splitOnce isExponentMark text with
    | none => pure (text, (0 : Int))
    | some (mantissa, after) =>
      match Text.signed? exponentBound after with
      | some exponent => pure (mantissa, exponent)
      | none => throw (.invalid text .invalidExponent)
  let (negative, mantissa) := splitSign mantissa
  let (whole, fraction) := (Text.splitOnce (· == '.') mantissa).getD (mantissa, [])
  if (whole.isEmpty && fraction.isEmpty) || !(whole ++ fraction).all Char.isDigit then
    throw (.invalid text .notANumber)
  match decimalPlace? exponent fraction.length with
  | none => throw (.fault .exponentOverflow)
  | some place =>
    let value := scaleByTen (Text.digitsValue (whole ++ fraction)) place
    pure (if negative then -value else value)

/-- The rational number written by a text: a decimal, or a quotient at the first slash. -/
def readRational (text : List Char) : Except ReadError Rat :=
  match _h : Text.splitOnce (· == '/') (Text.trim text) with
  | none => readDecimalRational (Text.trim text)
  | some (before, after) => do
    let numerator ← readRational before
    let denominator ← readRational after
    if denominator = 0 then throw (.invalid (Text.trim text) .zeroDenominator)
    pure (numerator / denominator)
termination_by text.length
decreasing_by
  all_goals
    have h₁ := Text.length_trim_le text
    have h₂ := Text.length_lt_of_splitOnce _h
    omega

/-- A rational number in lowest terms: `n`, or `n/d` with `d` above one. -/
def renderRational (r : Rat) : String :=
  if r.den = 1 then toString r.num else toString r.num ++ "/" ++ toString r.den

instance : Weight Rat where
  zero := 0
  one := 1
  add a b := a + b
  sub a b := a - b
  mul a b := a * b
  divide a b := if b = 0 then throw .divisionByZero else pure (a / b)
  simplify := id
  isZero a := a = 0
  isOne a := a = 1
  same a b := a = b
  toFloat? a := some (floatOfRat a)
  divide_fault a b f h := by
    split at h <;> cases h
    rfl

instance : WeightText Rat where
  read := readRational
  render := renderRational

end MarkovElimination
