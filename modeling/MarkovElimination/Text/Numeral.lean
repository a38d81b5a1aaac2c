/-! # Integer numerals

Readers for integers written in decimal: an optional sign and at least one ASCII digit, leading
zeros allowed. The value must lie in the stated range, otherwise the numeral is refused. -/

namespace MarkovElimination.Text

/-- The value of an ASCII digit. -/
def digitValue (c : Char) : Nat :=
  c.toNat - '0'.toNat

/-- The natural number written by a list of ASCII digits, the most significant one first. -/
def digitsValue (digits : List Char) : Nat :=
  digits.foldl (fun value c => 10 * value + digitValue c) 0

/-- A non-empty list of ASCII digits as a natural number. -/
def natural? (text : List Char) : Option Nat :=
  if text ≠ [] ∧ text.all Char.isDigit then some (digitsValue text) else none

/-- A natural number below `bound` with an optional plus sign. -/
def unsigned? (bound : Nat) (text : List Char) : Option Nat := do
  let value ← natural? (match text with
    | '+' :: rest => rest
    | _ => text)
  if value < bound then some value else none

/-- An integer in `-bound ≤ k < bound` with an optional sign. -/
def signed? (bound : Nat) (text : List Char) : Option Int := do
  let value : Int ← match text with
    | '-' :: rest => (natural? rest).map fun n => -(n : Int)
    | '+' :: rest => (natural? rest).map fun n => (n : Int)
    | _ => (natural? text).map fun n => (n : Int)
  if -(bound : Int) ≤ value ∧ value < bound then some value else none

/-- The number of state indices that a model file can name. -/
def indexBound : Nat := Nat.pow 2 64

end MarkovElimination.Text
