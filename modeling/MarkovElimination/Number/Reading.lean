import MarkovElimination.Number.Binary64
import MarkovElimination.Text.Numeral

/-! # Reading binary64 numbers

A binary64 text is an optional sign followed by `inf`, `infinity` or `nan` in any case, or by digits
with an optional point and an optional exponent. At least one digit stands beside the point. The
value is the decimal rounded once. -/

namespace MarkovElimination

/-- A decimal without a sign: digits, an optional point with more digits, an optional exponent. -/
def readDecimal? (text : List Char) : Option Decimal := do
  let whole := text.takeWhile Char.isDigit
  let rest := text.dropWhile Char.isDigit
  let (fraction, rest) := match rest with
    | '.' :: after => (after.takeWhile Char.isDigit, after.dropWhile Char.isDigit)
    | _ => ([], rest)
  if whole.isEmpty && fraction.isEmpty then none
  else
    let exponent : Int ← match rest with
      | [] => some 0
      | mark :: after =>
        if mark == 'e' || mark == 'E' then
          match after with
          | '-' :: digits => (Text.natural? digits).map fun n => -(n : Int)
          | '+' :: digits => (Text.natural? digits).map fun n => (n : Int)
          | digits => (Text.natural? digits).map fun n => (n : Int)
        else none
    some ⟨Text.digitsValue (whole ++ fraction), exponent - fraction.length⟩

/-- The binary64 number written by a text. -/
def readFloat? (text : List Char) : Option Float :=
  let (negative, body) := match text with
    | '-' :: rest => (true, rest)
    | '+' :: rest => (false, rest)
    | _ => (false, text)
  let name := String.ofList (body.map Char.toLower)
  if name = "inf" || name = "infinity" then some (floatOfBits negative Magnitude.infinityBits)
  else if name = "nan" then some (floatOfBits negative 0x7FF8000000000000)
  else (readDecimal? body).map (floatOfDecimal negative)

end MarkovElimination
