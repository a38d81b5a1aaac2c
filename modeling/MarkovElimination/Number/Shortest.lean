import MarkovElimination.Number.Binary64

/-! # Shortest decimals

The shortest decimal of a binary64 magnitude has the **fewest digits** among the decimals that round
to it; among those of the same length it is the nearest one, and of two equally near ones the
greater. The search tries one digit, two digits and so on, testing the two neighbours of the value
on each grid. -/

namespace MarkovElimination.Magnitude

/-- The least `k` with `x < 10^k`, for a positive magnitude. It is found near the estimate that the
binary logarithm gives. -/
def decimalScale (x : Magnitude) : Int :=
  let estimate := ((Nat.log2 x.m : Int) + x.q) * 30103 / 100000
  ([estimate - 1, estimate, estimate + 1].find? fun k => compareScaled x.m 2 x.q 1 10 k = .lt).getD
    (estimate + 2)

/-- The candidate of a grid `10^exponent`, if one of the two neighbours of `x` on it
rounds to `x`. -/
def candidate? (x : Magnitude) (exponent : Int) : Option Decimal :=
  let num := x.m * Nat.pow 2 x.q.toNat * Nat.pow 10 (-exponent).toNat
  let den := Nat.pow 2 (-x.q).toNat * Nat.pow 10 exponent.toNat
  let lower : Decimal := ⟨num / den, exponent⟩
  let upper : Decimal := ⟨num / den + 1, exponent⟩
  match x.readsBack lower, x.readsBack upper with
  | true, true => some (if 2 * num < (2 * lower.digits + 1) * den then lower else upper)
  | true, false => some lower
  | false, true => some upper
  | false, false => none

/-- The exact value of a magnitude as a decimal. -/
def exactDecimal (x : Magnitude) : Decimal :=
  if 0 ≤ x.q then ⟨x.m * Nat.pow 2 x.q.toNat, 0⟩ else ⟨x.m * Nat.pow 5 (-x.q).toNat, x.q⟩

/-- The shortest decimal that rounds to a positive magnitude. -/
def shortest (x : Magnitude) : Decimal :=
  let scale := x.decimalScale
  let candidate (n : Nat) := x.candidate? (scale - ((n + 1 : Nat) : Int))
  ((List.range 17).findSome? candidate).getD x.exactDecimal

end MarkovElimination.Magnitude

namespace MarkovElimination.Decimal

/-- The digits of a decimal without zeros at the end, and the exponent that goes with them. -/
def trimmed (d : Decimal) : List Char × Int :=
  let digits := Nat.toDigits 10 d.digits
  let kept := (digits.reverse.dropWhile (· == '0')).reverse
  (kept, d.exponent + ((digits.length - kept.length : Nat) : Int))

/-- A decimal written without an exponent: `1200`, `1.25`, `0.00001`. -/
def positional (d : Decimal) : List Char :=
  let (digits, exponent) := d.trimmed
  if digits.isEmpty then ['0']
  else if 0 ≤ exponent then digits ++ List.replicate exponent.toNat '0'
  else
    let places := (-exponent).toNat
    if places < digits.length then
      digits.take (digits.length - places) ++ '.' :: digits.drop (digits.length - places)
    else '0' :: '.' :: List.replicate (places - digits.length) '0' ++ digits

end MarkovElimination.Decimal

namespace MarkovElimination

/-- A binary64 number in the fewest digits that read back, always in positional notation. -/
def renderFloat (x : Float) : String :=
  let bits := x.toBits.toNat
  let sign := if signBit ≤ bits then "-" else ""
  let magnitude := bits % signBit
  if Magnitude.infinityBits < magnitude then "NaN"
  else if magnitude = Magnitude.infinityBits then sign ++ "inf"
  else if magnitude = 0 then sign ++ "0"
  else sign ++ String.ofList (Magnitude.ofBits magnitude).shortest.positional

end MarkovElimination
