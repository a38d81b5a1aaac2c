/-! # Exact values of binary64 numbers

A finite binary64 number is `m * 2^q` with a natural `m` below `2^53`. This module decodes the bits
of a magnitude, tests which decimals round to it, and rounds a quotient of naturals to the
**nearest** magnitude, a tie going to the even neighbour. All arithmetic is on `Nat` and `Int`. -/

namespace MarkovElimination

/-- `num / den` rounded to the nearest natural number, a tie to the even neighbour. -/
def roundQuotient (num den : Nat) : Nat :=
  let q := num / den
  let r := num % den
  if 2 * r < den then q
  else if den < 2 * r then q + 1
  else if q % 2 = 0 then q
  else q + 1

/-- `a * b^i` compared with `c * d^j`, where exponents of either sign are allowed. -/
def compareScaled (a b : Nat) (i : Int) (c d : Nat) (j : Int) : Ordering :=
  compare (a * Nat.pow b i.toNat * Nat.pow d (-j).toNat)
    (c * Nat.pow d j.toNat * Nat.pow b (-i).toNat)

/-- A decimal number `digits * 10^exponent`. -/
structure Decimal where
  /-- The significant digits, read as one natural number. -/
  digits : Nat
  /-- The power of ten of the last digit. -/
  exponent : Int

/-- A finite non-negative binary64 number `m * 2^q`. -/
structure Magnitude where
  /-- The significand. -/
  m : Nat
  /-- The power of two of the last bit. -/
  q : Int
  /-- The gap to the number below is half the gap to the number above. -/
  narrowBelow : Bool

/-- The number of fractions between two powers of two, and the weight of the exponent field. -/
def fractionBound : Nat := Nat.pow 2 52

/-- The weight of the sign bit. -/
def signBit : Nat := Nat.pow 2 63

namespace Magnitude

/-- The magnitude with the given bits, for exponent fields below the all-ones field. -/
def ofBits (bits : Nat) : Magnitude :=
  let field : Nat := bits / fractionBound % 2048
  let fraction : Nat := bits % fractionBound
  if field = 0 then ⟨fraction, -1074, false⟩
  else ⟨fractionBound + fraction, (field : Int) - 1075, fraction = 0 && 1 < field⟩

/-- The bits of infinity, the first pattern above the finite magnitudes. -/
def infinityBits : Nat := 0x7FF0000000000000

/-- The bits of the magnitude nearest to `num / den`, ties to even; what is too
large is infinite. -/
def bitsOfQuotient (num den : Nat) : Nat :=
  if num = 0 then 0
  else
    let guess : Int := (Nat.log2 num : Int) - Nat.log2 den
    -- `2^(guess - 1) < num / den < 2^(guess + 1)`, so the leading bit is one of two.
    let leading := if compareScaled num 2 0 den 2 guess = .lt then guess - 1 else guess
    let q := max (leading - 52) (-1074)
    let m := roundQuotient (num * Nat.pow 2 (-q).toNat) (den * Nat.pow 2 q.toNat)
    min ((q + 1074).toNat * fractionBound + m) infinityBits

/-- Whether a decimal lies among the reals that round to this magnitude: from halfway to the number
below to halfway to the number above, the ends included exactly if the significand is even. -/
def readsBack (x : Magnitude) (d : Decimal) : Bool :=
  let below := if x.narrowBelow then 4 * x.m - 1 else 4 * x.m - 2
  let above := 4 * x.m + 2
  let closed := x.m % 2 = 0
  let atBelow := compareScaled d.digits 10 d.exponent below 2 (x.q - 2)
  let atAbove := compareScaled d.digits 10 d.exponent above 2 (x.q - 2)
  (atBelow = .gt || (closed && atBelow = .eq)) && (atAbove = .lt || (closed && atAbove = .eq))

end Magnitude

/-- The binary64 number with the given sign and magnitude bits. -/
def floatOfBits (negative : Bool) (bits : Nat) : Float :=
  Float.ofBits (UInt64.ofNat (if negative then bits + signBit else bits))

/-- The binary64 number nearest to a rational number, a tie going to the even neighbour; zero is
positive, and beyond the finite numbers comes infinity. It stands for the conversion to binary64 of
the number library, which rounds in this way. -/
def floatOfRat (r : Rat) : Float :=
  floatOfBits (r.num < 0) (Magnitude.bitsOfQuotient r.num.natAbs r.den)

/-- The binary64 number nearest to a decimal with the given sign. Decimals far outside the range of
binary64 are decided by their number of digits alone. -/
def floatOfDecimal (negative : Bool) (d : Decimal) : Float :=
  let width : Int := (Nat.log2 d.digits : Int) / 4 + d.exponent
  let size : Int := (Nat.log2 d.digits : Int) + d.exponent
  floatOfBits negative <|
    if d.digits = 0 || size < -400 then 0
    else if 400 < width then Magnitude.infinityBits
    else Magnitude.bitsOfQuotient (d.digits * Nat.pow 10 d.exponent.toNat)
      (Nat.pow 10 (-d.exponent).toNat)

end MarkovElimination
