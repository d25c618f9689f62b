import Hil.Number.Decimal

/-!
# Shortest decimals

The text of a binary64 number is the shortest decimal that reads back as it. Of the decimals with
`n` significant digits only the two neighbours of the number can be nearest to it, so the first
`n` at which a neighbour reads back decides; of two neighbours the nearer wins, and the even one
on a tie. `FloatFormat` holds the decisions of the written form.
-/

namespace Hil

namespace Binary64

/-- The exact decimal value of a finite number. -/
def exactDecimal (x : Binary64) : Decimal := ⟨x.negative, x.magnitude * Nat.pow 5 1074, -1074⟩

/-- The decimal exponent `e` of a finite nonzero number, with `10 ^ (e - 1) ≤ |x| < 10 ^ e`. Every
such number is above `10 ^ -400`. -/
def decimalExponent (x : Binary64) : Int :=
  ((Decimal.digitsOf (x.magnitude * Nat.pow 10 400 / Nat.pow 2 1074)).length : Int) - 400

/-- The one of two decimals that reads back as `x`; a preference decides between two that do. -/
def readingBack? (x : Binary64) (lower upper : Decimal) (preferLower : Bool) : Option Decimal :=
  match decide (lower.toBinary64 = x), decide (upper.toBinary64 = x) with
  | true, true => some (if preferLower then lower else upper)
  | true, false => some lower
  | false, true => some upper
  | false, false => none

/-- The decimal with `n` significant digits that reads back as `x` and is nearest to it. -/
def nearestDigits? (x : Binary64) (n : Nat) : Option Decimal :=
  let e := x.decimalExponent - n
  let num := x.magnitude * Nat.pow 10 (-e).toNat
  let den := Nat.pow 2 1074 * Nat.pow 10 e.toNat
  let below := num / den
  let r := num % den
  x.readingBack? ⟨x.negative, below, e⟩ ⟨x.negative, below + 1, e⟩
    (2 * r < den || (2 * r == den && below % 2 == 0))

/-- The shortest decimal that reads back as the finite nonzero number `x`. Seventeen digits always
suffice; the exact value stands behind them. -/
def shortestDecimal (x : Binary64) : Decimal :=
  ((List.range 17).findSome? fun n => x.nearestDigits? (n + 1)).getD x.exactDecimal

end Binary64

/-- The decisions of a written floating-point format. -/
structure FloatFormat where
  /-- The lowest decimal exponent of `d.ddd` written positionally. -/
  minPositional : Int
  /-- The first decimal exponent of `d.ddd` that is no longer written positionally. -/
  endPositional : Int
  /-- The least number of exponent digits. -/
  exponentDigits : Nat
  nan : String
  infinity : String

namespace FloatFormat

/-- Literals are positional from `1e-4` up to `1e16`, keep `.0` there, and have an exponent of a
sign and at least two digits elsewhere. -/
def literal : FloatFormat := ⟨-4, 16, 2, "nan", "inf"⟩

/-- The JSON dialect differs in the names of the numbers that are not finite. -/
def json : FloatFormat := { literal with nan := "NaN", infinity := "Infinity" }

/-- Significant digits without trailing zeros. -/
def significantDigits (n : Nat) : List Char :=
  ((Decimal.digitsOf n).reverse.dropWhile (· == '0')).reverse

/-- Digits with the point at position `point` from their start, and at least one digit on either
side of it. -/
def positional (ds : List Char) (point : Int) : List Char :=
  if point ≤ 0 then '0' :: '.' :: (List.replicate (-point).toNat '0' ++ ds)
  else
    let p := point.toNat
    let whole := ds.take p ++ List.replicate (p - ds.length) '0'
    let places := ds.drop p
    whole ++ '.' :: (if places.isEmpty then ['0'] else places)

/-- One digit, the others after a point, and the exponent `e`. -/
def scientific (f : FloatFormat) (ds : List Char) (e : Int) : List Char :=
  let mantissa := match ds with
    | d :: r :: rest => d :: '.' :: r :: rest
    | ds => ds
  let exponent := Decimal.digitsOf e.natAbs
  mantissa ++ 'e' :: (if e < 0 then '-' else '+') ::
    (List.replicate (f.exponentDigits - exponent.length) '0' ++ exponent)

/-- The text of a positive decimal. -/
def writeDecimal (f : FloatFormat) (x : Decimal) : List Char :=
  let ds := significantDigits x.digits
  let e := x.point - 1
  if f.minPositional ≤ e ∧ e < f.endPositional then positional ds x.point else f.scientific ds e

/-- The text of a number in the format. -/
def write (f : FloatFormat) (x : Binary64) : String :=
  let sign := if x.negative then ['-'] else []
  if x.isNaN then f.nan
  else if !x.isFinite then String.ofList (sign ++ f.infinity.toList)
  else if x.isZero then String.ofList (sign ++ ['0', '.', '0'])
  else String.ofList (sign ++ f.writeDecimal x.shortestDecimal)

end FloatFormat

end Hil
