import Hil.Number.Binary64

/-!
# Decimal numbers

A decimal number is an integer scaled by a power of ten. `Decimal.toBinary64` rounds it to the
nearest binary64 number, and `Decimal.ofText?` reads the usual spelling: sign, digits, an optional
point and an optional exponent.
-/

namespace Hil

/-- The decimal `digits * 10 ^ exponent`, with a sign of its own so that zero may be negative. -/
structure Decimal where
  negative : Bool
  digits : Nat
  exponent : Int
  deriving DecidableEq, Repr

namespace Decimal

/-- The decimal digits of a natural number, most significant first. -/
def digitsOf (n : Nat) : List Char := Nat.toDigits 10 n

/-- The position of the decimal point relative to the first digit. -/
def point (x : Decimal) : Int := (digitsOf x.digits).length + x.exponent

/-- The nearest binary64 number. Beyond the two bounds every decimal rounds to an infinity or to
zero, so their powers of ten are never computed. -/
def toBinary64 (x : Decimal) : Binary64 :=
  if x.digits = 0 then Binary64.zero x.negative
  else if 400 < x.point then Binary64.infinity x.negative
  else if x.point < -400 then Binary64.zero x.negative
  else
    Binary64.ofRatio x.negative
      (x.digits * Nat.pow 10 x.exponent.toNat * Nat.pow 2 1074) (Nat.pow 10 (-x.exponent).toNat)

/-- The value of a run of ASCII digits. -/
def valueOf (cs : List Char) : Nat :=
  cs.foldl (fun n c => n * 10 + (c.toNat - '0'.toNat)) 0

/-- Splits a leading sign from a text; a missing sign is positive. -/
def takeSign : List Char → Bool × List Char
  | '-' :: cs => (true, cs)
  | '+' :: cs => (false, cs)
  | cs => (false, cs)

/-- Reads `digits [. digits] [e [sign] digits]` after a sign; at least one digit precedes the
exponent. -/
def ofUnsigned? (negative : Bool) (cs : List Char) : Option Decimal :=
  let whole := cs.takeWhile Char.isDigit
  let rest := cs.dropWhile Char.isDigit
  let (places, rest) := match rest with
    | '.' :: cs => (cs.takeWhile Char.isDigit, cs.dropWhile Char.isDigit)
    | cs => ([], cs)
  let digits := valueOf (whole ++ places)
  let scale : Int := -(places.length : Int)
  if whole.isEmpty && places.isEmpty then none
  else match rest with
    | [] => some ⟨negative, digits, scale⟩
    | e :: cs =>
      let (down, ds) := takeSign cs
      if (e == 'e' || e == 'E') && !ds.isEmpty && ds.all Char.isDigit then
        let n : Int := valueOf ds
        some ⟨negative, digits, scale + (if down then -n else n)⟩
      else none

/-- Reads a signed decimal number. -/
def ofText? (text : String) : Option Decimal :=
  let (negative, cs) := takeSign text.toList
  ofUnsigned? negative cs

end Decimal

namespace Binary64

/-- Reads a number, an infinity (`inf`, `infinity`) or `nan`, in any letter case. -/
def ofText? (text : String) : Option Binary64 :=
  let (negative, cs) := Decimal.takeSign text.toList
  match String.ofList (cs.map Char.toLower) with
  | "inf" | "infinity" => some (infinity negative)
  | "nan" => some nan
  | _ => (Decimal.ofUnsigned? negative cs).map Decimal.toBinary64

end Binary64

end Hil
