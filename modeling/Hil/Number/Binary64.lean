/-!
# Binary64 numbers

A binary64 number by its three fields, so that every bit pattern is exactly one value of the type.
Magnitudes are natural numbers in units of `2 ^ -1074`, the spacing of the smallest numbers, which
keeps rounding in exact integer arithmetic. `ofRatio` rounds a ratio to the nearest number, a tie
going to the even significand. Powers are `Nat.pow`, whatever meanings `^` may have elsewhere.
-/

namespace Hil

/-- A binary64 number: sign, biased exponent and fraction field. -/
structure Binary64 where
  negative : Bool
  exponent : Fin 2048
  fraction : Fin (Nat.pow 2 52)
  deriving DecidableEq, Repr

namespace Binary64

/-- The not-a-number value that arithmetic and reading produce. -/
def nan : Binary64 := ⟨false, ⟨2047, by decide⟩, ⟨Nat.pow 2 51, by decide⟩⟩

/-- The infinity of either sign. -/
def infinity (negative : Bool) : Binary64 := ⟨negative, ⟨2047, by decide⟩, ⟨0, by decide⟩⟩

/-- The zero of either sign. -/
def zero (negative : Bool) : Binary64 := ⟨negative, ⟨0, by decide⟩, ⟨0, by decide⟩⟩

instance : Inhabited Binary64 := ⟨zero false⟩

/-- Neither an infinity nor a not-a-number. -/
def isFinite (x : Binary64) : Bool := x.exponent.val != 2047

/-- A not-a-number, whatever its payload. -/
def isNaN (x : Binary64) : Bool := x.exponent.val == 2047 && x.fraction.val != 0

/-- Either of the two zeros. -/
def isZero (x : Binary64) : Bool := x.exponent.val == 0 && x.fraction.val == 0

/-- The significand as an integer; numbers with exponent field zero have no implicit bit. -/
def significand (x : Binary64) : Nat :=
  if x.exponent.val = 0 then x.fraction.val else Nat.pow 2 52 + x.fraction.val

/-- The power of two by which the significand counts, above the smallest spacing. -/
def unit (x : Binary64) : Nat := x.exponent.val - 1

/-- The magnitude of a finite number in units of `2 ^ -1074`. -/
def magnitude (x : Binary64) : Nat := x.significand * Nat.pow 2 x.unit

/-- The number with significand `m` and unit `2 ^ p`, of which `m < 2 ^ 53` and `p ≤ 2045`. -/
def ofSignificand (negative : Bool) (m p : Nat) : Binary64 :=
  if m < Nat.pow 2 52 then
    ⟨negative, ⟨0, by decide⟩, ⟨m % Nat.pow 2 52, Nat.mod_lt _ (by decide)⟩⟩
  else
    ⟨negative, ⟨(p + 1) % 2048, Nat.mod_lt _ (by decide)⟩,
      ⟨(m - Nat.pow 2 52) % Nat.pow 2 52, Nat.mod_lt _ (by decide)⟩⟩

/-- The integer nearest to `a / d`, the even one of two that are equally near. -/
def roundHalfEven (a d : Nat) : Nat :=
  let q := a / d
  let r := a % d
  if 2 * r < d then q
  else if d < 2 * r then q + 1
  else if q % 2 = 0 then q else q + 1

/-- The unit exponent at which `a / d` has a 53-bit significand, or zero for smaller ratios. -/
def unitFor (a d : Nat) : Nat :=
  let p := a.log2 - (d.log2 + 52)
  if 0 < p ∧ a < d * Nat.pow 2 (p + 52) then p - 1 else p

/-- The number nearest to the ratio `a / d` in units of `2 ^ -1074`; too large a ratio gives an
infinity. -/
def ofRatio (negative : Bool) (a d : Nat) : Binary64 :=
  let p := unitFor a d
  let m := roundHalfEven a (d * Nat.pow 2 p)
  let (m, p) := if m = Nat.pow 2 53 then (Nat.pow 2 52, p + 1) else (m, p)
  if p ≤ 2045 then ofSignificand negative m p else infinity negative

/-- The value of a finite number that is an integer. -/
def toInt? (x : Binary64) : Option Int :=
  if x.isFinite && x.magnitude % Nat.pow 2 1074 == 0 then
    let n : Int := (x.magnitude / Nat.pow 2 1074 : Nat)
    some (if x.negative then -n else n)
  else none

/-- Numeric equality: the zeros are equal, and a not-a-number equals nothing. -/
def sameValue (x y : Binary64) : Bool :=
  !x.isNaN && !y.isNaN && (x == y || (x.isZero && y.isZero))

/-- A significand has at most 53 bits. -/
theorem significand_lt (x : Binary64) : x.significand < Nat.pow 2 53 := by
  have hdouble : Nat.pow 2 53 = 2 * Nat.pow 2 52 := rfl
  have := x.fraction.isLt
  unfold significand
  split <;> omega

private theorem isFinite_zero (negative : Bool) : (zero negative).isFinite = true := rfl

private theorem magnitude_zero (negative : Bool) : (zero negative).magnitude = 0 := by
  simp [zero, magnitude, significand]

end Binary64

end Hil
