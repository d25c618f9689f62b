import Hil.Number.Shortest
import Hil.Proofs.Number.Rounding
import Mathlib.Data.List.TakeWhile

/-!
# Decimals of one value

A decimal keeps its value when zeros are appended and the exponent is lowered, so what it rounds to
is determined by its significant digits and the place of the point. The exact value of a finite
number rounds to the number, and so does its shortest decimal.
-/

namespace Hil.Decimal

variable {negative : Bool} {cs ds : List Char} {k n : Nat} {e : Int}

/-! ### Digits -/

/-- Digits are read in base ten. -/
theorem valueOf_eq (cs : List Char) : valueOf cs = Nat.ofDigitChars 10 cs 0 := by
  simp only [valueOf, Nat.ofDigitChars_eq_foldl, Nat.mul_comm]

/-- Reading the digits of a number gives the number. -/
theorem valueOf_digitsOf (n : Nat) : valueOf (digitsOf n) = n := by
  rw [valueOf_eq, digitsOf, Nat.ofDigitChars_ten_toDigits]

/-- Leading zeros do not count. -/
theorem valueOf_zeros_append (k : Nat) (cs : List Char) :
    valueOf (List.replicate k '0' ++ cs) = valueOf cs := by
  rw [valueOf_eq, valueOf_eq, Nat.ofDigitChars_append, Nat.ofDigitChars_replicate_zero,
    Nat.mul_zero]

/-- Each trailing zero multiplies by ten. -/
theorem valueOf_append_zeros (cs : List Char) (k : Nat) :
    valueOf (cs ++ List.replicate k '0') = valueOf cs * Nat.pow 10 k := by
  rw [valueOf_eq, valueOf_eq, Nat.ofDigitChars_append, Nat.ofDigitChars_replicate_zero,
    Nat.mul_comm]
  rfl

/-- Every number has a digit. -/
theorem digitsOf_ne_nil (n : Nat) : digitsOf n ≠ [] := Nat.toDigits_ne_nil

/-- The digits of a number are digits. -/
theorem isDigit_of_mem_digitsOf {c : Char} (hc : c ∈ digitsOf n) : c.isDigit = true :=
  Nat.isDigit_of_mem_toDigits (by decide) (by decide) hc

/-- A number has at most `k` digits when it is below the power of ten. -/
theorem length_digitsOf_le_iff (hk : 0 < k) : (digitsOf n).length ≤ k ↔ n < Nat.pow 10 k :=
  Nat.length_toDigits_le_iff (by decide) hk

/-- Multiplying by powers of ten appends zeros. -/
theorem digitsOf_mul_pow (hn : 0 < n) (k : Nat) :
    digitsOf (n * Nat.pow 10 k) = digitsOf n ++ List.replicate k '0' := by
  induction k with
  | zero => simp
  | succ k ih =>
    have hpos : 0 < n * Nat.pow 10 k := Nat.mul_pos hn (Nat.pow_pos (by decide))
    have hsucc : n * Nat.pow 10 (k + 1) = 10 * (n * Nat.pow 10 k) + 0 := by
      rw [Nat.add_zero, Nat.mul_left_comm 10, Nat.mul_comm 10]
      rfl
    have happend := Nat.toDigits_append_toDigits (b := 10) (by decide) hpos (d := 0) (by decide)
    rw [digitsOf, hsucc, ← happend, ← digitsOf, ih, Nat.toDigits_zero, List.append_assoc,
      List.replicate_succ']

/-! ### Rounding -/

/-- The decimal with the digits and the point before the first of them shifted by `point`. -/
def ofDigits (negative : Bool) (ds : List Char) (point : Int) : Decimal :=
  ⟨negative, valueOf ds, point - ds.length⟩

private theorem ten_pow_pos (n : Nat) : 0 < Nat.pow 10 n := Nat.pow_pos (by decide)

private theorem ofRatio_shift (negative : Bool) (hn : 0 < n) (k : Nat) (e : Int) {unit : Nat}
    (hunit : 0 < unit) :
    Binary64.ofRatio negative (n * Nat.pow 10 k * Nat.pow 10 e.toNat * unit)
        (Nat.pow 10 (-e).toNat) =
      Binary64.ofRatio negative (n * Nat.pow 10 (e + k).toNat * unit)
        (Nat.pow 10 (-(e + k)).toNat) := by
  have hexponent : Nat.pow 10 k * Nat.pow 10 e.toNat * Nat.pow 10 (-(e + k)).toNat =
      Nat.pow 10 (e + k).toNat * Nat.pow 10 (-e).toNat := by
    have hsum : k + e.toNat + (-(e + k)).toNat = (e + k).toNat + (-e).toNat := by omega
    simp only [Nat.pow_eq, ← Nat.pow_add, hsum]
  refine Binary64.ofRatio_congr
    (Nat.mul_pos (Nat.mul_pos (Nat.mul_pos hn (ten_pow_pos _)) (ten_pow_pos _)) hunit)
    (ten_pow_pos _) (Nat.mul_pos (Nat.mul_pos hn (ten_pow_pos _)) hunit) (ten_pow_pos _) ?_
  calc
    _ = n * unit * (Nat.pow 10 k * Nat.pow 10 e.toNat * Nat.pow 10 (-(e + k)).toNat) := by ac_rfl
    _ = n * unit * (Nat.pow 10 (e + k).toNat * Nat.pow 10 (-e).toNat) := by rw [hexponent]
    _ = _ := by ac_rfl

/-- Shifting digits into the exponent changes neither the value nor what it rounds to. -/
theorem toBinary64_mul_pow (negative : Bool) (n k : Nat) (e : Int) :
    (⟨negative, n * Nat.pow 10 k, e⟩ : Decimal).toBinary64 =
      (⟨negative, n, e + k⟩ : Decimal).toBinary64 := by
  rcases Nat.eq_zero_or_pos n with rfl | hn
  · simp [toBinary64]
  have hne : n * Nat.pow 10 k ≠ 0 := Nat.pos_iff_ne_zero.mp (Nat.mul_pos hn (ten_pow_pos k))
  have hpoint : (⟨negative, n * Nat.pow 10 k, e⟩ : Decimal).point =
      (⟨negative, n, e + k⟩ : Decimal).point := by
    simp only [point, digitsOf_mul_pow hn, List.length_append, List.length_replicate]
    omega
  rw [toBinary64, toBinary64, if_neg hne, if_neg (Nat.pos_iff_ne_zero.mp hn), hpoint]
  split
  · rfl
  · split
    · rfl
    · exact ofRatio_shift negative hn k e (by decide +kernel)

/-- Rounding keeps the sign. -/
@[simp] theorem negative_toBinary64 (x : Decimal) : x.toBinary64.negative = x.negative := by
  unfold toBinary64
  split
  · rfl
  · split
    · rfl
    · split
      · rfl
      · exact Binary64.negative_ofRatio _ _ _

/-- Appended zeros do not change what digits round to. -/
theorem toBinary64_ofDigits_append_zeros (negative : Bool) (ds : List Char) (k : Nat)
    (point : Int) :
    (ofDigits negative (ds ++ List.replicate k '0') point).toBinary64 =
      (ofDigits negative ds point).toBinary64 := by
  have hexponent : point - ↑(ds ++ List.replicate k '0').length + (k : Int) =
      point - ds.length := by
    rw [List.length_append, List.length_replicate]
    omega
  rw [ofDigits, valueOf_append_zeros, toBinary64_mul_pow, hexponent, ofDigits]

/-- The digits that count and the zeros after them. -/
theorem exists_digitsOf_eq (n : Nat) :
    ∃ k, digitsOf n = FloatFormat.significantDigits n ++ List.replicate k '0' := by
  refine ⟨((digitsOf n).reverse.takeWhile (· == '0')).length, ?_⟩
  have hzeros : (digitsOf n).reverse.takeWhile (· == '0') =
      List.replicate ((digitsOf n).reverse.takeWhile (· == '0')).length '0' :=
    List.eq_replicate_iff.mpr ⟨rfl, fun c hc ↦ by simpa using List.mem_takeWhile_imp hc⟩
  rw [FloatFormat.significantDigits, ← List.reverse_inj, List.reverse_append,
    List.reverse_reverse, List.reverse_replicate, ← hzeros, List.takeWhile_append_dropWhile]

/-- A decimal rounds to what its significant digits and its point determine. -/
theorem toBinary64_significantDigits (x : Decimal) :
    (ofDigits x.negative (FloatFormat.significantDigits x.digits) x.point).toBinary64 =
      x.toBinary64 := by
  obtain ⟨k, hk⟩ := exists_digitsOf_eq x.digits
  rw [← toBinary64_ofDigits_append_zeros x.negative _ k, ← hk, ofDigits, valueOf_digitsOf, point]
  congr 2
  omega

end Hil.Decimal

namespace Hil.Binary64

variable {x : Binary64} {n : Nat}

/-- A bound on the unit bounds the magnitude. -/
theorem magnitude_lt (h : x.unit ≤ n) : x.magnitude < Nat.pow 2 (53 + n) := by
  calc
    x.magnitude < Nat.pow 2 53 * Nat.pow 2 x.unit :=
      Nat.mul_lt_mul_of_pos_right x.significand_lt (two_pow_pos _)
    _ ≤ Nat.pow 2 53 * Nat.pow 2 n := Nat.mul_le_mul_left _ (two_pow_le h)
    _ = Nat.pow 2 (53 + n) := (two_pow_add 53 n).symm

private theorem length_digitsOf_mul {m bound f lo hi : Nat} (hpos : 0 < m) (hlt : m < bound)
    (hlo : Nat.pow 10 lo ≤ f) (hhi : bound * f ≤ Nat.pow 10 hi) (h : 0 < lo ∧ 0 < hi) :
    lo < (Decimal.digitsOf (m * f)).length ∧ (Decimal.digitsOf (m * f)).length ≤ hi := by
  have hf : 0 < f := Nat.lt_of_lt_of_le (Nat.pow_pos (by decide)) hlo
  constructor
  · rw [← Nat.not_le, Decimal.length_digitsOf_le_iff h.1, Nat.not_lt]
    exact Nat.le_trans hlo (Nat.le_mul_of_pos_left f hpos)
  · rw [Decimal.length_digitsOf_le_iff h.2]
    exact Nat.lt_of_lt_of_le (Nat.mul_lt_mul_of_pos_right hlt hf) hhi

/-- The point of the exact value is within the bounds beyond which nothing is computed. -/
theorem point_exactDecimal (hfinite : x.isFinite = true) (hpos : 0 < x.magnitude) :
    -400 ≤ x.exactDecimal.point ∧ x.exactDecimal.point ≤ 400 := by
  have hlo : Nat.pow 10 673 ≤ Nat.pow 5 1074 := by decide +kernel
  have hhi : Nat.pow 2 (53 + 2045) * Nat.pow 5 1074 ≤ Nat.pow 10 1474 := by decide +kernel
  have hlength := length_digitsOf_mul hpos (magnitude_lt (unit_le hfinite)) hlo hhi (by decide)
  simp only [Decimal.point, exactDecimal]
  omega

private theorem ofRatio_extended (hfinite : x.isFinite = true) (hpos : 0 < x.magnitude)
    {f unit d : Nat} (hd : f * unit = d) (hdpos : 0 < d) :
    ofRatio x.negative (x.magnitude * f * Nat.pow 10 0 * unit) d = x := by
  have hratio : x.magnitude * f * Nat.pow 10 0 * unit = x.magnitude * d := by
    rw [← hd, ← Nat.mul_assoc]
    exact congrArg (· * unit) (Nat.mul_one _)
  have hround : ofRatio x.negative (x.magnitude * d) (1 * d) = _ :=
    ofRatio_mul hpos Nat.one_pos hdpos
  rw [Nat.one_mul] at hround
  rw [hratio, hround, ofRatio_magnitude hfinite hpos]

/-- The exact value of a number rounds to the number. -/
theorem toBinary64_exactDecimal (hfinite : x.isFinite = true) (hpos : 0 < x.magnitude) :
    x.exactDecimal.toBinary64 = x := by
  have hdigits : x.exactDecimal.digits ≠ 0 :=
    Nat.pos_iff_ne_zero.mp (Nat.mul_pos hpos (by decide +kernel))
  have hdown : (-x.exactDecimal.exponent).toNat = 1074 := rfl
  obtain ⟨hlower, hupper⟩ := point_exactDecimal hfinite hpos
  rw [Decimal.toBinary64, if_neg hdigits, if_neg (Int.not_lt.mpr hupper),
    if_neg (Int.not_lt.mpr hlower), hdown]
  exact ofRatio_extended hfinite hpos (by decide +kernel) (by decide +kernel)

private theorem toBinary64_readingBack {lower upper y : Decimal} {preferLower : Bool}
    (h : x.readingBack? lower upper preferLower = some y) : y.toBinary64 = x := by
  unfold readingBack? at h
  split at h
  next hlower hupper =>
    obtain rfl := Option.some.inj h
    split
    · exact of_decide_eq_true hlower
    · exact of_decide_eq_true hupper
  next hlower _ => exact Option.some.inj h ▸ of_decide_eq_true hlower
  next _ hupper => exact Option.some.inj h ▸ of_decide_eq_true hupper
  next => cases h

/-- A decimal of some number of digits is taken only if it reads back. -/
theorem toBinary64_nearestDigits {y : Decimal} (h : x.nearestDigits? n = some y) :
    y.toBinary64 = x := toBinary64_readingBack h

/-- The shortest decimal of a number rounds to the number. -/
theorem toBinary64_shortestDecimal (hfinite : x.isFinite = true) (hpos : 0 < x.magnitude) :
    x.shortestDecimal.toBinary64 = x := by
  rw [shortestDecimal]
  cases h : (List.range 17).findSome? fun n ↦ x.nearestDigits? (n + 1) with
  | none => exact toBinary64_exactDecimal hfinite hpos
  | some y =>
    obtain ⟨n, -, hn⟩ := List.exists_of_findSome?_eq_some h
    exact toBinary64_nearestDigits hn

end Hil.Binary64
