import Hil.Number.Binary64

/-!
# Rounding

What a ratio rounds to depends on the value of the ratio alone, and a ratio that is the magnitude of
a finite number rounds to the number.
-/

namespace Hil.Binary64

variable {a a' d d' k p q : Nat} {negative : Bool} {x : Binary64}

/-- Powers of two in the spelling of the definitions. -/
theorem two_pow_add (m n : Nat) : Nat.pow 2 (m + n) = Nat.pow 2 m * Nat.pow 2 n :=
  Nat.pow_add 2 m n

/-- Powers of two are positive. -/
theorem two_pow_pos (n : Nat) : 0 < Nat.pow 2 n := Nat.two_pow_pos n

/-- Powers of two grow with the exponent. -/
theorem two_pow_le {m n : Nat} (h : m ≤ n) : Nat.pow 2 m ≤ Nat.pow 2 n :=
  Nat.pow_le_pow_right (by decide) h

/-! ### The unit of a ratio -/

/-- The significand of `a / d` has at most 53 bits in the unit `2 ^ p`, and no fewer unless there is
no smaller unit. -/
structure HasUnit (a d p : Nat) : Prop where
  lt : a < d * Nat.pow 2 (p + 53)
  le : p = 0 ∨ d * Nat.pow 2 (p + 52) ≤ a

/-- The unit that rounding takes. Comparing the lengths of `a` and `d` finds it or the next one. -/
theorem hasUnit_unitFor (ha : 0 < a) (hd : 0 < d) : HasUnit a d (unitFor a d) := by
  have hale : Nat.pow 2 a.log2 ≤ a := Nat.log2_self_le (Nat.pos_iff_ne_zero.mp ha)
  have halt : a < Nat.pow 2 (a.log2 + 1) := Nat.lt_log2_self
  have hdle : Nat.pow 2 d.log2 ≤ d := Nat.log2_self_le (Nat.pos_iff_ne_zero.mp hd)
  have hdlt : d < Nat.pow 2 (d.log2 + 1) := Nat.lt_log2_self
  simp only [unitFor]
  generalize a.log2 = m at *
  generalize d.log2 = n at *
  split
  next h =>
    obtain ⟨hpos, hlt⟩ := h
    refine ⟨?_, .inr ?_⟩
    · rwa [show m - (n + 52) - 1 + 53 = m - (n + 52) + 52 by omega]
    · refine Nat.le_trans (Nat.mul_le_mul_right _ (Nat.le_of_lt hdlt)) ?_
      rwa [← two_pow_add, show n + 1 + (m - (n + 52) - 1 + 52) = m by omega]
  next h =>
    constructor
    · have hpow : Nat.pow 2 (m + 1) ≤ Nat.pow 2 (n + (m - (n + 52) + 53)) :=
        two_pow_le (by omega)
      rw [two_pow_add n] at hpow
      exact Nat.lt_of_lt_of_le halt (Nat.le_trans hpow (Nat.mul_le_mul_right _ hdle))
    · rcases Nat.eq_zero_or_pos (m - (n + 52)) with h0 | hpos
      · exact .inl h0
      · exact .inr (Nat.le_of_not_lt fun hlt ↦ h ⟨hpos, hlt⟩)

private theorem HasUnit.le_of (hp : HasUnit a d p) (hq : HasUnit a d q) : q ≤ p := by
  rcases hq.le with rfl | hq
  · exact Nat.zero_le p
  · have hlt : Nat.pow 2 (q + 52) < Nat.pow 2 (p + 53) :=
      Nat.lt_of_mul_lt_mul_left (Nat.lt_of_le_of_lt hq hp.lt)
    have := (Nat.pow_lt_pow_iff_right (by decide)).mp hlt
    omega

/-- A ratio has one unit. -/
theorem HasUnit.unique (hp : HasUnit a d p) (hq : HasUnit a d q) : p = q :=
  Nat.le_antisymm (hq.le_of hp) (hp.le_of hq)

/-- The unit depends on the value of the ratio only. -/
theorem hasUnit_mul_iff (hk : 0 < k) : HasUnit (a * k) (d * k) p ↔ HasUnit a d p := by
  have hcomm (n : Nat) : d * k * n = d * n * k := Nat.mul_right_comm d k n
  constructor
  · rintro ⟨hlt, hle⟩
    rw [hcomm] at hlt hle
    exact ⟨Nat.lt_of_mul_lt_mul_right hlt, hle.imp_right (Nat.le_of_mul_le_mul_right · hk)⟩
  · rintro ⟨hlt, hle⟩
    refine ⟨?_, ?_⟩
    · rw [hcomm]
      exact Nat.mul_lt_mul_of_pos_right hlt hk
    · rw [hcomm]
      exact hle.imp_right (Nat.mul_le_mul_right k)

/-! ### Ratios of one value -/

private theorem unitFor_mul (ha : 0 < a) (hd : 0 < d) (hk : 0 < k) :
    unitFor (a * k) (d * k) = unitFor a d :=
  ((hasUnit_mul_iff hk).mp (hasUnit_unitFor (Nat.mul_pos ha hk) (Nat.mul_pos hd hk))).unique
    (hasUnit_unitFor ha hd)

private theorem roundHalfEven_mul (hk : 0 < k) :
    roundHalfEven (a * k) (d * k) = roundHalfEven a d := by
  have hdouble : 2 * (a % d * k) = 2 * (a % d) * k := (Nat.mul_assoc 2 _ k).symm
  simp only [roundHalfEven, Nat.mul_div_mul_right _ _ hk, Nat.mul_mod_mul_right, hdouble,
    Nat.mul_lt_mul_right hk]

/-- Extending a ratio does not change what it rounds to. -/
theorem ofRatio_mul (ha : 0 < a) (hd : 0 < d) (hk : 0 < k) :
    ofRatio negative (a * k) (d * k) = ofRatio negative a d := by
  have hround : roundHalfEven (a * k) (d * k * Nat.pow 2 (unitFor a d)) =
      roundHalfEven a (d * Nat.pow 2 (unitFor a d)) := by
    rw [Nat.mul_right_comm, roundHalfEven_mul hk]
  simp only [ofRatio, unitFor_mul ha hd hk, hround]

/-- Ratios of one value round to one number. -/
theorem ofRatio_congr (ha : 0 < a) (hd : 0 < d) (ha' : 0 < a') (hd' : 0 < d')
    (h : a * d' = a' * d) : ofRatio negative a d = ofRatio negative a' d' := by
  rw [← ofRatio_mul ha hd hd', ← ofRatio_mul ha' hd' hd, h, Nat.mul_comm d]

/-! ### Numbers as ratios -/

/-- A number of a significand has the sign that it is made with. -/
@[simp] theorem negative_ofSignificand (negative : Bool) (m p : Nat) :
    (ofSignificand negative m p).negative = negative := by
  unfold ofSignificand
  split <;> rfl

/-- Rounding keeps the sign. -/
@[simp] theorem negative_ofRatio (negative : Bool) (a d : Nat) :
    (ofRatio negative a d).negative = negative := by
  have bounded (m p : Nat) :
      (if p ≤ 2045 then ofSignificand negative m p else infinity negative).negative = negative := by
    split
    · exact negative_ofSignificand negative m p
    · rfl
  simp only [ofRatio]
  exact bounded _ _

/-- The unit of a finite number is bounded. -/
theorem unit_le (h : x.isFinite = true) : x.unit ≤ 2045 := by
  have hlt := x.exponent.isLt
  have hne : x.exponent.val ≠ 2047 := by simpa [isFinite] using h
  unfold unit
  omega

/-- A significand that is too short has the smallest unit. -/
theorem le_significand : x.unit = 0 ∨ Nat.pow 2 52 ≤ x.significand := by
  unfold unit significand
  split <;> omega

/-- The unit of a number is that of its magnitude. -/
theorem hasUnit_unit (x : Binary64) : HasUnit x.magnitude 1 x.unit := by
  have hpow (n : Nat) : 1 * Nat.pow 2 (x.unit + n) = Nat.pow 2 n * Nat.pow 2 x.unit := by
    rw [Nat.one_mul, two_pow_add, Nat.mul_comm]
  constructor
  · rw [hpow, magnitude]
    exact Nat.mul_lt_mul_of_pos_right x.significand_lt (two_pow_pos _)
  · rw [hpow, magnitude]
    exact le_significand.imp_right (Nat.mul_le_mul_right _)

/-- A number is made of its sign, its significand and its unit. -/
theorem ofSignificand_significand (x : Binary64) :
    ofSignificand x.negative x.significand x.unit = x := by
  obtain ⟨negative, ⟨e, he⟩, ⟨f, hf⟩⟩ := x
  unfold ofSignificand significand unit
  by_cases h : e = 0
  · subst h
    simp only [↓reduceIte, hf, Nat.mod_eq_of_lt hf]
  · have hsub : e - 1 + 1 = e := by omega
    have hnot : ¬ Nat.pow 2 52 + f < Nat.pow 2 52 := by omega
    simp only [h, ↓reduceIte, hnot, hsub, Nat.mod_eq_of_lt he, Nat.add_sub_cancel_left,
      Nat.mod_eq_of_lt hf]

/-- Finite numbers other than the zeros are what their magnitudes round to. -/
theorem ofRatio_magnitude (hfinite : x.isFinite = true) (hpos : 0 < x.magnitude) :
    ofRatio x.negative x.magnitude 1 = x := by
  have hunit : unitFor x.magnitude 1 = x.unit :=
    (hasUnit_unitFor hpos Nat.one_pos).unique x.hasUnit_unit
  have hround : roundHalfEven x.magnitude (1 * Nat.pow 2 x.unit) = x.significand := by
    have hexact : roundHalfEven x.significand 1 = x.significand := by
      simp [roundHalfEven, Nat.mod_one]
    rw [magnitude, roundHalfEven_mul (two_pow_pos _), hexact]
  have hne : x.significand ≠ Nat.pow 2 53 := Nat.ne_of_lt x.significand_lt
  simp only [ofRatio, hunit, hround, hne, ↓reduceIte, unit_le hfinite, ofSignificand_significand]

end Hil.Binary64
