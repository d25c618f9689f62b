import Hil.Proofs.Number.Decimal

/-!
# Reading what is written

A written number reads back as the number. So a text stands for one number, but for the name of the
values that are none.
-/

namespace Hil

namespace Decimal

variable {negative : Bool} {cs ds : List Char} {x y : Decimal}

/-- The sign that a number is written with. -/
def signText (negative : Bool) : List Char := if negative then ['-'] else []

/-! ### Spellings -/

/-- Digits and nothing else. -/
def AllDigits (ds : List Char) : Prop := ∀ c ∈ ds, c.isDigit = true

private theorem AllDigits.append {ds ds' : List Char} (h : AllDigits ds) (h' : AllDigits ds') :
    AllDigits (ds ++ ds') := fun c hc ↦ (List.mem_append.mp hc).elim (h c) (h' c)

private theorem allDigits_zeros (k : Nat) : AllDigits (List.replicate k '0') := by
  intro c hc
  rw [(List.mem_replicate.mp hc).2]
  rfl

/-- The digits of a number are nothing but digits. -/
theorem allDigits_digitsOf (n : Nat) : AllDigits (digitsOf n) := fun _ ↦ isDigit_of_mem_digitsOf

/-- The sign of an exponent. -/
def exponentSign (down : Bool) : Char := if down then '-' else '+'

/-- The spellings of an unsigned decimal: digits on both sides of a point, or digits and an
exponent, where the point is left out if no digits follow it. -/
inductive Spelling (negative : Bool) : List Char → Decimal → Prop
  | point {whole places : List Char} (hwhole : AllDigits whole) (hplaces : AllDigits places)
      (hne : whole ≠ []) :
      Spelling negative (whole ++ '.' :: places)
        ⟨negative, valueOf (whole ++ places), -(places.length : Int)⟩
  | exponent {whole ds : List Char} (down : Bool) (hwhole : AllDigits whole) (hds : AllDigits ds)
      (hne : whole ≠ []) (hdsne : ds ≠ []) :
      Spelling negative (whole ++ 'e' :: exponentSign down :: ds)
        ⟨negative, valueOf whole, if down then -(valueOf ds : Int) else valueOf ds⟩
  | pointExponent {whole places ds : List Char} (down : Bool) (hwhole : AllDigits whole)
      (hplaces : AllDigits places) (hds : AllDigits ds) (hne : whole ≠ []) (hdsne : ds ≠ []) :
      Spelling negative (whole ++ '.' :: (places ++ 'e' :: exponentSign down :: ds))
        ⟨negative, valueOf (whole ++ places),
          -(places.length : Int) + if down then -(valueOf ds : Int) else valueOf ds⟩

/-- What a spelling is made of. -/
def IsSpellingChar (c : Char) : Prop := c.isDigit = true ∨ c ∈ ['.', 'e', '+', '-']

namespace Spelling

private theorem takeSign_exponentSign (down : Bool) (ds : List Char) :
    takeSign (exponentSign down :: ds) = (down, ds) := by
  cases down <;> rfl

/-- Reading a spelling gives the decimal. -/
theorem reads (h : Spelling negative cs y) : ofUnsigned? negative cs = some y := by
  have hpoint : ¬ '.'.isDigit = true := by decide
  have he : ¬ 'e'.isDigit = true := by decide
  cases h with
  | point hwhole hplaces hne =>
    simp [ofUnsigned?, List.takeWhile_append_of_pos hwhole, List.dropWhile_append_of_pos hwhole,
      List.takeWhile_cons_of_neg hpoint, List.dropWhile_cons_of_neg hpoint, hne,
      List.takeWhile_eq_self_iff.mpr hplaces, List.dropWhile_eq_nil_iff.mpr hplaces]
  | exponent down hwhole hds hne hdsne =>
    simpa [ofUnsigned?, List.takeWhile_append_of_pos hwhole, List.dropWhile_append_of_pos hwhole,
      List.takeWhile_cons_of_neg he, List.dropWhile_cons_of_neg he, hne, takeSign_exponentSign,
      hdsne, AllDigits] using hds
  | pointExponent down hwhole hplaces hds hne hdsne =>
    simpa [ofUnsigned?, List.takeWhile_append_of_pos hwhole, List.dropWhile_append_of_pos hwhole,
      List.takeWhile_cons_of_neg hpoint, List.dropWhile_cons_of_neg hpoint, hne,
      List.takeWhile_append_of_pos hplaces, List.dropWhile_append_of_pos hplaces,
      List.takeWhile_cons_of_neg he, List.dropWhile_cons_of_neg he, takeSign_exponentSign,
      hdsne, AllDigits] using hds

/-- A spelling begins with a digit. -/
theorem exists_cons (h : Spelling negative cs y) : ∃ c r, cs = c :: r ∧ c.isDigit = true := by
  have key {whole : List Char} (hwhole : AllDigits whole) (hne : whole ≠ []) (r : List Char) :
      ∃ c r', whole ++ r = c :: r' ∧ c.isDigit = true := by
    obtain ⟨c, whole, rfl⟩ := List.exists_cons_of_ne_nil hne
    exact ⟨c, whole ++ r, rfl, hwhole c List.mem_cons_self⟩
  cases h with
  | point hwhole _ hne => exact key hwhole hne _
  | exponent _ hwhole _ hne _ => exact key hwhole hne _
  | pointExponent _ hwhole _ _ hne _ => exact key hwhole hne _

private theorem isSpellingChar_tail (down : Bool) (hds : AllDigits ds) :
    ∀ c ∈ 'e' :: exponentSign down :: ds, IsSpellingChar c := by
  intro c hc
  rcases List.mem_cons.mp hc with rfl | hc
  · exact .inr (by decide)
  · rcases List.mem_cons.mp hc with rfl | hc
    · cases down <;> exact .inr (by decide)
    · exact .inl (hds c hc)

/-- A spelling is made of digits, points, signs and the letter of exponents. -/
theorem isSpellingChar (h : Spelling negative cs y) : ∀ c ∈ cs, IsSpellingChar c := by
  intro c hc
  cases h with
  | point hwhole hplaces _ =>
    rcases List.mem_append.mp hc with hc | hc
    · exact .inl (hwhole c hc)
    · rcases List.mem_cons.mp hc with rfl | hc
      · exact .inr (by decide)
      · exact .inl (hplaces c hc)
  | exponent down hwhole hds _ _ =>
    rcases List.mem_append.mp hc with hc | hc
    · exact .inl (hwhole c hc)
    · exact isSpellingChar_tail down hds c hc
  | pointExponent down hwhole hplaces hds _ _ =>
    rcases List.mem_append.mp hc with hc | hc
    · exact .inl (hwhole c hc)
    · rcases List.mem_cons.mp hc with rfl | hc
      · exact .inr (by decide)
      · rcases List.mem_append.mp hc with hc | hc
        · exact .inl (hplaces c hc)
        · exact isSpellingChar_tail down hds c hc

/-- A spelling is not one of an integer: it holds a point or an exponent. -/
theorem exists_mem (h : Spelling negative cs y) : ∃ c ∈ cs, c = '.' ∨ c = 'e' := by
  cases h with
  | point => exact ⟨'.', by simp, .inl rfl⟩
  | exponent => exact ⟨'e', by simp, .inr rfl⟩
  | pointExponent => exact ⟨'.', by simp, .inl rfl⟩

end Spelling

/-! ### Written decimals -/

private theorem allDigits_significantDigits (n : Nat) :
    AllDigits (FloatFormat.significantDigits n) := by
  obtain ⟨k, hk⟩ := exists_digitsOf_eq n
  intro c hc
  exact allDigits_digitsOf n c (hk ▸ List.mem_append_left _ hc)

private theorem significantDigits_ne_nil {n : Nat} (hn : n ≠ 0) :
    FloatFormat.significantDigits n ≠ [] := by
  intro hnil
  obtain ⟨k, hk⟩ := exists_digitsOf_eq n
  have hvalue := valueOf_append_zeros [] k
  rw [hnil] at hk
  rw [← hk, valueOf_digitsOf] at hvalue
  exact hn (hvalue.trans (Nat.zero_mul _))

/-- The point goes among the digits, or zeros fill the gap between them and the point. -/
theorem spelling_positional (hds : AllDigits ds) (hne : ds ≠ []) (point : Int) :
    ∃ y, Spelling negative (FloatFormat.positional ds point) y ∧
      y.toBinary64 = (ofDigits negative ds point).toBinary64 := by
  unfold FloatFormat.positional
  split
  next hpoint =>
    have hzero : AllDigits ['0'] := allDigits_zeros 1
    refine ⟨_, .point hzero ((allDigits_zeros _).append hds) (List.cons_ne_nil _ _), ?_⟩
    have hvalue := valueOf_zeros_append ((-point).toNat + 1) ds
    rw [List.replicate_succ, List.cons_append] at hvalue
    rw [List.singleton_append, hvalue, ofDigits, List.length_append, List.length_replicate]
    congr 2
    omega
  next hpoint =>
    obtain ⟨p, rfl⟩ : ∃ p : Nat, point = p := ⟨point.toNat, by omega⟩
    simp only [Int.toNat_natCast]
    rcases Nat.lt_or_ge p ds.length with hlt | hle
    · -- The point is among the digits.
      have hdrop : ds.drop p ≠ [] := by simpa using hlt
      have hempty : (ds.drop p).isEmpty = false := by simpa using hlt
      have hwhole : ds.take p ≠ [] := by simpa [hne] using by omega
      have hzeros : ds.take p ++ List.replicate (p - ds.length) '0' = ds.take p := by
        simp [Nat.sub_eq_zero_of_le hlt.le]
      rw [hzeros, if_neg (by simp [hdrop])]
      refine ⟨_, .point (fun c hc ↦ hds c (List.mem_of_mem_take hc))
        (fun c hc ↦ hds c (List.mem_of_mem_drop hc)) hwhole, ?_⟩
      rw [List.take_append_drop, ofDigits, List.length_drop]
      congr 2
      omega
    · -- The point is behind the digits, and a zero follows it.
      have hdrop : ds.drop p = [] := List.drop_eq_nil_of_le hle
      have hone : AllDigits ['0'] := allDigits_zeros 1
      rw [hdrop, List.take_of_length_le hle, List.isEmpty_nil, if_pos rfl]
      refine ⟨_, .point (hds.append (allDigits_zeros _)) hone (by simp [hne]), ?_⟩
      rw [List.append_assoc, ← List.replicate_succ', valueOf_append_zeros, toBinary64_mul_pow,
        ofDigits]
      congr 2
      simp only [List.length_singleton]
      omega

/-- The digits with a point after the first, and the exponent that puts it in its place. -/
theorem spelling_scientific (f : FloatFormat) (hds : AllDigits ds) (hne : ds ≠ []) (point : Int) :
    Spelling negative (f.scientific ds (point - 1)) (ofDigits negative ds point) := by
  generalize he : point - 1 = e
  have hexponent : AllDigits (List.replicate (f.exponentDigits - (digitsOf e.natAbs).length) '0' ++
      digitsOf e.natAbs) := (allDigits_zeros _).append (allDigits_digitsOf _)
  have hexponentne : List.replicate (f.exponentDigits - (digitsOf e.natAbs).length) '0' ++
      digitsOf e.natAbs ≠ [] := by simp [digitsOf_ne_nil]
  have hsign : (if e < 0 then '-' else '+') = exponentSign (decide (e < 0)) := by
    simp [exponentSign]
  have hvalue : (if decide (e < 0) = true then -(e.natAbs : Int) else e.natAbs) = e := by
    simp only [decide_eq_true_eq]
    split <;> omega
  have hread := valueOf_zeros_append (f.exponentDigits - (digitsOf e.natAbs).length)
    (digitsOf e.natAbs)
  rw [valueOf_digitsOf] at hread
  unfold FloatFormat.scientific
  rw [hsign]
  match ds, hne with
  | [d], _ =>
    have h := @Spelling.exponent negative [d] _ (decide (e < 0)) hds hexponent
      (List.cons_ne_nil d []) hexponentne
    rw [hread, hvalue] at h
    rwa [ofDigits, List.length_singleton, show point - ((1 : Nat) : Int) = e from he]
  | d :: r :: rest, _ =>
    have hwhole : AllDigits [d] := fun c hc ↦ hds c (List.mem_cons.mpr (.inl (by simpa using hc)))
    have hplaces : AllDigits (r :: rest) := fun c hc ↦ hds c (List.mem_cons_of_mem d hc)
    have h := @Spelling.pointExponent negative [d] _ _ (decide (e < 0)) hwhole hplaces hexponent
      (List.cons_ne_nil d []) hexponentne
    rw [hread, hvalue] at h
    have hpoint : point - ((d :: r :: rest).length : Int) = -((r :: rest).length : Int) + e := by
      simp only [List.length_cons]
      omega
    rwa [ofDigits, hpoint]

/-- A written decimal is a spelling of one of the same value. -/
theorem exists_spelling (f : FloatFormat) (hx : x.digits ≠ 0) :
    ∃ y, Spelling x.negative (f.writeDecimal x) y ∧ y.toBinary64 = x.toBinary64 := by
  have hds := allDigits_significantDigits x.digits
  have hne := significantDigits_ne_nil hx
  rw [← toBinary64_significantDigits]
  simp only [FloatFormat.writeDecimal]
  split
  · exact spelling_positional hds hne x.point
  · exact ⟨_, spelling_scientific f hds hne x.point, rfl⟩

/-! ### Signs -/

/-- A text that begins with a digit has no sign. -/
theorem takeSign_of_isDigit {c : Char} (hc : c.isDigit = true) (cs : List Char) :
    takeSign (c :: cs) = (false, c :: cs) := by
  unfold takeSign
  split
  next heq =>
    obtain ⟨rfl, -⟩ := List.cons.inj heq
    cases hc
  next heq =>
    obtain ⟨rfl, -⟩ := List.cons.inj heq
    cases hc
  next => rfl

/-- The sign of a text that goes on with a digit is taken off. -/
theorem takeSign_signText {c : Char} (hc : c.isDigit = true) (negative : Bool) (cs : List Char) :
    takeSign (signText negative ++ c :: cs) = (negative, c :: cs) := by
  cases negative with
  | true => rfl
  | false => exact takeSign_of_isDigit hc cs

/-- An integer is written as its sign and the digits of its magnitude. -/
theorem toList_toString (i : Int) :
    (toString i).toList = signText (decide (i < 0)) ++ digitsOf i.natAbs := by
  rw [Int.toString_eq_repr, Int.repr_eq_if]
  split
  next h =>
    have hsign : signText (decide (i < 0)) = [] := by simp [signText, h]
    rw [hsign, List.nil_append, Nat.toList_repr, digitsOf, show i.toNat = i.natAbs by omega]
  next h =>
    have hsign : signText (decide (i < 0)) = ['-'] := by simp [signText, Int.not_le.mp h]
    rw [hsign, String.toList_append, Nat.toList_repr, digitsOf,
      show (-i).toNat = i.natAbs by omega]
    rfl

/-- Integers with the same text are equal. -/
theorem toString_inj {i j : Int} : toString i = toString j ↔ i = j := by
  constructor
  · intro h
    have hread (i : Int) : takeSign (toString i).toList = (decide (i < 0), digitsOf i.natAbs) := by
      obtain ⟨c, cs, hcs⟩ := List.exists_cons_of_ne_nil (digitsOf_ne_nil i.natAbs)
      rw [toList_toString, hcs]
      exact takeSign_signText (allDigits_digitsOf i.natAbs c (hcs ▸ List.mem_cons_self)) _ _
    have hparts := hread i
    rw [h, hread j, Prod.mk.injEq, decide_eq_decide] at hparts
    have hmagnitude := congrArg valueOf hparts.2
    rw [valueOf_digitsOf, valueOf_digitsOf] at hmagnitude
    omega
  · exact congrArg toString

end Decimal

namespace Binary64

open Decimal

variable {x y : Binary64} {cs : List Char} {d : Decimal}

private theorem ne_toLower_of_isDigit {c d : Char} (hc : c.isDigit = true)
    (hd : d.isDigit = false) :
    c.toLower ≠ d := by
  have hupper : ¬ (c.val ≥ 'A'.val ∧ c.val ≤ 'Z'.val) := by
    have hA : 'A'.val.toNat = 65 := rfl
    have hnine : '9'.val.toNat = 57 := rfl
    simp only [Char.isDigit, Bool.and_eq_true, decide_eq_true_eq, ge_iff_le,
      UInt32.le_iff_toNat_le] at hc ⊢
    omega
  have hlower : c.toLower = c := dif_neg hupper
  rw [hlower]
  rintro rfl
  exact Bool.noConfusion (hc.symm.trans hd)

private theorem ofText?_spelling {negative : Bool} (h : Spelling negative cs d) :
    ofText? (String.ofList (signText negative ++ cs)) = some d.toBinary64 := by
  obtain ⟨c, r, rfl, hc⟩ := h.exists_cons
  have hsign := takeSign_signText hc negative r
  have hname {s : String} (hs : ∃ d ds, s.toList = d :: ds ∧ d.isDigit = false) :
      String.ofList ((c :: r).map Char.toLower) ≠ s := by
    rintro rfl
    obtain ⟨d, ds, heq, hd⟩ := hs
    rw [String.toList_ofList, List.map_cons] at heq
    exact ne_toLower_of_isDigit hc hd (List.cons.inj heq).1
  simp only [ofText?, String.toList_ofList, hsign]
  split
  next heq => exact absurd heq (hname ⟨'i', _, rfl, rfl⟩)
  next heq => exact absurd heq (hname ⟨'i', _, rfl, rfl⟩)
  next heq => exact absurd heq (hname ⟨'n', _, rfl, rfl⟩)
  next => rw [h.reads]; rfl

private theorem magnitude_pos (h : x.isZero = false) : 0 < x.magnitude := by
  refine Nat.mul_pos ?_ (two_pow_pos _)
  have hpow := two_pow_pos 52
  rw [isZero, Bool.and_eq_false_iff, beq_eq_false_iff_ne, beq_eq_false_iff_ne] at h
  unfold significand
  split <;> omega

private theorem eq_zero (h : x.isZero = true) : x = zero x.negative := by
  obtain ⟨negative, e, m⟩ := x
  simp only [isZero, Bool.and_eq_true, beq_iff_eq] at h
  simp only [zero, mk.injEq, true_and]
  exact ⟨Fin.ext h.1, Fin.ext h.2⟩

private theorem digits_shortestDecimal_ne_zero (hfinite : x.isFinite = true)
    (hzero : x.isZero = false) : x.shortestDecimal.digits ≠ 0 := by
  intro h
  have hround := toBinary64_shortestDecimal hfinite (magnitude_pos hzero)
  rw [toBinary64, if_pos h] at hround
  rw [← hround] at hzero
  cases hzero

private theorem isNaN_of_isFinite (h : x.isFinite = true) : x.isNaN = false := by
  simp only [isFinite, bne_iff_ne] at h
  simp [isNaN, h]

/-- A number that is not finite is a not-a-number or an infinity. -/
theorem isNaN_or_eq_infinity (h : x.isFinite = false) :
    x.isNaN = true ∨ x = infinity x.negative := by
  obtain ⟨negative, e, m⟩ := x
  simp only [isFinite, bne_eq_false_iff_eq] at h
  by_cases hm : m.val = 0
  · refine .inr ?_
    simp only [infinity, mk.injEq, true_and]
    exact ⟨Fin.ext h, Fin.ext hm⟩
  · exact .inl (by simp [isNaN, h, hm])

/-- A finite number is written, in any format, as its sign and a spelling of a decimal that rounds
to it. -/
theorem exists_spelling_write (f : FloatFormat) (hfinite : x.isFinite = true) :
    ∃ cs d, Spelling x.negative cs d ∧ d.toBinary64 = x ∧
      f.write x = String.ofList (signText x.negative ++ cs) := by
  simp only [FloatFormat.write, isNaN_of_isFinite hfinite, hfinite]
  cases hzero : x.isZero with
  | true =>
    exact ⟨['0', '.', '0'], ⟨x.negative, 0, -1⟩,
      .point (allDigits_zeros 1) (allDigits_zeros 1) (List.cons_ne_nil _ _), (eq_zero hzero).symm,
      rfl⟩
  | false =>
    have hround := toBinary64_shortestDecimal hfinite (magnitude_pos hzero)
    have hsign : x.shortestDecimal.negative = x.negative := by rw [← negative_toBinary64, hround]
    obtain ⟨y, hy, hvalue⟩ := exists_spelling f (digits_shortestDecimal_ne_zero hfinite hzero)
    exact ⟨_, y, hsign ▸ hy, hvalue.trans hround, rfl⟩

/-- The text of a finite number, in any format, reads back as the number. -/
theorem ofText?_write (f : FloatFormat) (hfinite : x.isFinite = true) :
    ofText? (f.write x) = some x := by
  obtain ⟨cs, d, hspelling, hvalue, htext⟩ := exists_spelling_write f hfinite
  rw [htext, ofText?_spelling hspelling, hvalue]

/-- The three texts of numbers that are not finite. -/
theorem write_json_of_not_isFinite (h : x.isFinite = false) :
    x.isNaN = true ∧ FloatFormat.json.write x = "NaN" ∨
      x = infinity false ∧ FloatFormat.json.write x = "Infinity" ∨
      x = infinity true ∧ FloatFormat.json.write x = "-Infinity" := by
  rcases isNaN_or_eq_infinity h with hnan | hinfinity
  · exact .inl ⟨hnan, by simp [FloatFormat.write, hnan, FloatFormat.json]⟩
  · generalize x.negative = negative at hinfinity
    subst hinfinity
    cases negative with
    | false => exact .inr (.inl ⟨rfl, rfl⟩)
    | true => exact .inr (.inr ⟨rfl, rfl⟩)

/-- Every number reads back from its JSON text, a not-a-number as the one that reading produces. -/
theorem ofText?_write_json (x : Binary64) :
    ofText? (FloatFormat.json.write x) = some (if x.isNaN then nan else x) := by
  cases hfinite : x.isFinite with
  | true => simp [ofText?_write _ hfinite, isNaN_of_isFinite hfinite]
  | false =>
    rcases write_json_of_not_isFinite hfinite with ⟨hnan, htext⟩ | ⟨rfl, htext⟩ | ⟨rfl, htext⟩
    · rw [htext, hnan]
      rfl
    · rw [htext]
      rfl
    · rw [htext]
      rfl

/-- Numbers have the same JSON text when they are the same, or both are no number. -/
theorem write_json_eq_iff :
    FloatFormat.json.write x = FloatFormat.json.write y ↔
      x = y ∨ x.isNaN = true ∧ y.isNaN = true := by
  constructor
  · intro h
    have hread := congrArg ofText? h
    rw [ofText?_write_json, ofText?_write_json, Option.some_inj] at hread
    cases hx : x.isNaN <;> cases hy : y.isNaN <;> simp only [hx, hy] at hread
    · exact .inl hread
    · cases hx.symm.trans (congrArg isNaN hread)
    · cases hy.symm.trans (congrArg isNaN hread.symm)
    · exact .inr ⟨rfl, rfl⟩
  · rintro (rfl | ⟨hx, hy⟩)
    · rfl
    · simp [FloatFormat.write, hx, hy]

end Binary64

end Hil
