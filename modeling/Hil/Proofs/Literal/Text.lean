import Hil.Proofs.Number.Reading
import Hil.Proofs.Tree.Sexp
import Hil.Proofs.Tree.Text

/-!
# JSON texts of scalars

The JSON text of a scalar tells its kind: text is quoted, truth values and `none` are names, and a
number with a fraction or an exponent is no integer. Each kind tells its values apart, so a scalar
is determined by its text, except that every not-a-number has the same.
-/

namespace Hil

open Decimal Binary64

variable {s : String}

/-! ### Forms of texts -/

/-- The kinds of scalars that texts tell apart. -/
inductive ScalarForm where
  | quoted
  | name
  | integer
  | real
  deriving DecidableEq

/-- The form of a text. -/
def ScalarForm.ofText (s : String) : ScalarForm :=
  if s.toList.head? = some '"' then quoted
  else if ["null", "true", "false"].contains s then name
  else if s.toList.all fun c ↦ c.isDigit || c == '-' then integer
  else real

private theorem ofText_jsonString (s : Str) :
    ScalarForm.ofText (Text.jsonString s) = .quoted := by
  obtain ⟨r, hr⟩ := Text.exists_toList_jsonString s
  rw [ScalarForm.ofText, hr, List.head?_cons, if_pos rfl]

private theorem ofText_signText {negative : Bool} {c : Char} {r : List Char}
    (hs : s.toList = signText negative ++ c :: r) (hc : c.isDigit = true) :
    ScalarForm.ofText s =
      if s.toList.all fun c ↦ c.isDigit || c == '-' then .integer else .real := by
  have hhead : ∃ d, s.toList.head? = some d ∧ d ∉ ['"', 'n', 't', 'f'] := by
    cases negative with
    | true => exact ⟨'-', by rw [hs]; rfl, by decide⟩
    | false =>
      refine ⟨c, by rw [hs]; rfl, ?_⟩
      intro hmem
      simp only [List.mem_cons, List.not_mem_nil, or_false] at hmem
      rcases hmem with rfl | rfl | rfl | rfl <;> cases hc
  obtain ⟨d, hd, hnot⟩ := hhead
  have hquote : s.toList.head? ≠ some '"' := by
    rw [hd]
    rintro ⟨⟩
    exact hnot (by decide)
  have hname : ¬ ["null", "true", "false"].contains s = true := by
    intro hmem
    simp only [List.contains_iff_mem, List.mem_cons, List.not_mem_nil, or_false] at hmem
    rcases hmem with rfl | rfl | rfl <;> cases hd <;> exact hnot (by decide)
  rw [ScalarForm.ofText, if_neg hquote, if_neg hname]

private theorem mem_signText {negative : Bool} {c : Char} (hc : c ∈ signText negative) :
    c = '-' := by
  cases negative with
  | true => exact List.mem_singleton.mp hc
  | false => cases hc

private theorem ofText_toString (i : Int) : ScalarForm.ofText (toString i) = .integer := by
  obtain ⟨c, r, hcs⟩ := List.exists_cons_of_ne_nil (digitsOf_ne_nil i.natAbs)
  have hc : c.isDigit = true := allDigits_digitsOf i.natAbs c (hcs ▸ List.mem_cons_self)
  have htext : (toString i).toList = signText (decide (i < 0)) ++ c :: r := by
    rw [toList_toString, hcs]
  rw [ofText_signText htext hc, if_pos]
  rw [List.all_eq_true, toList_toString]
  intro d hd
  rw [Bool.or_eq_true, beq_iff_eq]
  exact (List.mem_append.mp hd).symm.imp (allDigits_digitsOf i.natAbs d) mem_signText

private theorem write_json_cases (x : Binary64) :
    (∃ cs d, Spelling x.negative cs d ∧
      (FloatFormat.json.write x).toList = signText x.negative ++ cs) ∨
      FloatFormat.json.write x ∈ ["NaN", "Infinity", "-Infinity"] := by
  cases hfinite : x.isFinite with
  | true =>
    obtain ⟨cs, d, hspelling, -, htext⟩ := exists_spelling_write .json hfinite
    exact .inl ⟨cs, d, hspelling, htext ▸ String.toList_ofList⟩
  | false =>
    refine .inr ?_
    rcases write_json_of_not_isFinite hfinite with ⟨-, htext⟩ | ⟨-, htext⟩ | ⟨-, htext⟩ <;>
      simp [htext]

private theorem ofText_write_json (x : Binary64) :
    ScalarForm.ofText (FloatFormat.json.write x) = .real := by
  rcases write_json_cases x with ⟨cs, d, hspelling, htext⟩ | hname
  · obtain ⟨c, r, rfl, hc⟩ := hspelling.exists_cons
    obtain ⟨e, he, hkind⟩ := hspelling.exists_mem
    rw [ofText_signText htext hc, if_neg]
    intro hall
    have hint := List.all_eq_true.mp hall e (htext ▸ List.mem_append_right _ he)
    rcases hkind with rfl | rfl <;> cases hint
  · have hall : ∀ s ∈ ["NaN", "Infinity", "-Infinity"], ScalarForm.ofText s = .real := by decide
    exact hall _ hname

/-! ### Words -/

private theorem plain_of_isSpellingChar {c : Char} (hc : IsSpellingChar c) :
    isDelimiter c = false := by
  rw [Bool.eq_false_iff]
  intro hdelimiter
  simp only [isDelimiter, Bool.or_eq_true, beq_iff_eq] at hdelimiter
  rcases hdelimiter with ((rfl | rfl) | rfl) | rfl <;> revert hc <;> simp [IsSpellingChar]

private theorem isWord_signText {negative : Bool} {cs : List Char}
    (hs : s.toList = signText negative ++ cs) (hne : cs ≠ []) (hcs : ∀ c ∈ cs, IsSpellingChar c) :
    IsWord s := by
  refine ⟨by simp [hs, hne], ?_⟩
  intro c hc
  rw [hs] at hc
  rcases List.mem_append.mp hc with hc | hc
  · rw [mem_signText hc]
    rfl
  · exact plain_of_isSpellingChar (hcs c hc)

private theorem isWord_toString (i : Int) : IsWord (toString i) :=
  isWord_signText (toList_toString i) (digitsOf_ne_nil _) fun c hc ↦
    .inl (allDigits_digitsOf i.natAbs c hc)

private theorem isWord_write_json (x : Binary64) : IsWord (FloatFormat.json.write x) := by
  rcases write_json_cases x with ⟨cs, d, hspelling, htext⟩ | hname
  · obtain ⟨c, r, rfl, -⟩ := hspelling.exists_cons
    exact isWord_signText htext (List.cons_ne_nil c r) hspelling.isSpellingChar
  · have hall : ∀ s ∈ ["NaN", "Infinity", "-Infinity"], IsWord s := by decide
    exact hall _ hname

/-! ### Scalars -/

namespace Literal

variable {l l' : Literal}

instance : DecidablePred IsPlain
  | .none | .bool _ | .int _ | .float _ | .str _ => isTrue trivial
  | .list _ | .dict _ | .foreign _ => isFalse id

/-- The same value, where every not-a-number counts as the same, and texts of the same UTF-16 code
units do. -/
inductive Alike : Literal → Literal → Prop
  | refl (l : Literal) : Alike l l
  | str {s t : Str} (h : s.units = t.units) : Alike (.str s) (.str t)
  | nan {x y : Binary64} (hx : x.isNaN = true) (hy : y.isNaN = true) : Alike (.float x) (.float y)

/-- The text of a scalar is a word or a JSON string. -/
theorem exists_json (h : l.IsPlain) : ∃ text, l.json? = some text ∧ IsAtom text := by
  cases l with
  | none => exact ⟨_, rfl, .word (by decide)⟩
  | bool b => exact ⟨_, rfl, .word (by cases b <;> decide)⟩
  | int i => exact ⟨_, rfl, .word (isWord_toString i)⟩
  | float x => exact ⟨_, rfl, .word (isWord_write_json x)⟩
  | str s => exact ⟨_, rfl, .quoted s⟩
  | list _ | dict _ | foreign _ => exact h.elim

/-- The form that the text of a scalar shows. -/
private def form : Literal → ScalarForm
  | .none | .bool _ => .name
  | .int _ => .integer
  | .float _ => .real
  | _ => .quoted

private theorem form_eq (h : l.IsPlain) {text : String} (htext : l.json? = some text) :
    l.form = ScalarForm.ofText text := by
  cases l with
  | none => cases htext; decide
  | bool b => cases htext; cases b <;> decide
  | int i => cases htext; exact (ofText_toString i).symm
  | float x => cases htext; exact (ofText_write_json x).symm
  | str s => cases htext; exact (ofText_jsonString s).symm
  | list _ | dict _ | foreign _ => exact h.elim

/-- Scalars have the same text exactly if they are the same, or both are no number, or both are
texts of the same code units. -/
theorem json_eq_iff (h : l.IsPlain) (h' : l'.IsPlain) : l.json? = l'.json? ↔ Alike l l' := by
  constructor
  · intro htext
    obtain ⟨text, hl, -⟩ := exists_json h
    have hform : l.form = l'.form :=
      (form_eq h hl).trans (form_eq h' (htext.symm.trans hl)).symm
    -- Of the pairs of one form, the names are the only ones of two constructors.
    cases l <;> cases l' <;> first
      | exact h.elim | exact h'.elim | simp only [form, reduceCtorEq] at hform
    case none.none => exact .refl _
    case none.bool b => cases b <;> simp [json?] at htext
    case bool.none b => cases b <;> simp [json?] at htext
    case bool.bool b b' => cases b <;> cases b' <;> first | exact .refl _ | simp [json?] at htext
    case int.int i j => exact toString_inj.mp (Option.some.inj htext) ▸ .refl _
    case float.float x y =>
      rcases write_json_eq_iff.mp (Option.some.inj htext) with rfl | ⟨hx, hy⟩
      · exact .refl _
      · exact .nan hx hy
    case str.str s s' => exact .str (Text.jsonString_inj.mp (Option.some.inj htext))
  · rintro (l | hunits | ⟨hx, hy⟩)
    · rfl
    · exact congrArg some (Text.jsonString_inj.mpr hunits)
    · exact congrArg some (write_json_eq_iff.mpr (.inr ⟨hx, hy⟩))

end Literal

end Hil
