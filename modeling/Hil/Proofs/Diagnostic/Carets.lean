import Hil.Diagnostic.Text
import Mathlib.Data.List.TakeWhile

/-!
# What the carets mark

The carets below a source line stand under the span of a diagnostic: from its column on, up to the
column before its end if that is known and on the line, else up to the end of the token at its
column. A column before the first counts as the first where the carets begin, but not where they are
counted: then they run past the end of the span by as many columns as the place lies before the
line.
-/

namespace Hil

/-! ### Lines with carets -/

/-- The line `below` has a run of `count` carets, and its first caret stands under the character
`first` of the text `line` that the line `above` ends with. -/
def Underlines (line : List Char) (first : Int) (count : Nat) (above below : String) : Prop :=
  ∃ lead margin rest : List Char,
    above.toList = lead ++ line ∧
    below.toList = margin ++ List.replicate count '^' ++ rest ∧
    '^' ∉ margin ∧ 0 < count ∧ rest.head? ≠ some '^' ∧
    (margin.length : Int) + 1 = lead.length + first

private theorem takeWhile_run {p : Char → Bool} {run rest : List Char}
    (hrun : ∀ c ∈ run, p c = true) (hrest : ∀ c ∈ rest.head?, p c = false) :
    (run ++ rest).takeWhile p = run := by
  rw [List.takeWhile_append_of_pos hrun]
  cases rest with
  | nil => exact List.append_nil run
  | cons c rest => rw [List.takeWhile_cons_of_neg (by simp [hrest c rfl]), List.append_nil]

private theorem takeWhile_margin {margin rest : List Char} {count : Nat} (h : '^' ∉ margin)
    (hcount : 0 < count) :
    (margin ++ (List.replicate count '^' ++ rest)).takeWhile (· != '^') = margin := by
  obtain ⟨n, rfl⟩ := Nat.exists_eq_succ_of_ne_zero hcount.ne'
  refine takeWhile_run (fun c hc ↦ ?_) (by simp [List.replicate_succ])
  rw [bne_iff_ne]
  rintro rfl
  exact h hc

private theorem takeWhile_carets {rest : List Char} (h : rest.head? ≠ some '^') (count : Nat) :
    (List.replicate count '^' ++ rest).takeWhile (· == '^') = List.replicate count '^' := by
  refine takeWhile_run (fun c hc ↦ beq_iff_eq.mpr (List.mem_replicate.mp hc).2) fun c hc ↦ ?_
  rw [beq_eq_false_iff_ne]
  rintro rfl
  exact h hc

/-- A line marks one span of the line above at most. -/
theorem Underlines.unique {line : List Char} {first first' : Int} {count count' : Nat}
    {above below : String} (h : Underlines line first count above below)
    (h' : Underlines line first' count' above below) : first = first' ∧ count = count' := by
  obtain ⟨lead, margin, rest, habove, hbelow, hmargin, hcount, hrest, hfirst⟩ := h
  obtain ⟨lead', margin', rest', habove', hbelow', hmargin', hcount', hrest', hfirst'⟩ := h'
  rw [List.append_assoc] at hbelow hbelow'
  obtain rfl : margin = margin' := by
    rw [← takeWhile_margin hmargin hcount, ← hbelow, hbelow', takeWhile_margin hmargin' hcount']
  have hcarets := List.append_cancel_left (hbelow.symm.trans hbelow')
  have hcounts : count = count' := by
    have hrun := takeWhile_carets hrest count
    rw [hcarets, takeWhile_carets hrest' count'] at hrun
    simpa using (congrArg List.length hrun).symm
  obtain rfl : lead = lead' := List.append_cancel_right (habove.symm.trans habove')
  exact ⟨by omega, hcounts⟩

/-- A character that ends a token: a blank, a closing bracket, a comma or a quote. -/
def EndsToken (c : Char) : Prop := c ∈ [' ', '\t', '}', ',', ')', ']', '"']

/-- The token at an offset of a line, which ends where the line does or before a delimiter. -/
def TokenAt (line : List Char) (offset : Nat) (token : List Char) : Prop :=
  ∃ rest, line.drop offset = token ++ rest ∧ (∀ c ∈ token, ¬ EndsToken c) ∧
    ∀ c ∈ rest.head?, EndsToken c

private theorem endsToken_iff {c : Char} : EndsToken c ↔ spanDelimiters.contains c = true :=
  List.contains_iff_mem.symm

private theorem exists_tokenAt (line : List Char) (offset : Nat) :
    ∃ token, TokenAt line offset token ∧ tokenLength line offset = max 1 token.length := by
  refine ⟨_, ⟨_, List.takeWhile_append_dropWhile.symm, ?inside, ?behind⟩, rfl⟩
  case inside =>
    intro c hc
    simpa [endsToken_iff] using List.mem_takeWhile_imp hc
  case behind =>
    intro c hc
    have hfirst :=
      List.head?_dropWhile_not (fun c ↦ !spanDelimiters.contains c) (line.drop offset)
    rw [Option.mem_def.mp hc] at hfirst
    simpa [endsToken_iff] using hfirst

/-! ### The carets of a place -/

/-- The span of a place ends in the line that it begins in, as far as is known. -/
def Location.EndsOnLine (place : Location) : Prop :=
  place.endLine = 0 ∨ place.endLine = place.line

/-- The number of columns that the carets of a place mark, by what is known of its end. -/
structure Marks (place : Location) (line : List Char) (count : Nat) : Prop where
  /-- A span in the line is marked up to the column before its end. -/
  span : place.EndsOnLine → 1 ≤ place.column → place.column < place.endColumn →
    (count : Int) = place.endColumn - max place.column 1
  /-- From a column before the first, the carets run past the end by what is missing to the
  first. -/
  overrun : place.EndsOnLine → place.column < 1 → place.column < place.endColumn →
    (count : Int) = place.endColumn - max place.column 1 + (1 - place.column)
  /-- Without an end in the line, the token is marked, but one column at least. -/
  token : place.endColumn ≤ place.column ∨ ¬ place.EndsOnLine →
    ∃ token, TokenAt line (max place.column 1 - 1).toNat token ∧ count = max 1 token.length

private theorem marks_caretCount (place : Location) (line : List Char) :
    Marks place line (caretCount place line) := by
  have hknown (hend : place.EndsOnLine) (h : place.column < place.endColumn) :
      (caretCount place line : Int) = place.endColumn - place.column := by
    rw [caretCount, if_pos ⟨hend, h⟩]
    omega
  refine ⟨?span, ?overrun, ?token⟩
  case span =>
    intro hend hcolumn h
    rw [hknown hend h]
    omega
  case overrun =>
    intro hend hcolumn h
    rw [hknown hend h]
    omega
  case token =>
    intro h
    obtain ⟨token, htoken, hlength⟩ := exists_tokenAt line (caretStart place)
    refine ⟨token, htoken, ?_⟩
    have hunknown : ¬ (place.EndsOnLine ∧ place.column < place.endColumn) := by
      rintro ⟨hend, hlt⟩
      exact h.elim (Int.not_le.mpr hlt) (not_not_intro hend)
    rw [← hlength]
    exact if_neg hunknown

private theorem caretCount_pos (place : Location) (line : List Char) :
    0 < caretCount place line := by
  rw [caretCount, tokenLength]
  split <;> omega

/-- A line below a numbered line underlines it, whatever the width of the number. -/
theorem underlines_carets (place : Location) (line : List Char) {number label : String}
    (hlabel : label.toList.head? ≠ some '^') :
    Underlines line (max place.column 1) (caretCount place line)
      (number ++ " | " ++ String.ofList line)
      (blanks (number.length + 1) ++ "|" ++ " " ++ (carets place line ++ label)) := by
  -- the text before the line and the gutter below it are both three columns wider than the number
  refine ⟨(number ++ " | ").toList,
    (blanks (number.length + 1) ++ "|" ++ " " ++ blanks (caretStart place)).toList, label.toList,
    by simp, by simp [carets], ?_, caretCount_pos place line, hlabel, ?_⟩
  · simp [blanks]
  · simp [blanks, caretStart, String.length_toList]
    omega

/-- Without color, text is shown as it is. -/
@[simp]
theorem styled_false (styles : List Style) (text : String) : styled false styles text = text := rfl

namespace Diagnostic

variable {files : List (String × String)} {place : Location} {source : String} {d : Diagnostic}

/-- A line number within a known file has a line. -/
theorem exists_sourceLine? (hsource : files.lookup place.file = some source)
    (hfirst : 1 ≤ place.line)
    (hlast : place.line ≤ (Text.splitAt '\n' source.toList).length) :
    ∃ line, (Text.splitAt '\n' source.toList)[place.line.toNat - 1]? = some line ∧
      sourceLine? files place = some line := by
  have hbound : place.line.toNat - 1 < (Text.splitAt '\n' source.toList).length := by omega
  refine ⟨_, List.getElem?_eq_getElem hbound, ?_⟩
  simp only [sourceLine?, hsource]
  rw [if_pos (by omega), List.getElem?_eq_getElem hbound]

/-- The line below the source line underlines it, with or without a label behind the carets. -/
theorem exists_snippet (d : Diagnostic) (place : Location) (line : List Char) :
    ∃ above below,
      d.snippet false place line =
        [blanks (toString place.line).length ++ "--> " ++ place.text,
          blanks ((toString place.line).length + 1) ++ "|", above, below] ∧
      Underlines line (max place.column 1) (caretCount place line) above below := by
  simp only [snippet, styled_false]
  refine ⟨_, _, rfl, underlines_carets place line ?_⟩
  split <;> simp

/-- A diagnostic in a known line shows the line and, directly below it, carets that begin under its
column and mark its span. -/
theorem render_underlines (hplace : d.location = some place)
    (hsource : files.lookup place.file = some source) (hfirst : 1 ≤ place.line)
    (hlast : place.line ≤ (Text.splitAt '\n' source.toList).length) :
    ∃ line above below count,
      (Text.splitAt '\n' source.toList)[place.line.toNat - 1]? = some line ∧
      d.render files false = "\n".intercalate
        ([d.headline false, blanks (toString place.line).length ++ "--> " ++ place.text,
          blanks ((toString place.line).length + 1) ++ "|", above, below] ++
          d.annotations false (toString place.line).length) ∧
      Underlines line (max place.column 1) count above below ∧
      Marks place line count := by
  obtain ⟨line, hline, hsourceLine⟩ := exists_sourceLine? hsource hfirst hlast
  obtain ⟨above, below, hsnippet, hunderlines⟩ := d.exists_snippet place line
  refine ⟨line, above, below, _, hline, ?_, hunderlines, marks_caretCount place line⟩
  simp only [render, hplace, hsourceLine, hsnippet, List.cons_append]

/-- A diagnostic about an item of a list, whose end is not known. -/
private def inList : Diagnostic where
  message := "unknown resource"
  location := some ⟨"main.tf", 2, 6, 0, 0⟩
  label := some "^ here"

/-- An item of a list is underlined where its token ends, although the label has a caret as well. -/
theorem render_underlines_inList :
    ∃ line above below count,
      (Text.splitAt '\n' "a = 1\nb = [web.ami, x]".toList)[1]? = some line ∧
      inList.render [("main.tf", "a = 1\nb = [web.ami, x]")] false = "\n".intercalate
        ["error: unknown resource", " --> main.tf:2:6", "  |", above, below] ∧
      Underlines line 6 count above below ∧
      Marks ⟨"main.tf", 2, 6, 0, 0⟩ line count :=
  @render_underlines [("main.tf", "a = 1\nb = [web.ami, x]")] ⟨"main.tf", 2, 6, 0, 0⟩
    "a = 1\nb = [web.ami, x]" inList rfl (by decide) (by decide) (by decide)

/-- A diagnostic about the first four characters of a line, from the column before them on. -/
private def fromColumnZero : Diagnostic where
  message := "unknown resource"
  location := some ⟨"main.tf", 1, 0, 1, 5⟩

/-- Four columns are left of the end of the span, and five are marked. -/
theorem overrun_fromColumnZero :
    fromColumnZero.render [("main.tf", "abcdefgh")] false = "\n".intercalate
      ["error: unknown resource", " --> main.tf:1:0", "  |", "1 | abcdefgh", "  | ^^^^^"] ∧
    ¬ ∃ count : Nat, (count : Int) = 5 - max 0 1 ∧
      Underlines "abcdefgh".toList (max 0 1) count "1 | abcdefgh" "  | ^^^^^" := by
  refine ⟨by decide, ?_⟩
  rintro ⟨count, hcount, h⟩
  have hfive : Underlines "abcdefgh".toList (max 0 1) 5 "1 | abcdefgh" "  | ^^^^^" :=
    ⟨"1 | ".toList, "  | ".toList, [], by decide, by decide, by decide, by decide, by decide,
      by decide⟩
  have hsame := (h.unique hfive).2
  omega

end Diagnostic

end Hil
