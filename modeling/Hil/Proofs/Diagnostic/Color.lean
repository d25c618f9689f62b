import Hil.Diagnostic.Text
import Hil.Proofs.Number.Reading
import Mathlib.Data.List.Forall2

/-!
# Color only adds escapes

An escape sequence is the escape character, a bracket, digits and semicolons, and the letter `m`.
What the colored form of a report has more than the plain one are such sequences: removing them
gives the plain form, as long as no text that the report shows holds the escape character itself.
What those texts hold else does not matter, be it digits, brackets or the letter `m`.
-/

namespace Hil

/-! ### Removing escape sequences -/

/-- The character that escape sequences begin with. -/
def escapeChar : Char := '\x1b'

/-- What stands between the bracket and the letter of an escape sequence. -/
def isParameter (c : Char) : Bool := c.isDigit || c == ';'

/-- The length of the escape sequence that a text begins with, or 0 if it begins with none. -/
def escapeLength : List Char → Nat
  | c :: '[' :: cs =>
    let parameters := cs.takeWhile isParameter
    if c = escapeChar ∧ (cs.drop parameters.length).head? = some 'm' then parameters.length + 3
    else 0
  | _ => 0

/-- A text after `skip` more characters, without the escape sequences. -/
def stripFrom : Nat → List Char → List Char
  | _, [] => []
  | skip + 1, _ :: cs => stripFrom skip cs
  | 0, c :: cs =>
    match escapeLength (c :: cs) with
    | 0 => c :: stripFrom 0 cs
    | rest + 1 => stripFrom rest cs

/-- A text without its escape sequences. -/
def stripEscapes (s : String) : String := String.ofList (stripFrom 0 s.toList)

private theorem stripFrom_append (cs ds : List Char) :
    stripFrom cs.length (cs ++ ds) = stripFrom 0 ds := by
  induction cs with
  | nil => rfl
  | cons c cs ih => rw [List.length_cons, List.cons_append, stripFrom, ih]

/-- A character that begins no escape sequence stays. -/
theorem stripFrom_cons {c : Char} (hc : c ≠ escapeChar) (cs : List Char) :
    stripFrom 0 (c :: cs) = c :: stripFrom 0 cs := by
  have hlength : escapeLength (c :: cs) = 0 := by
    rw [escapeLength.eq_def]
    split
    next heq =>
      cases heq
      exact if_neg fun h ↦ hc h.1
    next => rfl
  rw [stripFrom, hlength]

/-- An escape sequence goes, whatever follows it. -/
theorem stripFrom_escape {parameters : List Char} (h : ∀ c ∈ parameters, isParameter c = true)
    (cs : List Char) :
    stripFrom 0 (escapeChar :: '[' :: (parameters ++ 'm' :: cs)) = stripFrom 0 cs := by
  -- the letter is no parameter, so the longest run of parameters ends before it
  have hrun : (parameters ++ 'm' :: cs).takeWhile isParameter = parameters := by
    rw [List.takeWhile_append_of_pos h, List.takeWhile_cons_of_neg (by decide), List.append_nil]
  have hlength : escapeLength (escapeChar :: '[' :: (parameters ++ 'm' :: cs)) =
      parameters.length + 3 := by
    simp only [escapeLength, hrun]
    rw [List.drop_left, List.head?_cons, if_pos ⟨trivial, rfl⟩]
  have hskip := stripFrom_append ('[' :: (parameters ++ ['m'])) cs
  rw [stripFrom, hlength]
  simpa using hskip

example : stripEscapes "\x1b[1;31merror\x1b[0m: [1m \x1b[3" = "error: [1m \x1b[3" := by decide

/-! ### Texts and their colored forms -/

/-- A text without the escape character. -/
def Plain (s : String) : Prop := escapeChar ∉ s.toList

instance (s : String) : Decidable (Plain s) := inferInstanceAs (Decidable (¬ _))

/-- The one text is the other with escape sequences in it, whatever follows them. -/
def Strips (s t : String) : Prop :=
  ∀ rest, stripFrom 0 (s.toList ++ rest) = t.toList ++ stripFrom 0 rest

private theorem Plain.append {s t : String} (hs : Plain s) (ht : Plain t) : Plain (s ++ t) := by
  rw [Plain, String.toList_append, List.mem_append]
  exact fun h ↦ h.elim hs ht

private theorem plain_ofList {cs : List Char} : Plain (String.ofList cs) ↔ escapeChar ∉ cs := by
  rw [Plain, String.toList_ofList]

private theorem plain_replicate {c : Char} (hc : c ≠ escapeChar) (n : Nat) :
    Plain (String.ofList (List.replicate n c)) :=
  plain_ofList.mpr fun h ↦ hc (List.mem_replicate.mp h).2.symm

private theorem plain_blanks (n : Nat) : Plain (blanks n) := plain_replicate (by decide) n

/-- A number is written without the escape character. -/
theorem plain_toString (i : Int) : Plain (toString i) := by
  rw [Plain, Decimal.toList_toString, List.mem_append]
  rintro (h | h)
  · revert h
    cases decide (i < 0) <;> decide
  · exact absurd (Decimal.isDigit_of_mem_digitsOf h) (by decide)

private theorem plain_natToString (n : Nat) : Plain (toString n) := plain_toString n

namespace Strips

variable {s s' t t' : String}

private theorem stripEscapes_eq (h : Strips s t) : stripEscapes s = t := by
  have h := h []
  rw [List.append_nil, stripFrom, List.append_nil] at h
  rw [stripEscapes, h, String.ofList_toList]

/-- A text without the escape character is its own colored form. -/
theorem of_plain (h : Plain s) : Strips s s := by
  have hchars (cs : List Char) (hcs : escapeChar ∉ cs) (rest : List Char) :
      stripFrom 0 (cs ++ rest) = cs ++ stripFrom 0 rest := by
    induction cs with
    | nil => rfl
    | cons c cs ih =>
      obtain ⟨hc, hcs⟩ := not_or.mp (mt List.mem_cons.mpr hcs)
      rw [List.cons_append, stripFrom_cons (Ne.symm hc), ih hcs, List.cons_append]
  exact hchars s.toList h

/-- Texts are stripped one after the other. -/
protected theorem append (h : Strips s t) (h' : Strips s' t') : Strips (s ++ s') (t ++ t') := by
  intro rest
  rw [String.toList_append, String.toList_append, List.append_assoc, h, h', List.append_assoc]

/-- An escape sequence is nothing. -/
theorem escape {parameters : List Char} (h : parameters.all isParameter = true)
    (hs : s.toList = escapeChar :: '[' :: (parameters ++ ['m'])) : Strips s "" := by
  intro rest
  have hstrip := stripFrom_escape (List.all_eq_true.mp h) rest
  simpa [hs] using hstrip

private theorem style (style : Style) : Strips style.escape "" := by
  cases style with
  | bold => exact @escape _ ['1'] rfl (by decide)
  | red => exact @escape _ ['3', '1'] rfl (by decide)
  | blue => exact @escape _ ['3', '4'] rfl (by decide)
  | cyan => exact @escape _ ['3', '6'] rfl (by decide)

private theorem reset : Strips resetEscape "" := @escape _ ['0'] rfl (by decide)

/-- A text in styles is the text. -/
theorem styled (styles : List Style) (h : Plain s) :
    Strips (styled true styles s) (styled false styles s) := by
  have hjoin : Strips (String.join (styles.map Style.escape)) "" := by
    induction styles with
    | nil => exact of_plain (s := "") (by decide)
    | cons first styles ih =>
      rw [List.map_cons, String.join_cons]
      exact (style first).append ih
  cases styles with
  | nil => exact of_plain h
  | cons first styles => simpa [Hil.styled] using (hjoin.append (of_plain h)).append reset

/-- Texts with a separator between them lose their escape sequences one by one. -/
theorem intercalate {sep : String} (hsep : Plain sep) {ss ts : List String}
    (h : List.Forall₂ Strips ss ts) : Strips (sep.intercalate ss) (sep.intercalate ts) := by
  induction h with
  | nil => rw [String.intercalate_nil]; exact of_plain (by decide)
  | cons hfirst hrest ih =>
    cases hrest with
    | nil => simpa using hfirst
    | cons _ _ =>
      rw [String.intercalate_cons_cons, String.intercalate_cons_cons]
      exact (hfirst.append (of_plain hsep)).append ih

end Strips

/-! ### Diagnostics -/

/-- A place in a file whose name is plain is plain. -/
theorem Location.plain_text {place : Location} (h : Plain place.file) : Plain place.text :=
  (((h.append (by decide)).append (plain_toString _)).append (by decide)).append (plain_toString _)

/-- The lines of a plain source are plain. -/
theorem plain_of_sourceLine? {files : List (String × String)} {place : Location} {line : List Char}
    (hfiles : ∀ file ∈ files, Plain file.2) (h : sourceLine? files place = some line) :
    Plain (String.ofList line) := by
  rw [sourceLine?] at h
  split at h
  next source hsource =>
    obtain ⟨-, hline⟩ := Option.ite_none_right_eq_some.mp h
    have hmem (c : Char) (hc : c ∈ line) : c ∈ source.toList :=
      Text.mem_of_mem_splitAt (List.mem_of_getElem? hline) hc
    obtain ⟨before, after, hsplit, -⟩ := List.lookup_eq_some_iff.mp hsource
    have hfile : Plain source := hfiles (place.file, source) (by simp [hsplit])
    exact plain_ofList.mpr fun hc ↦ hfile (hmem _ hc)
  next => cases h

/-- What is made of an optional text is plain if the text and what is put around it are. -/
theorem plain_nonempty? {text : Option String} {f : String → String} (h : ∀ s ∈ text, Plain s)
    (hf : ∀ s, Plain s → Plain (f s)) :
    Plain (match nonempty? text with | some s => f s | none => "") := by
  split
  next s hs => exact hf s (h s (Option.eq_some_of_filter_eq_some hs))
  next => decide

/-- The line for an optional text, if there is one. -/
theorem strips_nonempty? {text : Option String} {f g : String → String}
    (h : ∀ s ∈ text, Strips (f s) (g s)) :
    List.Forall₂ Strips ((nonempty? text).map f).toList ((nonempty? text).map g).toList := by
  cases hs : nonempty? text with
  | none => exact .nil
  | some s => exact .cons (h s (Option.eq_some_of_filter_eq_some hs)) .nil

/-- A line above other lines, left out if there are none. -/
theorem strips_above {first first' : String} {lines lines' : List String}
    (hfirst : Strips first first') (h : List.Forall₂ Strips lines lines') :
    List.Forall₂ Strips (if lines.isEmpty then [] else first :: lines)
      (if lines'.isEmpty then [] else first' :: lines') := by
  cases h with
  | nil => exact .nil
  | cons hline hlines => exact .cons hfirst (.cons hline hlines)

namespace Diagnostic

/-- A diagnostic whose texts are without the escape character. -/
structure PlainTexts (d : Diagnostic) : Prop where
  message : Plain d.message
  file : ∀ place ∈ d.location, Plain place.file
  code : ∀ text ∈ d.code, Plain text
  help : ∀ text ∈ d.help, Plain text
  note : ∀ text ∈ d.note, Plain text
  label : ∀ text ∈ d.label, Plain text

variable {d : Diagnostic}

private theorem PlainTexts.strips_headline (h : d.PlainTexts) :
    Strips (d.headline true) (d.headline false) := by
  have hcode := plain_nonempty? h.code fun s (hs : Plain s) ↦
    show Plain ("[" ++ s ++ "]") from (Plain.append (by decide) hs).append (by decide)
  have herror : Plain "error" := by decide
  have hcolon : Plain ": " := by decide
  exact (Strips.styled [.bold, .red] (herror.append hcode)).append
    (Strips.styled [.bold] (hcolon.append h.message))

private theorem PlainTexts.strips_annotations (h : d.PlainTexts) (width : Nat) :
    List.Forall₂ Strips (d.annotations true width) (d.annotations false width) := by
  have hpad : Plain (blanks (width + 1)) := plain_blanks _
  -- the lines for help and note differ in their words only
  have hline {kind text : String} (hkind : Plain kind) (htext : Plain text) :
      Strips (styled true [.bold, .cyan] (blanks (width + 1) ++ "= ") ++
          styled true [.bold] (kind ++ ": ") ++ text)
        (styled false [.bold, .cyan] (blanks (width + 1) ++ "= ") ++
          styled false [.bold] (kind ++ ": ") ++ text) :=
    ((Strips.styled _ (hpad.append (by decide))).append
      (Strips.styled _ (hkind.append (by decide)))).append (.of_plain htext)
  exact strips_above (Strips.styled _ (hpad.append (by decide)))
    (List.rel_append (strips_nonempty? fun s hs ↦ hline (by decide) (h.help s hs))
      (strips_nonempty? fun s hs ↦ hline (by decide) (h.note s hs)))

private theorem PlainTexts.strips_snippet (h : d.PlainTexts) {place : Location}
    (hplace : place ∈ d.location) {line : List Char} (hline : Plain (String.ofList line)) :
    List.Forall₂ Strips (d.snippet true place line) (d.snippet false place line) := by
  have hnumber := plain_toString place.line
  have hlabel := plain_nonempty? h.label fun s (hs : Plain s) ↦
    show Plain (" " ++ s) from Plain.append (by decide) hs
  have hcarets : Plain (carets place line) :=
    (plain_blanks _).append (plain_replicate (by decide) _)
  have hgutter {width : Nat} := Strips.styled [.bold, .blue]
    (show Plain (blanks (width + 1) ++ "|") from (plain_blanks _).append (by decide))
  refine .cons ?arrow (.cons hgutter (.cons ?line (.cons ?carets .nil)))
  case arrow =>
    exact (Strips.styled _ ((plain_blanks _).append (by decide))).append
      (.of_plain (Location.plain_text (h.file place hplace)))
  case line => exact (Strips.styled _ (hnumber.append (by decide))).append (.of_plain hline)
  case carets =>
    exact (hgutter.append (.of_plain (by decide))).append (Strips.styled _ (hcarets.append hlabel))

private theorem PlainTexts.strips_render (h : d.PlainTexts) {files : List (String × String)}
    (hfiles : ∀ file ∈ files, Plain file.2) :
    Strips (d.render files true) (d.render files false) := by
  have harrow : Strips (styled true [.bold, .blue] " --> ") (styled false [.bold, .blue] " --> ") :=
    Strips.styled _ (by decide)
  refine Strips.intercalate (by decide) (.cons h.strips_headline ?_)
  cases hplace : d.location with
  | none => exact .cons (harrow.append (.of_plain (by decide))) (h.strips_annotations 1)
  | some place =>
    cases hline : sourceLine? files place with
    | none =>
      have htext := Location.plain_text (h.file place hplace)
      simpa only [hline] using
        List.Forall₂.cons (harrow.append (.of_plain htext)) (h.strips_annotations 1)
    | some line =>
      simpa only [hline] using List.rel_append
        (h.strips_snippet hplace (plain_of_sourceLine? hfiles hline)) (h.strips_annotations _)

end Diagnostic

/-! ### Reports -/

namespace Reporter

private theorem strips_summary (count : Nat) :
    Strips (summary true count) (summary false count) := by
  have haborting : Plain ": aborting due to " := by decide
  have hprevious : Plain " previous error" := by decide
  have hplural : Plain (if count = 1 then "" else "s") := by split <;> decide
  have htext := ((haborting.append (plain_natToString count)).append hprevious).append hplural
  exact (Strips.styled _ (by decide)).append (Strips.styled _ htext)

/-- Without its escape sequences, a colored report is the plain one, and so is each of its
diagnostics. -/
theorem stripEscapes_render (r : Reporter) (hfiles : ∀ file ∈ r.files, Plain file.2)
    (h : ∀ d ∈ r.diagnostics, d.PlainTexts) :
    stripEscapes (r.render true) = r.render false ∧
      ∀ d ∈ r.diagnostics, stripEscapes (d.render r.files true) = d.render r.files false := by
  refine ⟨?report, fun d hd ↦ ((h d hd).strips_render hfiles).stripEscapes_eq⟩
  have hparts : List.Forall₂ Strips (r.diagnostics.map (Diagnostic.render r.files true))
      (r.diagnostics.map (Diagnostic.render r.files false)) := by
    rw [List.forall₂_map_left_iff, List.forall₂_map_right_iff, List.forall₂_same]
    exact fun d hd ↦ (h d hd).strips_render hfiles
  have hsummary := strips_summary r.diagnostics.length
  exact (Strips.intercalate (by decide)
    (List.rel_append hparts (.cons hsummary .nil))).stripEscapes_eq

/-- A reporter whose texts look like parts of escape sequences. -/
private def bracketed : Reporter where
  files := [("[0m.tf", "a = [31m\n  b = [1;34m]")]
  diagnostics := [
    { message := "[1m", location := some ⟨"[0m.tf", 2, 7, 2, 13⟩, code := some "31m",
      help := some "m", note := some "0;1m", label := some "[36m" },
    { message := "1;2\nm", location := some ⟨"[0m.tf", 3, 1, 0, 0⟩, help := some "" },
    { message := "", location := some ⟨"m", 1, 1, 0, 0⟩, code := some "" },
    { message := "[", label := some "m" }]

/-- Texts that look like parts of escape sequences are kept when the escapes are stripped. -/
theorem stripEscapes_render_bracketed :
    stripEscapes (bracketed.render true) = bracketed.render false ∧
      ∀ d ∈ bracketed.diagnostics,
        stripEscapes (d.render bracketed.files true) = d.render bracketed.files false := by
  refine stripEscapes_render bracketed (by decide) fun d hd ↦ ?_
  simp only [bracketed, List.mem_cons, List.not_mem_nil, or_false] at hd
  rcases hd with rfl | rfl | rfl | rfl <;>
    exact ⟨by decide, by decide, by decide, by decide, by decide, by decide⟩

end Reporter

end Hil
