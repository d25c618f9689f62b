import Hil.Diagnostic
import Hil.Text.Split

/-!
# Rendered diagnostics

A diagnostic whose place is in a known file shows the source line with carets below the span:

    error[E0425]: unknown resource aws_instance.web
      --> main.tf:12:14
       |
    12 |   ami = "${aws_instance.web.ami}"
       |              ^^^^^^^^^^^^^^^^^^^^

Any other shows the place alone. Help and note follow below. Color only adds escape sequences around
parts of the text.
-/

namespace Hil

/-- The styles of the parts of a diagnostic. -/
inductive Style where
  | bold
  | red
  | blue
  | cyan
  deriving DecidableEq, Repr

/-- The escape sequence that starts a style. -/
def Style.escape : Style → String
  | bold => "\x1b[1m"
  | red => "\x1b[31m"
  | blue => "\x1b[34m"
  | cyan => "\x1b[36m"

/-- The escape sequence that ends all styles. -/
def resetEscape : String := "\x1b[0m"

/-- A text in the given styles (`_style`). -/
def styled (color : Bool) (styles : List Style) (text : String) : String :=
  if color && !styles.isEmpty then String.join (styles.map Style.escape) ++ text ++ resetEscape
  else text

/-- The words that refuse color. -/
def refusals : List String := ["0", "false", "no", "never"]

/-- Whether diagnostics are shown in color: not if a nonempty text is set against it, nor if the
explicit choice is one of the words for no (`_use_color`). -/
def colorByChoice (against choice : Option String) : Bool :=
  let refused := match against with
    | some text => !text.isEmpty
    | none => false
  let word := String.ofList ((choice.getD "").toList.map Char.toLower)
  !refused && !refusals.contains word

/-- A run of blanks. -/
def blanks (n : Nat) : String := String.ofList (List.replicate n ' ')

/-- The characters that end the span of an expression whose end is not known. -/
def spanDelimiters : List Char := [' ', '\t', '}', ',', ')', ']', '"']

/-- The length of the run of characters from an offset of a line up to a delimiter, at least one
(`_guess_span`). -/
def tokenLength (line : List Char) (start : Nat) : Nat :=
  max 1 ((line.drop start).takeWhile fun c => !spanDelimiters.contains c).length

/-- The number of characters before the first caret. -/
def caretStart (place : Location) : Nat := (max place.column 1 - 1).toNat

/-- The number of carets below a line: up to the end of the span if it is known and on the line. -/
def caretCount (place : Location) (line : List Char) : Nat :=
  if (place.endLine = 0 ∨ place.endLine = place.line) ∧ place.column < place.endColumn then
    max 1 (place.endColumn - place.column).toNat
  else tokenLength line (caretStart place)

/-- The carets below a line, in their column. -/
def carets (place : Location) (line : List Char) : String :=
  blanks (caretStart place) ++ String.ofList (List.replicate (caretCount place line) '^')

/-- The line of a file that a place is on, if there is one. -/
def sourceLine? (files : List (String × String)) (place : Location) : Option (List Char) :=
  match files.lookup place.file with
  | some source =>
    if 0 < place.line then (Text.splitAt '\n' source.toList)[place.line.toNat - 1]? else none
  | none => none

/-- A text that is there and not empty. -/
def nonempty? (text : Option String) : Option String :=
  text.filter fun text => !text.isEmpty

namespace Diagnostic

/-- The lines for help and note, below a gutter of the width of a line number
(`_append_annotations`). -/
def annotations (color : Bool) (d : Diagnostic) (width : Nat) : List String :=
  let pad := blanks (width + 1)
  let line (kind text : String) : String :=
    styled color [.bold, .cyan] (pad ++ "= ") ++ styled color [.bold] (kind ++ ": ") ++ text
  let lines := ((nonempty? d.help).map (line "help")).toList ++
    ((nonempty? d.note).map (line "note")).toList
  if lines.isEmpty then [] else styled color [.bold, .blue] (pad ++ "|") :: lines

/-- The first line. -/
def headline (color : Bool) (d : Diagnostic) : String :=
  let code := match nonempty? d.code with
    | some code => "[" ++ code ++ "]"
    | none => ""
  styled color [.bold, .red] ("error" ++ code) ++ styled color [.bold] (": " ++ d.message)

/-- The source line of a place with its carets. -/
def snippet (color : Bool) (d : Diagnostic) (place : Location) (line : List Char) : List String :=
  let number := toString place.line
  let width := number.length
  let gutter := styled color [.bold, .blue] (blanks (width + 1) ++ "|")
  let label := match nonempty? d.label with
    | some label => " " ++ label
    | none => ""
  [styled color [.bold, .blue] (blanks width ++ "--> ") ++ place.text,
    gutter,
    styled color [.bold, .blue] (number ++ " | ") ++ String.ofList line,
    gutter ++ " " ++ styled color [.bold, .red] (carets place line ++ label)]

/-- The rendered diagnostic (`_format_diagnostic`). -/
def render (files : List (String × String)) (color : Bool) (d : Diagnostic) : String :=
  let arrow := styled color [.bold, .blue] " --> "
  let body := match d.location with
    | none => (arrow ++ "<unknown location>") :: d.annotations color 1
    | some place =>
      match sourceLine? files place with
      | none => (arrow ++ place.text) :: d.annotations color 1
      | some line => d.snippet color place line ++ d.annotations color (toString place.line).length
  "\n".intercalate (d.headline color :: body)

end Diagnostic

namespace Reporter

/-- The line that ends a report. -/
def summary (color : Bool) (count : Nat) : String :=
  let plural := if count = 1 then "" else "s"
  styled color [.bold, .red] "error" ++
    styled color [.bold]
      (": aborting due to " ++ toString count ++ " previous error" ++ plural)

/-- Every diagnostic and the summary, with a blank line between any two
(`ErrorReporter.format_all_errors`). -/
def render (color : Bool) (r : Reporter) : String :=
  "\n\n".intercalate
    (r.diagnostics.map (Diagnostic.render r.files color) ++ [summary color r.diagnostics.length])

/-- What is printed of a reporter: nothing unless there are errors
(`ErrorReporter.print_errors`). -/
def printed (color : Bool) (r : Reporter) : String :=
  if r.hasErrors then r.render color ++ "\n" else ""

end Reporter

end Hil
