import Hil.Literal
import Hil.Number.Shortest
import Hil.Text.Json
import Hil.Text.Quoted

/-!
# Texts of literal values

The three written forms of a value: `display` shows its kind (text is quoted), `text` shows text as
it is, and `json` is the JSON form. `interpolated` is what a value contributes to an interpolated
string.
-/

namespace Hil.Literal

mutual

/-- The value with its kind recognisable: text in quotes, containers in brackets. -/
def display : Literal → String
  | .none => "None"
  | .bool b => if b then "True" else "False"
  | .int i => toString i
  | .float x => FloatFormat.literal.write x
  | .str s => Text.quoted s
  | .list items => "[" ++ ", ".intercalate (displayItems items) ++ "]"
  | .dict entries => "\x7b" ++ ", ".intercalate (displayEntries entries) ++ "\x7d"
  | .foreign text => text

/-- The displayed items of a list. -/
def displayItems : List Literal → List String
  | [] => []
  | item :: items => display item :: displayItems items

/-- The displayed entries of a dictionary. -/
def displayEntries : List (Literal × Literal) → List String
  | [] => []
  | (key, value) :: entries => (display key ++ ": " ++ display value) :: displayEntries entries

end

/-- The value as text: text itself, anything else as displayed. -/
def text : Literal → Str
  | .str s => s
  | value => value.display

/-- The value as the key of a JSON object, which is always a string. Containers and foreign values
cannot be keys. -/
def jsonKey? : Literal → Option String
  | .none => some (Text.jsonString "null")
  | .bool b => some (Text.jsonString (if b then "true" else "false"))
  | .int i => some (Text.jsonString (toString i))
  | .float x => some (Text.jsonString (FloatFormat.json.write x))
  | .str s => some (Text.jsonString s)
  | .list _ | .dict _ | .foreign _ => Option.none

mutual

/-- The value as JSON in ASCII, with a blank after each comma and colon. It has no such form when
some dictionary in it has a key that JSON has none for. -/
def json? : Literal → Option String
  | .none => some "null"
  | .bool b => some (if b then "true" else "false")
  | .int i => some (toString i)
  | .float x => some (FloatFormat.json.write x)
  | .str s => some (Text.jsonString s)
  | .list items => do return "[" ++ ", ".intercalate (← jsonItems? items) ++ "]"
  | .dict entries => do return "\x7b" ++ ", ".intercalate (← jsonEntries? entries) ++ "\x7d"
  | .foreign text => some (Text.jsonString text)

/-- The items of a JSON array. -/
def jsonItems? : List Literal → Option (List String)
  | [] => some []
  | item :: items => do return (← json? item) :: (← jsonItems? items)

/-- The members of a JSON object. -/
def jsonEntries? : List (Literal × Literal) → Option (List String)
  | [] => some []
  | (key, value) :: entries => do
    return ((← jsonKey? key) ++ ": " ++ (← json? value)) :: (← jsonEntries? entries)

end

/-- What the value contributes to an interpolated string (`_format_literal`): truth values in lower
case and whole floating point numbers without a fraction. -/
def interpolated : Literal → Str
  | .bool b => if b then "true" else "false"
  | .float x =>
    match x.toInt? with
    | some n => toString n
    | Option.none => FloatFormat.literal.write x
  | value => value.text

end Hil.Literal
