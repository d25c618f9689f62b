import Hil.Location

/-!
# Problems

A problem is an error in a configuration, as its author is told about it: a category with a fixed
code, a message, and optionally a place, a hint and a note.
-/

namespace Hil

/-- What is wrong with a construct (the classes below `FirewalkerSourceError`). -/
inductive Category where
  /-- Unspecified. -/
  | general
  /-- Recognised but not supported. -/
  | unsupported
  /-- A name that stands for nothing. -/
  | unresolved
  /-- A construct that does not have the required form. -/
  | malformed
  /-- A count index outside of a count scope. -/
  | scope
  deriving DecidableEq, Repr, Inhabited

/-- The code under which problems of a category are reported (`error_code`). -/
def Category.code : Category → String
  | general => "E0001"
  | unsupported => "E0658"
  | unresolved => "E0425"
  | malformed => "E0001"
  | scope => "E0434"

/-- An error in a configuration (`FirewalkerSourceError`). -/
structure Problem where
  category : Category
  message : String
  location : Option Location := none
  help : Option String := none
  note : Option String := none
  deriving DecidableEq, Repr

/-- A message followed by its place in parentheses, if it has one. -/
def placedMessage (message : String) : Option Location → String
  | some place => message ++ " (" ++ place.text ++ ")"
  | none => message

namespace Problem

/-- The problem on one line. -/
def text (p : Problem) : String := placedMessage p.message p.location

end Problem

end Hil
