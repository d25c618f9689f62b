import Hil.Text.Split

/-!
# Segments of a reference

The text of a reference is a sequence of segments between dots. A segment is one token: a name, an
integer, `*` or `#`.
-/

namespace Hil

/-- The token classes that a segment can have. -/
inductive TokenClass where
  | name
  | int
  | splat
  | hash
  deriving DecidableEq, Repr

/-- The segments of a text. -/
def segmentsOf (text : String) : List String := (Text.splitAt '.' text.toList).map String.ofList

/-- The text of segments. -/
def joinDots (segments : List String) : String := ".".intercalate segments

/-- The characters that can begin a name. -/
def isNameStart (c : Char) : Bool := c.isAlpha || c == '_'

/-- The characters that can continue a name. -/
def isNameRest (c : Char) : Bool := c.isAlphanum || c == '_' || c == '-'

/-- The class and the length of the longest token at the start of a run. -/
def leadingToken? : List Char → Option (TokenClass × Nat)
  | [] => none
  | c :: cs =>
    if isNameStart c then some (.name, 1 + (cs.takeWhile isNameRest).length)
    else if c.isDigit then some (.int, 1 + (cs.takeWhile Char.isDigit).length)
    else if c = '*' then some (.splat, 1)
    else if c = '#' then some (.hash, 1)
    else none

/-- The class of a run that is one token. -/
def tokenClass? (run : List Char) : Option TokenClass :=
  match leadingToken? run with
  | some (cls, n) => if n = run.length then some cls else none
  | none => none

/-- Where a run stops being a token of an allowed class; `none` for such a token. -/
def tokenFault? (allowed : List TokenClass) (run : List Char) : Option Nat :=
  match leadingToken? run with
  | none => some 0
  | some (cls, n) =>
    if !allowed.contains cls then some 0
    else if n < run.length then some n
    else none

end Hil
