/-!
# Source locations

Places in configuration files. Lines and columns count from one in a well-formed location, but any
integer is kept as it was given. An end line or column of zero means that the end is not known.
-/

namespace Hil

/-- A place in a file, with the end of the span that starts there (`SourceLocation`). -/
structure Location where
  file : String
  line : Int
  column : Int
  endLine : Int
  endColumn : Int
  deriving DecidableEq, Repr

namespace Location

/-- The start of the span as `file:line:column`. -/
def text (l : Location) : String :=
  l.file ++ ":" ++ toString l.line ++ ":" ++ toString l.column

end Location

end Hil
