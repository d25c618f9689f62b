import Hil.Text.Hex
import Hil.Text.Printable
import Hil.Text.Str

/-!
# Quoted text

Text between single quotes, or between double quotes when it holds a single quote and no double
one. Backslashes, the quote in use, unprintable characters and surrogates are escaped, the last two
with the narrowest of the forms `\xNN`, `\uNNNN` and `\UNNNNNNNN`.
-/

namespace Hil.Text

/-- The quote around a text. -/
def quoteFor (points : List Point) : Char :=
  if points.contains (.char '\'') && !points.contains (.char '"') then '"' else '\''

/-- One character of quoted text. -/
def quotedChar (quote c : Char) : List Char :=
  if c == quote || c == '\\' then ['\\', c]
  else if c == '\n' then ['\\', 'n']
  else if c == '\r' then ['\\', 'r']
  else if c == '\t' then ['\\', 't']
  else if isPrintable c then [c]
  else
    let n := c.toNat
    if n < 0x100 then '\\' :: 'x' :: hexDigits 2 n
    else if n < 0x10000 then '\\' :: 'u' :: hexDigits 4 n
    else '\\' :: 'U' :: hexDigits 8 n

/-- One code point of quoted text. -/
def quotedPoint (quote : Char) : Point → List Char
  | .char c => quotedChar quote c
  | .surrogate offset => unitEscape (0xd800 + offset)

/-- A text in quotes. -/
def quoted (text : Str) : String :=
  let quote := quoteFor text.points
  String.ofList (quote :: text.points.flatMap (quotedPoint quote) ++ [quote])

/-- One code point of a text in a message. -/
def shownPoint : Point → List Char
  | .char c => [c]
  | .surrogate offset => unitEscape (0xd800 + offset)

/-- A text in a message, as the message is printed: a surrogate, which cannot be printed, is escaped
as in quoted text. -/
def shown (text : Str) : String := String.ofList (text.points.flatMap shownPoint)

/-- Characters are shown as they are. -/
@[simp] theorem shown_ofString (s : String) : shown s = s := by
  have hpoints (cs : List Char) : (cs.map Point.char).flatMap shownPoint = cs := by
    induction cs with
    | nil => rfl
    | cons c cs ih => rw [List.map_cons, List.flatMap_cons, ih]; rfl
  rw [shown, Str.ofString, hpoints, String.ofList_toList]

end Hil.Text
