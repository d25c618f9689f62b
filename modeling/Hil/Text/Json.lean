import Hil.Text.Hex
import Hil.Text.Str

/-!
# JSON strings

A JSON string in ASCII alone: controls, the delete character and everything above ASCII are written
as escapes of their UTF-16 code units, so that a character above U+FFFF is written as its two
surrogates are. A slash stands for itself.
-/

namespace Hil.Text

/-- One code unit of a JSON string. -/
def jsonUnit (n : Nat) : List Char :=
  if n = '"'.toNat then ['\\', '"']
  else if n = '\\'.toNat then ['\\', '\\']
  else if n = '\n'.toNat then ['\\', 'n']
  else if n = '\r'.toNat then ['\\', 'r']
  else if n = '\t'.toNat then ['\\', 't']
  else if n = 0x08 then ['\\', 'b']
  else if n = 0x0c then ['\\', 'f']
  else if 0x20 ≤ n ∧ n < 0x7f then [Char.ofNat n]
  else unitEscape n

/-- A text as a JSON string. -/
def jsonString (text : Str) : String :=
  String.ofList ('"' :: text.units.flatMap jsonUnit ++ ['"'])

end Hil.Text
