/-!
# Texts of values

The texts that values, keys and references hold are sequences of code points. A surrogate is a code
point that is no character and that can stand on its own, also where two of them in a row are what
UTF-16 writes for one character. All other texts of the library (names, messages, what is written)
hold characters only, and are texts of this kind by the coercion.
-/

namespace Hil

/-- A code point: a character, or a surrogate by its distance from U+D800. -/
inductive Point where
  | char (c : Char)
  | surrogate (offset : Fin 0x800)
  deriving DecidableEq, Repr

namespace Point

/-- The character that a code point is, if it is one. -/
def char? : Point → Option Char
  | char c => some c
  | surrogate _ => none

/-- The code units of UTF-16 that a code point is written as. A character above U+FFFF takes a high
and a low surrogate; a surrogate is its own unit. -/
def units : Point → List Nat
  | char c =>
    let n := c.toNat
    if n < 0x10000 then [n]
    else [0xd800 + (n - 0x10000) / 0x400, 0xdc00 + (n - 0x10000) % 0x400]
  | surrogate offset => [0xd800 + offset]

end Point

/-- A text. -/
structure Str where
  points : List Point
  deriving DecidableEq, Repr, Inhabited

namespace Str

/-- The text of characters. -/
def ofString (s : String) : Str := ⟨s.toList.map .char⟩

instance : Coe String Str := ⟨ofString⟩

/-- Different texts are different sequences of code points. -/
@[simp] theorem ofString_inj {s s' : String} : ofString s = ofString s' ↔ s = s' := by
  rw [ofString, ofString, Str.mk.injEq, List.map_inj_right fun _ _ => Point.char.inj,
    String.toList_inj]

/-- Comparing texts as sequences of code points is comparing them. -/
@[simp] theorem ofString_beq (s s' : String) : (ofString s == ofString s') = (s == s') := by
  rw [Bool.eq_iff_iff, beq_iff_eq, beq_iff_eq, ofString_inj]

/-- The characters of a text; a text with a surrogate in it has none. -/
def toString? (s : Str) : Option String := (s.points.mapM Point.char?).map String.ofList

/-- Whether a text has no code points. -/
def isEmpty (s : Str) : Bool := s.points.isEmpty

/-- Texts one after the other. Surrogates that meet stay what they are. -/
def join (texts : List Str) : Str := ⟨texts.flatMap points⟩

/-- The code units of UTF-16 that a text is written as. -/
def units (s : Str) : List Nat := s.points.flatMap Point.units

end Str

end Hil
