import Hil.Number.Binary64
import Hil.Text.Str

/-!
# Literal values

The values that literals of a configuration hold. Integers are unbounded and distinct from floating
point numbers. The entries of a dictionary keep their order and `Literal.dict` values built by
`ofEntries` have pairwise distinct keys, where keys count as equal by value: `1`, `1.0` and `true`
are one key.
-/

namespace Hil

/-- A literal value. `foreign` is an object of some other kind, known by its text only: plain and
quoted it is written as the text, it holds as a condition, it is equal to itself alone, and JSON
writes it as a string of the text. Empty tuples, empty byte strings and decimal zeros, which do not
hold as conditions, are no values of this type, nor is any other tuple, which JSON writes as an
array. -/
inductive Literal where
  | none
  | bool (value : Bool)
  | int (value : Int)
  | float (value : Binary64)
  | str (value : Str)
  | list (items : List Literal)
  | dict (entries : List (Literal × Literal))
  | foreign (text : String)
  deriving Inhabited

namespace Literal

/-- Whether a value holds as a condition: empty text and containers, zeros and `none` do not. -/
def isTruthy : Literal → Bool
  | .none => false
  | .bool b => b
  | .int i => i != 0
  | .float x => !x.isZero
  | .str s => !s.isEmpty
  | .list items => !items.isEmpty
  | .dict entries => !entries.isEmpty
  | .foreign _ => true

mutual

/-- Equality of kind and content: `1`, `1.0` and `true` differ, as do the two zeros, and entries
count in their order. -/
def same : Literal → Literal → Bool
  | .none, .none => true
  | .bool a, .bool b => a == b
  | .int a, .int b => a == b
  | .float a, .float b => a == b
  | .str a, .str b => a == b
  | .list a, .list b => sameItems a b
  | .dict a, .dict b => sameEntries a b
  | .foreign a, .foreign b => a == b
  | _, _ => false

/-- Pairwise equality of the items of two lists. -/
def sameItems : List Literal → List Literal → Bool
  | [], [] => true
  | a :: as, b :: bs => same a b && sameItems as bs
  | _, _ => false

/-- Pairwise equality of the entries of two dictionaries. -/
def sameEntries : List (Literal × Literal) → List (Literal × Literal) → Bool
  | [], [] => true
  | (k, a) :: as, (l, b) :: bs => same k l && same a b && sameEntries as bs
  | _, _ => false

end

/-- The integer that a number or a truth value stands for as a key. -/
def keyInt? : Literal → Option Int
  | .bool b => some (if b then 1 else 0)
  | .int i => some i
  | .float x => x.toInt?
  | _ => Option.none

/-- Equality as keys of a dictionary: numbers and truth values by value, text by content. A
not-a-number and a foreign value are equal to no other key. -/
def sameKey : Literal → Literal → Bool
  | .none, .none => true
  | .str a, .str b => a == b
  | .float a, .float b => a.sameValue b
  | a, b =>
    match a.keyInt?, b.keyInt? with
    | some m, some n => m == n
    | _, _ => false

/-- Adds an entry: a key that is already there keeps its place and takes the new value. -/
def insertEntry {α : Type} (entries : List (Literal × α)) (key : Literal) (value : α) :
    List (Literal × α) :=
  if entries.any fun entry => entry.1.sameKey key then
    entries.map fun entry => if entry.1.sameKey key then (entry.1, value) else entry
  else entries ++ [(key, value)]

/-- The entries with later ones replacing earlier ones of the same key. -/
def distinctEntries {α : Type} (entries : List (Literal × α)) : List (Literal × α) :=
  entries.foldl (fun acc entry => insertEntry acc entry.1 entry.2) []

/-- The dictionary of the given entries. -/
def ofEntries (entries : List (Literal × Literal)) : Literal := .dict (distinctEntries entries)

end Literal

end Hil
