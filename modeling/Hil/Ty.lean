/-!
# Types

A type is a primitive kind with two flags, one for lists and one for values that a resource or
module produces later. Both flags are set, never nested, so the two wrappers are idempotent and
commute.
-/

namespace Hil

/-- The primitive kinds. -/
inductive Kind where
  | unknown
  | bool
  | number
  | string
  | map
  deriving DecidableEq, Repr, Inhabited

namespace Kind

/-- Every kind. -/
def all : List Kind := [.unknown, .bool, .number, .string, .map]

/-- The name of a kind. -/
def name : Kind → String
  | unknown => "unknown"
  | bool => "bool"
  | number => "number"
  | string => "string"
  | map => "map"

/-- The kind of a name. -/
def ofName? (name : String) : Option Kind := all.find? (·.name == name)

end Kind

/-- The type of an expression (`Type`). -/
structure Ty where
  kind : Kind
  isList : Bool
  isOutput : Bool
  deriving DecidableEq, Repr, Inhabited

namespace Ty

/-- The type of a single value of the kind. -/
def ofKind (kind : Kind) : Ty := ⟨kind, false, false⟩

/-- The type of expressions that nothing more is known of. -/
def unknown : Ty := ofKind .unknown

/-- The type of truth values. -/
def bool : Ty := ofKind .bool

/-- The type of integers and floating point numbers. -/
def number : Ty := ofKind .number

/-- The type of texts. -/
def string : Ty := ofKind .string

/-- The type of maps and of objects. -/
def map : Ty := ofKind .map

/-- The type of lists of the type; a list type is its own (`Type.list_of`). -/
def listOf (t : Ty) : Ty := { t with isList := true }

/-- The type of the value produced later; an output type is its own (`Type.output_of`). -/
def outputOf (t : Ty) : Ty := { t with isOutput := true }

/-- The type of the elements of a list type, which keeps its output flag (`Type.element_type`).
Other types have no elements, and theirs is unknown. -/
def elementType (t : Ty) : Ty := if t.isList then { t with isList := false } else unknown

/-- The written form: the kind, inside `list<…>` and then inside `output<…>` as flagged. -/
def text (t : Ty) : String :=
  let element := t.kind.name
  let value := if t.isList then "list<" ++ element ++ ">" else element
  if t.isOutput then "output<" ++ value ++ ">" else value

/-- Every type. -/
def all : List Ty :=
  Kind.all.flatMap fun kind =>
    [⟨kind, false, false⟩, ⟨kind, true, false⟩, ⟨kind, false, true⟩, ⟨kind, true, true⟩]

/-- The type of a written form. -/
def ofText? (text : String) : Option Ty := all.find? (·.text == text)

/-- The list flag does not nest. -/
@[simp] theorem listOf_listOf (t : Ty) : t.listOf.listOf = t.listOf := rfl

/-- The output flag does not nest. -/
@[simp] theorem outputOf_outputOf (t : Ty) : t.outputOf.outputOf = t.outputOf := rfl

/-- The order of the two wrappers does not matter. -/
theorem outputOf_listOf (t : Ty) : t.listOf.outputOf = t.outputOf.listOf := rfl

/-- Taking the elements of a list undoes making the list. -/
theorem elementType_listOf (t : Ty) (h : t.isList = false) : t.listOf.elementType = t := by
  cases t
  cases h
  rfl

end Ty

end Hil
