import Hil.Literal.Text
import Hil.Problem
import Hil.Text.Digit
import Hil.Ty

/-!
# Resource schemas

A schema describes one level of the properties of a resource. Property paths are resolved one
segment at a time, and a name that is not declared resolves to `Schema.undeclared`, so a walk never
fails. Schemas are loaded from specifications, as providers publish them.
-/

namespace Hil

/-- A schema (`Schemas`), as specifications are loaded to. `undeclared` is the one schema of
everything that has none (`UNKNOWN_SCHEMAS`); a specification that says nothing loads to
`plain Ty.unknown`, which describes the same and is a schema of its own. No specification declares
properties together with a type other than that of maps, or a list with properties or a type beside
those of its elements, and there are no such schemas here. -/
inductive Schema where
  | undeclared
  | plain (type : Ty)
  | object (properties : List (String × Schema))
  | list (element : Schema)
  deriving Inhabited

namespace Schema

/-- The declared type (`Schemas.declared_type`). Lists declare none: theirs follows from the
element. -/
def declared : Schema → Ty
  | undeclared => Ty.unknown
  | plain type => type
  | object _ => Ty.map
  | list _ => Ty.unknown

/-- The type of the values that the schema describes (`Schemas.type`). -/
def type : Schema → Ty
  | list element => element.type.listOf
  | schema => schema.declared

/-- The declared properties. -/
def properties : Schema → List (String × Schema)
  | object properties => properties
  | _ => []

/-- The element of a list schema. -/
def element? : Schema → Option Schema
  | list element => some element
  | _ => none

/-- The schema of the elements, undeclared for anything but a list (`Schemas.element_schemas`). -/
def elements (s : Schema) : Schema := s.element?.getD undeclared

/-- The schema of a named property in a table. -/
def declaredProperty (properties : List (String × Schema)) (name : String) : Schema :=
  (properties.lookup name).getD undeclared

/-- The schema that one segment of a path leads to (`Schemas.property_schemas`). Below a list, a
numeral or `*` selects the element, `#` is the length, and any other name goes through the
properties of the element. -/
def property (s : Schema) (name : String) : Schema :=
  if name.isEmpty then undeclared
  else match s with
    | list element =>
      if name = "#" then plain Ty.number
      else if Text.isNumeral name || name == "*" then element
      else declaredProperty element.properties name
    | s => declaredProperty s.properties name

/-- The schema at the end of a path. -/
def follow (s : Schema) (path : List String) : Schema := path.foldl property s

/-- Whether this is the schema of everything that has none, rather than one that describes the
same. -/
def isUndeclared : Schema → Bool
  | undeclared => true
  | _ => false

end Schema

/-- A schema specification. `kind` is `none` when the specification gives no type, and `properties`
is `none` when it has no property table; a table may be left empty by giving `none` for it. -/
inductive Spec where
  | mk (kind : Option Literal) (properties : Option (List (String × Spec))) (element : Option Spec)
  deriving Inhabited

namespace Spec

/-- The primitive types under their names in a specification (`_PRIMITIVE_TYPES`). -/
def primitives : List (Str × Ty) :=
  [("bool", Ty.bool), ("number", Ty.number), ("int", Ty.number), ("float", Ty.number),
    ("string", Ty.string), ("map", Ty.map)]

/-- Why a specification cannot be loaded. Only an unknown kind is told as a problem of the
configuration; the other two are errors of the loader. -/
inductive Fault where
  /-- A type that no specification may name. -/
  | unknownKind (kind : Literal)
  /-- A type that is not even looked up among the known ones, since it cannot be a key. -/
  | unhashableKind (kind : Literal)
  /-- A property under the name of the parameter that stands before the properties. -/
  | reservedName
  deriving Inhabited

namespace Fault

/-- The fault of a type that is none of the known ones. -/
def ofKind : Literal → Fault
  | kind@(.list _) | kind@(.dict _) => unhashableKind kind
  | kind => unknownKind kind

/-- The problem that a fault is told as, if it is told as one. -/
def problem? : Fault → Option Problem
  | unknownKind kind =>
    some { category := .malformed, message := "unknown schema type " ++ kind.display }
  | unhashableKind _ | reservedName => none

end Fault

/-- The name that no property can be passed under. -/
def reserved : String := "cls"

/-- The schema of an object, whose properties are passed by name (`Schemas.object_of`). -/
def objectOf (properties : List (String × Schema)) : Except Fault Schema :=
  if properties.any (·.1 == reserved) then .error .reservedName else .ok (.object properties)

mutual

/-- Loads a specification (`Schemas.from_json`). Without a type, a specification that has a property
table describes an object and any other describes nothing. Only the parts that belong to the type
are loaded, and an object after all its properties. -/
def load : Spec → Except Fault Schema
  | .mk none (some properties) _ => loadProperties properties >>= objectOf
  | .mk none none _ => .ok (.plain Ty.unknown)
  | .mk (some (.str kind)) properties element =>
    if kind = "list" ∨ kind = "set" then
      match element with
      | some element => Schema.list <$> load element
      | none => .ok (.list .undeclared)
    else if kind = "object" then
      match properties with
      | some properties => loadProperties properties >>= objectOf
      | none => objectOf []
    else if kind = Kind.unknown.name then .ok (.plain Ty.unknown)
    else match primitives.lookup kind with
      | some type => .ok (.plain type)
      | none => .error (.ofKind (.str kind))
  | .mk (some kind) _ _ => .error (.ofKind kind)

/-- Loads the properties of an object in order, up to the first that cannot be loaded. -/
def loadProperties : List (String × Spec) → Except Fault (List (String × Schema))
  | [] => .ok []
  | (name, spec) :: rest => do
    let schema ← load spec
    return (name, schema) :: (← loadProperties rest)

end

end Spec

end Hil
