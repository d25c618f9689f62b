import Hil.Binding.Fault

/-!
# Resolving references

A reference that names an entity is resolved against the tables of a graph, and gets a type. Of a
resource, the accessed path is followed through its schema. Count indices stand for no entity, and
the other kinds of reference have no meaning yet.
-/

namespace Hil

namespace Reference

/-- The path of attributes that a field spells. -/
def pathOf (field : String) : List String := segmentsOf field

/-- Resolves a resource reference: the resource gets its provider, and the field is followed through
its schema (`PropertyBinder._bind_resource_variable`). A splat is a list of the values of all
instances. -/
def resolveResource (place : Option Location) (reference : Reference) (name : ResourceName)
    (selection : Selection) (field : String) : Bind (Ty × Access) := do
  let g ← get
  match g.attachProvider name.id with
  | .error none => Bind.fail place (.unknownEntity .resource name.id)
  | .error (some r) => Bind.fail place (.unknownProvider r.providerKey r.name.id)
  | .ok (g, r) =>
    set g
    let schema := r.schema.getD .undeclared
    let path := pathOf field
    let type := (schema.follow path).type.outputOf
    let type := if selection = .splat then type.listOf else type
    return (type, ⟨path, schema, reference, g.ref? .resource name.id⟩)

/-- Resolves a reference to the entry that it stands for, and gives it a type
(`PropertyBinder.visit_variable_access`). -/
def resolve (hasCount : Bool) (place : Option Location) (reference : Reference) :
    Bind (Ty × Access) := do
  let g ← get
  let access (entry : Option EntryRef) : Access := ⟨[], .plain Ty.unknown, reference, entry⟩
  let entry (kind : EntryKind) (name : String) (type : Ty) : Bind (Ty × Access) :=
    match g.ref? kind name with
    | some ref => pure (type, access (some ref))
    | none => Bind.fail place (.unknownEntity kind name)
  match reference.target with
  | .count isIndex =>
    if !isIndex then Bind.fail place (.countField reference.text)
    else if !hasCount then Bind.fail place .noCountScope
    else return (Ty.number, access none)
  | .local name => entry .local name Ty.unknown.outputOf
  | .module name _ => entry .module name Ty.unknown.outputOf
  | .path _ => Bind.fail place (.notYet "path variables")
  | .self _ => Bind.fail place (.notYet "self variables")
  | .simple => Bind.fail place (.notYet "simple variables")
  | .terraform _ => Bind.fail place (.notYet "terraform variables")
  | .user name element =>
    if !element.isEmpty then Bind.fail place (.notYet "user variable elements")
    else
      let type := ((g.inputs.find? name).map (·.entity.type)).getD Ty.unknown
      entry .variable name type
  | .resource name selection field =>
    resolveResource place reference name selection field

end Reference

end Hil
