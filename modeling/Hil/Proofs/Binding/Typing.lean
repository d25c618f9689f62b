import Hil.Proofs.Binding.Nodes

/-!
# Types of bound trees

The rules by which a node of a bound tree has a type, stated of the node and of the types of its
children. Types of references are those of the graph as it was before binding. Every tree that
binding returns is typed by the rules at each of its nodes.
-/

namespace Hil

/-- The schema of a resource: its own, or else that of its type with its provider. A resource
without a provider of its own has the one that its key leads to. -/
inductive SchemaOf (g : Graph) (r : Resource) : Schema → Prop
  | declared {schema : Schema} (own : r.schema = some schema) : SchemaOf g r schema
  | attached {p : Provider} (undeclared : r.schema = none) (own : r.provider = some p) :
      SchemaOf g r (p.schemaFor r.name.type)
  | found {slot : Registered Provider} (undeclared : r.schema = none)
      (unattached : r.provider = none) (key : g.providers.find? r.providerKey = some slot) :
      SchemaOf g r (slot.entity.schemaFor r.name.type)

/-- An expression has a type, in a count scope or outside of one. -/
inductive HasTy (hasCount : Bool) (g : Graph) (info : NodeInfo) : Shape Tree → Ty → Prop
  | arithmetic {type : Option Annotation} {exprs : List Tree} :
      HasTy hasCount g info (.arithmetic type exprs) Ty.unknown
  | output {type : Option Annotation} {exprs : List Tree} :
      HasTy hasCount g info (.output type exprs) Ty.string
  /-- A literal has the type of its tag, or of its value when no expression stands for it. -/
  | taggedBool {place : Option Location} {value : Literal} {type : Option Annotation}
      (origin : info.origin = some (.literal place value .bool)) :
      HasTy hasCount g info (.literal type value) Ty.bool
  | taggedInt {place : Option Location} {value : Literal} {type : Option Annotation}
      (origin : info.origin = some (.literal place value .int)) :
      HasTy hasCount g info (.literal type value) Ty.number
  | taggedFloat {place : Option Location} {value : Literal} {type : Option Annotation}
      (origin : info.origin = some (.literal place value .float)) :
      HasTy hasCount g info (.literal type value) Ty.number
  | taggedString {place : Option Location} {value : Literal} {type : Option Annotation}
      (origin : info.origin = some (.literal place value .string)) :
      HasTy hasCount g info (.literal type value) Ty.string
  | bool {b : Bool} {type : Option Annotation} (plain : info.origin = none) :
      HasTy hasCount g info (.literal type (.bool b)) Ty.bool
  | int {i : Int} {type : Option Annotation} (plain : info.origin = none) :
      HasTy hasCount g info (.literal type (.int i)) Ty.number
  | float {x : Binary64} {type : Option Annotation} (plain : info.origin = none) :
      HasTy hasCount g info (.literal type (.float x)) Ty.number
  | str {s : Str} {type : Option Annotation} (plain : info.origin = none) :
      HasTy hasCount g info (.literal type (.str s)) Ty.string
  /-- A call has the type that its function gives. -/
  | stringCall {func : String} {type : Option Annotation} {args : List Tree}
      (named : func ∈ ["base64decode", "base64encode", "chomp", "file", "format"]) :
      HasTy hasCount g info (.call func type args) Ty.string
  | listCall {func : String} {type : Option Annotation} {args : List Tree}
      (named : func = "list") : HasTy hasCount g info (.call func type args) Ty.unknown.listOf
  | splitCall {func : String} {type : Option Annotation} {args : List Tree}
      (named : func = "split") : HasTy hasCount g info (.call func type args) Ty.string.listOf
  | lookupCall {func : String} {type : Option Annotation} {args : List Tree}
      (named : func = "lookup") : HasTy hasCount g info (.call func type args) Ty.unknown
  | mapCall {func : String} {type : Option Annotation} {args : List Tree}
      (named : func = "map") (even : args.length % 2 = 0) :
      HasTy hasCount g info (.call func type args) Ty.map
  /-- An element has the type of the list without being one, and keeps the output flag. -/
  | elementOfList {func : String} {type : Option Annotation} {arg : Tree} {args : List Tree}
      (named : func = "element") (list : arg.type.isList = true) :
      HasTy hasCount g info (.call func type (arg :: args)) { arg.type with isList := false }
  | elementOfOther {func : String} {type : Option Annotation} {args : List Tree}
      (named : func = "element") (other : ∀ arg ∈ args.head?, arg.type.isList = false) :
      HasTy hasCount g info (.call func type args) Ty.unknown
  | indexOfList {type : Option Annotation} {target key : Tree}
      (list : target.type.isList = true) :
      HasTy hasCount g info (.index type target key) { target.type with isList := false }
  | indexOfOther {type : Option Annotation} {target key : Tree}
      (other : target.type.isList = false) :
      HasTy hasCount g info (.index type target key) Ty.unknown
  /-- A conditional has the type of its branches if they agree. -/
  | branches {type : Option Annotation} {condition whenTrue whenFalse : Tree}
      (agree : whenTrue.type = whenFalse.type) :
      HasTy hasCount g info (.conditional type condition whenTrue whenFalse) whenTrue.type
  | differingBranches {type : Option Annotation} {condition whenTrue whenFalse : Tree}
      (differ : whenTrue.type ≠ whenFalse.type) :
      HasTy hasCount g info (.conditional type condition whenTrue whenFalse) Ty.unknown
  | count {type : Option Annotation} {access : Access}
      (target : access.reference.target = .count true) (scope : hasCount = true) :
      HasTy hasCount g info (.access type access) Ty.number
  | local {type : Option Annotation} {access : Access} {name : String}
      {slot : Registered LocalValue} (target : access.reference.target = .local name)
      (known : g.locals.find? name = some slot) :
      HasTy hasCount g info (.access type access) Ty.unknown.outputOf
  | module {type : Option Annotation} {access : Access} {name field : String}
      {slot : Registered ModuleCall} (target : access.reference.target = .module name field)
      (known : g.modules.find? name = some slot) :
      HasTy hasCount g info (.access type access) Ty.unknown.outputOf
  /-- An input variable is a string unless its default is something else. -/
  | user {type : Option Annotation} {access : Access} {name : String}
      {slot : Registered InputVariable} (target : access.reference.target = .user name "")
      (known : g.inputs.find? name = some slot)
      (default : ∀ t ∈ slot.entity.default, t.hasType Ty.string = true) :
      HasTy hasCount g info (.access type access) Ty.string
  | userOfOther {type : Option Annotation} {access : Access} {name : String}
      {slot : Registered InputVariable} {t : Tree}
      (target : access.reference.target = .user name "") (known : g.inputs.find? name = some slot)
      (default : slot.entity.default = some t) (other : t.hasType Ty.string = false) :
      HasTy hasCount g info (.access type access) Ty.unknown
  /-- A property of a resource has the type at the end of its path, as something produced later. -/
  | resource {type : Option Annotation} {access : Access} {name : ResourceName}
      {selection : Selection} {field : String} {slot : Registered Resource}
      (target : access.reference.target = .resource name selection field)
      (known : g.resources.find? name.id = some slot)
      (schema : SchemaOf g slot.entity access.schema) (path : access.elements = segmentsOf field)
      (single : selection ≠ .splat) :
      HasTy hasCount g info (.access type access)
        (access.schema.follow access.elements).type.outputOf
  | splat {type : Option Annotation} {access : Access} {name : ResourceName} {field : String}
      {slot : Registered Resource} (target : access.reference.target = .resource name .splat field)
      (known : g.resources.find? name.id = some slot)
      (schema : SchemaOf g slot.entity access.schema) (path : access.elements = segmentsOf field) :
      HasTy hasCount g info (.access type access)
        (access.schema.follow access.elements).type.outputOf.listOf

/-- A node is a property container, or an expression that records the type it has. -/
inductive WellTyped (hasCount : Bool) (g : Graph) (info : NodeInfo) : Shape Tree → Prop
  | list (elements : List Tree) : WellTyped hasCount g info (.list elements)
  | map (entries : List (Str × Tree)) : WellTyped hasCount g info (.map entries)
  | expr {shape : Shape Tree} {type : Ty} (recorded : shape.type? = some (.known type))
      (typing : HasTy hasCount g info shape type) : WellTyped hasCount g info shape

variable {hasCount : Bool} {g : Graph} {info : NodeInfo} {shape : Shape Tree}

/-- The rules give a node at most one type. -/
theorem HasTy.unique {type type' : Ty} (h : HasTy hasCount g info shape type)
    (h' : HasTy hasCount g info shape type') : type = type' := by
  cases h <;> cases h' <;> simp_all

/-! ### Nodes that binding makes -/

private theorem hasTy_call {func : String} {args : List Tree} {type : Ty}
    {recorded : Option Annotation} (h : callType func (args.map Tree.type) = .ok type) :
    HasTy hasCount g info (.call func recorded args) type := by
  unfold callType at h
  split at h
  · next hs =>
    cases h
    exact .stringCall (List.contains_iff_mem.mp hs)
  · split at h
    · cases h
      cases args with
      | nil => exact .elementOfOther rfl nofun
      | cons arg args =>
        rw [List.map_cons, List.head?_cons, Option.map_some, Option.getD_some, elementOrUnknown]
        cases hl : arg.type.isList with
        | false => exact .elementOfOther rfl (by simpa using hl)
        | true =>
          rw [if_pos rfl, Ty.elementType, if_pos hl]
          exact .elementOfList rfl hl
    · cases h
      exact .listCall rfl
    · cases h
      exact .lookupCall rfl
    · split at h
      · next heven =>
        cases h
        exact .mapCall rfl (by simpa using heven)
      · cases h
    · cases h
      exact .splitCall rfl
    · cases h

/-- The schema of a resolved resource is that of the resource. -/
theorem schemaOf_resolve? {r r' : Resource} (h : g.resolve? r = some r') :
    SchemaOf g r (r'.schema.getD .undeclared) := by
  rw [Graph.resolve?] at h
  obtain ⟨p, hp, rfl⟩ := Option.map_eq_some_iff.mp h
  cases hs : r.schema with
  | some schema => exact .declared hs
  | none =>
    rw [Graph.providerOf?] at hp
    cases hown : r.provider with
    | some own =>
      rw [hown] at hp
      cases hp
      exact .attached hs hown
    | none =>
      rw [hown, Option.none_or] at hp
      obtain ⟨slot, hslot, rfl⟩ := Option.map_eq_some_iff.mp hp
      exact .found hs hown hslot

private theorem hasTy_access {reference : Reference} {type : Ty} {access : Access}
    {recorded : Option Annotation} (h : Resolves hasCount g reference type access) :
    HasTy hasCount g info (.access recorded access) type := by
  cases h with
  | count target scope => exact .count target scope
  | «local» target found =>
    obtain ⟨serial, hs, _⟩ := Option.map_eq_some_iff.mp found
    obtain ⟨slot, hslot, _⟩ := Option.map_eq_some_iff.mp hs
    exact .local target hslot
  | module target found =>
    obtain ⟨serial, hs, _⟩ := Option.map_eq_some_iff.mp found
    obtain ⟨slot, hslot, _⟩ := Option.map_eq_some_iff.mp hs
    exact .module target hslot
  | @user name slot target found =>
    cases hd : slot.entity.default with
    | none =>
      rw [show slot.entity.type = Ty.string by simp [InputVariable.type, hd]]
      exact .user target found (by simp [hd])
    | some t =>
      cases ht : t.hasType Ty.string with
      | true =>
        rw [show slot.entity.type = Ty.string by simp [InputVariable.type, hd, ht]]
        exact .user target found (by simpa [hd] using ht)
      | false =>
        rw [show slot.entity.type = Ty.unknown by simp [InputVariable.type, hd, ht]]
        exact .userOfOther target found hd ht
  | @resource name selection field r r' target found resolved =>
    obtain ⟨slot, hslot, rfl⟩ := Option.map_eq_some_iff.mp found
    rw [propertyType]
    split
    · next hsplat =>
      subst hsplat
      exact .splat target hslot (schemaOf_resolve? resolved) rfl
    · next hsingle => exact .resource target hslot (schemaOf_resolve? resolved) rfl hsingle

/-- A node that binding makes is typed by the rules. -/
theorem wellTyped_of_makes (h : Makes hasCount g info shape) : WellTyped hasCount g info shape := by
  cases h with
  | list elements => exact .list elements
  | map distinct => exact .map _
  | bool b => exact .expr rfl (.bool rfl)
  | int i => exact .expr rfl (.int rfl)
  | float x => exact .expr rfl (.float rfl)
  | str s => exact .expr rfl (.str rfl)
  | arithmetic bound => exact .expr rfl .arithmetic
  | call bound typing => exact .expr rfl (hasTy_call typing)
  | @conditional _ _ _ _ c t f bound =>
    refine .expr rfl ?_
    rw [branchType]
    split
    · next agree => exact .branches agree
    · next differ => exact .differingBranches differ
  | @index _ _ _ t k bound =>
    refine .expr rfl ?_
    rw [elementOrUnknown]
    cases hl : t.type.isList with
    | false => exact .indexOfOther hl
    | true =>
      rw [if_pos rfl, Ty.elementType, if_pos hl]
      exact .indexOfList hl
  | @literal _ value tag _ typing =>
    refine .expr rfl ?_
    cases tag <;> cases typing
    · exact .taggedBool rfl
    · exact .taggedInt rfl
    · exact .taggedFloat rfl
    · exact .taggedString rfl
  | output bound several => exact .expr rfl .output
  | access read resolves => exact .expr rfl (hasTy_access resolves)

namespace Bind

/-- Every node of a tree that binding returns is typed by the rules. -/
theorem bindValue_wellTyped {g' : Graph} {value : Value} {tree : Tree}
    (h : (bindValue hasCount value).run.run g = (.ok tree, g')) :
    tree.Everywhere (WellTyped hasCount g) := by
  have hout : outcome g (bindValue hasCount value) = .ok tree := congrArg Prod.fst h
  exact (makes_bindValue hout).imp fun _ _ h ↦ wellTyped_of_makes h.1

/-- The expression `split(",", "a,b")[0]`. -/
private def firstPart : Expr :=
  .index none
    (.expr (.call none "split" [.expr (.literal none (.str ",") .string),
      .expr (.literal none (.str "a,b") .string)]))
    (.expr (.literal none (.int 0) .int))

/-- An item of a split text is bound to a string. -/
theorem bindValue_wellTyped_firstPart :
    ∃ tree, (bindValue false (.expr firstPart)).run.run .empty = (.ok tree, .empty) ∧
      tree.type = Ty.string ∧ tree.Everywhere (WellTyped false .empty) := by
  exact ⟨_, rfl, rfl, @bindValue_wellTyped false .empty .empty (.expr firstPart) _ rfl⟩

end Bind

end Hil
