import Hil.Proofs.Binding.References
import Hil.Proofs.Reference.Resource

/-!
# Items of splats

A splat is a list of an attribute of all instances of a resource, and an item of it is the attribute
of one of them. The list flag of a type does not nest, so the type of an item is that of the
attribute without the flag: it is the type of the attribute of an instance unless this is a list
itself.
-/

namespace Hil.Bind

variable {g : Graph} {hasCount : Bool} {place : Option Location} {text field n : String}
  {reference : Reference} {name : ResourceName} {selection : Selection} {r r' : Resource}
  {target key : Expr} {type : Ty}

/-- Binding the expression gives a tree of the type. -/
def Gives (hasCount : Bool) (g : Graph) (e : Expr) (type : Ty) : Prop :=
  ∃ tree, outcome g (bindExpr hasCount e) = .ok tree ∧ tree.type = type

/-- Binding an expression gives trees of one type. -/
theorem Gives.unique {e : Expr} {type' : Ty} (h : Gives hasCount g e type)
    (h' : Gives hasCount g e type') : type = type' := by
  obtain ⟨tree, htree, rfl⟩ := h
  obtain ⟨tree', htree', rfl⟩ := h'
  rw [Except.ok.inj (htree.symm.trans htree')]

/-! ### Types of expressions -/

/-- An access has the type that its reference resolves to. -/
theorem gives_access {access : Access} (read : Reference.read text = .ok reference)
    (resolves : Resolves hasCount g reference type access) :
    Gives hasCount g (.access place text) type := by
  refine ⟨boundFrom (.access place text) (.access (typed type) access), ?_, rfl⟩
  rw [bindExpr, read]
  exact (outcome_bind_eq_ok_iff (stable_resolve hasCount place reference)
    fun _ ↦ stable_pure g _).mpr ⟨_, outcome_resolve_eq_ok_iff.mpr resolves, rfl⟩

/-- An item of an expression has the element type of the expression. -/
theorem gives_index (ht : Gives hasCount g target type) {keyType : Ty}
    (hk : Gives hasCount g key keyType) :
    Gives hasCount g (.index place (.expr target) (.expr key)) (elementOrUnknown type) := by
  obtain ⟨t, ht, rfl⟩ := ht
  obtain ⟨k, hk, -⟩ := hk
  refine ⟨boundFrom (.index place (.expr target) (.expr key))
    (.index (typed (elementOrUnknown t.type)) t k), ?_, rfl⟩
  rw [bindExpr, outcome_bind_eq_ok_iff (stable_bindOperand g hasCount _) fun _ ↦
    (stable_bindOperand g hasCount _).bind fun _ ↦ stable_pure g _]
  refine ⟨t, ht, (outcome_bind_eq_ok_iff (stable_bindOperand g hasCount _)
    fun _ ↦ stable_pure g _).mpr ⟨k, hk, rfl⟩⟩

/-- An element of an expression has the element type of the expression. -/
theorem gives_element (ht : Gives hasCount g target type) {keyType : Ty}
    (hk : Gives hasCount g key keyType) :
    Gives hasCount g (.call place "element" [.expr target, .expr key])
      (elementOrUnknown type) := by
  obtain ⟨t, ht, rfl⟩ := ht
  obtain ⟨k, hk, -⟩ := hk
  have hargs : outcome g (bindOperands hasCount [.expr target, .expr key]) = .ok [t, k] :=
    outcome_bindOperands_eq_ok_iff.mpr (.cons ht (.cons hk .nil))
  refine ⟨boundFrom (.call place "element" [.expr target, .expr key])
    (.call "element" (typed (elementOrUnknown t.type)) [t, k]), ?_, rfl⟩
  rw [bindExpr, outcome_bind_eq_ok_iff (stable_bindOperands g hasCount _) fun _ ↦
    (stable_ofExcept g _ _).bind fun _ ↦ stable_pure g _]
  exact ⟨[t, k], hargs, rfl⟩

/-! ### Attributes of resources -/

/-- The type at the end of a path of attributes of a resource, as something produced later. -/
def attributeType (resolved : Resource) (field : String) : Ty :=
  ((resolved.schema.getD .undeclared).follow (segmentsOf field)).type.outputOf

/-- A reference to an attribute of a resource has the type of the attribute, as a list if it is of
all instances. -/
theorem gives_attribute {rest : String} (referable : name.IsReferable)
    (selects : Selects (segmentsOf rest) selection field)
    (found : g.resource? name.id = some r) (resolved : g.resolve? r = some r') :
    Gives hasCount g (.access place (name.id ++ "." ++ rest))
      (if selection = .splat then (attributeType r' field).listOf else attributeType r' field) :=
  gives_access (Reference.read_resource referable selects) (.resource rfl found resolved)

/-- The plain and the indexed reference to an attribute have the type of the attribute. An item of
the splat, taken by its index or by `element`, has this type without the list flag. So it has the
type of the indexed reference exactly if the attribute is no list. -/
theorem gives_item_of_splat (referable : name.IsReferable) (path : IsAttributePath field)
    (integer : IsInteger n) (found : g.resource? name.id = some r)
    (resolved : g.resolve? r = some r')
    (bound : ∃ tree, outcome g (bindExpr hasCount key) = .ok tree) :
    let type := attributeType r' field
    (∀ place, Gives hasCount g (.access place (name.id ++ "." ++ field)) type) ∧
    (∀ place, Gives hasCount g (.access place (name.id ++ "." ++ (n ++ "." ++ field))) type) ∧
    ∀ place place', let splat := Expr.access place (name.id ++ "." ++ ("*" ++ "." ++ field))
      ∀ item ∈ [Expr.index place' (.expr splat) (.expr key),
          .call place' "element" [.expr splat, .expr key]],
        Gives hasCount g item { type with isList := false } ∧
          (Gives hasCount g item type ↔ type.isList = false) := by
  intro type
  refine ⟨fun _ ↦ gives_attribute referable path.selects_plain found resolved,
    fun _ ↦ gives_attribute referable (path.selects_index integer) found resolved, ?_⟩
  intro place place' splat item hitem
  obtain ⟨keyTree, hkey⟩ := bound
  have hsplat : Gives hasCount g splat type.listOf :=
    gives_attribute referable path.selects_splat found resolved
  -- making the list sets the flag that taking an element of it clears
  have helement : elementOrUnknown type.listOf = { type with isList := false } := rfl
  have hgives : Gives hasCount g item { type with isList := false } := by
    rw [List.mem_cons, List.mem_singleton] at hitem
    rcases hitem with rfl | rfl
    · exact helement ▸ gives_index hsplat ⟨keyTree, hkey, rfl⟩
    · exact helement ▸ gives_element hsplat ⟨keyTree, hkey, rfl⟩
  refine ⟨hgives, fun h ↦ congrArg Ty.isList (h.unique hgives), fun h ↦ ?_⟩
  rwa [← h] at hgives

/-! ### A list attribute -/

/-- A provider that declares the attribute `ami` of its instances as a string and the attribute
`zones` as a list of strings, and an instance of it. -/
private def instances : Graph :=
  (Graph.empty.add (.provider ⟨"aws", "", [("aws_instance", .object
    [("ami", .plain Ty.string), ("zones", .list (.plain Ty.string))])]⟩)).add
      (.resource ⟨⟨.managed, "aws_instance", "web"⟩, "", none, none⟩)

/-- An item of the splat of a string has the type of the string of one instance. -/
theorem gives_item_of_splat_ami :
    Gives false instances
      (.index none (.expr (.access none "aws_instance.web.*.ami"))
        (.expr (.literal none (.int 0) .int))) Ty.string.outputOf ∧
    Gives false instances (.access none "aws_instance.web.0.ami") Ty.string.outputOf := by
  have hname {s : String} (h : tokenClass? s.toList = some .name) : IsName s :=
    tokenClass?_eq_name_iff.mp h
  have hreferable : (⟨.managed, "aws_instance", "web"⟩ : ResourceName).IsReferable :=
    ⟨⟨hname rfl, hname rfl⟩, fun _ ↦ by decide⟩
  have hpath : IsAttributePath "ami" := ⟨"ami", [], rfl, hname rfl, nofun⟩
  obtain ⟨-, hindexed, hitems⟩ :=
    @gives_item_of_splat instances false "ami" "0" ⟨.managed, "aws_instance", "web"⟩ _ _
      (.literal none (.int 0) .int) hreferable hpath (tokenClass?_eq_int_iff.mp rfl) rfl rfl
      ⟨_, rfl⟩
  exact ⟨(hitems none none _ List.mem_cons_self).1, hindexed none⟩

/-- An item of the splat of a list does not have the type of the list of one instance. -/
theorem item_of_splat_of_list :
    ∃ item indexed,
      outcome instances (bindExpr false (.index none
        (.expr (.access none "aws_instance.web.*.zones"))
        (.expr (.literal none (.int 0) .int)))) = .ok item ∧
      outcome instances (bindExpr false (.access none "aws_instance.web.0.zones")) =
        .ok indexed ∧
      item.type ≠ indexed.type :=
  ⟨_, _, rfl, rfl, by decide⟩

end Hil.Bind
