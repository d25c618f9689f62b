import Hil.Proofs.Shape.Relation
import Hil.Walk

/-!
# Positions of children

A child is in a list, under a key, or in a slot that its parent cannot do without. The classes whose
children are in a list differ from one another only in what they hold besides.
-/

namespace Hil.Shape

variable {α β : Type} {s : Shape α}

/-! ### Mapped children -/

/-- Changing the children keeps the keys. -/
@[simp] theorem keys_mapChildren (f : α → β) (s : Shape α) : (s.mapChildren f).keys = s.keys :=
  (rel_mapChildren (R := fun _ _ ↦ True) fun _ _ ↦ trivial).keys_eq.symm

/-- Changing the children of an expression gives an expression. -/
@[simp] theorem isExpr_mapChildren (f : α → β) (s : Shape α) :
    (s.mapChildren f).isExpr = s.isExpr :=
  (rel_mapChildren (R := fun _ _ ↦ True) fun _ _ ↦ trivial).isExpr_eq.symm

/-- Changing the children keeps whether a walk goes on below the node. -/
@[simp] theorem isTraversable_mapChildren (f : α → β) (s : Shape α) :
    (s.mapChildren f).isTraversable = s.isTraversable :=
  (rel_mapChildren (R := fun _ _ ↦ True) fun _ _ ↦ trivial).isTraversable_eq.symm

/-! ### Slots -/

/-- The children in their order, each with its slot if it is in one. -/
def slotted : Shape α → List (Option Slot × α)
  | conditional _ condition whenTrue whenFalse =>
    [(some .condition, condition), (some .whenTrue, whenTrue), (some .whenFalse, whenFalse)]
  | index _ target key => [(some .target, target), (some .key, key)]
  | shape => shape.children.map fun child ↦ (none, child)

/-- The children with their slots are the children. -/
theorem map_snd_slotted (s : Shape α) : s.slotted.map Prod.snd = s.children := by
  cases s <;> simp [slotted, children, Function.comp_def]

/-- A child with a slot is a child. -/
theorem mem_children_of_mem_slotted {child : Option Slot × α} (h : child ∈ s.slotted) :
    child.2 ∈ s.children := by
  rw [← map_snd_slotted]
  exact List.mem_map_of_mem h

/-- Changing the children keeps their slots. -/
theorem slotted_mapChildren (f : α → β) (s : Shape α) :
    (s.mapChildren f).slotted = s.slotted.map (Prod.map id f) := by
  cases s <;> simp [slotted, mapChildren, children]

/-! ### Lists -/

/-- A class whose children are in a list, with what its nodes hold besides. -/
inductive ListClass where
  | arithmetic (type : Option Annotation)
  | call (func : String) (type : Option Annotation)
  | output (type : Option Annotation)
  | list

/-- The node of a class with the children. -/
def ListClass.shape : ListClass → List α → Shape α
  | arithmetic type, children => .arithmetic type children
  | call func type, children => .call func type children
  | output type, children => .output type children
  | list, children => .list children

/-- Whether nodes of a class are expressions. -/
def ListClass.isExpr : ListClass → Bool
  | arithmetic _ | call .. | output _ => true
  | list => false

/-- Whether the children of a node are in a list. -/
def isListBearing : Shape α → Bool
  | arithmetic .. | call .. | output .. | list _ => true
  | _ => false

namespace ListClass

variable (c : ListClass) (xs : List α)

/-- The children of a list-bearing shape are those it is made of. -/
@[simp] theorem children_shape : (c.shape xs).children = xs := by cases c <;> rfl

/-- A list-bearing shape has no keys. -/
@[simp] theorem keys_shape : (c.shape xs).keys = [] := by cases c <;> rfl

/-- Changing the children of a list-bearing shape changes its list. -/
@[simp] theorem mapChildren_shape (f : α → β) :
    (c.shape xs).mapChildren f = c.shape (xs.map f) := by
  cases c <;> rfl

/-- The children of a list-bearing shape are in no slots. -/
@[simp] theorem slotted_shape : (c.shape xs).slotted = xs.map fun child ↦ (none, child) := by
  cases c <;> rfl

/-- Whether a list-bearing shape is an expression depends on its class. -/
@[simp] theorem isExpr_shape : (c.shape xs).isExpr = c.isExpr := by cases c <;> rfl

/-- The shapes of list-bearing classes are list-bearing. -/
@[simp] theorem isListBearing_shape : (c.shape xs).isListBearing = true := by cases c <;> rfl

/-- Walks go on below list-bearing shapes. -/
@[simp] theorem isTraversable_shape : (c.shape xs).isTraversable = true := by cases c <;> rfl

end ListClass

/-! ### Children that are gone -/

variable (gone : α → Bool)

/-- Whether a node has lost all the children of its list, of which there was one at least. -/
def emptied (s : Shape α) : Bool :=
  s.isListBearing && !s.children.isEmpty && s.children.all gone

/-- The node without the children of its list that are gone, or the values that are gone with their
keys. -/
def compact : Shape α → Shape α
  | arithmetic type exprs => arithmetic type (exprs.filter fun child ↦ !gone child)
  | call func type args => call func type (args.filter fun child ↦ !gone child)
  | output type exprs => output type (exprs.filter fun child ↦ !gone child)
  | list elements => list (elements.filter fun child ↦ !gone child)
  | map entries => map (entries.filter fun entry ↦ !gone entry.2)
  | shape => shape

/-- Children that are mapped to what is gone are gone. -/
theorem emptied_mapChildren (f : α → β) (gone : β → Bool) (s : Shape α) :
    (s.mapChildren f).emptied gone = s.emptied (gone ∘ f) := by
  cases s <;> simp [emptied, mapChildren, isListBearing, children, List.all_map]

/-- A node that is compacted has no other children than before. -/
theorem children_compact_sublist (s : Shape α) :
    (s.compact gone).children.Sublist s.children := by
  cases s with
  | map entries => exact List.filter_sublist.map _
  | arithmetic | call | output | list => exact List.filter_sublist
  | _ => exact .refl _

/-- A shape that has lost children is an expression if it was one. -/
@[simp] theorem isExpr_compact (s : Shape α) : (s.compact gone).isExpr = s.isExpr := by
  cases s <;> rfl

/-- A list-bearing shape that has lost children has the others. -/
@[simp] theorem ListClass.compact_shape (c : ListClass) (xs : List α) :
    (c.shape xs).compact gone = c.shape (xs.filter fun child ↦ !gone child) := by
  cases c <;> rfl

/-- A list-bearing shape is emptied if it had children and has lost them all. -/
@[simp] theorem ListClass.emptied_shape (c : ListClass) (xs : List α) :
    (c.shape xs).emptied gone = (!xs.isEmpty && xs.all gone) := by
  cases c <;> rfl

/-- A node is emptied exactly if none of its children is left, of which there was one at least. -/
theorem ListClass.emptied_shape_eq (c : ListClass) (xs : List α) :
    (c.shape xs).emptied gone =
      (!xs.isEmpty && (xs.filter fun child ↦ !gone child).isEmpty) := by
  rw [emptied_shape, Bool.eq_iff_iff]
  simp

end Hil.Shape
