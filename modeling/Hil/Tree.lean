import Hil.Shape

/-!
# Bound trees

The typed trees that binding produces, as values. They are consumed by `Tree.fold`, which replaces
every node by a function of the node and of the results of its children.
-/

namespace Hil

/-- What a node carries beside its shape: the expression it was bound from (`hil_node`), and a
label. -/
structure NodeInfo where
  origin : Option Expr := none
  label : Option String := none
  deriving Inhabited

/-- The place of the expression that a node was bound from (`BoundNode.location`). -/
def NodeInfo.place (info : NodeInfo) : Option Location := info.origin.bind Expr.place

/-- The operator of an arithmetic node, which it has from the expression it was bound from
(`BoundArithmetic.op`). -/
def NodeInfo.operator? (info : NodeInfo) : Option Operator := info.origin.bind Expr.operator?

/-- A bound tree. `missing` stands where a node should be and is not. -/
inductive Tree where
  | missing
  | node (info : NodeInfo) (shape : Shape Tree)

namespace Tree

instance : Inhabited Tree := ⟨missing⟩

section Fold

variable {β : Type} (absent : β) (step : NodeInfo → Shape β → β)

mutual

/-- Replaces every missing node by `absent` and every other node by `step`, from the leaves up. -/
def fold : Tree → β
  | missing => absent
  | node info shape => step info (foldShape shape)

/-- Folds the children of a node. -/
def foldShape : Shape Tree → Shape β
  | .arithmetic type exprs => .arithmetic type (foldList exprs)
  | .call func type args => .call func type (foldList args)
  | .conditional type condition whenTrue whenFalse =>
    .conditional type (fold condition) (fold whenTrue) (fold whenFalse)
  | .index type target key => .index type (fold target) (fold key)
  | .literal type value => .literal type value
  | .output type exprs => .output type (foldList exprs)
  | .access type resolved => .access type resolved
  | .list elements => .list (foldList elements)
  | .map entries => .map (foldEntries entries)
  | .foreign className content => .foreign className content

/-- Folds a list of children. -/
def foldList : List Tree → List β
  | [] => []
  | tree :: trees => fold tree :: foldList trees

/-- Folds the values of a map. -/
def foldEntries : List (Str × Tree) → List (Str × β)
  | [] => []
  | (key, tree) :: entries => (key, fold tree) :: foldEntries entries

end

private theorem foldList_eq (trees : List Tree) :
    foldList absent step trees = trees.map (fold absent step) := by
  induction trees with
  | nil => rfl
  | cons tree trees ih => simp [foldList, ih]

private theorem foldEntries_eq (entries : List (Str × Tree)) :
    foldEntries absent step entries =
      entries.map fun entry => (entry.1, fold absent step entry.2) := by
  induction entries with
  | nil => rfl
  | cons entry entries ih => simp [foldEntries, ih]

/-- Folding below a shape replaces each child by its fold. -/
theorem foldShape_eq (shape : Shape Tree) :
    foldShape absent step shape = shape.mapChildren (fold absent step) := by
  cases shape <;> simp [foldShape, Shape.mapChildren, foldList_eq, foldEntries_eq]

/-- The fold of a missing tree. -/
@[simp] theorem fold_missing : fold absent step missing = absent := by
  simp [fold]

/-- A fold of a node is the step at the folds of its children. -/
@[simp] theorem fold_node (info : NodeInfo) (shape : Shape Tree) :
    fold absent step (node info shape) = step info (shape.mapChildren (fold absent step)) := by
  simp [fold, foldShape_eq]

end Fold

/-- The children of a tree. -/
def children : Tree → List Tree
  | missing => []
  | node _ shape => shape.children

/-- Whether a tree is an expression. -/
def isExpr : Tree → Bool
  | missing => false
  | node _ shape => shape.isExpr

/-- Whether a tree is an expression of the type. -/
def hasType (t : Tree) (type : Ty) : Bool :=
  match t with
  | missing => false
  | node _ shape => shape.hasType type

/-- The recorded type of a tree, unknown for anything but an expression with a type. -/
def type : Tree → Ty
  | missing => Ty.unknown
  | node _ shape => (shape.type?.bind Annotation.type?).getD Ty.unknown

end Tree

end Hil
