import Hil.Literal.Text
import Hil.Walk

/-!
# Constant folding

Two kinds of nodes are folded, from the leaves up, so that one fold can enable another:

* a conditional on a literal of type bool becomes the branch that the literal selects;
* an output of literals alone becomes one literal string.
-/

namespace Hil

namespace Folding

/-- The value of a node that is a literal. -/
def literal? (store : Store) (node : Option NodeId) : Option Literal :=
  (store.cellOf node).shape.literal?

/-- The values of nodes that are all literals. -/
def literals? (store : Store) (nodes : List (Option NodeId)) : Option (List Literal) :=
  nodes.mapM (literal? store)

/-- The value of a node that is a literal of type bool. -/
def condition? (store : Store) (node : Option NodeId) : Option Literal :=
  if (store.cellOf node).shape.hasType Ty.bool then literal? store node else none

/-- The text of an output of literals. -/
def outputText (values : List Literal) : Str := .join (values.map Literal.interpolated)

/-- What becomes of a node whose children have been folded (`ConstantFoldingPass._fold`). The memo
counts the folds. -/
def foldNode : Visitor Nat
  | none => pure none
  | some id => do
    let store := (← get).store
    let cell := store.cell id
    match cell.shape with
    | .conditional _ condition whenTrue whenFalse =>
      match condition? store condition with
      | some value =>
        Walk.modifyMemo (· + 1)
        return if value.isTruthy then whenTrue else whenFalse
      | none => return some id
    | .output _ exprs =>
      match literals? store exprs with
      | some values =>
        Walk.modifyMemo (· + 1)
        let shape := .literal (some (.known Ty.string)) (.str (outputText values))
        return some (← Walk.add ⟨{ origin := cell.info.origin }, shape⟩)
      | none => return some id
    | _ => return some id

/-- Folds the constants of a tree. -/
def foldConstants : Visitor Nat := Visitor.visitNode Visitor.keep foldNode

end Folding

end Hil
