import Hil.Diagnostic
import Hil.Walk

/-!
# Validation

Two properties hold of every tree that binding produces and have to hold still after changes:
every expression has a type, and a reference to an entity is bound to one. A node that lacks either
is reported; nothing is changed or refused on account of it.
-/

namespace Hil

namespace Validation

/-- What validation keeps: how many nodes it has seen, and what it has reported. -/
structure Findings where
  validated : Nat
  reporter : Reporter

/-- The code under which malformed nodes are reported. -/
def code : String := "E0999"

/-- What is wrong with a node. -/
def defects (cell : Cell) : List String :=
  let untyped := match cell.shape.type? with
    | some type => if type.type?.isNone then [cell.shape.className ++ " has no type"] else []
    | none => []
  let unbound := match cell.shape.access? with
    | some resolved =>
      if resolved.reference.target.namesEntry && resolved.entry.isNone then
        ["variable access " ++ Text.shown resolved.reference.text ++
          " is not bound to a graph node"]
      else []
    | none => []
  untyped ++ unbound

/-- The diagnostics of a node (`IRValidationPass._report_error`). -/
def diagnosticsOf (cell : Cell) : List Diagnostic :=
  (defects cell).map fun message =>
    { message, location := cell.info.place, code := some code }

/-- Counts a node and reports its defects (`IRValidationPass._validate`). -/
def check : Visitor Findings := fun node => do
  let cell := (← get).store.cellOf node
  Walk.modifyMemo fun found =>
    ⟨found.validated + 1, (diagnosticsOf cell).foldl Reporter.report found.reporter⟩
  return node

/-- Validates the nodes of a tree, and returns the tree. -/
def validate : Visitor Findings := fun root => do
  let _ ← Visitor.visitNode check Visitor.keep root
  return root

end Validation

end Hil
