import Hil.Walk

/-!
# Dependencies

The entities that a tree refers to, in the order in which a walk reaches the first reference to
each.
-/

namespace Hil

namespace Dependencies

/-- The entity that a node refers to. -/
def entryOf? (cell : Cell) : Option EntryRef :=
  cell.shape.access?.bind Access.entry

/-- Adds an entity unless it is there already. -/
def insert (entries : List EntryRef) (entry : EntryRef) : List EntryRef :=
  if entries.contains entry then entries else entries ++ [entry]

/-- Notes the entity that a node refers to. -/
def note : Visitor (List EntryRef) := fun node => do
  match entryOf? ((← get).store.cellOf node) with
  | some entry => Walk.modifyMemo fun entries => insert entries entry
  | none => pure ()
  return node

/-- Collects the entities that a tree refers to (`collect_dependencies`). -/
def collect (root : Option NodeId) : Walk (List EntryRef) (List EntryRef) := do
  let _ ← Visitor.visitNode note Visitor.keep root
  Walk.memo

end Dependencies

end Hil
