import Hil.Proofs.Pass.Observers

/-!
# References of a tree

The entities that the nodes of a tree refer to, in the order of a walk and as often as they are
referred to. What is collected of a tree is the first occurrence of each of them.
-/

namespace Hil

/-- The entity that a node itself refers to. -/
def Shape.entity? {α : Type} (s : Shape α) : Option EntryRef := s.access?.bind Access.entry

/-- Changing the children keeps the entity. -/
@[simp] theorem Shape.entity?_mapChildren {α β : Type} (f : α → β) (s : Shape α) :
    (s.mapChildren f).entity? = s.entity? := by
  simp [entity?]

namespace Tree

/-- The entities that the nodes of a tree refer to, each before those that are referred to below
it. -/
def references : Tree → List EntryRef :=
  fold [] fun _ shape => shape.entity?.toList ++ shape.children.flatten

variable {info : NodeInfo} {shape : Shape Tree}

/-- A missing tree refers to nothing. -/
@[simp] theorem references_missing : missing.references = [] := fold_missing _ _

/-- The entity of a node stands before those of its children. -/
theorem references_node (info : NodeInfo) (shape : Shape Tree) :
    (node info shape).references =
      shape.entity?.toList ++ shape.children.flatMap references := by
  rw [references, fold_node, Shape.entity?_mapChildren, Shape.children_mapChildren,
    List.flatMap_def]

/-- The references of a tree are those that its labels show. -/
theorem references_eq_filterMap_labels (t : Tree) :
    t.references = t.labels.filterMap fun label ↦ Dependencies.entryOf? label.cell := by
  induction t with
  | missing => rfl
  | node info shape ih =>
    have hentry : Dependencies.entryOf? (Label.cell ⟨info, shape.outline⟩) = shape.entity? := by
      simp [Dependencies.entryOf?, Label.cell, Shape.outline, Shape.entity?]
    have hbelow : shape.children.flatMap references = (shape.children.flatMap labels).filterMap
        fun label ↦ Dependencies.entryOf? label.cell := by
      rw [List.filterMap_flatMap, List.flatMap_def, List.flatMap_def, List.map_congr_left ih]
    rw [references_node, labels_node, hbelow, List.filterMap_cons, hentry]
    cases shape.entity? <;> rfl

end Tree

namespace Dependencies

/-- Entities that are inserted one after the other come after those that are there, each where it
first occurs. -/
theorem foldl_insert (refs entries : List EntryRef) :
    refs.foldl insert entries =
      entries ++ (refs.filter fun ref ↦ !entries.contains ref).eraseDups := by
  induction refs generalizing entries with
  | nil => simp
  | cons ref refs ih =>
    rw [List.foldl_cons, ih, insert]
    by_cases h : entries.contains ref
    · rw [if_pos h, List.filter_cons_of_neg (by simpa using h)]
    · have hrest : (refs.filter fun other ↦ !(entries ++ [ref]).contains other) =
          (refs.filter fun other ↦ !entries.contains other).filter fun other ↦ !other == ref := by
        rw [List.filter_filter]
        apply List.filter_congr
        intro other _
        rw [List.contains_append, Bool.not_or, Bool.and_comm]
        simp [Bool.beq_eq_decide_eq]
      rw [if_neg h, hrest, List.filter_cons_of_pos (by simpa using h), List.eraseDups_cons,
        List.append_assoc, List.singleton_append]

/-- The entities that are collected of a tree are the first occurrences of its references. -/
theorem entriesOf_eq (t : Tree) : entriesOf t = t.references.eraseDups := by
  calc entriesOf t
      = (t.labels.filterMap fun label ↦ entryOf? label.cell).foldl insert [] := by
        rw [List.foldl_filterMap, entriesOf]
        congr 1
        funext entries label
        rw [observe]
        cases entryOf? label.cell <;> rfl
    _ = t.references.foldl insert [] := by rw [t.references_eq_filterMap_labels]
    _ = t.references.eraseDups := by simp [foldl_insert]

end Dependencies

end Hil
