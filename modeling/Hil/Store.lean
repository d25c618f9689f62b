import Hil.Failure
import Hil.Table
import Hil.Tree

/-!
# Stores of nodes

Bound trees are changed in place, and one node can occur at several positions. A store holds the
nodes of all trees under identities, so that a change of a node shows at every position. Nodes are
only ever added or changed, never removed. `Store.tree` is the tree of values at a node; labels name
the node that was last added under them.
-/

namespace Hil

/-- The identity of a node. -/
structure NodeId where
  index : Nat
  deriving DecidableEq, Repr, Inhabited

/-- A node, whose children are identities; `none` is a missing child. -/
structure Cell where
  info : NodeInfo
  shape : Shape (Option NodeId)
  deriving Inhabited

/-- What is read where there is no node. -/
def Cell.absent : Cell := ⟨{}, .foreign missingClass .node⟩

/-- A store of nodes. -/
structure Store where
  cells : Array Cell
  labels : Table String NodeId
  deriving Inhabited

namespace Store

/-- The store without nodes. -/
def empty : Store := ⟨#[], .empty⟩

/-- The number of nodes. -/
def size (s : Store) : Nat := s.cells.size

/-- The node of an identity. -/
def cell (s : Store) (id : NodeId) : Cell := s.cells.getD id.index Cell.absent

/-- The node of an identity that may be missing. -/
def cellOf (s : Store) : Option NodeId → Cell
  | some id => s.cell id
  | none => Cell.absent

/-- Adds a node under the next identity, and under its label if it has one. -/
def add (s : Store) (cell : Cell) : NodeId × Store :=
  let id : NodeId := ⟨s.cells.size⟩
  let labels := match cell.info.label with
    | some label => s.labels.insert label id
    | none => s.labels
  (id, ⟨s.cells.push cell, labels⟩)

/-- Changes the shape of a node. -/
def modifyShape (s : Store) (id : NodeId) (f : Shape (Option NodeId) → Shape (Option NodeId)) :
    Store :=
  { s with cells := s.cells.modify id.index fun cell => { cell with shape := f cell.shape } }

/-- Adds a node for every node of a tree, children before their parents. -/
def addTree (s : Store) (t : Tree) : Option NodeId × Store :=
  let adding : Tree → StateM Store (Option NodeId) :=
    Tree.fold (pure none) fun info shape => do
      let shape ← shape.sequence
      return some (← modifyGet fun store => store.add ⟨info, shape⟩)
  (adding t).run s

/-- The tree at a node, down to a depth; below it, nodes are missing. -/
def treeTo (s : Store) : Nat → Option NodeId → Tree
  | _, none => .missing
  | 0, some _ => .missing
  | depth + 1, some id =>
    let cell := s.cell id
    .node cell.info (cell.shape.mapChildren (s.treeTo depth))

/-- The tree at a node. No path of a tree visits a node twice, so the number of nodes bounds its
depth. -/
def tree (s : Store) (node : Option NodeId) : Tree := s.treeTo s.size node

/-- A change of a node adds none. -/
theorem size_modifyShape (s : Store) (id : NodeId)
    (f : Shape (Option NodeId) → Shape (Option NodeId)) : (s.modifyShape id f).size = s.size := by
  simp [modifyShape, size]

/-- A change of a node is seen at that node only. -/
theorem cell_modifyShape (s : Store) (id other : NodeId)
    (f : Shape (Option NodeId) → Shape (Option NodeId)) (h : other.index < s.size) :
    (s.modifyShape id f).cell other =
      if other = id then { s.cell other with shape := f (s.cell other).shape }
      else s.cell other := by
  have h' : other.index < s.cells.size := h
  have hm : other.index < (s.modifyShape id f).cells.size := by simpa [modifyShape] using h'
  simp only [Store.cell, Array.getD_eq_getD_getElem?, Array.getElem?_eq_getElem h',
    Array.getElem?_eq_getElem hm, Option.getD_some]
  simp only [modifyShape, Array.getElem_modify]
  by_cases hid : other = id
  · subst hid
    simp
  · have hne : ¬id.index = other.index := fun e => hid (by cases other; cases id; simp_all)
    simp [hid, hne]

/-- Adding a node changes no other node. -/
theorem cell_add_of_lt (s : Store) (cell : Cell) (id : NodeId) (h : id.index < s.size) :
    (s.add cell).2.cell id = s.cell id := by
  have h' : id.index < s.cells.size := h
  simp only [add, Store.cell, Array.getD_eq_getD_getElem?, Array.getElem?_push_lt h',
    Array.getElem?_eq_getElem h']

/-- An added node is at its identity. -/
theorem cell_add (s : Store) (cell : Cell) : (s.add cell).2.cell (s.add cell).1 = cell := by
  simp [add, Store.cell, Array.getD]

end Store

end Hil
