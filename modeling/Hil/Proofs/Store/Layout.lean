import Hil.Proofs.Shape.Positions
import Hil.Proofs.Store.Reading
import Mathlib.Data.List.Nodup
import Mathlib.Data.List.Perm.Subperm

/-!
# Layouts

A layout is a tree with the identities of its nodes. A store holds a layout when each of its nodes
is there with the children that the layout has, and the layout stands in the store when no node
occurs in it twice. What a store holds depends on the nodes of the layout only.
-/

namespace Hil

/-- A tree of nodes with their identities. -/
inductive Layout where
  | missing
  | node (id : NodeId) (info : NodeInfo) (shape : Shape Layout)

namespace Layout

instance : Inhabited Layout := ⟨missing⟩

/-- Every layout is missing or a node above smaller layouts. -/
@[elab_as_elim, induction_eliminator]
theorem induct {P : Layout → Prop} (missing : P .missing)
    (node : ∀ id info shape, (∀ l ∈ shape.children, P l) → P (.node id info shape))
    (l : Layout) : P l := by
  refine @Layout.rec P (fun shape ↦ ∀ l ∈ shape.children, P l) (fun ls ↦ ∀ l ∈ ls, P l)
    (fun es ↦ ∀ l ∈ es.map Prod.snd, P l) (fun e ↦ P e.2)
    missing node ?_ ?_ ?_ ?_ ?_ ?_ ?_ ?_ ?_ ?_ ?_ ?_ ?_ ?_ ?_ l <;>
    simp +contextual [Shape.children]

section Fold

variable {β : Type} (absent : β) (step : NodeId → NodeInfo → Shape (Layout × β) → β)

mutual

/-- Replaces every missing node by `absent` and every other node by `step`, from the leaves up. The
step is given the children beside what has been made of them. -/
def fold : Layout → β
  | missing => absent
  | node id info shape => step id info (foldShape shape)

/-- Folds the children of a node. -/
def foldShape : Shape Layout → Shape (Layout × β)
  | .arithmetic type exprs => .arithmetic type (foldList exprs)
  | .call func type args => .call func type (foldList args)
  | .conditional type condition whenTrue whenFalse =>
    .conditional type (condition, fold condition) (whenTrue, fold whenTrue)
      (whenFalse, fold whenFalse)
  | .index type target key => .index type (target, fold target) (key, fold key)
  | .literal type value => .literal type value
  | .output type exprs => .output type (foldList exprs)
  | .access type resolved => .access type resolved
  | .list elements => .list (foldList elements)
  | .map entries => .map (foldEntries entries)
  | .foreign className content => .foreign className content

/-- Folds a list of children. -/
def foldList : List Layout → List (Layout × β)
  | [] => []
  | child :: children => (child, fold child) :: foldList children

/-- Folds the values of a map. -/
def foldEntries : List (Str × Layout) → List (Str × Layout × β)
  | [] => []
  | (key, child) :: entries => (key, child, fold child) :: foldEntries entries

end

private theorem foldList_eq_map (children : List Layout) :
    foldList absent step children = children.map fun l ↦ (l, fold absent step l) := by
  induction children with
  | nil => rfl
  | cons child children ih => rw [foldList, ih, List.map_cons]

private theorem foldEntries_eq_map (entries : List (Str × Layout)) :
    foldEntries absent step entries = entries.map fun e ↦ (e.1, e.2, fold absent step e.2) := by
  induction entries with
  | nil => rfl
  | cons entry entries ih => rw [foldEntries, ih, List.map_cons]

/-- A fold of a node is the step at its children and at the folds of these. -/
theorem fold_node (id : NodeId) (info : NodeInfo) (shape : Shape Layout) :
    fold absent step (node id info shape) =
      step id info (shape.mapChildren fun l ↦ (l, fold absent step l)) := by
  rw [fold]
  cases shape <;> simp [foldShape, Shape.mapChildren, foldList_eq_map, foldEntries_eq_map]

end Fold

/-- The identity of the root. -/
def root? : Layout → Option NodeId
  | missing => none
  | node id _ _ => some id

/-- Whether there is no node. -/
def isMissing : Layout → Bool
  | missing => true
  | node .. => false

/-- The identities of the nodes, each before those below it. -/
def ids : Layout → List NodeId := fold [] fun id _ shape ↦ id :: shape.children.flatMap Prod.snd

/-- The tree without the identities. -/
def tree : Layout → Tree := fold .missing fun _ info shape ↦ .node info (shape.mapChildren Prod.snd)

variable {id : NodeId} {info : NodeInfo} {shape : Shape Layout} {l : Layout}

/-- The nodes of a layout are its root and those of its children. -/
@[simp] theorem ids_node : (node id info shape).ids = id :: shape.children.flatMap ids := by
  rw [ids, fold_node, Shape.children_mapChildren, List.flatMap_map]

/-- The tree of a layout has the trees of its children. -/
@[simp] theorem tree_node : (node id info shape).tree = .node info (shape.mapChildren tree) := by
  rw [tree, fold_node, Shape.mapChildren_mapChildren]
  rfl

/-- A missing layout has no root. -/
theorem root?_eq_none_iff : l.root? = none ↔ l = missing := by
  cases l <;> simp [root?]

/-- The nodes of a child are nodes of its parent. -/
theorem mem_ids_of_mem_child {i : NodeId} (hl : l ∈ shape.children) (hi : i ∈ l.ids) :
    i ∈ (node id info shape).ids := by
  rw [ids_node]
  exact List.mem_cons_of_mem _ (List.mem_flatMap.mpr ⟨l, hl, hi⟩)

/-- Nothing occurs twice in a child if nothing does in its parent. -/
theorem nodup_ids_child (h : (node id info shape).ids.Nodup) (hl : l ∈ shape.children) :
    l.ids.Nodup := by
  rw [ids_node, List.nodup_cons, List.nodup_flatMap] at h
  exact h.2.1 l hl

/-- The tree of a layout is at most as high as the layout has nodes. -/
theorem height_tree_le (l : Layout) : l.tree.height ≤ l.ids.length := by
  induction l with
  | missing => exact Nat.zero_le _
  | node id info shape ih =>
    rw [tree_node, ids_node, List.length_cons, Tree.height_node_le_iff,
      Shape.forall_mem_mapChildren]
    intro l hl
    rw [List.flatMap_def]
    exact Nat.le_trans (ih l hl) (List.sublist_flatten_of_mem (List.mem_map_of_mem hl)).length_le

/-- The children of a well-formed node are well-formed. -/
theorem wellFormed_child (h : (node id info shape).tree.WellFormed) (hl : l ∈ shape.children) :
    l.tree.WellFormed := by
  rw [tree_node] at h
  refine h.child ?_
  rw [Shape.children_mapChildren]
  exact List.mem_map_of_mem hl

end Layout

namespace Store

open Layout

variable {s s' : Store} {id : NodeId} {info : NodeInfo} {shape : Shape Layout} {l : Layout}
  {ids : List NodeId} {n : Nat}

/-- A change of a node is not seen at any other. -/
theorem cell_modifyShape_of_ne {f : Shape (Option NodeId) → Shape (Option NodeId)} {other : NodeId}
    (h : other ≠ id) : (s.modifyShape id f).cell other = s.cell other := by
  have hne : id.index ≠ other.index := fun he ↦ h (by cases id; cases other; simp_all)
  simp [cell, modifyShape, Array.getD_eq_getD_getElem?, Array.getElem?_modify, hne]

/-- A change of a node is seen there. -/
theorem cell_modifyShape_self (f : Shape (Option NodeId) → Shape (Option NodeId))
    (h : id.index < s.size) :
    (s.modifyShape id f).cell id = ⟨(s.cell id).info, f (s.cell id).shape⟩ := by
  rw [cell_modifyShape s id id f h, if_pos rfl]

/-- The nodes of the layout are in the store, each with its children. -/
inductive Holds (s : Store) : Layout → Prop
  | missing : Holds s .missing
  | node {id : NodeId} {info : NodeInfo} {shape : Shape Layout} (bound : id.index < s.size)
      (cell : s.cell id = ⟨info, shape.mapChildren root?⟩) (distinct : shape.keys.Nodup)
      (below : ∀ l ∈ shape.children, Holds s l) : Holds s (.node id info shape)

namespace Holds

/-- The nodes of a layout are nodes of the store. -/
theorem lt_size (h : s.Holds l) : ∀ id ∈ l.ids, id.index < s.size := by
  induction h with
  | missing => exact List.forall_mem_nil _
  | @node id info shape bound _ _ _ ih =>
    rw [ids_node, List.forall_mem_cons]
    refine ⟨bound, fun i hi ↦ ?_⟩
    obtain ⟨l, hl, hi⟩ := List.mem_flatMap.mp hi
    exact ih l hl i hi

/-- A layout is still held where its nodes are as they are. -/
theorem frame (h : s.Holds l) (hsize : s.size ≤ s'.size)
    (hcell : ∀ id ∈ l.ids, s'.cell id = s.cell id) : s'.Holds l := by
  induction h with
  | missing => exact .missing
  | @node id info shape bound cell distinct _ ih =>
    have hroot : s'.cell id = s.cell id := hcell id (by simp)
    refine .node (Nat.lt_of_lt_of_le bound hsize) (hroot.trans cell) distinct fun l hl ↦ ?_
    exact ih l hl fun i hi ↦ hcell i (mem_ids_of_mem_child hl hi)

/-- A layout is still held after a change of a node that is not in it. -/
theorem modifyShape (h : s.Holds l) (hid : id ∉ l.ids)
    (f : Shape (Option NodeId) → Shape (Option NodeId)) : (s.modifyShape id f).Holds l :=
  h.frame (Nat.le_of_eq (size_modifyShape s id f).symm) fun _ hi ↦
    cell_modifyShape_of_ne fun he ↦ hid (he ▸ hi)

/-- The tree of a layout is read at its root. -/
theorem treeTo_eq (h : s.Holds l) (hn : l.tree.height ≤ n) : s.treeTo n l.root? = l.tree := by
  induction h generalizing n with
  | missing => exact treeTo_none s n
  | @node id info shape bound cell distinct _ ih =>
    rw [tree_node] at hn ⊢
    obtain ⟨n, rfl⟩ := Nat.exists_eq_add_one.mpr
      (Nat.lt_of_lt_of_le (Tree.height_node_pos _ _) hn)
    rw [root?, treeTo, cell, Shape.mapChildren_mapChildren]
    congr 1
    apply Shape.mapChildren_congr
    intro l hl
    rw [Tree.height_node_le_iff, Shape.forall_mem_mapChildren] at hn
    exact ih l hl (hn l hl)

end Holds

/-- The store holds the layout, and no node occurs in it twice. -/
structure Stands (s : Store) (l : Layout) : Prop where
  holds : s.Holds l
  unshared : l.ids.Nodup

namespace Stands

/-- Nothing stands anywhere. -/
theorem missing (s : Store) : s.Stands .missing := ⟨.missing, List.nodup_nil⟩

/-- The store has as many nodes as the layout at least. -/
theorem length_ids_le (h : s.Stands l) : l.ids.length ≤ s.size := by
  have hnodup : (l.ids.map NodeId.index).Nodup :=
    List.Nodup.map (fun i j hij ↦ by cases i; cases j; exact congrArg NodeId.mk hij) h.unshared
  have hsub : l.ids.map NodeId.index ⊆ List.range s.size := by
    intro i hi
    obtain ⟨id, hid, rfl⟩ := List.mem_map.mp hi
    exact List.mem_range.mpr (h.holds.lt_size id hid)
  simpa using (hnodup.subperm hsub).length_le

/-- The tree at the root of a layout is the tree of the layout. -/
theorem tree_eq (h : s.Stands l) : s.tree l.root? = l.tree :=
  h.holds.treeTo_eq (Nat.le_trans l.height_tree_le h.length_ids_le)

end Stands

end Store

end Hil
