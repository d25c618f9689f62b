import Hil.Proofs.Store.Layout
import Hil.Walk.Rules
import Mathlib.Data.List.Flatten

/-!
# Deletions

Two visitors that keep or delete nodes leave a part of the layout that they are called for. Which
nodes are deleted is decided from the leaves up, since a node that loses all the children of its
list is deleted as well; which nodes are reached is decided from the root down.
-/

namespace Hil

/-- An occurrence of a node in a layout, with the nodes above it from the root down and its slot in
the last of them, if it is in one. -/
structure Occurrence where
  ancestors : List NodeId
  slot : Option Slot
  id : NodeId
  here : Layout

/-- Which nodes the visitors of each phase delete. -/
abbrev Deletions := Phase → NodeId → Bool

namespace Layout

/-- The occurrences in the layout below the ancestors, in the order in which a walk comes to them
and leaves them: a node comes before all that is below it, and is left after it. -/
def tourFrom : Layout → List NodeId → Option Slot → List (Phase × Occurrence) :=
  fold (fun _ _ ↦ []) fun id info shape ancestors slot ↦
    let occurrence : Occurrence := ⟨ancestors, slot, id, .node id info (shape.mapChildren Prod.fst)⟩
    (.pre, occurrence) ::
      (shape.slotted.flatMap fun child ↦ child.2.2 (ancestors ++ [id]) child.1) ++
        [(.post, occurrence)]

/-- The occurrences in the layout, in the order in which a walk comes to them and leaves them. -/
def tour (l : Layout) : List (Phase × Occurrence) := l.tourFrom [] none

/-- The layout without the nodes that are deleted: those of which it is decided, and those that lose
all the children of their list. What is left keeps its order, and its keys. -/
def pruned (d : Deletions) : Layout → Layout :=
  fold .missing fun id info shape ↦
    let left := shape.mapChildren Prod.snd
    if d .pre id || left.emptied isMissing || d .post id then .missing
    else .node id info (left.compact isMissing)

/-- Whether the root of a layout is deleted. -/
def deleted (d : Deletions) (l : Layout) : Bool := (l.pruned d).isMissing

/-- Whether the root of a layout loses all the children of its list, of which it has one at least.
-/
def emptied (d : Deletions) : Layout → Bool
  | missing => false
  | node _ _ shape => shape.emptied (deleted d)

end Layout

namespace Occurrence

/-- Whether the first visitor is called with the node. -/
def entered (d : Deletions) (o : Occurrence) : Bool := o.ancestors.all fun id ↦ !d .pre id

/-- Whether the first visitor deletes no node on the path from the root to the node. -/
def reached (d : Deletions) (o : Occurrence) : Bool := o.entered d && !d .pre o.id

/-- Whether the visitor of the phase is called with the node. -/
def called (d : Deletions) (o : Occurrence) : Phase → Bool
  | .pre => o.entered d
  | .post => o.reached d && !o.here.emptied d

/-- The slot that a walk finds lost when it leaves the node: its parent is reached and cannot do
without the node, which is deleted. -/
def lost? (d : Deletions) (o : Occurrence) : Phase → Option Slot
  | .pre => none
  | .post => if o.entered d && o.here.deleted d then o.slot else none

end Occurrence

/-- The calls of visitors at occurrences, in their order. -/
def callsAt (d : Deletions) (visits : List (Phase × Occurrence)) : List (Phase × NodeId) :=
  (visits.filter fun v ↦ v.2.called d v.1).map fun v ↦ (v.1, v.2.id)

namespace Layout

variable {d : Deletions} {id : NodeId} {info : NodeInfo} {shape : Shape Layout} {l : Layout}
  {ancestors : List NodeId} {slot : Option Slot}

/-! ### Tours -/

/-- A tour comes to a node, goes through its children and leaves the node. -/
theorem tourFrom_node : (node id info shape).tourFrom ancestors slot =
    (.pre, ⟨ancestors, slot, id, node id info shape⟩) ::
      (shape.slotted.flatMap fun child ↦ child.2.tourFrom (ancestors ++ [id]) child.1) ++
        [(.post, ⟨ancestors, slot, id, node id info shape⟩)] := by
  have hshape : (shape.mapChildren fun l ↦ (l, tourFrom l)).mapChildren Prod.fst = shape := by
    rw [Shape.mapChildren_mapChildren]
    exact Shape.mapChildren_eq_self_iff.mpr fun _ _ ↦ rfl
  rw [tourFrom, fold_node, ← tourFrom]
  simp only [hshape, Shape.slotted_mapChildren, List.flatMap_map, Prod.map]
  rfl

/-- A tour of a node comes to the node and to all that a tour of a child of it comes to. -/
theorem mem_tourFrom_node {v : Phase × Occurrence} :
    v ∈ (node id info shape).tourFrom ancestors slot ↔
      v.2 = ⟨ancestors, slot, id, node id info shape⟩ ∨
        ∃ child ∈ shape.slotted, v ∈ child.2.tourFrom (ancestors ++ [id]) child.1 := by
  obtain ⟨phase, o⟩ := v
  rw [tourFrom_node, List.mem_append, List.mem_cons, List.mem_flatMap, List.mem_singleton]
  cases phase <;> simp [or_comm]

/-- A tour comes to nodes of the layout only. -/
theorem id_mem_ids {v : Phase × Occurrence} (h : v ∈ l.tourFrom ancestors slot) :
    v.2.id ∈ l.ids := by
  induction l generalizing ancestors slot with
  | missing => cases h
  | node id info shape ih =>
    rcases mem_tourFrom_node.mp h with ho | ⟨child, hchild, hv⟩
    · rw [ho, ids_node]
      exact List.mem_cons_self
    · have hmem := Shape.mem_children_of_mem_slotted hchild
      exact mem_ids_of_mem_child hmem (ih child.2 hmem hv)

/-- A tour of a layout in which no node occurs twice comes to each node once and leaves it once. -/
theorem nodup_tourFrom (h : l.ids.Nodup) (ancestors : List NodeId) (slot : Option Slot) :
    ((l.tourFrom ancestors slot).map fun v ↦ (v.1, v.2.id)).Nodup := by
  induction l generalizing ancestors slot with
  | missing => exact List.nodup_nil
  | node id info shape ih =>
    have hinside (child : Option Slot × Layout) (call : Phase × NodeId)
        (hcall : call ∈ (child.2.tourFrom (ancestors ++ [id]) child.1).map fun v ↦ (v.1, v.2.id)) :
        call.2 ∈ child.2.ids := by
      obtain ⟨v, hv, rfl⟩ := List.mem_map.mp hcall
      exact id_mem_ids hv
    have hchildren := h
    rw [ids_node, List.nodup_cons, ← Shape.map_snd_slotted, List.flatMap_map,
      List.nodup_flatMap] at hchildren
    obtain ⟨hid, -, hapart⟩ := hchildren
    have hothers : ((shape.slotted.flatMap fun child ↦
        (child.2.tourFrom (ancestors ++ [id]) child.1).map fun v ↦ (v.1, v.2.id))).Nodup := by
      refine List.nodup_flatMap.mpr
        ⟨fun child hchild ↦ ?_, hapart.imp fun {a b} hab call ha hb ↦ ?_⟩
      · have hmem := Shape.mem_children_of_mem_slotted hchild
        exact ih child.2 hmem (nodup_ids_child h hmem) _ _
      · exact hab (hinside a call ha) (hinside b call hb)
    have hnot (phase : Phase) : (phase, id) ∉ shape.slotted.flatMap fun child ↦
        (child.2.tourFrom (ancestors ++ [id]) child.1).map fun v ↦ (v.1, v.2.id) := by
      intro hmem
      obtain ⟨child, hchild, hcall⟩ := List.mem_flatMap.mp hmem
      exact hid (List.mem_flatMap.mpr ⟨child, hchild, hinside child _ hcall⟩)
    rw [tourFrom_node, List.map_append, List.map_cons, List.map_flatMap, List.nodup_append]
    refine ⟨List.nodup_cons.mpr ⟨hnot .pre, hothers⟩, List.nodup_singleton _, ?_⟩
    intro call hcall last hlast heq
    rw [heq, List.mem_singleton.mp hlast] at hcall
    rcases List.mem_cons.mp hcall with hpre | hpost
    · cases hpre
    · exact hnot .post hpost

/-! ### What is left -/

/-- A node that is not deleted stays above what is left of its children. -/
theorem pruned_node : (node id info shape).pruned d =
    if d .pre id || (node id info shape).emptied d || d .post id then missing
    else node id info ((shape.mapChildren (pruned d)).compact isMissing) := by
  have hemptied : (shape.mapChildren (pruned d)).emptied isMissing = shape.emptied (deleted d) := by
    rw [Shape.emptied_mapChildren]
    rfl
  rw [pruned, fold_node, ← pruned, Shape.mapChildren_mapChildren]
  simp only [emptied, ← hemptied]
  rfl

/-- A node is deleted exactly if the first visitor deletes it, it is emptied, or the second visitor
deletes it. -/
theorem deleted_node : (node id info shape).deleted d =
    (d .pre id || (node id info shape).emptied d || d .post id) := by
  rw [deleted, pruned_node]
  cases h : d .pre id || (node id info shape).emptied d || d .post id <;> simp [isMissing]

/-- The root is left unless it is deleted. -/
theorem root?_pruned : (l.pruned d).root? = if l.deleted d then none else l.root? := by
  cases l with
  | missing => rfl
  | node id info shape =>
    rw [deleted_node, pruned_node]
    cases d .pre id || (node id info shape).emptied d || d .post id <;> rfl

/-- That is so of all nodes that a tour comes to. -/
theorem deleted_here {v : Phase × Occurrence} (h : v ∈ l.tourFrom ancestors slot) :
    v.2.here.deleted d = (d .pre v.2.id || v.2.here.emptied d || d .post v.2.id) := by
  induction l generalizing ancestors slot with
  | missing => cases h
  | node id info shape ih =>
    rcases mem_tourFrom_node.mp h with ho | ⟨child, hchild, hv⟩
    · rw [ho]
      exact deleted_node
    · exact ih child.2 (Shape.mem_children_of_mem_slotted hchild) hv

/-- What is left of a layout has nodes of the layout only, in their order. -/
theorem ids_pruned_sublist (d : Deletions) (l : Layout) : (l.pruned d).ids.Sublist l.ids := by
  induction l with
  | missing => exact .slnil
  | node id info shape ih =>
    rw [pruned_node]
    split
    · exact List.nil_sublist _
    · rw [ids_node, ids_node]
      refine .cons_cons id ?_
      refine ((Shape.children_compact_sublist _ _).flatMap ids).trans ?_
      rw [Shape.children_mapChildren, List.flatMap_map]
      exact List.Sublist.flatMap_right _ ih

end Layout

/-- In a layout in which no node occurs twice, each visitor is called with a node once at most. -/
theorem nodup_callsAt_tour {l : Layout} (d : Deletions) (h : l.ids.Nodup) :
    (callsAt d l.tour).Nodup :=
  (Layout.nodup_tourFrom h [] none).sublist (List.filter_sublist.map _)

end Hil
