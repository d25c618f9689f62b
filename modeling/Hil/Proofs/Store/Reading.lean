import Hil.Store
import Hil.Proofs.Tree.Everywhere
import Mathlib.Data.Fintype.Card
import Mathlib.Tactic.Choose

/-!
# Reading trees off a store

A tree stands at a node when it can be read off completely. A node has at most one such tree, which
`Store.tree` finds whenever the store has as many nodes as the tree is high. Well-formed trees are
still read after nodes have been added.
-/

namespace Hil.Store

variable {s s' : Store} {node : Option NodeId} {id : NodeId} {t : Tree} {info : NodeInfo}
  {shape : Shape Tree} {n m : Nat}

/-- The whole tree is read at the node, at some depth. -/
def Reads (s : Store) (node : Option NodeId) (t : Tree) : Prop :=
  t.Present ∧ ∃ depth, s.treeTo depth node = t

/-- Nothing is read where there is no node. -/
theorem treeTo_none (s : Store) (n : Nat) : s.treeTo n none = .missing := by
  cases n <;> rfl

/-- What is read down to a depth is at most so high. -/
theorem height_treeTo_le (s : Store) (n : Nat) (node : Option NodeId) :
    (s.treeTo n node).height ≤ n := by
  induction n generalizing node with
  | zero => cases node <;> simp [treeTo, Tree.height]
  | succ n ih =>
    cases node with
    | none => simp [treeTo, Tree.height]
    | some id =>
      rw [treeTo, Tree.height_node_le_iff, Shape.forall_mem_mapChildren]
      exact fun child _ ↦ ih child

/-- Reading further down than the whole tree gives the same tree. -/
theorem treeTo_of_height_le (h : (s.treeTo n node).Present)
    (hm : (s.treeTo n node).height ≤ m) : s.treeTo m node = s.treeTo n node := by
  induction n generalizing node m with
  | zero => cases node <;> simp only [treeTo] at h <;> cases h
  | succ n ih =>
    cases node with
    | none => simp only [treeTo] at h; cases h
    | some id =>
      rw [treeTo] at h hm ⊢
      have hpos : 0 < m := Nat.lt_of_lt_of_le (Tree.height_node_pos _ _) hm
      obtain ⟨m, rfl⟩ := Nat.exists_eq_add_one.mpr hpos
      rw [treeTo]
      congr 1
      apply Shape.mapChildren_congr
      intro child hc
      have hmem : s.treeTo n child ∈ ((s.cell id).shape.mapChildren (s.treeTo n)).children := by
        rw [Shape.children_mapChildren]
        exact List.mem_map_of_mem hc
      exact ih (h.child hmem) (Tree.height_node_le_iff.mp hm _ hmem)

/-- A tree that is read at a node is read down to any depth that is not below it. -/
theorem Reads.treeTo_eq (h : s.Reads node t) (hm : t.height ≤ m) : s.treeTo m node = t := by
  obtain ⟨hp, n, rfl⟩ := h
  exact treeTo_of_height_le hp hm

/-- At most one tree is read at a node. -/
theorem Reads.unique {t' : Tree} (h : s.Reads node t) (h' : s.Reads node t') : t = t' := by
  have ht := h.treeTo_eq (Nat.le_max_left t.height t'.height)
  exact ht.symm.trans (h'.treeTo_eq (Nat.le_max_right t.height t'.height))

/-- A tree is read at a node only, and is one. -/
theorem Reads.exists_node (h : s.Reads node t) :
    ∃ id info shape, node = some id ∧ t = .node info shape := by
  obtain ⟨hp, n, ht⟩ := h
  cases hp with
  | @node info shape here below =>
    cases node with
    | none => rw [treeTo_none] at ht; cases ht
    | some id => exact ⟨id, info, shape, rfl, rfl⟩

/-- A node is read when its cell holds what the node shows, and each child is read in its place. -/
theorem reads_node_iff : s.Reads (some id) (.node info shape) ↔
    (s.cell id).info = info ∧ Shape.Rel s.Reads (s.cell id).shape shape := by
  constructor
  · rintro ⟨hp, n, ht⟩
    cases n with
    | zero => cases ht
    | succ n =>
      rw [treeTo] at ht
      cases ht
      refine ⟨rfl, Shape.rel_mapChildren fun child hc ↦ ⟨hp.child ?_, n, rfl⟩⟩
      rw [Shape.children_mapChildren]
      exact List.mem_map_of_mem hc
  · rintro ⟨rfl, hr⟩
    obtain ⟨n, hn⟩ := Nat.exists_eq_add_one.mpr (Tree.height_node_pos (s.cell id).info shape)
    have hchild : Shape.Rel (fun child t ↦ s.treeTo n child = t ∧ t.Present)
        (s.cell id).shape shape :=
      hr.imp_mem fun _ _ t ht h ↦
        ⟨h.treeTo_eq (Tree.height_node_le_iff.mp (Nat.le_of_eq hn) t ht), h.1⟩
    refine ⟨.node trivial fun t ht ↦ ?_, n + 1, ?_⟩
    · obtain ⟨child, _, h⟩ := hchild.exists_left ht
      exact h.2
    · rw [treeTo]
      congr 1
      exact Shape.rel_eq_iff.mp (Shape.rel_map_left_iff.mpr (hchild.imp fun _ _ h ↦ h.1))

/-- A tree without missing nodes is read at the node that it stands at. -/
theorem reads_tree (h : (s.tree node).Present) : s.Reads node (s.tree node) := ⟨h, s.size, rfl⟩

/-- A tree that is read and is not higher than the store is large is the tree at the node. -/
theorem Reads.tree_eq (h : s.Reads node t) (hs : t.height ≤ s.size) : s.tree node = t :=
  h.treeTo_eq hs

/-- What is read at a node shows what its cell holds. -/
theorem Reads.cellOf (h : s.Reads node (.node info shape)) :
    (s.cellOf node).info = info ∧ Shape.Rel s.Reads (s.cellOf node).shape shape := by
  obtain ⟨id, _, _, rfl, _⟩ := h.exists_node
  exact reads_node_iff.mp h

/-- Only nodes of the store are of a class that traversals know. -/
theorem lt_size_of_isTraversable (h : (s.cell id).shape.isTraversable = true) :
    id.index < s.size := by
  by_contra hid
  have hcells : s.cells[id.index]? = none := Array.getElem?_eq_none (Nat.not_lt.mp hid)
  have habsent : s.cell id = Cell.absent := by
    simp [Store.cell, Array.getD_eq_getD_getElem?, hcells]
  rw [habsent] at h
  cases h

/-- A well-formed tree is read at nodes of the store only. -/
theorem Reads.lt_size (h : s.Reads (some id) t) (hw : t.WellFormed) : id.index < s.size := by
  obtain ⟨_, info, shape, _, rfl⟩ := h.exists_node
  exact lt_size_of_isTraversable ((reads_node_iff.mp h).2.isTraversable_eq.trans hw.root.known)

/-! ### Heights -/

private theorem Reads.exists_height_eq (h : s.Reads node t) (hw : t.WellFormed)
    (hn : n < t.height) :
    ∃ id u, id.index < s.size ∧ s.Reads (some id) u ∧ u.height = n + 1 := by
  induction t generalizing node with
  | missing => cases hw
  | node info shape ih =>
    obtain ⟨id, _, _, rfl, _⟩ := h.exists_node
    by_cases hlow : ∀ t ∈ shape.children, t.height ≤ n
    · exact ⟨id, _, h.lt_size hw, h, Nat.le_antisymm (Tree.height_node_le_iff.mpr hlow) hn⟩
    · push Not at hlow
      obtain ⟨t, ht, hnt⟩ := hlow
      obtain ⟨child, _, hc⟩ := (reads_node_iff.mp h).2.exists_left ht
      exact ih t ht hc (hw.child ht) hnt

/-- A well-formed tree is at most as high as the store is large, since the trees at the nodes of a
path from its root differ in height. -/
theorem Reads.height_le_size (h : s.Reads node t) (hw : t.WellFormed) : t.height ≤ s.size := by
  choose place u hlt hu hheight using fun n : Fin t.height ↦ h.exists_height_eq hw n.isLt
  have hinjective : Function.Injective fun n ↦ (⟨(place n).index, hlt n⟩ : Fin s.size) := by
    intro n m hnm
    have hplace : place n = place m := NodeId.mk.injEq .. ▸ Fin.mk.inj hnm
    have hnu := hu n
    rw [hplace] at hnu
    have hsame : (n : Nat) + 1 = m + 1 := by rw [← hheight, ← hheight, hnu.unique (hu m)]
    exact Fin.ext (Nat.succ.inj hsame)
  simpa using Fintype.card_le_of_injective _ hinjective

/-- A well-formed tree that is read at a node is the tree at the node. -/
theorem Reads.tree_eq_of_wellFormed (h : s.Reads node t) (hw : t.WellFormed) : s.tree node = t :=
  h.tree_eq (h.height_le_size hw)

/-! ### Nodes of a tree -/

/-- A node occurs in what stands at another. -/
inductive Occurs (s : Store) : Option NodeId → NodeId → Prop
  | root (id : NodeId) : Occurs s (some id) id
  | child {id n : NodeId} {child : Option NodeId} (mem : child ∈ (s.cell id).shape.children)
      (occurs : Occurs s child n) : Occurs s (some id) n

/-- What occurs at a node that occurs in a tree occurs in the tree. -/
theorem Occurs.trans {other : NodeId} (h : s.Occurs node id) (h' : s.Occurs (some id) other) :
    s.Occurs node other := by
  induction h with
  | root id => exact h'
  | child mem _ ih => exact .child mem (ih h')

/-- At a node that occurs in a tree a part of the tree is read, with every property that holds
everywhere in the tree. -/
theorem Occurs.exists_reads {P : NodeInfo → Shape Tree → Prop} (h : s.Occurs node id)
    (hr : s.Reads node t) (ht : t.Everywhere P) :
    ∃ info shape, s.Reads (some id) (.node info shape) ∧
      (Tree.node info shape).Everywhere P := by
  induction h generalizing t with
  | root id =>
    obtain ⟨_, info, shape, _, rfl⟩ := hr.exists_node
    exact ⟨info, shape, hr, ht⟩
  | child mem _ ih =>
    obtain ⟨_, info, shape, _, rfl⟩ := hr.exists_node
    obtain ⟨u, hu, hc⟩ := (reads_node_iff.mp hr).2.flip.exists_left mem
    exact ih hc (ht.child hu)

/-! ### Added nodes -/

/-- The second store has all nodes of the first, as they are there. -/
structure Extends (s s' : Store) : Prop where
  size : s.size ≤ s'.size
  cell : ∀ id : NodeId, id.index < s.size → s'.cell id = s.cell id

namespace Extends

/-- Every store extends itself. -/
theorem refl (s : Store) : s.Extends s := ⟨Nat.le_refl _, fun _ _ ↦ rfl⟩

/-- An extension of an extension is one. -/
theorem trans {s'' : Store} (h : s.Extends s') (h' : s'.Extends s'') : s.Extends s'' where
  size := Nat.le_trans h.size h'.size
  cell id hid := (h'.cell id (Nat.lt_of_lt_of_le hid h.size)).trans (h.cell id hid)

/-- A store to which a node is added extends what it was. -/
theorem add (s : Store) (cell : Cell) : s.Extends (s.add cell).2 where
  size := by simp [Store.add, Store.size]
  cell id hid := cell_add_of_lt s cell id hid

/-- A well-formed tree is still read in an extension. -/
theorem reads (h : s.Extends s') (hr : s.Reads node t) (hw : t.WellFormed) : s'.Reads node t := by
  induction t generalizing node with
  | missing => cases hw
  | node info shape ih =>
    obtain ⟨id, _, _, rfl, _⟩ := hr.exists_node
    have hcell := h.cell id (hr.lt_size hw)
    rw [reads_node_iff] at hr ⊢
    rw [hcell]
    exact ⟨hr.1, hr.2.imp_mem fun child _ t ht hc ↦ ih t ht hc (hw.child ht)⟩

end Extends

end Hil.Store
