import Hil.Tree
import Hil.Proofs.Shape.Relation

/-!
# Properties of all nodes

Induction over trees, properties that hold at every node of a tree, the height of a tree, and what
its nodes show in the order of a walk. A well-formed tree has no missing nodes, only classes that
traversals know, and only expressions below expressions.
-/

namespace Hil

namespace Shape

variable {α β γ : Type}

/-- What `mapChildren` makes of a shape depends only on the children that are there. -/
theorem mapChildren_congr {f g : α → β} {s : Shape α} (h : ∀ a ∈ s.children, f a = g a) :
    s.mapChildren f = s.mapChildren g :=
  (rel_self (R := Eq) fun _ _ ↦ rfl).mapChildren_eq fun a ha _ _ hab ↦ hab ▸ h a ha

/-- What holds of all mapped children holds of the results for all children. -/
theorem forall_mem_mapChildren {P : β → Prop} {f : α → β} {s : Shape α} :
    (∀ b ∈ (s.mapChildren f).children, P b) ↔ ∀ a ∈ s.children, P (f a) := by
  rw [children_mapChildren, List.forall_mem_map]

/-- Mapping twice is mapping by the composition. -/
theorem mapChildren_mapChildren (f : α → β) (g : β → γ) (s : Shape α) :
    (s.mapChildren f).mapChildren g = s.mapChildren (g ∘ f) := by
  apply rel_eq_iff.mp
  rw [rel_map_left_iff, rel_map_left_iff, rel_map_right_iff]
  exact rel_self fun _ _ ↦ rfl

/-- Mapping leaves a shape as it is exactly if it leaves the children as they are. -/
theorem mapChildren_eq_self_iff {f : α → α} {s : Shape α} :
    s.mapChildren f = s ↔ ∀ a ∈ s.children, f a = a := by
  rw [← rel_eq_iff, rel_map_left_iff]
  exact ⟨fun h ↦ List.forall₂_same.mp h.children, rel_self⟩

/-- A shape with mapped children has the same outline. -/
theorem outline_mapChildren (f : α → β) (s : Shape α) : (s.mapChildren f).outline = s.outline :=
  mapChildren_mapChildren f _ s

/-- The outline of a shape is known to traversals exactly if the shape is. -/
theorem isTraversable_outline (s : Shape α) : s.outline.isTraversable = s.isTraversable := by
  cases s <;> rfl

end Shape

namespace Tree

/-- Every tree is missing or a node above smaller trees. -/
@[elab_as_elim, induction_eliminator]
theorem induct {P : Tree → Prop} (missing : P .missing)
    (node : ∀ info shape, (∀ t ∈ shape.children, P t) → P (.node info shape)) (t : Tree) : P t := by
  refine @Tree.rec P (fun shape ↦ ∀ t ∈ shape.children, P t) (fun ts ↦ ∀ t ∈ ts, P t)
    (fun es ↦ ∀ t ∈ es.map Prod.snd, P t) (fun e ↦ P e.2)
    missing node ?_ ?_ ?_ ?_ ?_ ?_ ?_ ?_ ?_ ?_ ?_ ?_ ?_ ?_ ?_ t <;>
    simp +contextual [Shape.children]

/-! ### Height -/

/-- The number of nodes on the longest path from the root; a missing tree has none. -/
def height : Tree → Nat := fold 0 fun _ shape ↦ shape.children.foldr max 0 + 1

private theorem foldr_max_le_iff {xs : List Nat} {n : Nat} :
    xs.foldr max 0 ≤ n ↔ ∀ x ∈ xs, x ≤ n := by
  induction xs with
  | nil => simp
  | cons x xs ih => rw [List.foldr_cons, Nat.max_le, ih, List.forall_mem_cons]

/-- A node is at most so high exactly if its children are lower by one. -/
theorem height_node_le_iff {info : NodeInfo} {shape : Shape Tree} {n : Nat} :
    (node info shape).height ≤ n + 1 ↔ ∀ t ∈ shape.children, t.height ≤ n := by
  rw [height, fold_node, Nat.add_le_add_iff_right, Shape.children_mapChildren, foldr_max_le_iff]
  simp

/-- Every node has a height above zero. -/
theorem height_node_pos (info : NodeInfo) (shape : Shape Tree) : 0 < (node info shape).height := by
  rw [height, fold_node]
  exact Nat.succ_pos _

/-- A child is lower than its parent. -/
theorem height_lt_of_mem {info : NodeInfo} {shape : Shape Tree} {t : Tree}
    (h : t ∈ shape.children) : t.height < (node info shape).height := by
  obtain ⟨n, hn⟩ := Nat.exists_eq_add_one.mpr (height_node_pos info shape)
  have ht := height_node_le_iff.mp (Nat.le_of_eq hn) t h
  omega

/-! ### What nodes show -/

/-- What a node shows besides its children. -/
structure Label where
  info : NodeInfo
  outline : Shape Unit

/-- Whether traversals know the class of the node. -/
def Label.isKnown (label : Label) : Bool := label.outline.isTraversable

/-- The labels of the nodes, each before those below it. -/
def labels : Tree → List Label :=
  fold [] fun info shape ↦ ⟨info, shape.outline⟩ :: shape.children.flatten

/-- The label of a node stands before the labels of its children. -/
theorem labels_node (info : NodeInfo) (shape : Shape Tree) :
    (node info shape).labels = ⟨info, shape.outline⟩ :: shape.children.flatMap labels := by
  rw [labels, fold_node, Shape.outline_mapChildren, Shape.children_mapChildren,
    List.flatMap_def]

/-! ### Properties of every node -/

/-- No node is missing, and each has the property, which may speak of the trees below the node. -/
inductive Everywhere (P : NodeInfo → Shape Tree → Prop) : Tree → Prop
  | node {info : NodeInfo} {shape : Shape Tree} (here : P info shape)
      (below : ∀ t ∈ shape.children, Everywhere P t) : Everywhere P (.node info shape)

namespace Everywhere

variable {P Q : NodeInfo → Shape Tree → Prop} {info : NodeInfo} {shape : Shape Tree} {t : Tree}

/-- The property holds at the root. -/
theorem root (h : Everywhere P (.node info shape)) : P info shape := by
  cases h with | node here _ => exact here

/-- The property holds everywhere in the children. -/
theorem child (h : Everywhere P (.node info shape)) (ht : t ∈ shape.children) : Everywhere P t := by
  cases h with | node _ below => exact below t ht

/-- A property that follows from another holds wherever that one does. -/
theorem imp (h : Everywhere P t) (hpq : ∀ info shape, P info shape → Q info shape) :
    Everywhere Q t := by
  induction h with
  | node here _ ih => exact .node (hpq _ _ here) ih

/-- Two properties that hold everywhere hold together. -/
theorem and (hp : Everywhere P t) (hq : Everywhere Q t) :
    Everywhere (fun info shape ↦ P info shape ∧ Q info shape) t := by
  induction hp with
  | node here _ ih => exact .node ⟨here, hq.root⟩ fun t ht ↦ ih t ht (hq.child ht)

/-- A property holds everywhere in a node exactly if it holds there and everywhere below. -/
theorem node_iff : Everywhere P (.node info shape) ↔
    P info shape ∧ ∀ t ∈ shape.children, Everywhere P t :=
  ⟨fun h ↦ ⟨h.root, fun _ ↦ h.child⟩, fun h ↦ .node h.1 h.2⟩

/-- A property of labels that holds everywhere holds of all labels. -/
theorem labels {P : Label → Prop} (h : Everywhere (fun info shape ↦ P ⟨info, shape.outline⟩) t) :
    ∀ label ∈ t.labels, P label := by
  induction h with
  | node here _ ih =>
    intro label hl
    rw [labels_node] at hl
    rcases List.mem_cons.mp hl with rfl | hl
    · exact here
    · obtain ⟨t, ht, hl⟩ := List.mem_flatMap.mp hl
      exact ih t ht label hl

end Everywhere

section Decide

variable (P : NodeInfo → Shape Tree → Prop) [∀ info shape, Decidable (P info shape)]

/-- The tree, and whether the property holds everywhere in it. -/
def checked : Tree → Tree × Bool :=
  fold (missing, false) fun info shape ↦
    (.node info (shape.mapChildren Prod.fst),
      decide (P info (shape.mapChildren Prod.fst)) && shape.children.all Prod.snd)

private theorem checked_fst (t : Tree) : (t.checked P).1 = t := by
  induction t with
  | missing => rfl
  | node info shape ih =>
    rw [checked, fold_node, ← checked, Shape.mapChildren_mapChildren]
    exact congrArg (node info) (Shape.mapChildren_eq_self_iff.mpr ih)

/-- The check finds out whether the property holds everywhere. -/
theorem checked_snd_iff (t : Tree) : (t.checked P).2 = true ↔ t.Everywhere P := by
  induction t with
  | missing => exact ⟨nofun, nofun⟩
  | node info shape ih =>
    have htree : (shape.mapChildren (checked P)).mapChildren Prod.fst = shape := by
      rw [Shape.mapChildren_mapChildren]
      exact Shape.mapChildren_eq_self_iff.mpr fun t _ ↦ checked_fst P t
    have hbelow : (shape.children.map (checked P)).all Prod.snd = true ↔
        ∀ t ∈ shape.children, t.Everywhere P := by
      rw [List.all_map, List.all_eq_true]
      exact forall₂_congr ih
    rw [checked, fold_node, ← checked, Everywhere.node_iff, ← hbelow, Bool.and_eq_true,
      Shape.children_mapChildren, decide_eq_true_iff, htree]

instance : DecidablePred (Everywhere P) := fun t ↦ decidable_of_iff _ (checked_snd_iff P t)

end Decide

/-- No node of the tree is missing. -/
def Present : Tree → Prop := Everywhere fun _ _ ↦ True

/-- What well-formed trees require of a node: a class that traversals know, keys that differ, and
only expressions below an expression. -/
structure Regular (shape : Shape Tree) : Prop where
  known : shape.isTraversable = true
  distinct : shape.keys.Nodup
  exprs : shape.isExpr = true → ∀ t ∈ shape.children, t.isExpr = true

instance (shape : Shape Tree) : Decidable (Regular shape) :=
  decidable_of_iff (shape.isTraversable = true ∧ shape.keys.Nodup ∧
      (shape.isExpr = true → ∀ t ∈ shape.children, t.isExpr = true))
    ⟨fun h ↦ ⟨h.1, h.2.1, h.2.2⟩, fun h ↦ ⟨h.known, h.distinct, h.exprs⟩⟩

/-- Every node is there and regular. -/
def WellFormed : Tree → Prop := Everywhere fun _ shape ↦ Regular shape

instance : DecidablePred WellFormed :=
  inferInstanceAs (DecidablePred (Everywhere fun _ shape ↦ Regular shape))

/-- Well-formed trees have no missing nodes. -/
theorem WellFormed.present {t : Tree} (h : t.WellFormed) : t.Present := h.imp fun _ _ _ ↦ trivial

/-- Regular nodes show classes that traversals know. -/
theorem WellFormed.isKnown {t : Tree} (h : t.WellFormed) :
    ∀ label ∈ t.labels, label.isKnown = true :=
  Everywhere.labels (h.imp fun _ shape hshape ↦ shape.isTraversable_outline.trans hshape.known)

/-- The root is of a class that no traversal knows. -/
def isForeign : Tree → Bool
  | missing => false
  | node _ shape => !shape.isTraversable

/-- What walks require of a node so that they come as far as the classes are known: keys that
differ, and below an expression only expressions and nodes of classes that no traversal knows. -/
structure Orderly (shape : Shape Tree) : Prop where
  distinct : shape.keys.Nodup
  exprs : shape.isExpr = true → ∀ t ∈ shape.children, t.isExpr = true ∨ t.isForeign = true

instance (shape : Shape Tree) : Decidable (Orderly shape) :=
  decidable_of_iff (shape.keys.Nodup ∧
      (shape.isExpr = true → ∀ t ∈ shape.children, t.isExpr = true ∨ t.isForeign = true))
    ⟨fun h ↦ ⟨h.1, h.2⟩, fun h ↦ ⟨h.distinct, h.exprs⟩⟩

/-- Every node is there and orderly. -/
def Walkable : Tree → Prop := Everywhere fun _ shape ↦ Orderly shape

instance : DecidablePred Walkable :=
  inferInstanceAs (DecidablePred (Everywhere fun _ shape ↦ Orderly shape))

/-- Regular nodes are orderly. -/
theorem WellFormed.walkable {t : Tree} (h : t.WellFormed) : t.Walkable :=
  h.imp fun _ _ hshape ↦ ⟨hshape.distinct, fun he t ht ↦ .inl (hshape.exprs he t ht)⟩

/-- Walkable trees have no missing nodes. -/
theorem Walkable.present {t : Tree} (h : t.Walkable) : t.Present := h.imp fun _ _ _ ↦ trivial

/-- What a walk is to visit: a well-formed tree of bounded height, an expression if it has to be. -/
structure Visitable (exprs : Bool) (n : Nat) (t : Tree) : Prop where
  wellFormed : t.WellFormed
  height : t.height ≤ n
  expr : exprs = true → t.isExpr = true

/-- Whatever has to be visited need not be an expression. -/
theorem Visitable.any {exprs : Bool} {n : Nat} {t : Tree} (h : Visitable exprs n t) :
    Visitable false n t := ⟨h.wellFormed, h.height, nofun⟩

/-- The children of a node are visited one level further down, expressions below expressions. -/
theorem Visitable.child {exprs : Bool} {n : Nat} {info : NodeInfo} {shape : Shape Tree}
    (h : Visitable exprs (n + 1) (node info shape)) :
    ∀ t ∈ shape.children, Visitable shape.isExpr n t := fun t ht ↦
  ⟨h.wellFormed.child ht, height_node_le_iff.mp h.height t ht,
    fun he ↦ h.wellFormed.root.exprs he t ht⟩

end Tree
end Hil
