import Hil.Proofs.Dependencies.References
import Hil.Proofs.Folding.Tree

/-!
# References of folded trees

Folding a conditional leaves one of its branches, and nothing else that folding removes refers to an
entity. So a folded tree has the references of the tree outside of the branches that are not
selected, in their order. A reference is placed by the path that leads to it, which is the list of
the positions of children on the way.
-/

namespace Hil.Tree

variable {info : NodeInfo} {shape : Shape Tree} {t : Tree} {entry : EntryRef} {path : List Nat}

/-! ### Paths -/

/-- The tree that a path leads to. -/
def at? : Tree → List Nat → Option Tree
  | t, [] => some t
  | t, i :: path => t.children[i]?.bind fun child => child.at? path

/-- The path leads to a node that refers to the entity. -/
def RefersAt (t : Tree) (entry : EntryRef) (path : List Nat) : Prop :=
  ∃ info shape, t.at? path = some (.node info shape) ∧ shape.entity? = some entry

private theorem refersAt_nil_iff :
    (node info shape).RefersAt entry [] ↔ shape.entity? = some entry := by
  constructor
  · rintro ⟨_, _, ⟨⟩, h⟩
    exact h
  · intro h
    exact ⟨info, shape, rfl, h⟩

/-- A longer path leads to where its rest leads to from a child. -/
theorem refersAt_cons_iff {i : Nat} : t.RefersAt entry (i :: path) ↔
    ∃ child, t.children[i]? = some child ∧ child.RefersAt entry path := by
  simp only [RefersAt, at?, Option.bind_eq_some_iff]
  constructor
  · rintro ⟨info, shape, ⟨child, hchild, hat⟩, h⟩
    exact ⟨child, hchild, info, shape, hat, h⟩
  · rintro ⟨child, hchild, info, shape, hat, h⟩
    exact ⟨info, shape, ⟨child, hchild, hat⟩, h⟩

/-- Nothing refers to an entity where there is no node. -/
theorem not_refersAt_missing : ¬ missing.RefersAt entry path := by
  cases path with
  | nil => rintro ⟨_, _, ⟨⟩, _⟩
  | cons i path =>
    rw [refersAt_cons_iff]
    rintro ⟨_, ⟨⟩, _⟩

/-- The references of a tree are those that paths lead to. -/
theorem mem_references_iff : entry ∈ t.references ↔ ∃ path, t.RefersAt entry path := by
  induction t with
  | missing => exact ⟨nofun, fun ⟨_, h⟩ ↦ absurd h not_refersAt_missing⟩
  | node info shape ih =>
    rw [references_node, List.mem_append, Option.mem_toList, List.mem_flatMap]
    constructor
    · rintro (h | ⟨child, hchild, h⟩)
      · exact ⟨[], refersAt_nil_iff.mpr h⟩
      · obtain ⟨path, hpath⟩ := (ih child hchild).mp h
        obtain ⟨i, hi⟩ := List.mem_iff_getElem?.mp hchild
        exact ⟨i :: path, refersAt_cons_iff.mpr ⟨child, hi, hpath⟩⟩
    · rintro ⟨path, h⟩
      cases path with
      | nil => exact .inl (refersAt_nil_iff.mp h)
      | cons i path =>
        obtain ⟨child, hchild, hpath⟩ := refersAt_cons_iff.mp h
        have hmem : child ∈ shape.children := List.mem_of_getElem? hchild
        exact .inr ⟨child, hmem, (ih child hmem).mpr ⟨path, hpath⟩⟩

/-! ### Branches that are not selected -/

/-- The truth value of a condition that folds to a literal of type bool. -/
def decision? (condition : Tree) : Option Bool := condition.folded.condition?.map Literal.isTruthy

/-- The position of the branch that a conditional does not select. -/
def unselected? : Shape Tree → Option Nat
  | .conditional _ condition _ _ =>
    condition.decision?.map fun selected => if selected then 2 else 1
  | _ => none

/-- The path leads into a branch that is not selected. -/
inductive Discards : Tree → List Nat → Prop
  | here {info : NodeInfo} {shape : Shape Tree} {i : Nat} {path : List Nat}
      (unselected : unselected? shape = some i) : Discards (.node info shape) (i :: path)
  | child {t child : Tree} {i : Nat} {path : List Nat} (there : t.children[i]? = some child)
      (inside : Discards child path) : Discards t (i :: path)

/-- A conditional without the branch that it does not select; other nodes are as they were. -/
def eraseUnselected : Shape Tree → Shape Tree
  | .conditional type condition whenTrue whenFalse =>
    .conditional type condition
      (if condition.decision? = some false then missing else whenTrue)
      (if condition.decision? = some true then missing else whenFalse)
  | shape => shape

/-- Erasing branches keeps the entity. -/
@[simp] theorem entity?_eraseUnselected (shape : Shape Tree) :
    (eraseUnselected shape).entity? = shape.entity? := by
  cases shape <;> rfl

/-- A node that has no branch to erase is as it was. -/
theorem eraseUnselected_eq_self (h : unselected? shape = none) : eraseUnselected shape = shape := by
  cases shape with
  | conditional type c t f =>
    rw [unselected?, Option.map_eq_none_iff] at h
    simp [eraseUnselected, h]
  | _ => rfl

/-- The tree without the branches that are not selected. Erasing comes to a conditional after its
condition, which decides as before (`decision?_erased`). -/
def erased : Tree → Tree := fold missing fun info shape => .node info (eraseUnselected shape)

/-- A branch is erased after what is below it. -/
theorem erased_node (info : NodeInfo) (shape : Shape Tree) :
    (node info shape).erased = .node info (eraseUnselected (shape.mapChildren erased)) :=
  fold_node ..

/-- Folding a conditional with a decision gives the branch that it selects. -/
theorem folded_conditional (info : NodeInfo) (type : Option Annotation) (c t f : Tree) :
    (node info (.conditional type c t f)).folded = match c.decision? with
      | some true => t.folded
      | some false => f.folded
      | none => .node info (.conditional type c.folded t.folded f.folded) := by
  rw [folded_node, Shape.mapChildren, foldRoot, decision?]
  cases c.folded.condition? with
  | none => rfl
  | some value =>
    cases hv : value.isTruthy <;> simp [hv]

/-- Folding does not see what is erased. -/
theorem folded_erased (t : Tree) : t.erased.folded = t.folded := by
  induction t with
  | missing => rfl
  | node info shape ih =>
    rw [erased_node]
    cases shape with
    | conditional type c t f =>
      have hc := ih c (by simp [Shape.children])
      have ht := ih t (by simp [Shape.children])
      have hf := ih f (by simp [Shape.children])
      have hdecision : c.erased.decision? = c.decision? := by rw [decision?, hc, decision?]
      rw [Shape.mapChildren, eraseUnselected, folded_conditional, folded_conditional, hdecision]
      rcases c.decision? with _ | _ | _ <;> simp [hc, ht, hf]
    | _ =>
      rw [eraseUnselected_eq_self, folded_node, folded_node, Shape.mapChildren_mapChildren]
      · exact congrArg _ (Shape.mapChildren_congr ih)
      · rfl

private theorem decision?_erased (c : Tree) : c.erased.decision? = c.decision? := by
  rw [decision?, folded_erased, decision?]

private theorem getElem?_children_erased (shape : Shape Tree) (i : Nat) :
    (eraseUnselected (shape.mapChildren erased)).children[i]? =
      if unselected? shape = some i then some missing else shape.children[i]?.map erased := by
  cases shape with
  | conditional type c t f =>
    rw [Shape.mapChildren, eraseUnselected, unselected?, decision?_erased]
    rcases i with _ | _ | _ | i <;> rcases c.decision? with _ | _ | _ <;> simp [Shape.children]
  | _ =>
    rw [eraseUnselected_eq_self, Shape.children_mapChildren, List.getElem?_map, if_neg]
    · rintro ⟨⟩
    · rfl

/-- A path leads to a reference of the erased tree exactly if it leads to the same in the tree and
not into a branch that is not selected. -/
theorem refersAt_erased_iff :
    t.erased.RefersAt entry path ↔ t.RefersAt entry path ∧ ¬ t.Discards path := by
  induction path generalizing t with
  | nil =>
    cases t with
    | missing => exact ⟨fun h ↦ absurd h not_refersAt_missing, fun h ↦ h.1⟩
    | node info shape =>
      rw [erased_node, refersAt_nil_iff, refersAt_nil_iff, entity?_eraseUnselected,
        Shape.entity?_mapChildren]
      exact ⟨fun h ↦ ⟨h, nofun⟩, fun h ↦ h.1⟩
  | cons i path ih =>
    cases t with
    | missing => exact ⟨fun h ↦ absurd h not_refersAt_missing, fun h ↦ h.1⟩
    | node info shape =>
      rw [erased_node, refersAt_cons_iff, refersAt_cons_iff, children, getElem?_children_erased]
      constructor
      · rintro ⟨child', hchild', h⟩
        split at hchild'
        · obtain rfl := Option.some.inj hchild'
          exact absurd h not_refersAt_missing
        · next hselected =>
          obtain ⟨child, hchild, rfl⟩ := Option.map_eq_some_iff.mp hchild'
          obtain ⟨hrefers, hkept⟩ := ih.mp h
          refine ⟨⟨child, hchild, hrefers⟩, fun hd ↦ ?_⟩
          cases hd with
          | here unselected => exact hselected unselected
          | child there inside =>
            obtain rfl := Option.some.inj (hchild.symm.trans there)
            exact hkept inside
      · rintro ⟨⟨child, hchild, hrefers⟩, hkept⟩
        have hselected : unselected? shape ≠ some i := fun hu ↦ hkept (.here hu)
        refine ⟨child.erased, ?_, ih.mpr ⟨hrefers, fun hd ↦ hkept (.child hchild hd)⟩⟩
        rw [if_neg hselected]
        exact Option.map_eq_some_iff.mpr ⟨child, hchild, rfl⟩

/-- The references of the erased tree are those that paths lead to outside of branches that are not
selected. -/
theorem mem_references_erased_iff :
    entry ∈ t.erased.references ↔ ∃ path, t.RefersAt entry path ∧ ¬ t.Discards path := by
  rw [mem_references_iff]
  exact exists_congr fun _ ↦ refersAt_erased_iff

/-! ### Folded trees -/

/-- A literal refers to nothing. -/
theorem references_of_literal? {value : Literal} (h : t.literal? = some value) :
    t.references = [] := by
  cases t with
  | missing => rfl
  | node info shape =>
    rw [references_node]
    cases shape with
    | foreign className content => cases content <;> first | rfl | cases h
    | _ => first | rfl | cases h

/-- A condition of a value refers to nothing. -/
theorem references_of_condition? {value : Literal} (h : t.condition? = some value) :
    t.references = [] := by
  rw [condition?] at h
  split at h
  · exact references_of_literal? h
  · cases h

/-- Literals refer to nothing. -/
theorem references_of_literals? {ts : List Tree} {values : List Literal}
    (h : ts.mapM literal? = some values) : ts.flatMap references = [] := by
  induction ts generalizing values with
  | nil => rfl
  | cons t ts ih =>
    rw [List.mapM_cons] at h
    obtain ⟨value, hv, h⟩ := Option.bind_eq_some_iff.mp h
    obtain ⟨rest, hr, _⟩ := Option.bind_eq_some_iff.mp h
    rw [List.flatMap_cons, references_of_literal? hv, ih hr, List.append_nil]

/-- A condition with a decision refers to nothing once it is folded. -/
theorem references_of_decision? {c : Tree} {selected : Bool} (h : c.decision? = some selected) :
    c.folded.references = [] := by
  obtain ⟨value, hvalue, _⟩ := Option.map_eq_some_iff.mp h
  exact references_of_condition? hvalue

/-- A folded tree has the references that are left when the branches that are not selected have
been erased. -/
theorem references_folded (t : Tree) : t.folded.references = t.erased.references := by
  induction t with
  | missing => rfl
  | node info shape ih =>
    -- a node that is not folded has the references of its children, which are folded and erased
    have hkept : (node info (shape.mapChildren folded)).references =
        (node info (shape.mapChildren erased)).references := by
      rw [references_node, references_node, Shape.entity?_mapChildren, Shape.entity?_mapChildren,
        Shape.children_mapChildren, Shape.children_mapChildren, List.flatMap_map, List.flatMap_map]
      exact congrArg _ (List.flatMap_congr ih)
    rw [erased_node]
    cases shape with
    | conditional type c t f =>
      have hc := ih c (by simp [Shape.children])
      have ht := ih t (by simp [Shape.children])
      have hf := ih f (by simp [Shape.children])
      rw [Shape.mapChildren, eraseUnselected, folded_conditional, decision?_erased]
      cases hd : c.decision? with
      | none => exact hkept
      | some selected =>
        rw [references_of_decision? hd] at hc
        cases selected <;>
          simp [references_node, Shape.entity?, Shape.access?, Shape.children, ← hc, ht, hf]
    | output type exprs =>
      rw [folded_node, Shape.mapChildren, foldRoot]
      cases he : (exprs.map folded).mapM literal? with
      | none => exact hkept
      | some values =>
        refine Eq.trans ?_ hkept
        rw [references_node, Shape.mapChildren, Shape.children, references_of_literals? he]
        rfl
    | _ =>
      rw [folded_node]
      exact hkept

end Hil.Tree
