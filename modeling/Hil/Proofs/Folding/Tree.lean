import Hil.Pass.Folding
import Hil.Proofs.Tree.Everywhere

/-!
# Folded trees

Constant folding as a function on trees: children are folded first, and then the node above them. A
folded tree stays as it is when it is folded again, has nothing left to fold, is not higher, and is
well formed if the tree was. A tree reduces to those that come of it by doing some of its folds.
-/

namespace Hil.Tree

/-- The value of a tree that is a literal. -/
def literal? : Tree → Option Literal
  | missing => none
  | node _ shape => shape.literal?

/-- The value of a tree that is a literal of type bool. -/
def condition? (t : Tree) : Option Literal := if t.hasType Ty.bool then t.literal? else none

/-- The literal string that an output of literals becomes. -/
def outputLiteral (info : NodeInfo) (values : List Literal) : Tree :=
  .node { origin := info.origin }
    (.literal (some (.known Ty.string)) (.str (Folding.outputText values)))

/-- What becomes of a node above folded children. -/
def foldRoot (info : NodeInfo) (shape : Shape Tree) : Tree :=
  match shape with
  | .conditional _ condition whenTrue whenFalse =>
    match condition.condition? with
    | some value => if value.isTruthy then whenTrue else whenFalse
    | none => .node info shape
  | .output _ exprs =>
    match exprs.mapM literal? with
    | some values => outputLiteral info values
    | none => .node info shape
  | _ => .node info shape

/-- The tree with its constants folded, from the leaves up. -/
def folded : Tree → Tree := fold missing foldRoot

variable {info : NodeInfo} {shape shape' : Shape Tree} {t t' : Tree}

/-- A node is folded after its children. -/
theorem folded_node (info : NodeInfo) (shape : Shape Tree) :
    (node info shape).folded = foldRoot info (shape.mapChildren folded) := fold_node ..

/-- Folding a node gives one of its children, a literal string, or the node itself. -/
theorem foldRoot_cases (info : NodeInfo) (shape : Shape Tree) :
    (∃ type c t f value, shape = .conditional type c t f ∧ c.condition? = some value ∧
      foldRoot info shape = if value.isTruthy then t else f) ∨
    (∃ type exprs values, shape = .output type exprs ∧ exprs.mapM literal? = some values ∧
      foldRoot info shape = outputLiteral info values) ∨
    foldRoot info shape = .node info shape := by
  cases shape with
  | conditional type c t f =>
    cases hc : c.condition? with
    | none => exact .inr (.inr (by simp [foldRoot, hc]))
    | some value => exact .inl ⟨type, c, t, f, value, rfl, hc, by simp [foldRoot, hc]⟩
  | output type exprs =>
    cases he : exprs.mapM literal? with
    | none => exact .inr (.inr (by simp [foldRoot, he]))
    | some values => exact .inr (.inl ⟨type, exprs, values, rfl, he, by simp [foldRoot, he]⟩)
  | _ => exact .inr (.inr rfl)

/-- A property of folded nodes follows from its three cases. -/
theorem foldRoot_induct {P : Tree → Prop} (child : shape.isExpr = true → ∀ t ∈ shape.children, P t)
    (literal : shape.isExpr = true → ∀ values, P (outputLiteral info values))
    (self : P (.node info shape)) : P (foldRoot info shape) := by
  rcases foldRoot_cases info shape with
    ⟨type, c, t, f, value, rfl, _, h⟩ | ⟨type, exprs, values, rfl, _, h⟩ | h
  · rw [h]
    split
    · exact child rfl t (by simp [Shape.children])
    · exact child rfl f (by simp [Shape.children])
  · rw [h]
    exact literal rfl values
  · rw [h]
    exact self

/-! ### Nothing left to fold -/

/-- Whether a tree is a literal. -/
def isLiteral (t : Tree) : Bool := t.literal?.isSome

/-- Nothing is left to fold at a node: it is no conditional on a literal of type bool, and no output
of literals alone. -/
def Idle : Shape Tree → Prop
  | .conditional _ condition _ _ => ¬ (condition.isLiteral ∧ condition.hasType Ty.bool)
  | .output _ exprs => ¬ ∀ e ∈ exprs, e.isLiteral
  | _ => True

/-- A tree has a value as a condition exactly if it is a literal of type bool. -/
theorem isSome_condition? : t.condition?.isSome ↔ t.isLiteral ∧ t.hasType Ty.bool := by
  rw [condition?, isLiteral]
  cases t.hasType Ty.bool <;> simp

/-- Trees have values together exactly if they are all literals. -/
theorem isSome_literals? {ts : List Tree} :
    (ts.mapM literal?).isSome ↔ ∀ t ∈ ts, t.isLiteral := by
  induction ts with
  | nil => exact ⟨nofun, fun _ ↦ rfl⟩
  | cons t ts ih =>
    rw [List.mapM_cons, List.forall_mem_cons, ← ih, isLiteral]
    cases t.literal? <;> cases ts.mapM literal? <;> simp

/-- A node at which nothing is left to fold stays as it is. -/
theorem foldRoot_of_idle (h : Idle shape) : foldRoot info shape = .node info shape := by
  rcases foldRoot_cases info shape with
    ⟨type, c, t, f, value, rfl, hc, _⟩ | ⟨type, exprs, values, rfl, he, _⟩ | hf
  · exact absurd (isSome_condition?.mp (Option.isSome_of_mem hc)) h
  · exact absurd (isSome_literals?.mp (Option.isSome_of_mem he)) h
  · exact hf

/-- A node that is not idle is a conditional with a value to decide it, or an output with values. -/
theorem not_idle_iff : ¬ Idle shape ↔
    (∃ type c t f value, shape = .conditional type c t f ∧ c.condition? = some value) ∨
      ∃ type exprs values, shape = .output type exprs ∧ exprs.mapM literal? = some values := by
  cases shape with
  | conditional type c t f =>
    rw [Idle, not_not, ← isSome_condition?, Option.isSome_iff_exists]
    simp
  | output type exprs =>
    rw [Idle, not_not, ← isSome_literals?, Option.isSome_iff_exists]
    simp
  | _ => simp [Idle]

/-- Nothing is left to fold anywhere in a folded tree. -/
theorem Present.everywhere_idle_folded (h : t.Present) :
    t.folded.Everywhere fun _ shape ↦ Idle shape := by
  induction h with
  | @node info shape _ _ ih =>
    rw [folded_node]
    have hchild : ∀ t ∈ (shape.mapChildren folded).children,
        t.Everywhere fun _ shape ↦ Idle shape := Shape.forall_mem_mapChildren.mpr ih
    by_cases hidle : Idle (shape.mapChildren folded)
    · rw [foldRoot_of_idle hidle]
      exact .node hidle hchild
    · rcases not_idle_iff.mp hidle with
        ⟨type, c, t, f, value, hs, hc⟩ | ⟨type, exprs, values, hs, he⟩
      · rw [hs] at hchild ⊢
        simp only [foldRoot, hc]
        split
        · exact hchild t (by simp [Shape.children])
        · exact hchild f (by simp [Shape.children])
      · rw [hs]
        simp only [foldRoot, he]
        exact .node trivial (List.forall_mem_nil _)

/-- A tree with nothing left to fold stays as it is. -/
theorem folded_of_idle (h : t.Everywhere fun _ shape ↦ Idle shape) : t.folded = t := by
  induction h with
  | @node info shape here _ ih =>
    rw [folded_node, Shape.mapChildren_eq_self_iff.mpr ih, foldRoot_of_idle here]

/-! ### Folding again -/

/-- Folding does not make a tree higher. -/
theorem height_folded_le (t : Tree) : t.folded.height ≤ t.height := by
  induction t with
  | missing => exact Nat.le_refl _
  | node info shape ih =>
    rw [folded_node]
    have hchild : ∀ t ∈ (shape.mapChildren folded).children,
        t.height < (node info shape).height :=
      Shape.forall_mem_mapChildren.mpr fun u hu ↦
        Nat.lt_of_le_of_lt (ih u hu) (height_lt_of_mem hu)
    obtain ⟨n, hn⟩ := Nat.exists_eq_add_one.mpr (height_node_pos info shape)
    rw [hn] at hchild ⊢
    refine foldRoot_induct (P := fun u ↦ u.height ≤ n + 1) ?_ ?_ ?_
    · exact fun _ t ht ↦ Nat.le_of_lt (hchild t ht)
    · intro _ values
      rw [outputLiteral, height_node_le_iff]
      simp [Shape.children]
    · rw [height_node_le_iff]
      exact fun t ht ↦ Nat.le_of_lt_succ (hchild t ht)

/-- Folding the root again changes nothing. -/
theorem folded_foldRoot (h : ∀ t ∈ shape.children, t.folded = t) :
    (foldRoot info shape).folded = foldRoot info shape := by
  have hself : shape.mapChildren folded = shape := Shape.mapChildren_eq_self_iff.mpr h
  rcases foldRoot_cases info shape with
    ⟨type, c, t, f, value, rfl, _, hf⟩ | ⟨type, exprs, values, rfl, _, hf⟩ | hf
  · rw [hf]
    split
    · exact h t (by simp [Shape.children])
    · exact h f (by simp [Shape.children])
  · rw [hf]
    rfl
  · rw [hf, folded_node, hself, hf]

/-- A folded tree stays as it is when it is folded again. -/
theorem folded_folded (t : Tree) : t.folded.folded = t.folded := by
  induction t with
  | missing => rfl
  | node info shape ih =>
    rw [folded_node]
    exact folded_foldRoot (Shape.forall_mem_mapChildren.mpr ih)

/-- The children of a tree that stays as it is stay as they are. -/
theorem folded_child_eq (h : (node info shape).folded = node info shape) {t : Tree}
    (ht : t ∈ shape.children) : t.folded = t := by
  rw [folded_node] at h
  have hlow : ∀ u ∈ (shape.mapChildren folded).children, u ≠ node info shape := by
    rw [Shape.forall_mem_mapChildren]
    intro c hc he
    have hle := height_folded_le c
    have hlt : c.height < (node info shape).height := height_lt_of_mem hc
    rw [he] at hle
    omega
  rcases foldRoot_cases info (shape.mapChildren folded) with
    ⟨type, c, t, f, value, hs, _, hf⟩ | ⟨type, exprs, values, hs, _, hf⟩ | hf
  · rw [hs] at hlow hf h
    rw [h] at hf
    split at hf
    · exact absurd hf.symm (hlow t (by simp [Shape.children]))
    · exact absurd hf.symm (hlow f (by simp [Shape.children]))
  · rw [h, outputLiteral, node.injEq] at hf
    rw [hf.2] at hs
    cases hs
  · rw [hf, node.injEq] at h
    exact Shape.mapChildren_eq_self_iff.mp h.2 t ht

/-! ### Well-formed trees -/

/-- A well-formed tree is an expression after folding if it was one. -/
theorem isExpr_folded (h : t.WellFormed) : t.folded.isExpr = t.isExpr := by
  induction h with
  | @node info shape here _ ih =>
    rw [folded_node]
    refine foldRoot_induct (P := fun u ↦ u.isExpr = shape.isExpr) ?_ ?_ ?_
    · intro he
      rw [Shape.isExpr, Shape.type?_mapChildren] at he
      rw [Shape.forall_mem_mapChildren]
      intro c hc
      rw [ih c hc, here.exprs he c hc]
      exact he.symm
    · intro he _
      rw [Shape.isExpr, Shape.type?_mapChildren] at he
      exact he.symm
    · rw [isExpr, Shape.isExpr, Shape.type?_mapChildren]
      rfl

/-- What is known of the class of a node is known of any node with the same outline. -/
theorem Regular.of_rel {R : Tree → Tree → Prop} (h : Regular shape) (hr : shape.Rel R shape')
    (hx : ∀ t t', R t t' → t.isExpr = true → t'.isExpr = true) : Regular shape' where
  known := hr.isTraversable_eq ▸ h.known
  distinct := hr.keys_eq ▸ h.distinct
  exprs he t' ht' := by
    obtain ⟨t, ht, htt⟩ := hr.exists_left ht'
    exact hx t t' htt (h.exprs (hr.isExpr_eq ▸ he) t ht)

/-- Folding keeps a tree well formed. -/
theorem WellFormed.folded (h : t.WellFormed) : t.folded.WellFormed := by
  induction h with
  | @node info shape here below ih =>
    rw [folded_node]
    have hchild : ∀ u ∈ (shape.mapChildren Tree.folded).children, u.WellFormed :=
      Shape.forall_mem_mapChildren.mpr ih
    refine foldRoot_induct (fun _ ↦ hchild) (fun _ values ↦ ?_) (.node ?_ hchild)
    · exact .node ⟨rfl, by simp [Shape.keys], by simp [Shape.children]⟩ (by simp [Shape.children])
    · refine here.of_rel (R := fun u v ↦ u ∈ shape.children ∧ v = u.folded)
        (Shape.rel_mapChildren fun u hu ↦ ⟨hu, rfl⟩) ?_
      rintro u _ ⟨hu, rfl⟩ he
      rw [isExpr_folded (below u hu), he]

/-- A property of labels that literal strings have holds everywhere in a folded tree if it holds
everywhere in the tree. -/
theorem Everywhere.folded {P : Label → Prop}
    (literal : ∀ (info : NodeInfo) (values : List Literal), P ⟨{ origin := info.origin },
      .literal (some (.known Ty.string)) (.str (Folding.outputText values))⟩)
    (h : t.Everywhere fun info shape ↦ P ⟨info, shape.outline⟩) :
    t.folded.Everywhere fun info shape ↦ P ⟨info, shape.outline⟩ := by
  induction h with
  | @node info shape here _ ih =>
    rw [folded_node]
    have hchild : ∀ u ∈ (shape.mapChildren Tree.folded).children,
        u.Everywhere fun info shape ↦ P ⟨info, shape.outline⟩ :=
      Shape.forall_mem_mapChildren.mpr ih
    refine foldRoot_induct (fun _ ↦ hchild) (fun _ values ↦ .node (literal info values) nofun) ?_
    refine .node ?_ hchild
    rw [Shape.outline_mapChildren]
    exact here

/-! ### Partly folded trees -/

/-- The second tree is well formed and comes of the first by doing some of its folds: there is
nothing left to do differently, and what has been folded stays. -/
structure Reduces (t t' : Tree) : Prop where
  wellFormed : t'.WellFormed
  folded : t'.folded = t.folded
  height : t'.height ≤ t.height
  settled : t.folded = t → t' = t

namespace Reduces

/-- A well-formed tree reduces to itself. -/
theorem refl (h : t.WellFormed) : t.Reduces t := ⟨h, rfl, Nat.le_refl _, fun _ ↦ rfl⟩

/-- A tree reduces to what a reduced tree reduces to. -/
theorem trans {t'' : Tree} (h : t.Reduces t') (h' : t'.Reduces t'') : t.Reduces t'' where
  wellFormed := h'.wellFormed
  folded := h'.folded.trans h.folded
  height := Nat.le_trans h'.height h.height
  settled hs := by
    have ht := h.settled hs
    rw [h'.settled (by rw [ht, hs]), ht]

/-- A tree reduces to the folded tree. -/
theorem to_folded (h : t.WellFormed) : t.Reduces t.folded :=
  ⟨h.folded, folded_folded t, height_folded_le t, id⟩

/-- A reduced tree is an expression if the tree is one. -/
theorem isExpr_eq (h : t.Reduces t') (hw : t.WellFormed) : t'.isExpr = t.isExpr := by
  rw [← isExpr_folded h.wellFormed, h.folded, isExpr_folded hw]

/-- A node reduces to one with reduced children. -/
theorem node (hw : (Tree.node info shape).WellFormed) (h : shape.Rel Reduces shape') :
    (Tree.node info shape).Reduces (.node info shape') where
  wellFormed := by
    refine .node (hw.root.of_rel (h.imp_mem fun t ht _ _ hr ↦ And.intro (hw.child ht) hr) ?_) ?_
    · rintro t t' ⟨hwt, hr⟩ he
      rw [hr.isExpr_eq hwt, he]
    · intro t' ht'
      obtain ⟨t, _, hr⟩ := h.exists_left ht'
      exact hr.wellFormed
  folded := by
    rw [folded_node, folded_node]
    congr 1
    exact (h.mapChildren_eq fun t _ t' _ hr ↦ hr.folded.symm).symm
  height := by
    obtain ⟨n, hn⟩ := Nat.exists_eq_add_one.mpr (height_node_pos info shape)
    rw [hn, height_node_le_iff]
    intro t' ht'
    obtain ⟨t, ht, hr⟩ := h.exists_left ht'
    exact Nat.le_trans hr.height (height_node_le_iff.mp (Nat.le_of_eq hn) t ht)
  settled hs := by
    congr 1
    apply Eq.symm
    apply Shape.rel_eq_iff.mp
    exact h.imp_mem fun t ht t' _ hr ↦ (hr.settled (folded_child_eq hs ht)).symm

end Reduces

/-- What a visitable tree reduces to is visitable. -/
theorem Visitable.reduces {exprs : Bool} {n : Nat} (h : Visitable exprs n t) (hr : t.Reduces t') :
    Visitable exprs n t' :=
  ⟨hr.wellFormed, Nat.le_trans hr.height h.height, fun he ↦
    (hr.isExpr_eq h.wellFormed).trans (h.expr he)⟩

end Hil.Tree
