import Hil.Proofs.Binding.Typing
import Hil.Proofs.Folding.Walk
import Hil.Proofs.Store.Adding

/-!
# Types of folded trees

Folding a bound tree only refines types. A conditional has the type of both its branches or the
unknown type, since binding converts nothing; this is what carries the type of a conditional to the
branch that replaces it, which may have been replaced itself before. Whatever stays in a tree keeps
the type that it was bound with.
-/

namespace Hil

namespace Tree

variable {info : NodeInfo} {shape : Shape Tree} {t : Tree}

/-- The annotation of a tree, which only expressions have. -/
def type? : Tree → Option Annotation
  | missing => none
  | node _ shape => shape.type?

/-- The new annotation is the old one, unless that was of the unknown type. -/
def Refines (old new : Option Annotation) : Prop := old = typed Ty.unknown ∨ new = old

/-- A conditional has the unknown type or that of both its branches. -/
def BranchesAgree (shape : Shape Tree) : Prop :=
  match shape with
  | .conditional _ _ whenTrue whenFalse =>
    shape.type? = typed Ty.unknown ∨
      whenTrue.type? = shape.type? ∧ whenFalse.type? = shape.type?
  | _ => True

/-- The types that decide what a node may be folded to: those of the branches of a conditional, and
that of an output, which is a string. -/
structure TypesAgree (shape : Shape Tree) : Prop where
  branches : BranchesAgree shape
  output : ∀ type exprs, shape = .output type exprs → shape.type? = typed Ty.string

/-! ### Folding -/

/-- What becomes of a tree has its type, unless that was unknown. -/
theorem refines_folded (h : t.Everywhere fun _ shape ↦ TypesAgree shape) :
    Refines t.type? t.folded.type? := by
  induction h with
  | @node info shape here _ ih =>
    rw [folded_node]
    rcases foldRoot_cases info (shape.mapChildren folded) with
      ⟨type, c, t, f, value, hs, _, hf⟩ | ⟨type, exprs, values, hs, _, hf⟩ | hf
    · cases shape with
      | conditional type c t f =>
        cases hs
        rcases here.branches with hunknown | ⟨ht, hfalse⟩
        · exact .inl hunknown
        · -- the branch has been folded before, and refines the type that both branches had
          have hrt := ih t (by simp [Shape.children])
          have hrf := ih f (by simp [Shape.children])
          rw [ht] at hrt
          rw [hfalse] at hrf
          rw [hf]
          split
          · exact hrt
          · exact hrf
      | _ => cases hs
    · cases shape with
      | output type exprs =>
        refine .inr ?_
        rw [hf, type?, here.output type exprs rfl]
        rfl
      | _ => cases hs
    · exact .inr (by rw [hf, type?, Shape.type?_mapChildren]; rfl)

private theorem branchesAgree_mapChildren (here : BranchesAgree shape)
    (below : ∀ t ∈ shape.children, Refines t.type? t.folded.type?) :
    BranchesAgree (shape.mapChildren folded) := by
  cases shape with
  | conditional type c t f =>
    rcases here with hunknown | ⟨ht, hf⟩
    · exact .inl hunknown
    · have hrt := below t (by simp [Shape.children])
      have hrf := below f (by simp [Shape.children])
      rw [ht] at hrt
      rw [hf] at hrf
      rcases hrt with hunknown | hrt
      · exact .inl hunknown
      · rcases hrf with hunknown | hrf
        · exact .inl hunknown
        · exact .inr ⟨hrt, hrf⟩
  | _ => trivial

/-- The branches of all conditionals that folding leaves agree. -/
theorem branchesAgree_folded (h : t.Everywhere fun _ shape ↦ TypesAgree shape) :
    t.folded.Everywhere fun _ shape ↦ BranchesAgree shape := by
  induction h with
  | @node info shape here below ih =>
    rw [folded_node]
    have hchild : ∀ t ∈ (shape.mapChildren folded).children,
        t.Everywhere fun _ shape ↦ BranchesAgree shape := Shape.forall_mem_mapChildren.mpr ih
    refine foldRoot_induct (fun _ ↦ hchild) (fun _ _ ↦ .node trivial nofun) (.node ?_ hchild)
    exact branchesAgree_mapChildren here.branches fun t ht ↦ refines_folded (below t ht)

/-! ### Binding -/

/-- An expression that binding makes records its type. -/
theorem type?_of_makes {hasCount : Bool} {g : Graph}
    (h : t.Everywhere fun info shape ↦ Makes hasCount g info shape) (he : t.isExpr = true) :
    t.type? = typed t.type := by
  cases h with
  | node here _ =>
    cases wellTyped_of_makes here with
    | list elements => cases he
    | map entries => cases he
    | expr recorded _ => simp [type?, Tree.type, recorded, typed, Annotation.type?]

/-- The branches of a conditional that binding makes agree. -/
theorem branchesAgree_of_makes {hasCount : Bool} {g : Graph}
    (here : Makes hasCount g info shape)
    (below : ∀ t ∈ shape.children, t.Everywhere fun info shape ↦ Makes hasCount g info shape) :
    BranchesAgree shape := by
  cases here with
  | @conditional _ _ _ _ c t f bound =>
    have ht := type?_of_makes (below t (by simp [Shape.children])) (bound t (by simp))
    have hf := type?_of_makes (below f (by simp [Shape.children])) (bound f (by simp))
    by_cases hagree : t.type = f.type
    · refine .inr ⟨?_, ?_⟩
      · rw [ht, Shape.type?, branchType, if_pos hagree]
        rfl
      · rw [hf, Shape.type?, branchType, if_pos hagree, hagree]
        rfl
    · refine .inl ?_
      rw [Shape.type?, branchType, if_neg hagree]
      rfl
  | _ => trivial

/-- The types of all conditionals and outputs that binding makes agree. -/
theorem typesAgree_of_makes {hasCount : Bool} {g : Graph}
    (h : t.Everywhere fun info shape ↦ Makes hasCount g info shape) :
    t.Everywhere fun _ shape ↦ TypesAgree shape := by
  induction h with
  | node here below ih =>
    refine .node ⟨?_, ?_⟩ ih
    · exact branchesAgree_of_makes here below
    · rintro type exprs rfl
      cases here
      rfl

end Tree

/-! ### Stores -/

namespace Store

open Hil.Tree

variable {s s' : Store} {node result : Option NodeId} {id : NodeId} {t : Tree}

/-- What folding the tree at a node to another tree keeps of its types. -/
structure RefinesTypes (s : Store) (node : Option NodeId) (t : Tree) (s' : Store)
    (result : Option NodeId) : Prop where
  /-- Every node is replaced by one of its type, if that is not unknown. -/
  replaced : s'.Reads result t.folded ∧
    t.Everywhere fun info shape ↦ Refines shape.type? (Tree.node info shape).folded.type?
  /-- So is the root. -/
  root : Refines (s.cellOf node).shape.type? (s'.cellOf result).shape.type?
  /-- In a node that is left, so is what is in each slot, at each position and under each key. -/
  children : ∀ id, s.Occurs node id → s'.Occurs result id →
    (s.cell id).shape.Rel
      (fun old new ↦ Refines (s.cellOf old).shape.type? (s'.cellOf new).shape.type?)
      (s'.cell id).shape
  /-- A node shows what it showed before, its annotation included. -/
  label : ∀ id, s.Occurs node id → (s'.cell id).label = (s.cell id).label
  /-- A conditional that is left has the unknown type or that of both its branches. -/
  branches : (s'.tree result).Everywhere fun _ shape ↦ BranchesAgree shape

/-- The annotation of a node is that of the tree which is read there. -/
theorem Reads.type?_eq (h : s.Reads node t) : (s.cellOf node).shape.type? = t.type? := by
  obtain ⟨_, info, shape, _, rfl⟩ := h.exists_node
  exact h.cellOf.2.type?_eq

/-- The children of a node that is left in a folded tree are what those that it had become. -/
theorem Refolds.rel_folded {info : NodeInfo} {shape : Shape Tree} (hs : s.Refolds s')
    (hr : s.Reads (some id) (.node info shape)) (hw : (Tree.node info shape).WellFormed)
    (hr' : s'.Reads result t.folded) (hp : t.Present) (hid : s'.Occurs result id) :
    (s'.cell id).shape.Rel s'.Reads (shape.mapChildren Tree.folded) := by
  obtain ⟨shape', hred, hread⟩ := hs.reads hr hw
  obtain ⟨info', shape'', hread', hidle⟩ := hid.exists_reads hr' hp.everywhere_idle_folded
  cases hread.unique hread'
  have hsettled : shape' = shape.mapChildren Tree.folded := by
    apply Shape.rel_eq_iff.mp
    rw [Shape.rel_map_right_iff]
    refine hred.flip.imp_mem fun u' hu' u _ h ↦ ?_
    rw [← h.folded, folded_of_idle (hidle.child hu')]
  rw [← hsettled]
  exact (reads_node_iff.mp hread).2

/-- Folding refines the types of a tree in which the types of conditionals and outputs agree. -/
theorem Refolds.refinesTypes (hs : s.Refolds s') (hr : s.Reads node t) (hw : t.WellFormed)
    (hb : t.Everywhere fun _ shape ↦ TypesAgree shape) (hr' : s'.Reads result t.folded) :
    s.RefinesTypes node t s' result where
  replaced := by
    refine ⟨hr', ?_⟩
    clear hr hw hr'
    induction hb with
    | node here below ih => exact .node (refines_folded (.node here below)) ih
  root := by
    rw [hr.type?_eq, hr'.type?_eq]
    exact refines_folded hb
  children id hid hid' := by
    obtain ⟨info, shape, hread, hwb⟩ := hid.exists_reads hr (hw.and hb)
    have hnew := hs.rel_folded hread (hwb.imp fun _ _ h ↦ h.1) hr' hw.present hid'
    rw [Shape.rel_map_right_iff] at hnew
    have hold := (reads_node_iff.mp hread).2.imp_mem fun _ _ u hu h ↦
      And.intro h (hwb.child hu)
    refine hold.trans hnew.flip fun old u new hu hnew ↦ ?_
    rw [hu.1.type?_eq, hnew.type?_eq]
    exact refines_folded (hu.2.imp fun _ _ h ↦ h.2)
  label id hid := by
    obtain ⟨info, shape, hread, hw⟩ := hid.exists_reads hr hw
    obtain ⟨hinfo, hrel⟩ := reads_node_iff.mp hread
    obtain ⟨shape', hred, hread'⟩ := hs.reads hread hw
    obtain ⟨hinfo', hrel'⟩ := reads_node_iff.mp hread'
    rw [Cell.label, Cell.label, hinfo, hinfo', hrel.outline_eq, hrel'.outline_eq, hred.outline_eq]
  branches := by
    rw [hr'.tree_eq_of_wellFormed hw.folded]
    exact branchesAgree_folded hb

end Store

namespace Pass

variable {st : WalkState Context} {node : Option NodeId}

/-- The folding pass refines the types of any tree that binding returns, wherever it is read in a
store, and changes none that stay. -/
theorem folding_refines_types {hasCount : Bool} {g g' : Graph} {value : Value} {t : Tree}
    (h : (bindValue hasCount value).run.run g = (.ok t, g')) (hr : st.store.Reads node t) :
    ∃ id st', (folding.run node).Returns st (some id) st' ∧
      st.store.RefinesTypes node t st'.store (some id) := by
  have hmakes := (Bind.makes_bindValue (congrArg Prod.fst h)).imp fun _ _ h ↦ h.1
  have hw : t.WellFormed := hmakes.imp fun _ _ h ↦ h.regular
  have hnode := hr.tree_eq_of_wellFormed hw
  obtain ⟨id, store, count, hret, hst, htree⟩ := @returns_folding st node (hnode ▸ hw)
  rw [hnode] at htree
  have hr' : store.Reads (some id) t.folded := by
    have hpresent : (store.tree (some id)).Present := htree ▸ hw.folded.present
    exact htree ▸ Store.reads_tree hpresent
  exact ⟨id, _, hret, hst.refinesTypes hr hw (Tree.typesAgree_of_makes hmakes) hr'⟩

/-- The list of `true ? (false ? 1 : "${a}${b}") : "c"` alone, where `a` and `b` are texts. -/
private def mixed : Value :=
  let text (s : String) : Value := .expr (.literal none (.str s) .string)
  let truth (b : Bool) : Value := .expr (.literal none (.bool b) .bool)
  .list [.expr (.conditional none (truth true)
    (.expr (.conditional none (truth false) (.expr (.literal none (.int 1) .int))
      (.expr (.output none [text "a", text "b"]))))
    (text "c"))]

/-- What the list is bound to. -/
private def mixedTree : Tree := (Bind.outcome .empty (bindValue false mixed)).toOption.getD .missing

/-- In the list, which stays, a text takes the place of two conditionals of unknown type. -/
theorem folding_refines_types_mixed :
    (bindValue false mixed).run.run .empty = (.ok mixedTree, .empty) ∧
      ∃ s node, s.Reads node mixedTree ∧
        ∃ id st', (folding.run node).Returns ⟨s, .ofFiles []⟩ (some id) st' ∧
          s.RefinesTypes node mixedTree st'.store (some id) ∧
          mixedTree.children.map Tree.type? = [typed Ty.unknown] ∧
          (st'.store.tree (some id)).children.map Tree.type? = [typed Ty.string] := by
  have hrun : (bindValue false mixed).run.run .empty = (.ok mixedTree, .empty) := rfl
  have hw : mixedTree.WellFormed := by decide
  obtain ⟨_, hr, _⟩ := Store.addTree_reads .empty hw
  generalize (Store.empty.addTree mixedTree).2 = s at hr
  obtain ⟨id, st', hret, hrefines⟩ :=
    @folding_refines_types ⟨s, .ofFiles []⟩ _ _ _ _ _ _ hrun hr
  refine ⟨hrun, _, _, hr, id, st', hret, hrefines, rfl, ?_⟩
  rw [hrefines.replaced.1.tree_eq_of_wellFormed hw.folded]
  rfl

end Pass
end Hil
