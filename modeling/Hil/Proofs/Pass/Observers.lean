import Hil.Pass
import Hil.Proofs.Walk.Observing

/-!
# Passes that observe

Validation and the collection of dependencies read the labels of a tree in the order of a walk and
change nothing in the store. What they leave is a fold over the labels of the tree.
-/

namespace Hil

open Hil.Tree

/-- The node of a label, without children. -/
def Tree.Label.cell (label : Label) : Cell := ⟨label.info, label.outline.mapChildren fun _ ↦ none⟩

namespace Validation

/-- What validation keeps after it has seen a label. -/
def observe (label : Label) (found : Findings) : Findings :=
  ⟨found.validated + 1, (diagnosticsOf label.cell).foldl Reporter.report found.reporter⟩

/-- The defects of a node are those of its label. -/
theorem diagnosticsOf_label (cell : Cell) : diagnosticsOf cell.label.cell = diagnosticsOf cell := by
  obtain ⟨info, shape⟩ := cell
  cases shape <;> rfl

/-- Validation observes. -/
theorem observes_check : Visitor.Observes observe check := by
  intro st id
  have hstate : st.observed observe [(st.store.cell id).label] =
      { st with memo := ⟨st.memo.validated + 1,
        (diagnosticsOf (st.store.cell id)).foldl Reporter.report st.memo.reporter⟩ } := by
    rw [← diagnosticsOf_label]
    rfl
  rw [hstate]
  exact .bind (Walk.returns_get st)
    (.bind (Walk.returns_modifyMemo _ st) (Walk.returns_pure _ _))

/-- The diagnostics of all labels are reported in order. -/
theorem foldl_observe (labels : List Label) (found : Findings) :
    labels.foldl (fun found label ↦ observe label found) found =
      ⟨found.validated + labels.length, { found.reporter with
        diagnostics := found.reporter.diagnostics ++
          labels.flatMap fun label ↦ diagnosticsOf label.cell }⟩ := by
  have hreport (ds : List Diagnostic) (r : Reporter) :
      ds.foldl Reporter.report r = { r with diagnostics := r.diagnostics ++ ds } := by
    induction ds generalizing r with
    | nil => simp
    | cons d ds ih => simp [ih, Reporter.report]
  induction labels generalizing found with
  | nil => simp
  | cons label labels ih =>
    rw [List.foldl_cons, ih, observe, hreport, List.length_cons, List.flatMap_cons]
    simp only [List.append_assoc]
    congr 1
    omega

/-- Validation comes through the labels of a tree and returns the node that it starts from. -/
theorem surveys_validate {st : WalkState Findings} {node : Option NodeId}
    (hw : (st.store.tree node).Walkable) :
    (validate node).Surveys observe st node (st.store.tree node).labels :=
  (observes_check.surveys_visitNode Visitor.rests_keep hw hw.present).bind_returns fun _ ↦
    Walk.returns_pure _ _

end Validation

namespace Dependencies

/-- The entities that are collected after a label has been seen. -/
def observe (label : Label) (entries : List EntryRef) : List EntryRef :=
  match entryOf? label.cell with
  | some entry => insert entries entry
  | none => entries

/-- The entity of a node is that of its label. -/
theorem entryOf?_label (cell : Cell) : entryOf? cell.label.cell = entryOf? cell := by
  obtain ⟨info, shape⟩ := cell
  cases shape <;> rfl

/-- The collection of dependencies observes. -/
theorem observes_note : Visitor.Observes observe note := by
  intro st id
  have hlabel := entryOf?_label (st.store.cell id)
  cases he : entryOf? (st.store.cell id) with
  | none =>
    have hstate : st.observed observe [(st.store.cell id).label] = st := by
      simp [WalkState.observed, observe, hlabel, he]
    rw [hstate]
    refine .bind (Walk.returns_get st) ?_
    simp only [Store.cellOf, he]
    exact Walk.returns_pure _ _
  | some entry =>
    have hstate : st.observed observe [(st.store.cell id).label] =
        ⟨st.store, insert st.memo entry⟩ := by
      simp [WalkState.observed, observe, hlabel, he]
    rw [hstate]
    refine .bind (Walk.returns_get st) ?_
    simp only [Store.cellOf, he]
    exact .bind (Walk.returns_modifyMemo _ st) (Walk.returns_pure _ _)

/-- The entities that a tree refers to, in the order of a walk. -/
def entriesOf (t : Tree) : List EntryRef :=
  t.labels.foldl (fun entries label ↦ observe label entries) []

/-- The entities of a well-formed tree are collected, and the store is left as it is. -/
theorem returns_collect {store : Store} {node : Option NodeId}
    (hw : (store.tree node).WellFormed) :
    (collect node).Returns ⟨store, []⟩ (entriesOf (store.tree node))
      ⟨store, entriesOf (store.tree node)⟩ :=
  (@Visitor.Observes.returns_visitNode _ _ ⟨store, []⟩ _ _ observes_note hw).bind
    (Walk.returns_memo _)

end Dependencies

namespace Pass

variable {st : WalkState Context} {node : Option NodeId}

/-- The validation pass ends as validation does, and keeps what that has found until then. -/
theorem run_validation {outcome : Except Failure (Option NodeId)}
    {after : WalkState Validation.Findings}
    (h : (Validation.validate node).run.run ⟨st.store, ⟨0, st.memo.reporter⟩⟩ = (outcome, after)) :
    (validation.run node).run.run st = (outcome, ⟨after.store, { st.memo with
      validated := after.memo.validated, reporter := after.memo.reporter }⟩) := by
  change (Walk.memo >>= _).run.run st = _
  rw [Walk.run_bind, Walk.returns_memo]
  dsimp only
  rw [Walk.run_bind, Walk.returns_isolate h]
  cases outcome <;> rfl

/-- Validation of a well-formed tree without defects reports nothing. -/
theorem returns_validation (hw : (st.store.tree node).WellFormed)
    (hd : ∀ label ∈ (st.store.tree node).labels, Validation.defects label.cell = []) :
    (validation.run node).Returns st node
      ⟨st.store, { st.memo with validated := (st.store.tree node).labels.length }⟩ := by
  have hnone : ((st.store.tree node).labels.flatMap fun label ↦
      Validation.diagnosticsOf label.cell) = [] := by
    simpa [Validation.diagnosticsOf] using hd
  have hvalidate := (@Validation.surveys_validate ⟨st.store, ⟨0, st.memo.reporter⟩⟩ node
    hw.walkable).returns hw.isKnown
  rw [WalkState.observed, Validation.foldl_observe, hnone, List.append_nil, Nat.zero_add]
    at hvalidate
  exact run_validation hvalidate

/-- The collection of dependencies leaves the entities of a well-formed tree. -/
theorem returns_dependencies (hw : (st.store.tree node).WellFormed) :
    (dependencies.run node).Returns st node
      ⟨st.store, st.memo.setAnalysis dependenciesName
        (.dependencies (Dependencies.entriesOf (st.store.tree node)))⟩ := by
  exact .bind (Dependencies.returns_collect hw).isolate
    (.bind (Walk.returns_pure _ _) (.bind (Walk.returns_modifyMemo _ _) (Walk.returns_pure _ _)))

end Pass

end Hil
