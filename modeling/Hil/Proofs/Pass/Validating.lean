import Hil.Proofs.Pass.Observers

/-!
# What validation reports

Two flaws of a node are reported: that it is an expression without a type, and that it accesses an
entity without being bound to one. Validation reports the flaws of all nodes of a tree in the order
of a walk. At the first node of a class that walks do not know it fails, with the flaws of the nodes
up to that one reported.
-/

namespace Hil

open Hil.Tree

/-- What can be wrong with a node. -/
inductive Flaw where
  /-- An expression whose recorded type is some other value. -/
  | untyped
  /-- An access to an entity that is not bound to an entry of the graph. -/
  | unbound
  deriving DecidableEq, Repr

namespace Flaw

/-- The node has the flaw. -/
def IsOf (label : Label) : Flaw → Prop
  | untyped => ∃ annotation ∈ label.outline.type?, annotation.type? = none
  | unbound => ∃ resolved ∈ label.outline.access?,
      resolved.reference.target.namesEntry = true ∧ resolved.entry = none

instance (label : Label) : (flaw : Flaw) → Decidable (flaw.IsOf label)
  | untyped => inferInstanceAs (Decidable (∃ annotation ∈ label.outline.type?, _))
  | unbound => inferInstanceAs (Decidable (∃ resolved ∈ label.outline.access?, _))

/-- What is said of a node with the flaw. -/
def message (label : Label) : Flaw → String
  | untyped => label.outline.className ++ " has no type"
  | unbound => "variable access " ++ (label.outline.access?.map fun resolved ↦
      Text.shown resolved.reference.text).getD "" ++ " is not bound to a graph node"

/-- The message of a node without a type. -/
@[simp] theorem message_untyped (label : Label) :
    untyped.message label = label.outline.className ++ " has no type" := rfl

/-- The message of an access that is not bound. -/
@[simp] theorem message_unbound (label : Label) :
    unbound.message label = "variable access " ++ (label.outline.access?.map fun resolved ↦
      Text.shown resolved.reference.text).getD "" ++ " is not bound to a graph node" := rfl

/-- The record of the flaw at a node, which stands at the place of the node. -/
def record (label : Label) (flaw : Flaw) : Diagnostic :=
  { message := flaw.message label, location := label.info.place, code := some "E0999" }

/-- The records of the flaws of a node: a missing type comes before a missing entry. -/
def records (label : Label) : List Diagnostic :=
  ([untyped, unbound].filter (IsOf label)).map (record label)

/-- Validation reports the flaws of a node. -/
theorem diagnosticsOf_eq_records (label : Label) :
    Validation.diagnosticsOf label.cell = records label := by
  have hdefects : Validation.defects label.cell =
      (if untyped.IsOf label then [untyped.message label] else []) ++
        (if unbound.IsOf label then [unbound.message label] else []) := by
    obtain ⟨info, outline⟩ := label
    rw [Validation.defects]
    congr 1
    · cases htype : outline.type? <;>
        simp [IsOf, Label.cell, htype]
    · cases haccess : outline.access? <;>
        simp [IsOf, Label.cell, haccess]
  rw [Validation.diagnosticsOf, hdefects, records]
  by_cases untyped.IsOf label <;> by_cases unbound.IsOf label <;>
    simp_all [record, Label.cell, Validation.code]

end Flaw

namespace Pass

variable {st : WalkState Context} {node : Option NodeId}

/-- What the validation pass leaves once it has seen the labels. -/
def validated (st : WalkState Context) (labels : List Label) : WalkState Context :=
  { st with memo := { st.memo with
      validated := labels.length
      reporter := { st.memo.reporter with
        diagnostics := st.memo.reporter.diagnostics ++ labels.flatMap Flaw.records } } }

/-- The validation pass ends as the walk does that it makes, after the labels that this has
observed. -/
theorem run_validation_of_observed {outcome : Except Failure (Option NodeId)}
    {labels : List Label}
    (h : (Validation.validate node).run.run ⟨st.store, ⟨0, st.memo.reporter⟩⟩ =
      (outcome, WalkState.observed Validation.observe ⟨st.store, ⟨0, st.memo.reporter⟩⟩ labels)) :
    (validation.run node).run.run st = (outcome, validated st labels) := by
  have hrecords : (fun label : Label ↦ Validation.diagnosticsOf label.cell) = Flaw.records :=
    funext Flaw.diagnosticsOf_eq_records
  rw [WalkState.observed, Validation.foldl_observe, Nat.zero_add, hrecords] at h
  exact run_validation h

/-- The validation pass reports the flaws of all nodes of a tree in the order of a walk, and nothing
else. If walks know the classes of all nodes, it returns the node that it starts from and leaves the
store as it is. Otherwise it fails at the first node of another class, after it has reported the
flaws of the nodes up to that one, and leaves the store as it is all the same. -/
theorem validation_reports (hw : (st.store.tree node).Walkable) :
    ((∀ label ∈ (st.store.tree node).labels, label.isKnown = true) →
      (validation.run node).Returns st node (validated st (st.store.tree node).labels)) ∧
    ∀ before label after, (st.store.tree node).labels = before ++ label :: after →
      (∀ l ∈ before, l.isKnown = true) → label.isKnown = false →
      (validation.run node).run.run st =
        (.error (.violation (.unknownClass label.outline.className)),
          validated st (before ++ [label])) := by
  have hsurveys := @Validation.surveys_validate ⟨st.store, ⟨0, st.memo.reporter⟩⟩ node hw
  exact ⟨fun hknown ↦ run_validation_of_observed (hsurveys.returns hknown),
    fun before label after hlabels hbefore hlabel ↦
      run_validation_of_observed (hsurveys.fails hlabels hbefore hlabel)⟩

/-- An access to a value of a module that is no entry, of a class derived from that of accesses. -/
private def traced {α : Type} : Shape α :=
  .foreign "TracedAccess" (.access (some (.raw (.str "string") rfl))
    ⟨[], default, ⟨"module.net.id", .module "net" "id"⟩, none⟩)

/-- A sum that records no type above an access to a local value without an entry, which stands in a
list twice, and a node of a class that walks do not know before the access stands there again. -/
private def damaged : WalkState Context where
  store := ⟨#[⟨{}, .arithmetic (some (.raw (.str "number") rfl)) [some ⟨1⟩]⟩,
    ⟨{}, .access none ⟨[], default, ⟨"local.port", .local "port"⟩, none⟩⟩,
    ⟨{}, traced⟩,
    ⟨{}, .list [some ⟨0⟩, some ⟨0⟩, some ⟨2⟩, some ⟨1⟩]⟩], .empty⟩
  memo := .ofFiles []

/-- What stands up to the unknown node is reported: the shared sum twice, and the unknown node with
both its flaws. -/
theorem validation_reports_damaged :
    (damaged.store.tree (some ⟨3⟩)).Walkable ∧
      ∃ st', (validation.run (some ⟨3⟩)).run.run damaged =
          (.error (.violation (.unknownClass "TracedAccess")), st') ∧
        st'.store = damaged.store ∧ st'.memo.validated = 6 ∧
        st'.memo.reporter.diagnostics.map Diagnostic.message =
          ["BoundArithmetic has no type",
            "variable access local.port is not bound to a graph node",
            "BoundArithmetic has no type",
            "variable access local.port is not bound to a graph node",
            "TracedAccess has no type",
            "variable access module.net.id is not bound to a graph node"] := by
  have hw : (damaged.store.tree (some ⟨3⟩)).Walkable := by decide
  obtain ⟨-, hfails⟩ := validation_reports hw
  refine ⟨hw, _, hfails ((damaged.store.tree (some ⟨3⟩)).labels.take 5) ⟨{}, traced⟩
    ((damaged.store.tree (some ⟨3⟩)).labels.drop 6) rfl ?_ rfl, rfl, rfl, ?_⟩
  · decide
  · decide

end Pass

end Hil
