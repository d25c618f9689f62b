import Hil.Compile
import Hil.Proofs.Binding.Nodes
import Hil.Proofs.Folding.Walk
import Hil.Proofs.Pass.Observers
import Hil.Proofs.Store.Adding
import Hil.Proofs.Tree.Text

/-!
# The default passes

A property that can be bound is compiled by the default passes without a failure and without a
report: binding makes well-formed nodes in which validation finds no defect, and folding keeps them
so. A property that cannot be bound is reported, and no pass runs.
-/

namespace Hil

open Hil.Tree

/-- The keys of all dictionaries in the literals of a value are plain. -/
def Value.PlainKeys (v : Value) : Prop :=
  ∀ place l tag, v.Contains (.literal place l tag) → l.PlainKeys

/-- Nothing is wrong with a node of the label, and its literal has a JSON form if it is to be
written. -/
structure Tree.Label.Sound (written : Bool) (label : Label) : Prop where
  defects : Validation.defects label.cell = []
  texts : written = true → ∀ v ∈ label.outline.literal?, v.json?.isSome = true

/-- A tree that the default passes can be run on. -/
structure Tree.Passable (written : Bool) (t : Tree) : Prop where
  wellFormed : t.WellFormed
  sound : t.Everywhere fun info shape ↦ Label.Sound written ⟨info, shape.outline⟩

variable {g g' : Graph} {hasCount written dump : Bool} {info : NodeInfo} {shape : Shape Tree}
  {tree : Tree} {value : Value}

/-- Folding keeps a tree passable. -/
theorem Tree.Passable.folded (h : tree.Passable written) : tree.folded.Passable written where
  wellFormed := h.wellFormed.folded
  sound := h.sound.folded fun _ _ ↦ ⟨rfl, fun _ _ hv ↦ Option.some.inj hv ▸ rfl⟩

/-- A tree that is to be written has a text. -/
theorem Tree.Passable.isSome_sexpr? (h : tree.Passable true) :
    (tree.sexpr? true).isSome = true := by
  refine Tree.isSome_sexpr? (h.sound.imp fun info shape sound v hv ↦ sound.texts rfl v ?_)
  cases shape <;> exact hv

/-! ### Bound trees -/

/-- Validation finds no defect in a node that binding makes. -/
theorem defects_of_makes (h : Makes hasCount g info shape) :
    Validation.defects (Label.cell ⟨info, shape.outline⟩) = [] := by
  cases h with
  | @access _ _ reference type resolved _ resolves =>
    have hbound : (resolved.reference.target.namesEntry && resolved.entry.isNone) = false := by
      cases resolves with
      | count target _ => simp [target, Target.namesEntry]
      | @resource name _ _ r _ _ found _ =>
        obtain ⟨slot, hslot, _⟩ := Option.map_eq_some_iff.mp found
        simp [Graph.ref?, Graph.serial?, hslot]
      | _ => simp
    change _ ++ (if (resolved.reference.target.namesEntry && resolved.entry.isNone) = true then _
      else []) = []
    rw [hbound]
    rfl
  | _ => rfl

/-- A node that binding makes for an expression of the value shows a literal with plain keys. -/
theorem plainKeys_of_makes (h : Makes hasCount g info shape)
    (hinside : ∀ e ∈ info.origin, value.Contains e) (hkeys : value.PlainKeys) :
    ∀ v ∈ shape.literal?, v.PlainKeys := by
  intro v hv
  cases h with
  | @literal place l tag _ _ =>
    obtain rfl := Option.some.inj hv
    exact hkeys place l tag (hinside _ rfl)
  | bool b => exact Option.some.inj hv ▸ .bool b
  | int i => exact Option.some.inj hv ▸ .int i
  | float x => exact Option.some.inj hv ▸ .float x
  | str s => exact Option.some.inj hv ▸ .str s
  | _ => cases hv

/-- A bound tree is passable. -/
theorem passable_bindValue (h : Bind.outcome g (bindValue hasCount value) = .ok tree)
    (hkeys : written = true → value.PlainKeys) : tree.Passable written where
  wellFormed := (Bind.makes_bindValue h).imp fun _ _ made ↦ made.1.regular
  sound := (Bind.makes_bindValue h).imp fun info shape made ↦ {
    defects := defects_of_makes made.1
    texts := fun hw v hv ↦ Literal.isSome_json?_iff.mpr <|
      plainKeys_of_makes made.1 made.2 (hkeys hw) v (by cases shape <;> exact hv) }

/-! ### Pipelines -/

namespace Pipeline

/-- The default passes run in the order of their registration. -/
theorem order?_defaults : order? ⟨Pass.defaults⟩ = some Pass.defaults := by
  rfl

variable {store : Store} {id id' : NodeId} {st : WalkState Context}

private theorem exists_dumpLines? (pass : Pass) (h : (store.tree (some id)).Passable dump) :
    ∃ lines, dumpLines? dump pass store (some id) = some lines := by
  cases dump with
  | false => exact ⟨[], rfl⟩
  | true =>
    obtain ⟨text, htext⟩ := Option.isSome_iff_exists.mp h.isSome_sexpr?
    exact ⟨_, by rw [dumpLines?, if_pos rfl, dumpLine?, htext]; rfl⟩

private theorem runOrder_cons (pass : Pass) (passes : List Pass) (ran : Ran)
    (h : (pass.run (some id)).Returns ⟨ran.store, ran.context⟩ (some id') st)
    (ht : (st.store.tree (some id')).Passable dump) :
    ∃ log, runOrder dump (pass :: passes) (some id) ran =
      runOrder dump passes (some id') ⟨st.store, st.memo, log⟩ := by
  obtain ⟨lines, hlines⟩ := exists_dumpLines? pass ht
  have hrun : (pass.run (some id)).runFrom ran.store ran.context = (.ok (some id'), st) := h
  refine ⟨ran.log ++ lines, ?_⟩
  rw [runOrder, hrun]
  simp only [hlines]

/-- The default passes fold a passable tree, report nothing and leave its entities. -/
theorem run_defaults {context : Context} (ht : (store.tree (some id)).Passable dump) :
    ∃ id' store' log folded, run ⟨Pass.defaults⟩ dump (some id) store context =
        (.ok (some id'), ⟨store', { context with
          folded
          validated := (store.tree (some id)).folded.labels.length
          analyses := context.analyses.insert Pass.dependenciesName
            (.dependencies (Dependencies.entriesOf (store.tree (some id)).folded)) }, log⟩) ∧
      store'.tree (some id') = (store.tree (some id)).folded := by
  obtain ⟨r, store₁, count, hfold, _, htree⟩ :=
    @Pass.returns_folding ⟨store, context⟩ (some id) ht.wellFormed
  have hp : (store₁.tree (some r)).Passable dump := htree ▸ ht.folded
  have hdefects : ∀ label ∈ (store₁.tree (some r)).labels, Validation.defects label.cell = [] :=
    fun label hl ↦ (hp.sound.labels label hl).defects
  have hval := @Pass.returns_validation ⟨store₁, { context with folded := count }⟩ (some r)
    hp.wellFormed hdefects
  have hdep := @Pass.returns_dependencies ⟨store₁, { context with
    folded := count
    validated := (store₁.tree (some r)).labels.length }⟩ (some r) hp.wellFormed
  obtain ⟨log₁, h₁⟩ := runOrder_cons Pass.folding [Pass.validation, Pass.dependencies]
    ⟨store, context, []⟩ hfold hp
  obtain ⟨log₂, h₂⟩ := runOrder_cons Pass.validation [Pass.dependencies]
    ⟨store₁, { context with folded := count }, log₁⟩ hval hp
  obtain ⟨log₃, h₃⟩ := runOrder_cons Pass.dependencies []
    ⟨store₁, { context with
      folded := count
      validated := (store₁.tree (some r)).labels.length }, log₂⟩ hdep hp
  refine ⟨r, store₁, log₃, count, ?_, htree⟩
  rw [run, order?_defaults, ← htree]
  exact h₁.trans (h₂.trans h₃)

end Pipeline

/-! ### Compilations -/

variable {e : BindError} {options : CompileOptions} {store : Store}

/-- A value that cannot be bound is reported, and no pass runs. -/
theorem compile_of_error (h : Bind.outcome g (bindValue options.hasCount value) = .error e) :
    (compile options value g store).outcome = .ok ⟨none, false⟩ ∧
      (compile options value g store).ran =
        ⟨store, { Context.ofFiles options.files with
          reporter := ⟨options.files, [e.problem.diagnostic]⟩ }, []⟩ := by
  obtain ⟨g', hrun⟩ : ∃ g', (bindValue options.hasCount value).run.run g = (.error e, g') :=
    ⟨_, Prod.ext h rfl⟩
  rw [compile, hrun]
  simp [Reporter.reportProblem_eq, Context.ofFiles, Reporter.ofFiles]

/-- A value that can be bound is compiled by the default passes to its folded tree, whose entities
are left. -/
theorem compile_defaults_of_ok {files : List (String × String)}
    (h : Bind.outcome g (bindValue hasCount value) = .ok tree)
    (hkeys : dump = true → value.PlainKeys) :
    let c := compile ⟨Pass.defaults, hasCount, files, dump⟩ value g store
    ∃ id, c.outcome = .ok ⟨some id, true⟩ ∧ c.ran.store.tree (some id) = tree.folded ∧
      c.ran.context.reporter.diagnostics = [] ∧
      c.ran.context.analysis Pass.dependenciesName =
        .ok (.dependencies (Dependencies.entriesOf tree.folded)) := by
  obtain ⟨g', hrun⟩ : ∃ g', (bindValue hasCount value).run.run g = (.ok tree, g') :=
    ⟨_, Prod.ext h rfl⟩
  have hp : tree.Passable dump := passable_bindValue h hkeys
  obtain ⟨id, hid, htree⟩ := store.tree_addTree hp.wellFormed
  obtain ⟨added, hadd⟩ : ∃ added, store.addTree tree = (some id, added) := ⟨_, Prod.ext hid rfl⟩
  rw [hadd] at htree
  obtain ⟨id', store', log, folded, hpasses, hfolded⟩ :=
    @Pipeline.run_defaults dump added id (Context.ofFiles files) (by rw [htree]; exact hp)
  rw [htree] at hpasses hfolded
  simp only [compile, hrun, hadd, hpasses]
  refine ⟨id', rfl, hfolded, rfl, ?_⟩
  simp only [Context.analysis, Table.find?_insert, if_pos]

/-- Compiling by the default passes always comes to an end without a failure. It succeeds exactly
if the value can be bound, and then nothing is reported, there is a node and the entities of its
tree are left. Otherwise the cause is the only report, and no pass leaves anything. -/
theorem compile_defaults (files : List (String × String)) (store : Store)
    (hkeys : dump = true → value.PlainKeys) :
    let bound := Bind.outcome g (bindValue hasCount value)
    let c := compile ⟨Pass.defaults, hasCount, files, dump⟩ value g store
    ∃ compiled, c.outcome = .ok compiled ∧
      (compiled.success = true ↔ ∃ tree, bound = .ok tree) ∧
      c.hasErrors = !compiled.success ∧
      (∀ tree, bound = .ok tree → ∃ id, compiled.node = some id ∧
        c.ran.store.tree (some id) = tree.folded ∧
        c.ran.context.reporter.diagnostics = [] ∧
        c.ran.context.analysis Pass.dependenciesName =
          .ok (.dependencies (Dependencies.entriesOf tree.folded))) ∧
      ∀ e, bound = .error e → compiled.node = none ∧
        c.ran.context.reporter.diagnostics = [e.problem.diagnostic] ∧
        c.ran.store = store ∧ c.ran.log = [] ∧
        ∀ pass, c.ran.context.analysis pass = .error (.missingAnalysis pass) := by
  intro bound c
  cases h : bound with
  | ok tree =>
    obtain ⟨id, hc, hfolded, hreport, hdep⟩ :=
      @compile_defaults_of_ok g hasCount dump tree value store files h hkeys
    refine ⟨⟨some id, true⟩, hc, ⟨fun _ ↦ ⟨tree, rfl⟩, fun _ ↦ rfl⟩, ?_, ?_, nofun⟩
    · exact congrArg (fun ds ↦ !List.isEmpty ds) hreport
    · rintro _ ⟨⟩
      exact ⟨id, rfl, hfolded, hreport, hdep⟩
  | error e =>
    obtain ⟨hc, hran⟩ :=
      @compile_of_error g value e ⟨Pass.defaults, hasCount, files, dump⟩ store h
    refine ⟨⟨none, false⟩, hc, ⟨nofun, nofun⟩, ?_, nofun, ?_⟩
    · exact congrArg (fun ran ↦ ran.context.reporter.hasErrors) hran
    · rintro _ ⟨⟩
      refine ⟨rfl, congrArg (·.context.reporter.diagnostics) hran, congrArg Pipeline.Ran.store hran,
        congrArg Pipeline.Ran.log hran, fun pass ↦ ?_⟩
      exact congrArg (·.context.analysis pass) hran

/-- The property `${{80 = "web"}}`, which holds a dictionary with a plain key. -/
private def portNames : Value :=
  .expr (.output none [.expr (.literal none (.dict [(.int 80, .str "web")]) .string)])

private theorem portNames_plainKeys : portNames.PlainKeys := by
  intro place l tag h
  cases h with
  | part hp h =>
    obtain rfl := List.mem_singleton.mp hp
    cases h with
    | self => exact .dict (by simp [Literal.IsPlain]) (by simp [Literal.PlainKeys.str])
    | part hp _ => cases hp

/-- A property whose dictionary has a plain key compiles while trees are logged. -/
theorem compile_defaults_portNames :
    portNames.PlainKeys ∧
      ∃ compiled,
        (compile ⟨Pass.defaults, false, [], true⟩ portNames .empty .empty).outcome =
          .ok compiled ∧ compiled.success = true := by
  obtain ⟨compiled, hc, hsuccess, _⟩ :=
    @compile_defaults .empty false true portNames [] .empty fun _ ↦ portNames_plainKeys
  exact ⟨portNames_plainKeys, compiled, hc, hsuccess.mpr ⟨_, rfl⟩⟩

end Hil
