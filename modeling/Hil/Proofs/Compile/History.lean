import Hil.Proofs.Compile.Defaults

/-!
# Compilations in a row

Compilations that follow one another share a graph, whose resources they resolve on the way, and a
store, to which they add nodes. Neither makes a difference: what is seen of a compilation by the
default passes is a function of what the value is bound to in the original graph.
-/

namespace Hil

open Hil.Tree

/-- A property to be compiled by the default passes. -/
structure CompileRequest where
  value : Value
  hasCount : Bool
  files : List (String × String)
  dump : Bool

/-- What is seen of a compilation: the tree with whether it succeeded, or the failure; what was
reported; the entities that the tree refers to; and the log. -/
structure CompileResult where
  outcome : Except Failure (Tree × Bool)
  reporter : Reporter
  dependencies : Except Failure Analysis
  log : List String

/-- What is seen of an outcome and of what the passes left. -/
def CompileResult.of (outcome : Except Failure Compiled) (ran : Pipeline.Ran) : CompileResult where
  outcome := outcome.map fun compiled => (ran.store.tree compiled.node, compiled.success)
  reporter := ran.context.reporter
  dependencies := ran.context.analysis Pass.dependenciesName
  log := ran.log

/-- What is seen of a compilation. -/
def Compilation.result (c : Compilation) : CompileResult := .of c.outcome c.ran

namespace CompileRequest

/-- Compiles one property. -/
def compile (r : CompileRequest) (g : Graph) (s : Store) : Compilation :=
  Hil.compile ⟨Pass.defaults, r.hasCount, r.files, r.dump⟩ r.value g s

/-- Compiles properties in a row, each against the graph and the store that the one before has
left, whether it succeeded or not. -/
def compileAll : List CompileRequest → Graph → Store → List Compilation
  | [], _, _ => []
  | r :: rs, g, s =>
    let c := r.compile g s
    c :: compileAll rs c.graph c.ran.store

end CompileRequest

/-! ### Logged trees -/

namespace Pipeline

/-- The log line of a tree that has the text. -/
def lineOf (pass : Pass) (text : String) : String := "after " ++ pass.name ++ ": " ++ text

/-- The log lines of passes that leave the same tree, if it can be written when it has to be. -/
def linesOf? (dump : Bool) (passes : List Pass) (t : Tree) : Option (List String) :=
  if dump then (t.sexpr? true).map fun text => passes.map fun pass => lineOf pass text
  else some []

variable {dump : Bool} {pass : Pass} {passes : List Pass} {store : Store} {id id' : NodeId}
  {ran : Ran} {st : WalkState Context} {t : Tree}

/-- The lines after a pass depend on the tree only. -/
theorem dumpLines?_eq : dumpLines? dump pass store (some id) =
    linesOf? dump [pass] (store.tree (some id)) := by
  cases dump with
  | false => rfl
  | true =>
    simp only [dumpLines?, dumpLine?, linesOf?, lineOf, if_true, Option.map_map]
    rfl

/-- A pass that returns a node ends the run if the tree there cannot be written. -/
theorem runOrder_of_unwritten
    (h : (pass.run (some id)).Returns ⟨ran.store, ran.context⟩ (some id') st)
    (ht : linesOf? dump [pass] (st.store.tree (some id')) = none) :
    runOrder dump (pass :: passes) (some id) ran =
      (.error .notJson, ⟨st.store, st.memo, ran.log⟩) := by
  have hrun : (pass.run (some id)).runFrom ran.store ran.context = (.ok (some id'), st) := h
  rw [runOrder, hrun]
  simp only [dumpLines?_eq, ht]

/-- A pass that returns a node is followed by the others, and by its lines in the log. -/
theorem runOrder_of_written {lines : List String}
    (h : (pass.run (some id)).Returns ⟨ran.store, ran.context⟩ (some id') st)
    (ht : linesOf? dump [pass] (st.store.tree (some id')) = some lines) :
    runOrder dump (pass :: passes) (some id) ran =
      runOrder dump passes (some id') ⟨st.store, st.memo, ran.log ++ lines⟩ := by
  have hrun : (pass.run (some id)).runFrom ran.store ran.context = (.ok (some id'), st) := h
  rw [runOrder, hrun]
  simp only [dumpLines?_eq, ht]

/-- A tree cannot be logged after any passes, or each pass has lines of its own. -/
theorem linesOf?_cases (dump : Bool) (t : Tree) :
    (∀ passes, linesOf? dump passes t = none) ∨
      ∃ lines : Pass → List String, ∀ passes,
        linesOf? dump passes t = some (passes.flatMap lines) := by
  cases dump with
  | false => exact .inr ⟨fun _ ↦ [], fun passes ↦ by simp [linesOf?]⟩
  | true =>
    cases ht : t.sexpr? true with
    | none => exact .inl fun passes ↦ by simp [linesOf?, ht]
    | some text =>
      refine .inr ⟨fun pass ↦ [lineOf pass text], fun passes ↦ ?_⟩
      simp [linesOf?, ht, ← List.map_eq_flatMap]

end Pipeline

/-! ### Results -/

namespace CompileResult

/-- What is seen of a value that cannot be bound. -/
def ofError (files : List (String × String)) (e : BindError) : CompileResult where
  outcome := .ok (.missing, false)
  reporter := ⟨files, [e.problem.diagnostic]⟩
  dependencies := .error (.missingAnalysis Pass.dependenciesName)
  log := []

/-- What is seen of a bound tree. Folding comes first, and a folded tree that is to be logged and
cannot be written ends the compilation there. -/
def ofTree (files : List (String × String)) (dump : Bool) (t : Tree) : CompileResult :=
  match Pipeline.linesOf? dump Pass.defaults t.folded with
  | none =>
    { outcome := .error .notJson
      reporter := .ofFiles files
      dependencies := .error (.missingAnalysis Pass.dependenciesName)
      log := [] }
  | some log =>
    { outcome := .ok (t.folded, true)
      reporter := .ofFiles files
      dependencies := .ok (.dependencies (Dependencies.entriesOf t.folded))
      log }

end CompileResult

namespace Pipeline

variable {dump : Bool} {store : Store} {id : NodeId} {context : Context}

/-- What the default passes leave of a tree depends on the tree only. -/
theorem run_defaults_result (files : List (String × String))
    (ht : (store.tree (some id)).Passable false) :
    let r := run ⟨Pass.defaults⟩ dump (some id) store (Context.ofFiles files)
    CompileResult.of (r.1.map fun node ↦ ⟨node, !r.2.context.reporter.hasErrors⟩) r.2 =
      .ofTree files dump (store.tree (some id)) := by
  intro r
  obtain ⟨id', store₁, count, hfold, _, htree⟩ :=
    @Pass.returns_folding ⟨store, Context.ofFiles files⟩ (some id) ht.wellFormed
  have hp : (store₁.tree (some id')).Passable false := htree ▸ ht.folded
  have hdefects : ∀ label ∈ (store₁.tree (some id')).labels, Validation.defects label.cell = [] :=
    fun label hl ↦ (hp.sound.labels label hl).defects
  have hval := @Pass.returns_validation
    ⟨store₁, { Context.ofFiles files with folded := count }⟩ (some id') hp.wellFormed hdefects
  have hdep := @Pass.returns_dependencies ⟨store₁, { Context.ofFiles files with
    folded := count
    validated := (store₁.tree (some id')).labels.length }⟩ (some id') hp.wellFormed
  have hr : r = runOrder dump Pass.defaults (some id) ⟨store, Context.ofFiles files, []⟩ := by
    change run _ _ _ _ _ = _
    rw [run, order?_defaults]
  rcases linesOf?_cases dump (store₁.tree (some id')) with hlines | ⟨lines, hlines⟩
  · rw [Pass.defaults, runOrder_of_unwritten hfold (hlines _)] at hr
    rw [CompileResult.ofTree, ← htree, hlines, hr]
    rfl
  · rw [Pass.defaults, runOrder_of_written hfold (hlines _),
      runOrder_of_written hval (hlines _), runOrder_of_written hdep (hlines _), runOrder] at hr
    rw [CompileResult.ofTree, ← htree, hlines, hr]
    simp [CompileResult.of, Context.analysis, Context.setAnalysis, Table.find?_insert,
      Pass.defaults, Except.map, Reporter.hasErrors, Context.ofFiles, Reporter.ofFiles]

end Pipeline

namespace CompileRequest

/-- What is seen of a compilation against the graph, from what the value is bound to. -/
def expected (r : CompileRequest) (g : Graph) : CompileResult :=
  match Bind.outcome g (bindValue r.hasCount r.value) with
  | .ok tree => .ofTree r.files r.dump tree
  | .error e => .ofError r.files e

variable {g g' : Graph} {s : Store}

/-- What is seen of a compilation is determined by what the value is bound to. -/
theorem result_compile (r : CompileRequest) (g : Graph) (s : Store) :
    (r.compile g s).result = r.expected g := by
  cases h : Bind.outcome g (bindValue r.hasCount r.value) with
  | error e =>
    obtain ⟨hc, hran⟩ :=
      @compile_of_error g r.value e ⟨Pass.defaults, r.hasCount, r.files, r.dump⟩ s h
    rw [Compilation.result, compile, hc, hran, expected, h]
    simp [CompileResult.of, CompileResult.ofError, Except.map, Store.tree, Store.treeTo_none,
      Context.analysis, Context.ofFiles, Table.find?, Table.empty, Table.lookupEntry]
  | ok tree =>
    obtain ⟨g', hrun⟩ : ∃ g', (bindValue r.hasCount r.value).run.run g = (.ok tree, g') :=
      ⟨_, Prod.ext h rfl⟩
    have hp : tree.Passable false := passable_bindValue h fun hw ↦ absurd hw Bool.false_ne_true
    obtain ⟨id, hid, htree⟩ := s.tree_addTree hp.wellFormed
    obtain ⟨added, hadd⟩ : ∃ added, s.addTree tree = (some id, added) := ⟨_, Prod.ext hid rfl⟩
    rw [hadd] at htree
    have hresult := @Pipeline.run_defaults_result r.dump added id r.files (by rwa [htree])
    rw [htree] at hresult
    rw [expected, h]
    refine Eq.trans ?_ hresult
    rw [Compilation.result, compile, Hil.compile, hrun]
    simp only [hadd]

/-- What a value is bound to does not depend on which resources have been resolved. -/
theorem expected_of_attaches (r : CompileRequest) (h : g.Attaches g') :
    r.expected g' = r.expected g := by
  obtain ⟨g'', hrun, _⟩ := Bind.stable_bindValue g r.hasCount r.value g' h
  rw [expected, Bind.outcome, hrun]
  rfl

/-- A compilation leaves a graph in which some resources have been resolved, whatever comes of it.
-/
theorem attaches_compile (r : CompileRequest) (h : g.Attaches g') (s : Store) :
    g.Attaches (r.compile g' s).graph := by
  obtain ⟨g'', hrun, ha⟩ := Bind.stable_bindValue g r.hasCount r.value g' h
  rw [compile, Hil.compile, hrun]
  cases Bind.outcome g (bindValue r.hasCount r.value) with
  | error e => exact ha
  | ok tree => exact ha

/-- From any graph in which some resources have been resolved, compilations in a row show what each
shows against the original graph. -/
theorem results_compileAll (rs : List CompileRequest) (h : g.Attaches g') (s : Store) :
    (compileAll rs g' s).map Compilation.result = rs.map fun r ↦ r.expected g := by
  induction rs generalizing g' s with
  | nil => rfl
  | cons r rs ih =>
    rw [compileAll, List.map_cons, List.map_cons, result_compile, r.expected_of_attaches h,
      ih (r.attaches_compile h s)]

/-- Each of the compilations in a row shows what it shows alone, against the graph as it was before
all of them and with any store. -/
theorem compileAll_eq_alone (rs : List CompileRequest) (g : Graph) (s s' : Store) :
    (compileAll rs g s).map Compilation.result = rs.map fun r ↦ (r.compile g s').result := by
  rw [results_compileAll rs (.refl g) s]
  simp only [result_compile]

end CompileRequest

end Hil
