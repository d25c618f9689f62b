import Hil.Binding
import Hil.Diagnostic.Text
import Hil.Pass.Pipeline
import Hil.Store.Blueprint

/-!
# Compiling a property

A property value is bound, and passes run over the resulting tree. A value that cannot be bound is
reported, and no pass runs; failures of passes are the caller's.
-/

namespace Hil

/-- How to compile. -/
structure CompileOptions where
  passes : List Pass
  hasCount : Bool
  files : List (String × String)
  dump : Bool

/-- The result of a compilation that came to an end: the tree, unless there is none, and whether
nothing was reported (`CompilationResult`). -/
structure Compiled where
  node : Option NodeId
  success : Bool

/-- What compiling leaves: the outcome, the graph, and what the passes left. -/
structure Compilation where
  outcome : Except Failure Compiled
  graph : Graph
  ran : Pipeline.Ran

namespace Compilation

/-- Whether anything was reported (`CompilationResult.has_errors`). -/
def hasErrors (c : Compilation) : Bool := c.ran.context.reporter.hasErrors

end Compilation

/-- The rendered report of a reporter, if anything was reported (`CompilationResult.get_errors`). -/
def Reporter.rendered (r : Reporter) : List String := if r.hasErrors then [r.render false] else []

/-- Compiles a property value (`CompilerDriver.bind_property`). -/
def compile (options : CompileOptions) (value : Value) (graph : Graph) (store : Store) :
    Compilation :=
  let context := Context.ofFiles options.files
  let (bound, graph) := (bindValue options.hasCount value).run.run graph
  match bound with
  | .error e =>
    let context := { context with reporter := context.reporter.reportProblem e.problem }
    ⟨.ok ⟨none, false⟩, graph, ⟨store, context, []⟩⟩
  | .ok tree =>
    let (node, store) := store.addTree tree
    let (outcome, ran) := Pipeline.run ⟨options.passes⟩ options.dump node store context
    let finish (node : Option NodeId) : Compiled := ⟨node, !ran.context.reporter.hasErrors⟩
    ⟨outcome.map finish, graph, ran⟩

end Hil
