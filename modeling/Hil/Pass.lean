import Hil.Pass.Dependencies
import Hil.Pass.Folding
import Hil.Pass.Validation

/-!
# Passes

A pass works on a tree in a context: it may change the tree, delete it, report diagnostics, and
leave a result for later passes. A pass can require others to run before it. Passes are known by
their names throughout.
-/

namespace Hil

/-- A result that a pass leaves. -/
inductive Analysis where
  | dependencies (entries : List EntryRef)
  | value (value : Literal)
  deriving Inhabited

/-- What is recorded of the run of scripted passes. -/
inductive JournalEntry where
  | ran (pass : String)
  | found (analysis : Analysis)
  deriving Inhabited

/-- What passes share (`CompilationContext`). `folded` and `validated` are the counts of the last
folding and the last validation. -/
structure Context where
  reporter : Reporter
  analyses : Table String Analysis
  folded : Nat
  validated : Nat
  journal : List JournalEntry
  deriving Inhabited

namespace Context

/-- A fresh context. -/
def ofFiles (files : List (String × String)) : Context := ⟨.ofFiles files, .empty, 0, 0, []⟩

/-- The result that a pass has left (`CompilationContext.get_analysis`). -/
def analysis (c : Context) (pass : String) : Except Failure Analysis :=
  match c.analyses.find? pass with
  | some analysis => .ok analysis
  | none => .error (.missingAnalysis pass)

/-- Leaves a result (`CompilationContext.set_analysis`). -/
def setAnalysis (c : Context) (pass : String) (analysis : Analysis) : Context :=
  { c with analyses := c.analyses.insert pass analysis }

end Context

/-- A pass (`BasePass`). Its run returns the tree that goes on, or nothing if the tree is
deleted. -/
structure Pass where
  name : String
  requires : List String
  run : Visitor Context

namespace Pass

/-- Folds constants (`ConstantFoldingPass.run`). -/
def folding : Pass where
  name := "ConstantFoldingPass"
  requires := []
  run node := do
    let (outcome, folded) ← Walk.isolate 0 (Folding.foldConstants node)
    Walk.modifyMemo fun context => { context with folded }
    Walk.ofOutcome outcome

/-- Reports malformed nodes (`IRValidationPass.run`). -/
def validation : Pass where
  name := "IRValidationPass"
  requires := []
  run node := do
    let context ← Walk.memo
    let (outcome, found) ← Walk.isolate ⟨0, context.reporter⟩ (Validation.validate node)
    Walk.modifyMemo fun context =>
      { context with validated := found.validated, reporter := found.reporter }
    Walk.ofOutcome outcome

/-- The name of the pass that collects entities, under which it leaves them. -/
def dependenciesName : String := "DependencyAnalysisPass"

/-- Leaves the entities that the tree refers to (`DependencyAnalysisPass.run`). -/
def dependencies : Pass where
  name := dependenciesName
  requires := []
  run node := do
    let (outcome, _) ← Walk.isolate [] (Dependencies.collect node)
    let entries ← Walk.ofOutcome outcome
    Walk.modifyMemo fun context => context.setAnalysis dependenciesName (.dependencies entries)
    return node

/-- The passes that run when nothing else is asked for (`CompilerDriver._default_passes`). -/
def defaults : List Pass := [folding, validation, dependencies]

/-- The pass of a name. The name of a pass stands for its class: two passes of one name are one and
the same pass, to requirements and to results as well as in what is written. -/
def ofName? (passes : List Pass) (name : String) : Option Pass := passes.find? (·.name == name)

end Pass

end Hil
