import Hil.Pass
import Hil.Store.Blueprint

/-!
# Scripted passes

Passes that do one fixed thing. They record that they run, and what they find, in the journal of the
context.
-/

namespace Hil

/-- What a scripted pass does. -/
inductive PassAction where
  | keep
  | delete
  | fail (message : String)
  | refuse (problem : Problem)
  | replace (plan : Blueprint)
  | leave (value : Literal)
  | find (pass : String)
  | report (message : String)

namespace PassAction

/-- Does what the action says to the tree of a pass. -/
def run (pass : String) : PassAction → Visitor Context
  | keep, node => return node
  | delete, _ => return none
  | fail message, _ => throw (.raised message)
  | refuse problem, _ => throw (.problem problem)
  | replace plan, _ => Walk.onStore plan.build
  | leave value, node => do
    Walk.modifyMemo fun context => context.setAnalysis pass (.value value)
    return node
  | find other, node => do
    let analysis ← Walk.ofOutcome ((← Walk.memo).analysis other)
    Walk.modifyMemo fun context =>
      { context with journal := context.journal ++ [.found analysis] }
    return node
  | report message, node => do
    let cell := (← get).store.cellOf node
    Walk.modifyMemo fun context =>
      { context with
        reporter := context.reporter.report { message, location := cell.info.place } }
    return node

end PassAction

/-- A scripted pass. -/
def Pass.scripted (name : String) (requires : List String) (action : PassAction) : Pass where
  name
  requires
  run node := do
    Walk.modifyMemo fun context => { context with journal := context.journal ++ [.ran name] }
    action.run name node

end Hil
