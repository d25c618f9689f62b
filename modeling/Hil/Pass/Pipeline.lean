import Hil.Pass
import Hil.Pass.Schedule
import Hil.Tree.Text

/-!
# Pipelines of passes

Registered passes run in an order in which each comes after those it requires, until one deletes the
tree or fails. Nothing runs when there is no such order. On request the tree is logged after each
pass.
-/

namespace Hil

/-- Passes in the order of their registration, which can hold a pass several times
(`PassManager`). -/
structure Pipeline where
  registered : List Pass

namespace Pipeline

/-- The requirements of a registered pass. -/
def requires (p : Pipeline) (name : String) : List String :=
  ((Pass.ofName? p.registered name).map Pass.requires).getD []

/-- The passes in the order in which they run. -/
def order? (p : Pipeline) : Option (List Pass) :=
  (Schedule.order? p.requires (p.registered.map Pass.name)).map fun names =>
    names.filterMap (Pass.ofName? p.registered)

/-- The log line of a tree after a pass, unless the tree has no text. -/
def dumpLine? (pass : Pass) (store : Store) (node : Option NodeId) : Option String :=
  let tree := match node with
    | some _ => (store.tree node).sexpr? true
    | none => some "<deleted>"
  tree.map fun tree => "after " ++ pass.name ++ ": " ++ tree

/-- The log lines after a pass: one if asked for. -/
def dumpLines? (dump : Bool) (pass : Pass) (store : Store) (node : Option NodeId) :
    Option (List String) :=
  if dump then (dumpLine? pass store node).map fun line => [line] else some []

/-- What a run of passes leaves beside its outcome. -/
structure Ran where
  store : Store
  context : Context
  log : List String

/-- Runs passes one after the other on a tree. -/
def runOrder (dump : Bool) : List Pass → Option NodeId → Ran → Except Failure (Option NodeId) × Ran
  | [], node, ran => (.ok node, ran)
  | _ :: _, none, ran => (.ok none, ran)
  | pass :: passes, some id, ran =>
    let (outcome, state) := (pass.run (some id)).runFrom ran.store ran.context
    let after : Ran := { ran with store := state.store, context := state.memo }
    match outcome with
    | .error failure => (.error failure, after)
    | .ok node =>
      match dumpLines? dump pass state.store node with
      | none => (.error .notJson, after)
      | some lines => runOrder dump passes node { after with log := ran.log ++ lines }

/-- Runs the registered passes on a tree (`PassManager.run_all`). -/
def run (p : Pipeline) (dump : Bool) (node : Option NodeId) (store : Store)
    (context : Context) : Except Failure (Option NodeId) × Ran :=
  let ran : Ran := ⟨store, context, []⟩
  match p.order? with
  | none => (.error .circularPasses, ran)
  | some order => runOrder dump order node ran

end Pipeline

end Hil
