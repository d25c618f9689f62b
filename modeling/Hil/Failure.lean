import Hil.Problem
import Hil.Text.Quoted

/-!
# Failures

The ways in which work on a bound tree can fail. Problems are errors in the configuration; all other
failures are faults of a visitor, of a pass, or of the choice of passes.
-/

namespace Hil

/-- A child that a node cannot do without. -/
inductive Slot where
  | condition
  | whenTrue
  | whenFalse
  | target
  | key
  deriving DecidableEq, Repr

namespace Slot

/-- The name of a slot. -/
def name : Slot → String
  | condition => "cond_expr"
  | whenTrue => "true_expr"
  | whenFalse => "false_expr"
  | target => "target_expr"
  | key => "key_expr"

/-- The class of the nodes that have the slot. -/
def owner : Slot → String
  | condition | whenTrue | whenFalse => "BoundConditional"
  | target | key => "BoundIndex"

end Slot

/-- A breach of the rules of a walk (`FirewalkerImplementationError`). -/
inductive Violation where
  /-- A walk reached a node of a class that it does not know. -/
  | unknownClass (className : String)
  /-- A visitor deleted a child that its parent cannot do without. -/
  | deletedSlot (slot : Slot)
  /-- A visitor put a node that is no expression in the place of an expression. -/
  | notAnExpression (className : String)
  deriving DecidableEq, Repr

namespace Violation

/-- What is told of a violation. -/
def message : Violation → String
  | unknownClass className => "unexpected node type in visit_bound_node: " ++ className
  | deletedSlot slot => "visitor deleted required " ++ slot.name ++ " of " ++ slot.owner
  | notAnExpression className => "visitor replaced an expression with " ++ className

/-- The code of all violations. -/
def code : String := "E9999"

end Violation

/-- A message under the code of an internal error. -/
def codedMessage (code message : String) : String := "[" ++ code ++ "] " ++ message

/-- A failure. -/
inductive Failure where
  | problem (p : Problem)
  | violation (v : Violation)
  /-- A result was asked for of a pass that has left none. -/
  | missingAnalysis (pass : String)
  | circularPasses
  /-- A visitor or pass gave up. -/
  | raised (message : String)
  /-- No node and no tree is known under the name. -/
  | unknownName (name : String)
  /-- A value of a map was to be deleted whose key is not there any more. -/
  | lostKey (key : Str)
  /-- A literal has a key that JSON has no form for. -/
  | notJson
  /-- A walk went deeper than its bound. -/
  | tooDeep
  deriving DecidableEq, Repr

namespace Failure

/-- What is told of a failure. -/
def message : Failure → String
  | problem p => p.message
  | violation v => v.message
  | missingAnalysis pass => "Analysis " ++ pass ++ " not available"
  | circularPasses => "Circular dependency detected in passes"
  | raised message => message
  | unknownName name => "nothing is known as " ++ name
  | lostKey key => "the map has no key " ++ Text.quoted key ++ " any more"
  | notJson => "a key of a literal has no JSON form"
  | tooDeep => "the walk is too deep"

end Failure

end Hil
