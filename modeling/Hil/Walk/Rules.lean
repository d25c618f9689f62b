import Hil.Store.Blueprint
import Hil.Tree.Text
import Hil.Walk

/-!
# Rule visitors

Visitors given by rules. The first rule whose conditions all hold of a node says what is done with
it, and a node that no rule is for is left as it is. Rule visitors trace what they are called with.
-/

namespace Hil

/-- The conditions of a rule; one that is not given holds of every node. -/
structure Pattern where
  className : Option String := none
  label : Option String := none
  /-- The number of the call of the visitor in the walk, from zero. -/
  nth : Option Nat := none
  /-- The value of a literal, in kind and content. -/
  value : Option Literal := none

/-- What is done with a node. -/
inductive RuleAction where
  | keep
  | delete
  | fail (message : String)
  | wrapList
  | wrapOutput
  | firstChild
  | replace (plan : Blueprint)
  | setValue (value : Literal)

/-- A rule. -/
structure Rule where
  pattern : Pattern
  action : RuleAction

/-- When a visitor is called. -/
inductive Phase where
  | pre
  | post
  deriving DecidableEq, Repr

/-- The name of a phase. -/
def Phase.name : Phase → String
  | pre => "pre"
  | post => "post"

/-- A call of a visitor, with the text of the node that it was called with. -/
structure TraceEntry where
  phase : Phase
  node : Option String

namespace Pattern

/-- Whether the conditions hold of a node at a call. -/
def accepts (p : Pattern) (call : Nat) (cell : Cell) : Bool :=
  p.className.all (· == cell.shape.className) &&
    p.label.all (some · == cell.info.label) &&
    p.nth.all (· == call) &&
    p.value.all fun value => cell.shape.literal?.any value.same

end Pattern

namespace RuleAction

/-- The shape of a literal with another value; other shapes have none. -/
def withValue (value : Literal) : Shape (Option NodeId) → Shape (Option NodeId)
  | .literal type _ => .literal type value
  | .foreign className (.literal type _) => .foreign className (.literal type value)
  | shape => shape

/-- Does what an action says to a node. -/
def run {σ : Type} : RuleAction → Visitor σ
  | keep, node => return node
  | delete, _ => return none
  | fail message, _ => throw (.raised message)
  | wrapList, node => return some (← Walk.add ⟨{}, .list [node]⟩)
  | wrapOutput, node => return some (← Walk.add ⟨{}, .output (some (.known Ty.string)) [node]⟩)
  | firstChild, node => do
    let cell := (← get).store.cellOf node
    return (cell.shape.children.head?).getD node
  | replace plan, _ => Walk.onStore plan.build
  | setValue value, node => do
    match node with
    | some id => Walk.modifyShape id (withValue value)
    | none => pure ()
    return node

end RuleAction

/-- The text of the tree at a node. -/
def Walk.sexpr {σ : Type} (withTypes : Bool) (node : Option NodeId) : Walk σ String := do
  match ((← get).store.tree node).sexpr? withTypes with
  | some text => return text
  | none => throw .notJson

/-- The visitor of rules. Its memo is the trace, whose length tells how often it was called. -/
def ruleVisitor (phase : Phase) (rules : List Rule) : Visitor (List TraceEntry) := fun node => do
  let store := (← get).store
  let cell := store.cellOf node
  let trace ← Walk.memo
  let call := (trace.filter fun entry => entry.phase = phase).length
  let text ← node.mapM fun id => Walk.sexpr false (some id)
  Walk.modifyMemo (· ++ [⟨phase, text⟩])
  match rules.find? fun rule => rule.pattern.accepts call cell with
  | some rule => rule.action.run node
  | none => return node

/-- The visitor of rules if there are any, and otherwise the one that leaves every node as it is and
traces nothing. -/
def ruleVisitor? (phase : Phase) : Option (List Rule) → Visitor (List TraceEntry)
  | some rules => ruleVisitor phase rules
  | none => Visitor.keep

end Hil
