import Hil.Expr
import Hil.Literal.Text

/-!
# Displayed expressions

An expression is displayed as its class name with its named parts in parentheses. Places are not
shown.
-/

namespace Hil

/-- The symbolic name of an operator. -/
def Operator.symbol : Operator → String
  | add => "ADD"
  | sub => "SUB"
  | mul => "MUL"
  | div => "DIV"
  | mod => "MOD"
  | and => "LOGICAL_AND"
  | or => "LOGICAL_OR"
  | equal => "EQUAL"
  | notEqual => "NOT_EQUAL"
  | less => "LESS_THAN"
  | lessOrEqual => "LESS_THAN_OR_EQUAL"
  | greater => "GREATER_THAN"
  | greaterOrEqual => "GREATER_THAN_OR_EQUAL"

/-- An operator as a part of an expression. -/
def Operator.display (op : Operator) : String :=
  "<ArithmeticOp." ++ op.symbol ++ ": " ++ Text.quoted op.text ++ ">"

/-- The symbolic name of a tag. -/
def Tag.symbol (tag : Tag) : String := tag.name.toUpper

/-- A tag as a part of an expression. -/
def Tag.display (tag : Tag) : String :=
  "<LiteralType." ++ tag.symbol ++ ": " ++ Text.quoted tag.name ++ ">"

/-- A named node with its named parts (`ASTNode`). -/
def displayNode (name : String) (parts : List (String × String)) : String :=
  name ++ "(" ++ ", ".intercalate (parts.map fun part => part.1 ++ "=" ++ part.2) ++ ")"

/-- Displayed items as a list. -/
def displayList (items : List String) : String := "[" ++ ", ".intercalate items ++ "]"

mutual

/-- The displayed form of an expression, unless it holds a value that has none. -/
def Expr.display? : Expr → Option String
  | .arithmetic _ operator operands => do
    let operands ← displayValues? operands
    return displayNode "Arithmetic"
      [("op", (operator.map Operator.display).getD "None"), ("exprs", displayList operands)]
  | .call _ func args => do
    let args ← displayValues? args
    return displayNode "Call" [("func", Text.quoted func), ("args", displayList args)]
  | .conditional _ condition whenTrue whenFalse => do
    return displayNode "Conditional"
      [("cond_expr", ← condition.display?), ("true_expr", ← whenTrue.display?),
        ("false_expr", ← whenFalse.display?)]
  | .index _ target key => do
    return displayNode "Index" [("target", ← target.display?), ("key", ← key.display?)]
  | .literal _ value tag =>
    some (displayNode "LiteralNode" [("value", value.display), ("typex", tag.display)])
  | .output _ operands => do
    return displayNode "Output" [("exprs", displayList (← displayValues? operands))]
  | .access _ name => some (displayNode "VariableAccess" [("name", Text.quoted name)])
  | .other _ className => some (displayNode className [])

/-- The displayed form of a property value, unless it holds a value that has none. -/
def Value.display? : Value → Option String
  | .expr e => e.display?
  | .bool b => some (Literal.display (.bool b))
  | .int i => some (Literal.display (.int i))
  | .float x => some (Literal.display (.float x))
  | .str s => some (Literal.display (.str s))
  | .list items => do return displayList (← displayValues? items)
  | .map entries => do
    return "\x7b" ++ ", ".intercalate (← displayEntries? entries) ++ "\x7d"
  | .unsupported _ shown => shown

/-- The displayed items of a list. -/
def displayValues? : List Value → Option (List String)
  | [] => some []
  | value :: values => do return (← value.display?) :: (← displayValues? values)

/-- The displayed entries of a map. -/
def displayEntries? : List (Literal × Value) → Option (List String)
  | [] => some []
  | (key, value) :: entries => do
    return (key.display ++ ": " ++ (← value.display?)) :: (← displayEntries? entries)

end

end Hil
