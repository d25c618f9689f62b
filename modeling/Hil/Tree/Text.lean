import Hil.Literal.Text
import Hil.Tree

/-!
# S-expressions

A bound tree as text: each node in parentheses, headed by its class, with names and literals as JSON
strings, for instance

    (output (literal "ami-") (variable-access "var.ami" :type string))

Types are shown on request, after the parts of an expression. A node of a class without a form of
its own shows the name of the class only.
-/

namespace Hil

/-- The items of a node between parentheses. -/
def parenthesised (items : List String) : String := "(" ++ " ".intercalate items ++ ")"

/-- The last item of an expression that shows its type. -/
def typeItems (withTypes : Bool) (type : Option Annotation) : List String :=
  match withTypes, type with
  | true, some type => [":type " ++ type.text]
  | _, _ => []

/-- The text of a class without a form of its own. -/
def bareClass (className : String) : String := "(<" ++ className ++ ">)"

/-- The text of a node, of the texts of its children (`BoundTreeSerializer._sexpr`). A literal
that JSON cannot write has none. -/
def Shape.sexpr? (withTypes : Bool) (info : NodeInfo) (s : Shape String) : Option String :=
  let node (head : String) (parts : List String) : String :=
    parenthesised (head :: parts ++ typeItems withTypes s.type?)
  match s with
  | .arithmetic _ exprs =>
    some (node "arithmetic" (((info.operator?.map Operator.text).getD "?") :: exprs))
  | .call func _ args => some (node "call" (func :: args))
  | .conditional _ condition whenTrue whenFalse =>
    some (node "conditional" [condition, whenTrue, whenFalse])
  | .index _ target key => some (node "index" [target, key])
  | .literal _ value => value.json?.map fun text => node "literal" [text]
  | .output _ exprs => some (node "output" exprs)
  | .access _ resolved =>
    some (node "variable-access" [Text.jsonString resolved.reference.text])
  | .list elements => some (node "list" elements)
  | .map entries =>
    some (node "map"
      (entries.map fun entry => parenthesised [Text.jsonString entry.1, entry.2]))
  | .foreign className _ => some (bareClass className)

/-- The text of a tree, unless it holds a literal that JSON cannot write
(`BoundTreeSerializer.serialize`). -/
def Tree.sexpr? (withTypes : Bool) : Tree → Option String :=
  Tree.fold (some (bareClass missingClass)) fun info shape =>
    shape.sequence.bind (Shape.sexpr? withTypes info)

end Hil
