import Hil.Literal
import Hil.Location

/-!
# Expressions and property values

The expressions of an interpolation, as they are parsed, and the values that a configuration
property may hold. An operand position of an expression can hold any property value; whether it is
an expression is for binding to decide.
-/

namespace Hil

/-- The arithmetic, logical and comparison operators (`ArithmeticOp`). -/
inductive Operator where
  | add
  | sub
  | mul
  | div
  | mod
  | and
  | or
  | equal
  | notEqual
  | less
  | lessOrEqual
  | greater
  | greaterOrEqual
  deriving DecidableEq, Repr, Inhabited

namespace Operator

/-- Every operator. -/
def all : List Operator :=
  [add, sub, mul, div, mod, and, or, equal, notEqual, less, lessOrEqual, greater, greaterOrEqual]

/-- The operator as it is written. -/
def text : Operator → String
  | add => "+"
  | sub => "-"
  | mul => "*"
  | div => "/"
  | mod => "%"
  | and => "&&"
  | or => "||"
  | equal => "=="
  | notEqual => "!="
  | less => "<"
  | lessOrEqual => "<="
  | greater => ">"
  | greaterOrEqual => ">="

/-- The operator written so. -/
def ofText? (text : String) : Option Operator := all.find? (·.text == text)

end Operator

/-- What a literal says of the kind of its value (`LiteralType`). -/
inductive Tag where
  | any
  | bool
  | int
  | float
  | string
  | list
  | map
  | unknown
  deriving DecidableEq, Repr, Inhabited

namespace Tag

/-- Every tag. -/
def all : List Tag := [any, bool, int, float, string, list, map, unknown]

/-- The name of a tag. -/
def name : Tag → String
  | any => "any"
  | bool => "bool"
  | int => "int"
  | float => "float"
  | string => "string"
  | list => "list"
  | map => "map"
  | unknown => "unknown"

/-- The tag of a name. -/
def ofName? (name : String) : Option Tag := all.find? (·.name == name)

end Tag

mutual

/-- An expression (`ASTNode`). `other` is a node of a class that has no meaning here. -/
inductive Expr where
  | arithmetic (place : Option Location) (operator : Option Operator) (operands : List Value)
  | call (place : Option Location) (func : String) (args : List Value)
  | conditional (place : Option Location) (condition whenTrue whenFalse : Value)
  | index (place : Option Location) (target key : Value)
  | literal (place : Option Location) (value : Literal) (tag : Tag)
  | output (place : Option Location) (operands : List Value)
  | access (place : Option Location) (name : String)
  | other (place : Option Location) (className : String)

/-- A property value. `unsupported` is a value of a kind that no property may have, known by the
name of its kind and its displayed form, if it has one. -/
inductive Value where
  | expr (expr : Expr)
  | bool (value : Bool)
  | int (value : Int)
  | float (value : Binary64)
  | str (value : Str)
  | list (items : List Value)
  | map (entries : List (Literal × Value))
  | unsupported (kindName : String) (shown : Option String)

end

instance : Inhabited Value := ⟨.bool false⟩

instance : Inhabited Expr := ⟨.other none ""⟩

namespace Expr

/-- Where an expression stands. -/
def place : Expr → Option Location
  | arithmetic place .. | call place .. | conditional place .. | index place .. | literal place ..
  | output place .. | access place .. | other place .. => place

/-- The class name of an expression. -/
def className : Expr → String
  | arithmetic .. => "Arithmetic"
  | call .. => "Call"
  | conditional .. => "Conditional"
  | index .. => "Index"
  | literal .. => "LiteralNode"
  | output .. => "Output"
  | access .. => "VariableAccess"
  | other _ className => className

/-- The operator of an expression; only arithmetic has one, and may lack it. -/
def operator? : Expr → Option Operator
  | arithmetic _ operator _ => operator
  | _ => none

end Expr

namespace Value

/-- The name of the kind of a value. -/
def kindName : Value → String
  | expr e => e.className
  | bool _ => "bool"
  | int _ => "int"
  | float _ => "float"
  | str _ => "str"
  | list _ => "list"
  | map _ => "dict"
  | unsupported kindName _ => kindName

/-- The map of the given entries, later ones replacing earlier ones of the same key. -/
def ofEntries (entries : List (Literal × Value)) : Value := .map (Literal.distinctEntries entries)

end Value

end Hil
