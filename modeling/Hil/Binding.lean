import Hil.Binding.Resolve

/-!
# Binding

Binding turns a property value into a typed tree. Types are propagated where they are cheap to know
and are unknown everywhere else; references are resolved against the tables of a graph. Parts are
bound from left to right, each after all of its own parts, and the first failure is the result. The
graph changes in one way only: a resource that is reached gets its provider, also when a later part
fails.
-/

namespace Hil

/-- The type of a literal with a tag; some tags have no literals (`_LITERAL_TYPES`). -/
def Tag.type? : Tag → Option Ty
  | bool => some Ty.bool
  | int | float => some Ty.number
  | string => some Ty.string
  | any | list | map | unknown => none

/-- The element type of an operand that is a list, else unknown. -/
def elementOrUnknown (t : Ty) : Ty := if t.isList then t.elementType else Ty.unknown

/-- The functions that give a string whatever their arguments are (`_STRING_FUNCTIONS`). -/
def stringFunctions : List String := ["base64decode", "base64encode", "chomp", "file", "format"]

/-- The type of a call, from the name of the function and the types of the arguments
(`PropertyBinder.visit_call`). -/
def callType (func : String) (args : List Ty) : Except BindFault Ty :=
  if stringFunctions.contains func then .ok Ty.string
  else match func with
    | "element" => .ok ((args.head?.map elementOrUnknown).getD Ty.unknown)
    | "list" => .ok Ty.unknown.listOf
    | "lookup" => .ok Ty.unknown
    | "map" => if args.length % 2 = 0 then .ok Ty.map else .error .oddMapArguments
    | "split" => .ok Ty.string.listOf
    | _ => .error (.unknownFunction func)

/-- The type of a conditional: that of its branches when they agree, since nothing is converted
(`PropertyBinder.visit_conditional`). -/
def branchType (whenTrue whenFalse : Ty) : Ty :=
  if whenTrue = whenFalse then whenTrue else Ty.unknown

/-- A node bound from an expression. -/
def boundFrom (e : Expr) (shape : Shape Tree) : Tree := .node { origin := some e } shape

/-- A node that no expression stands for. -/
def unplaced (shape : Shape Tree) : Tree := .node {} shape

/-- An annotation with a type. -/
def typed (t : Ty) : Option Annotation := some (.known t)

mutual

/-- Binds a property value (`PropertyBinder.bind_property`). Lists and maps become containers, whose
keys are the texts of the values that name them. -/
def bindValue (hasCount : Bool) : Value → Bind Tree
  | .expr e => bindExpr hasCount e
  | .list items => do return unplaced (.list (← bindItems hasCount items))
  | .map entries => do
    return unplaced (.map (Table.ofList (← bindEntries hasCount entries)).entries)
  | .bool b => pure (unplaced (.literal (typed Ty.bool) (.bool b)))
  | .int i => pure (unplaced (.literal (typed Ty.number) (.int i)))
  | .float x => pure (unplaced (.literal (typed Ty.number) (.float x)))
  | .str s => pure (unplaced (.literal (typed Ty.string) (.str s)))
  | .unsupported kindName _ => Bind.fail none (.unsupportedValue kindName)

/-- Binds an operand, which has to be an expression (`PropertyBinder.bind_expr`). -/
def bindOperand (hasCount : Bool) : Value → Bind Tree
  | .expr e => bindExpr hasCount e
  | value => Bind.fail none (.notAnExpression value.kindName)

/-- Binds an expression (the methods `visit_*` of `PropertyBinder`). An output of one operand is
that operand. -/
def bindExpr (hasCount : Bool) : Expr → Bind Tree
  | .arithmetic place operator operands => do
    let exprs ← bindOperands hasCount operands
    return boundFrom (.arithmetic place operator operands) (.arithmetic (typed Ty.unknown) exprs)
  | .call place func args => do
    let bound ← bindOperands hasCount args
    let type ← Bind.ofExcept place (callType func (bound.map Tree.type))
    return boundFrom (.call place func args) (.call func (typed type) bound)
  | .conditional place condition whenTrue whenFalse => do
    let c ← bindOperand hasCount condition
    let t ← bindOperand hasCount whenTrue
    let f ← bindOperand hasCount whenFalse
    return boundFrom (.conditional place condition whenTrue whenFalse)
      (.conditional (typed (branchType t.type f.type)) c t f)
  | .index place target key => do
    let t ← bindOperand hasCount target
    let k ← bindOperand hasCount key
    return boundFrom (.index place target key) (.index (typed (elementOrUnknown t.type)) t k)
  | .literal place value tag =>
    match tag.type? with
    | some type => pure (boundFrom (.literal place value tag) (.literal (typed type) value))
    | none => Bind.fail place (.literalTag tag)
  | .output place operands => do
    match ← bindOperands hasCount operands with
    | [expr] => return expr
    | exprs => return boundFrom (.output place operands) (.output (typed Ty.string) exprs)
  | .access place name => do
    match Reference.read name with
    | .error fault => Bind.fail place (.notAReference name fault)
    | .ok reference =>
      let (type, access) ← reference.resolve hasCount place
      return boundFrom (.access place name) (.access (typed type) access)
  | .other place className => Bind.fail place (.notAnExpression className)

/-- Binds operands from left to right (`PropertyBinder.bind_exprs`). -/
def bindOperands (hasCount : Bool) : List Value → Bind (List Tree)
  | [] => pure []
  | value :: values => do
    let tree ← bindOperand hasCount value
    return tree :: (← bindOperands hasCount values)

/-- Binds the items of a list from left to right. -/
def bindItems (hasCount : Bool) : List Value → Bind (List Tree)
  | [] => pure []
  | value :: values => do
    let tree ← bindValue hasCount value
    return tree :: (← bindItems hasCount values)

/-- Binds the values of a map in order. -/
def bindEntries (hasCount : Bool) : List (Literal × Value) → Bind (List (Str × Tree))
  | [] => pure []
  | (key, value) :: entries => do
    let tree ← bindValue hasCount value
    return (key.text, tree) :: (← bindEntries hasCount entries)

end

end Hil
