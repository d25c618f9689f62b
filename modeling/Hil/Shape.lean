import Hil.Expr
import Hil.Literal.Text
import Hil.Reference
import Hil.Schema

/-!
# Shapes of bound nodes

One level of a bound tree: the class of a node with what the class holds, over an arbitrary type of
children. Trees have trees below a shape, and a store of nodes has identities there. Expressions
have a type; lists and maps of properties have none.
-/

namespace Hil

/-- The kinds of entries of a graph. -/
inductive EntryKind where
  | provider
  | resource
  | module
  | local
  | variable
  deriving DecidableEq, Repr, Inhabited

namespace EntryKind

/-- Every kind of entry. -/
def all : List EntryKind := [.provider, .resource, .module, .local, .variable]

/-- The name of a kind of entry. -/
def name : EntryKind → String
  | provider => "provider"
  | resource => "resource"
  | module => "module"
  | «local» => "local"
  | «variable» => "variable"

/-- The kind of entry of a name. -/
def ofName? (name : String) : Option EntryKind := all.find? (·.name == name)

end EntryKind

/-- An entry of a graph. The serial tells entries apart that were added under one key. -/
structure EntryRef where
  kind : EntryKind
  key : String
  serial : Nat
  deriving DecidableEq, Repr, Inhabited

/-- The type of an expression as it is recorded. `raw` is some other value in its place, whose text
holds characters only. -/
inductive Annotation where
  | known (type : Ty)
  | raw (value : Literal) (written : value.text.toString?.isSome = true)

namespace Annotation

/-- The type that an annotation records. -/
def type? : Annotation → Option Ty
  | known type => some type
  | raw .. => none

/-- The written form of an annotation. -/
def text : Annotation → String
  | known type => type.text
  | raw value written => value.text.toString?.get written

/-- Whether an annotation records the type. -/
def isType (a : Annotation) (type : Ty) : Bool := a.type? == some type

end Annotation

/-- A resolved reference: the accessed path of attributes, the schema of the resource, the reference
and the entry that it stands for, if any (`BoundVariableAccess`). -/
structure Access where
  elements : List String
  schema : Schema
  reference : Reference
  entry : Option EntryRef
  deriving Inhabited

/-- What a node of a foreign class is beside the name of the class: a node and no more, an
expression, or a literal or a resolved reference through a class derived from one of these. -/
inductive Foreign where
  | node
  | expr (type : Option Annotation)
  | literal (type : Option Annotation) (value : Literal)
  | access (type : Option Annotation) (resolved : Access)
  deriving Inhabited

namespace Foreign

/-- The type of a foreign expression. -/
def type? : Foreign → Option Annotation
  | node => none
  | expr type | literal type _ | access type _ => some (type.getD (.known Ty.unknown))

/-- The value of a foreign literal. -/
def literal? : Foreign → Option Literal
  | literal _ value => some value
  | _ => none

/-- The resolved reference of a foreign access. -/
def access? : Foreign → Option Access
  | access _ resolved => some resolved
  | _ => none

end Foreign

/-- One level of a bound tree (`BoundNode`): a node of one of the nine classes of bound nodes, or of
a `foreign` class that no traversal knows. The recorded type of an expression may be missing, and
the expression then has the unknown type. -/
inductive Shape (α : Type) where
  | arithmetic (type : Option Annotation) (exprs : List α)
  | call (func : String) (type : Option Annotation) (args : List α)
  | conditional (type : Option Annotation) (condition whenTrue whenFalse : α)
  | index (type : Option Annotation) (target key : α)
  | literal (type : Option Annotation) (value : Literal)
  | output (type : Option Annotation) (exprs : List α)
  | access (type : Option Annotation) (resolved : Access)
  | list (elements : List α)
  | map (entries : List (Str × α))
  | foreign (className : String) (content : Foreign)
  deriving Inhabited

/-- The class name that stands for no node. -/
def missingClass : String := "NoneType"

namespace Shape

variable {α β : Type}

/-- The class name of a node. -/
def className : Shape α → String
  | arithmetic .. => "BoundArithmetic"
  | call .. => "BoundCall"
  | conditional .. => "BoundConditional"
  | index .. => "BoundIndex"
  | literal .. => "BoundLiteral"
  | output .. => "BoundOutput"
  | access .. => "BoundVariableAccess"
  | list .. => "BoundListProperty"
  | map .. => "BoundMapProperty"
  | foreign className _ => className

/-- The type of an expression (`BoundExpr.type`); nodes that are none have no type. -/
def type? : Shape α → Option Annotation
  | arithmetic type _ | call _ type _ | conditional type .. | index type .. | literal type _
  | output type _ | access type _ => some (type.getD (.known Ty.unknown))
  | list _ | map _ => none
  | foreign _ content => content.type?

/-- Whether a node is an expression. -/
def isExpr (s : Shape α) : Bool := s.type?.isSome

/-- Whether a node is an expression of the type. -/
def hasType (s : Shape α) (type : Ty) : Bool := s.type?.any (·.isType type)

/-- The value of a literal. -/
def literal? : Shape α → Option Literal
  | literal _ value => some value
  | foreign _ content => content.literal?
  | _ => none

/-- The resolved reference of an access. -/
def access? : Shape α → Option Access
  | access _ resolved => some resolved
  | foreign _ content => content.access?
  | _ => none

/-- Whether a traversal knows the class of a node. -/
def isTraversable : Shape α → Bool
  | foreign .. => false
  | _ => true

/-- The children of a node in the order in which they are visited. -/
def children : Shape α → List α
  | arithmetic _ exprs | output _ exprs => exprs
  | call _ _ args => args
  | conditional _ condition whenTrue whenFalse => [condition, whenTrue, whenFalse]
  | index _ target key => [target, key]
  | list elements => elements
  | map entries => entries.map Prod.snd
  | literal .. | access .. | foreign .. => []

/-- The node with each child replaced. -/
def mapChildren (f : α → β) : Shape α → Shape β
  | arithmetic type exprs => arithmetic type (exprs.map f)
  | call func type args => call func type (args.map f)
  | conditional type condition whenTrue whenFalse =>
    conditional type (f condition) (f whenTrue) (f whenFalse)
  | index type target key => index type (f target) (f key)
  | literal type value => literal type value
  | output type exprs => output type (exprs.map f)
  | access type resolved => access type resolved
  | list elements => list (elements.map f)
  | map entries => map (entries.map fun entry => (entry.1, f entry.2))
  | foreign className content => foreign className content

/-- The node with the results of its children, which are run in order. -/
def sequence {m : Type → Type} [Monad m] : Shape (m α) → m (Shape α)
  | arithmetic type exprs => do return arithmetic type (← exprs.mapM id)
  | call func type args => do return call func type (← args.mapM id)
  | conditional type condition whenTrue whenFalse => do
    return conditional type (← condition) (← whenTrue) (← whenFalse)
  | index type target key => do return index type (← target) (← key)
  | literal type value => pure (literal type value)
  | output type exprs => do return output type (← exprs.mapM id)
  | access type resolved => pure (access type resolved)
  | list elements => do return list (← elements.mapM id)
  | map entries => do
    return map (← entries.mapM fun entry => do return (entry.1, ← entry.2))
  | foreign className content => pure (foreign className content)

/-- Changing the children changes the list of them. -/
@[simp] theorem children_mapChildren (f : α → β) (s : Shape α) :
    (s.mapChildren f).children = s.children.map f := by
  cases s <;> simp [mapChildren, children]

/-- Changing the children keeps the recorded type. -/
@[simp] theorem type?_mapChildren (f : α → β) (s : Shape α) :
    (s.mapChildren f).type? = s.type? := by
  cases s <;> rfl

/-- Changing the children keeps the access. -/
@[simp] theorem access?_mapChildren (f : α → β) (s : Shape α) :
    (s.mapChildren f).access? = s.access? := by
  cases s <;> rfl

/-- Changing the children keeps the class. -/
@[simp] theorem className_mapChildren (f : α → β) (s : Shape α) :
    (s.mapChildren f).className = s.className := by
  cases s <;> rfl

end Shape

end Hil
