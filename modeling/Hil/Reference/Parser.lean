import Hil.Number.Decimal
import Hil.Problem
import Hil.Reference
import Hil.Text.Quoted

/-!
# Reading references

The first segment of a reference decides its form. A form lists the token classes that must follow,
and says whether more segments of any class may. A text fails at the first character that no
continuation of what precedes it allows; a text that ends too early fails where its last token
starts.
-/

namespace Hil

/-- The token classes of any segment of a field. -/
def anyToken : List TokenClass := [.name, .int, .splat, .hash]

/-- What must and what may follow the first segment of a reference. -/
structure Form where
  required : List (List TokenClass)
  isOpen : Bool

/-- The form that a first segment selects; what is not a keyword is the type of a resource. -/
def formOf (head : String) : Form :=
  match head with
  | "count" | "path" | "self" | "terraform" => ⟨[anyToken], true⟩
  | "var" => ⟨[[.name]], true⟩
  | "local" => ⟨[[.name]], false⟩
  | "module" => ⟨[[.name], anyToken], true⟩
  | "data" => ⟨[[.name], [.name], [.name, .int, .splat]], true⟩
  | _ => ⟨[[.name], [.name, .int, .splat]], true⟩

/-- The column, counted from one, at which segments after the first leave the form. `start` is the
offset at which the segments begin and `last` that of the token before them. -/
def faultColumn? (required : List (List TokenClass)) (isOpen : Bool) (last start : Nat) :
    List (List Char) → Option Nat
  | [] => if required.isEmpty then none else some (last + 1)
  | run :: runs =>
    if required.isEmpty && !isOpen then some start
    else if run.isEmpty && runs.isEmpty then some start
    else match tokenFault? (required.headD anyToken) run with
      | some n => some (start + n + 1)
      | none => faultColumn? required.tail isOpen start (start + run.length + 1) runs

/-- The column at which the runs of a text with a dot stop being a reference. -/
def referenceFault? : List (List Char) → Option Nat
  | [] => some 1
  | head :: runs =>
    match tokenFault? [.name] head with
    | some n => some (n + 1)
    | none =>
      let form := formOf (String.ofList head)
      faultColumn? form.required form.isOpen 0 (head.length + 1) runs

/-- The attribute that the segments after the name of a resource stand for (`splat_field`,
`index_field`, `plain_field`). A lone `*` or integer is an attribute of that name; before other
segments it selects instances. -/
def attributeOf : List String → Selection × String
  | first :: second :: rest =>
    match tokenClass? first.toList with
    | some .splat => (.splat, joinDots (second :: rest))
    | some .int => (.index (Decimal.valueOf first.toList), joinDots (second :: rest))
    | _ => (.plain, joinDots (first :: second :: rest))
  | segments => (.plain, joinDots segments)

/-- The target that segments of the right form stand for (`_VariableTransformer`). -/
def targetOf (head : String) (rest : List String) : Target :=
  let first := rest.headD ""
  match head with
  | "count" => .count (joinDots rest == "index")
  | "path" => .path (joinDots rest)
  | "self" => .self (joinDots rest)
  | "terraform" => .terraform (joinDots rest)
  | "var" => .user first (joinDots rest.tail)
  | "local" => .local first
  | "module" => .module first (joinDots rest.tail)
  | "data" =>
    let (selection, field) := attributeOf (rest.drop 2)
    .resource ⟨.data, first, rest.tail.headD ""⟩ selection field
  | type =>
    let (selection, field) := attributeOf rest.tail
    .resource ⟨.managed, type, first⟩ selection field

/-- Why a text is not a reference. -/
inductive ReferenceFault where
  | empty
  | unexpected (column : Nat)
  deriving DecidableEq, Repr

/-- Reads a reference (`parse_variable`). A text without a dot is a simple reference, whatever its
characters. -/
def Reference.read (text : String) : Except ReferenceFault Reference :=
  let runs := Text.splitAt '.' text.toList
  match runs with
  | [] | [_] => if text.isEmpty then .error .empty else .ok ⟨text, .simple⟩
  | _ =>
    match referenceFault? runs with
    | some column => .error (.unexpected column)
    | none =>
      let segments := runs.map String.ofList
      .ok ⟨text, targetOf (segments.headD "") segments.tail⟩

/-- A fault as it is reported of the text that has it. -/
def ReferenceFault.problem (text : String) (place : Option Location) : ReferenceFault → Problem
  | empty =>
    { category := .malformed, message := "empty variable reference", location := place }
  | unexpected column =>
    { category := .malformed
      message := "invalid variable reference " ++ Text.quoted text
      location := place
      note := some ("unexpected input at column " ++ toString column) }

end Hil
