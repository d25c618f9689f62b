import Hil.Graph
import Hil.Reference.Parser

/-!
# Failures of binding

The faults that a part of a value can have, and the monad that binding runs in: a step reads and
changes a graph, and the graph outlives a failure.
-/

namespace Hil

/-- Why a part cannot be bound. -/
inductive BindFault where
  /-- A value stands where an expression should, or an expression has a class without a meaning. -/
  | notAnExpression (kindName : String)
  /-- A property holds a value of a kind that no property may have. -/
  | unsupportedValue (kindName : String)
  | literalTag (tag : Tag)
  | unknownFunction (func : String)
  /-- A call of `map` pairs keys with values. -/
  | oddMapArguments
  | notAReference (text : String) (fault : ReferenceFault)
  | countField (text : Str)
  | noCountScope
  /-- A kind of reference without a meaning yet. -/
  | notYet (kinds : String)
  | unknownEntity (kind : EntryKind) (key : String)
  | unknownProvider (key resource : String)

/-- The problem that a fault of a part is reported as. -/
def BindFault.problem (place : Option Location) : BindFault → Problem
  | notAnExpression kindName =>
    { category := .malformed
      message := "unexpected HIL node type " ++ kindName
      location := place }
  | unsupportedValue kindName =>
    { category := .malformed
      message := "unexpected property value of type " ++ kindName
      location := place }
  | literalTag tag =>
    { category := .malformed, message := "unexpected literal type " ++ tag.name, location := place }
  | unknownFunction func =>
    { category := .unsupported, message := "function not supported: " ++ func, location := place }
  | oddMapArguments =>
    { category := .malformed
      message := "the number of arguments to \"map\" must be even"
      location := place }
  | notAReference text fault => fault.problem text place
  | countField text =>
    { category := .unsupported
      message := "unsupported count variable " ++ Text.shown text
      location := place }
  | noCountScope =>
    { category := .scope, message := "no count index in scope", location := place }
  | notYet kinds =>
    { category := .unsupported, message := "NYI: " ++ kinds, location := place }
  | unknownEntity kind key =>
    { category := .unresolved
      message := "unknown " ++ kind.name ++ " " ++ key
      location := place }
  | unknownProvider key resource =>
    { category := .unresolved
      message := "unknown provider " ++ key ++ " for resource " ++ resource
      location := place }

/-- A fault with the place of the part that has it. -/
structure BindError where
  fault : BindFault
  place : Option Location

/-- The problem that an error is reported as. -/
def BindError.problem (e : BindError) : Problem := e.fault.problem e.place

/-- A step of binding. The graph outlives a failure. -/
abbrev Bind := ExceptT BindError (StateM Graph)

namespace Bind

/-- Fails with a fault at a place. -/
def fail {α : Type} (place : Option Location) (fault : BindFault) : Bind α := throw ⟨fault, place⟩

/-- The result, or a fault at a place. -/
def ofExcept {α : Type} (place : Option Location) : Except BindFault α → Bind α
  | .ok a => pure a
  | .error fault => fail place fault

end Bind

end Hil
