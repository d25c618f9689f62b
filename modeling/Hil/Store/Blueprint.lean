import Hil.Reference.Parser
import Hil.Store

/-!
# Blueprints

A blueprint describes a tree to be added to a store. Beside new nodes it can use a node that is
already there, by its label, so that nodes can be shared between positions and between trees. It
names references by their text, which is read when the blueprint is built. Building fails at a text
that is no reference and at an unknown label; the nodes that were added before a failure stay.
-/

namespace Hil

/-- A blueprint. -/
inductive Blueprint where
  | missing
  | existing (label : String)
  | access (info : NodeInfo) (type : Option Annotation) (name : String) (elements : List String)
      (entry : Option EntryRef)
  | node (info : NodeInfo) (shape : Shape Blueprint)

instance : Inhabited Blueprint := ⟨.missing⟩

/-- A step of building, of which the store outlives a failure. -/
abbrev Build := ExceptT Failure (StateM Store)

namespace Build

/-- Adds a node. -/
def add (cell : Cell) : Build (Option NodeId) := some <$> modifyGet fun store => store.add cell

/-- The node of a label. -/
def labelled (label : String) : Build (Option NodeId) := do
  match (← get).labels.find? label with
  | some id => return some id
  | none => throw (.unknownName label)

/-- The reference of a text. -/
def reference (name : String) : Build Reference :=
  match Reference.read name with
  | .ok reference => pure reference
  | .error fault => throw (.problem (fault.problem name none))

end Build

namespace Blueprint

mutual

/-- Adds the nodes of a blueprint to a store, children before their parents. -/
def build : Blueprint → Build (Option NodeId)
  | missing => pure none
  | existing label => Build.labelled label
  | access info type name elements entry => do
    let reference ← Build.reference name
    Build.add ⟨info, .access type ⟨elements, .plain Ty.unknown, reference, entry⟩⟩
  | node info shape => do Build.add ⟨info, ← buildShape shape⟩

/-- Adds the nodes below a shape. -/
def buildShape : Shape Blueprint → Build (Shape (Option NodeId))
  | .arithmetic type exprs => return .arithmetic type (← buildList exprs)
  | .call func type args => return .call func type (← buildList args)
  | .conditional type condition whenTrue whenFalse => do
    let c ← build condition
    let t ← build whenTrue
    let f ← build whenFalse
    return .conditional type c t f
  | .index type target key => do
    let t ← build target
    let k ← build key
    return .index type t k
  | .literal type value => pure (.literal type value)
  | .output type exprs => return .output type (← buildList exprs)
  | .access type resolved => pure (.access type resolved)
  | .list elements => return .list (← buildList elements)
  | .map entries => return .map (Table.ofList (← buildEntries entries)).entries
  | .foreign className content => pure (.foreign className content)

/-- Adds the nodes of blueprints in order. -/
def buildList : List Blueprint → Build (List (Option NodeId))
  | [] => pure []
  | plan :: plans => do
    let node ← build plan
    return node :: (← buildList plans)

/-- Adds the nodes of the values of a map in order. -/
def buildEntries : List (Str × Blueprint) → Build (List (Str × Option NodeId))
  | [] => pure []
  | (key, plan) :: entries => do
    let node ← build plan
    return (key, node) :: (← buildEntries entries)

end

end Blueprint

end Hil
