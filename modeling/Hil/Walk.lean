import Hil.Failure
import Hil.Store

/-!
# Walks

A walk visits the nodes of a tree in a store and changes them in place. A visitor is given a node
and returns it, a node to put in its place, or nothing to delete it. One visitor runs before the
children of a node are visited, and the walk goes on into what it returns; the other runs after
them, and its result is the result of the walk.

* Deleted children of calls, arithmetic, outputs and lists are dropped. A node of these classes that
  loses its last child is deleted as well, without its second visit.
* A deleted value of a map drops its key; an empty map stays.
* Children in slots can be replaced and not deleted.
* A walk may come to a node again while the children of the node are visited. Slots are read one
  after the other as they are then; lists and the keys of a map are those of the start.
* A failure ends the walk and leaves the changes made so far. Lists and slots of a node change after
  all its children have been visited, and the keys of a map one by one.

Visitors carry a memo of their own beside the store. Both outlive a failure.
-/

namespace Hil

/-- What a walk works on. -/
structure WalkState (σ : Type) where
  store : Store
  memo : σ

/-- A step of a walk. -/
abbrev Walk (σ : Type) := ExceptT Failure (StateM (WalkState σ))

namespace Shape

variable {α : Type}

/-- The child in a slot. -/
def slot? (slot : Slot) : Shape α → Option α
  | conditional _ condition whenTrue whenFalse =>
    match slot with
    | .condition => some condition
    | .whenTrue => some whenTrue
    | .whenFalse => some whenFalse
    | .target | .key => none
  | index _ target key =>
    match slot with
    | .target => some target
    | .key => some key
    | .condition | .whenTrue | .whenFalse => none
  | _ => none

/-- The entries of a map. -/
def entries : Shape α → List (Str × α)
  | map entries => entries
  | _ => []

/-- A map with its entries changed. -/
def mapEntries (f : List (Str × α) → List (Str × α)) : Shape α → Shape α
  | map entries => map (f entries)
  | shape => shape

end Shape

/-- What visits a node, which may be missing (`BoundNodeVisitor`). -/
abbrev Visitor (σ : Type) := Option NodeId → Walk σ (Option NodeId)

namespace Walk

variable {σ τ : Type} {α : Type}

/-- The node of an identity. -/
def cell (id : NodeId) : Walk σ Cell := return (← get).store.cell id

/-- Changes the shape of a node. -/
def modifyShape (id : NodeId) (f : Shape (Option NodeId) → Shape (Option NodeId)) : Walk σ Unit :=
  modify fun state => { state with store := state.store.modifyShape id f }

/-- Runs a step on the store alone, which may fail. -/
def onStore (step : ExceptT Failure (StateM Store) α) : Walk σ α :=
  ExceptT.mk (modifyGet fun state =>
    let (outcome, store) := step.run.run state.store
    (outcome, { state with store }))

/-- Adds a node. -/
def add (cell : Cell) : Walk σ NodeId := onStore (modifyGet fun store => store.add cell)

/-- The memo. -/
def memo : Walk σ σ := return (← get).memo

/-- Changes the memo. -/
def modifyMemo (f : σ → σ) : Walk σ Unit :=
  modify fun state => { state with memo := f state.memo }

/-- Fails with a violation. -/
def violate (v : Violation) : Walk σ α := throw (.violation v)

/-- Runs a walk from a store and a memo. -/
def runFrom (walk : Walk σ α) (store : Store) (memo : σ) : Except Failure α × WalkState σ :=
  (walk.run).run ⟨store, memo⟩

/-- Runs a walk with a memo of its own on the store of another, and returns its outcome with its
last memo. -/
def isolate (memo : τ) (walk : Walk τ α) : Walk σ (Except Failure α × τ) :=
  modifyGet fun state =>
    let (outcome, inner) := walk.runFrom state.store memo
    ((outcome, inner.memo), { state with store := inner.store })

/-- The value of an outcome, or its failure. -/
def ofOutcome : Except Failure α → Walk σ α
  | .ok a => pure a
  | .error failure => throw failure

end Walk

namespace Visitor

variable {σ : Type}

/-- The visitor that leaves every node as it is (`identity_visitor`). -/
def keep : Visitor σ := pure

/-- Visits children in order and collects those that are left (`_visit_children`). -/
def survivors (visit : Visitor σ) : List (Option NodeId) → Walk σ (List (Option NodeId))
  | [] => pure []
  | child :: children => do
    match ← visit child with
    | none => survivors visit children
    | some id => return some id :: (← survivors visit children)

/-- Drops a key of a map, which has to be there. -/
def dropKey (id : NodeId) (key : Str) : Walk σ Unit := do
  if (Table.lookupEntry key (← Walk.cell id).shape.entries).isSome then
    Walk.modifyShape id (Shape.mapEntries (Table.eraseEntry key))
  else throw (.lostKey key)

/-- Visits the values that a map has at first, and changes the map after each
(`_visit_map_property`). -/
def mapValues (visit : Visitor σ) (id : NodeId) : List (Str × Option NodeId) → Walk σ Unit
  | [] => pure ()
  | (key, child) :: entries => do
    match ← visit child with
    | none => dropKey id key
    | some value => Walk.modifyShape id (Shape.mapEntries (Table.insertEntry key (some value)))
    mapValues visit id entries

/-- Visits the child in a slot as the slot is now, which its parent cannot do without
(`_visit_slot`). -/
def slot (visit : Visitor σ) (id : NodeId) (slot : Slot) : Walk σ NodeId := do
  match ← visit ((← Walk.cell id).shape.slot? slot).join with
  | some child => return child
  | none => Walk.violate (.deletedSlot slot)

/-- The same visitor for expressions, which have to stay expressions. -/
def exprOnly (visit : Visitor σ) : Visitor σ := fun node => do
  match ← visit node with
  | none => return none
  | some id =>
    let cell ← Walk.cell id
    if cell.shape.isExpr then return some id
    else Walk.violate (.notAnExpression cell.shape.className)

/-- Visits the children of a list-bearing node, and the node after them unless it lost them all
(`_visit_arithmetic`, `_visit_call`, `_visit_output`, `_visit_list_property`). -/
def listNode (visit post : Visitor σ) (id : NodeId) (children : List (Option NodeId))
    (shape : List (Option NodeId) → Shape (Option NodeId)) : Walk σ (Option NodeId) := do
  let left ← survivors visit children
  if !children.isEmpty && left.isEmpty then return none
  Walk.modifyShape id fun _ => shape left
  post (some id)

/-- Visits the children of a node, and the node after them (`_VISIT_DISPATCH`). -/
def descend (visit post : Visitor σ) (id : NodeId) : Shape (Option NodeId) → Walk σ (Option NodeId)
  | .arithmetic type exprs => listNode (exprOnly visit) post id exprs (.arithmetic type)
  | .call func type args => listNode (exprOnly visit) post id args (.call func type)
  | .output type exprs => listNode (exprOnly visit) post id exprs (.output type)
  | .list elements => listNode visit post id elements .list
  | .map entries => do
    mapValues visit id entries
    post (some id)
  | .conditional type .. => do
    let c ← slot (exprOnly visit) id .condition
    let t ← slot (exprOnly visit) id .whenTrue
    let f ← slot (exprOnly visit) id .whenFalse
    Walk.modifyShape id fun _ => .conditional type (some c) (some t) (some f)
    post (some id)
  | .index type .. => do
    let t ← slot (exprOnly visit) id .target
    let k ← slot (exprOnly visit) id .key
    Walk.modifyShape id fun _ => .index type (some t) (some k)
    post (some id)
  | .literal .. | .access .. => post (some id)
  | .foreign className _ => Walk.violate (.unknownClass className)

/-- The walk of two visitors, down to a depth. -/
def visitTo (pre post : Visitor σ) : Nat → Visitor σ
  | 0, _ => throw .tooDeep
  | depth + 1, node => do
    match ← pre node with
    | none => return none
    | some id =>
      let cell ← Walk.cell id
      descend (visitTo pre post depth) post id cell.shape

/-- How many levels visitors may add to a tree below the nodes that are there when a walk starts. -/
def depthAllowance : Nat := 1000

/-- The walk of two visitors, whose depth the nodes of the store bound (`visit_bound_node`). -/
def visitNode (pre post : Visitor σ) : Visitor σ := fun node => do
  visitTo pre post ((← get).store.size + depthAllowance) node

/-- The walk of two visitors from an expression, whose result has to be an expression
(`visit_bound_expr`). -/
def visitExpr (pre post : Visitor σ) : Visitor σ := exprOnly (visitNode pre post)

end Visitor

end Hil
