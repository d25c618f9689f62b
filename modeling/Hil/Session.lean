import Hil.Compile
import Hil.Walk.Rules

/-!
# Sessions

A session is a sequence of steps on one graph and one store of nodes: adding entities, binding,
walking, running passes and compiling. Trees can be kept under names for later steps. A step that
fails leaves what it changed before.
-/

namespace Hil

/-- The state of a session. -/
structure Session where
  graph : Graph
  hasCount : Bool
  store : Store
  trees : Table String (Option NodeId)
  deriving Inhabited

/-- A step of a session, which outlives a failure. -/
abbrev SessionM := ExceptT Failure (StateM Session)

/-- Where the tree of a step comes from. -/
inductive TreeSource where
  | named (name : String)
  | plan (plan : Blueprint)

/-- What became of a walk: its outcome, the tree that it started from as it is now, and the
trace. -/
structure Visited where
  outcome : Except Failure Tree
  same : Bool
  start : Tree
  trace : List TraceEntry

/-- What became of a pass: its outcome, the tree that it was run on as it is now, and the
context. -/
structure PassRun where
  outcome : Except Failure Tree
  same : Bool
  start : Tree
  context : Context

/-- What became of a compilation that came to an end: whether nothing was reported, the tree, if
there is one, and what the passes left. -/
structure Driven where
  success : Bool
  tree : Tree
  ran : Pipeline.Ran

namespace Session

/-- The state in which a session begins. -/
def start (hasCount : Bool) : Session := ⟨.empty, hasCount, .empty, .empty⟩

/-- Keeps a node under a name, if one is given. -/
def keepAs (name : Option String) (node : Option NodeId) : SessionM Unit :=
  match name with
  | some name => modify fun s => { s with trees := s.trees.insert name node }
  | none => pure ()

/-- Adds the nodes of a blueprint. -/
def add (plan : Blueprint) : SessionM (Option NodeId) :=
  ExceptT.mk (modifyGet fun s =>
    let (outcome, store) := plan.build.run.run s.store
    (outcome, { s with store }))

/-- The root of the tree of a source; the nodes of a blueprint are added. -/
def root : TreeSource → SessionM (Option NodeId)
  | .named name => do
    match (← get).trees.find? name with
    | some node => return node
    | none => throw (.unknownName name)
  | .plan plan => add plan

/-- The tree at a node. -/
def treeAt (node : Option NodeId) : SessionM Tree := return (← get).store.tree node

/-- Adds the nodes of a blueprint and returns their tree. -/
def build (plan : Blueprint) : SessionM Tree := do treeAt (← add plan)

/-- Adds an entity to the graph. -/
def addEntity (entity : Entity) : SessionM Unit :=
  modify fun s => { s with graph := s.graph.add entity }

/-- Says whether a count index is in scope. -/
def setCount (hasCount : Bool) : SessionM Unit := modify fun s => { s with hasCount }

/-- Runs a step of binding. -/
def bind {α : Type} (step : Bool → Bind α) : SessionM α :=
  ExceptT.mk (modifyGet fun s =>
    let (outcome, graph) := (step s.hasCount).run.run s.graph
    (outcome.mapError fun e => .problem e.problem, { s with graph }))

/-- Binds a tree and keeps it. -/
def bindTree (step : Bool → Bind Tree) (name : Option String) : SessionM Tree := do
  let tree ← bind step
  let node ← modifyGet fun s =>
    let (node, store) := s.store.addTree tree
    (node, { s with store })
  keepAs name node
  return tree

/-- The tree of a source, kept under a name. -/
def takeTree (source : TreeSource) (name : Option String) : SessionM Tree := do
  let node ← root source
  keepAs name node
  treeAt node

/-- Attaches the provider of a resource. -/
def attachProvider (id : String) : SessionM Unit := do
  let s ← get
  match s.graph.attachProvider id with
  | .ok (graph, _) => set { s with graph }
  | .error none => throw (.problem ((BindFault.unknownEntity .resource id).problem none))
  | .error (some r) =>
    throw (.problem ((BindFault.unknownProvider r.providerKey r.name.id).problem none))

/-- Runs a walk on the store of the session. -/
def walk {σ α : Type} (memo : σ) (w : Walk σ α) : SessionM (Except Failure α × σ) :=
  modifyGet fun s =>
    let (outcome, state) := w.runFrom s.store memo
    ((outcome, state.memo), { s with store := state.store })

/-- The entities that a tree refers to. -/
def dependencies (source : TreeSource) : SessionM (List EntryRef) := do
  let node ← root source
  let (outcome, _) ← walk [] (Dependencies.collect node)
  ExceptT.mk (pure outcome)

/-- Walks a tree with rule visitors, from an expression if so asked, and keeps the result, or the
tree itself after a failure. -/
def visit (source : TreeSource) (pre post : Option (List Rule)) (fromExpr : Bool)
    (name : Option String) : SessionM Visited := do
  let node ← root source
  let preVisitor := ruleVisitor? .pre pre
  let postVisitor := ruleVisitor? .post post
  let visitor :=
    if fromExpr then Visitor.visitExpr preVisitor postVisitor
    else Visitor.visitNode preVisitor postVisitor
  let (outcome, trace) ← walk [] (visitor node)
  keepAs name (outcome.toOption.getD node)
  let store := (← get).store
  return ⟨outcome.map store.tree, outcome.toOption == some node, store.tree node, trace⟩

/-- Runs a pass on a tree in a fresh context, and keeps the result unless it fails. -/
def runPass (pass : Pass) (source : TreeSource) (name : Option String) : SessionM PassRun := do
  let node ← root source
  let (outcome, context) ← walk (Context.ofFiles []) (pass.run node)
  match outcome with
  | .ok result => keepAs name result
  | .error _ => pure ()
  let store := (← get).store
  return ⟨outcome.map store.tree, outcome.toOption == some node, store.tree node, context⟩

/-- Runs registered passes on a tree in a fresh context. -/
def runPasses (passes : List Pass) (dump : Bool) (source : TreeSource) :
    SessionM (Except Failure Tree × Pipeline.Ran) := do
  let node ← root source
  let s ← get
  let (outcome, ran) :=
    Pipeline.run ⟨passes⟩ dump node s.store (Context.ofFiles [])
  set { s with store := ran.store }
  return (outcome.map ran.store.tree, ran)

/-- Compiles a property value, and keeps the tree unless a pass fails. -/
def drive (options : CompileOptions) (value : Value) (name : Option String) : SessionM Driven := do
  let s ← get
  let c := compile options value s.graph s.store
  set { s with graph := c.graph, store := c.ran.store }
  let compiled ← ExceptT.mk (pure c.outcome)
  keepAs name compiled.node
  return ⟨compiled.success, c.ran.store.tree compiled.node, c.ran⟩

end Session

end Hil
