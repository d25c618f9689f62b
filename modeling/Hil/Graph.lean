import Hil.Table
import Hil.Tree

/-!
# Graphs

The entities that references stand for: providers, resources, modules, local values and input
variables, each kind in a table of its own. Adding an entity under a key that is taken replaces the
one there; every entity gets a serial of its own, so the two stay distinct. A resource finds its
provider on first use, by `Graph.attachProvider`.
-/

namespace Hil

/-- A configured provider, with the schemas of the resource types it knows (`ProviderNode`). Of a
provider, its properties are left out. -/
structure Provider where
  name : String
  aliasName : String
  schemas : List (String × Schema)

namespace Provider

/-- The key of a provider: its name, and its alias after a dot if it has one
(`ProviderNode.key`). -/
def key (p : Provider) : String :=
  if p.aliasName.isEmpty then p.name else p.name ++ "." ++ p.aliasName

/-- The schema of a resource type (`ProviderNode.schemas_for`). -/
def schemaFor (p : Provider) (type : String) : Schema := (p.schemas.lookup type).getD .undeclared

end Provider

/-- A resource (`ResourceNode`, `ResourceConfig`). `provider` and `schema` are empty until they are
resolved; `explicitProvider` is the provider key given in the configuration, or the empty text. Of a
resource, its count and its properties are left out. -/
structure Resource where
  name : ResourceName
  explicitProvider : String
  provider : Option Provider
  schema : Option Schema

namespace Resource

/-- The key of the provider: the one given, else the type up to its first underscore
(`ResourceConfig.provider_key`). -/
def providerKey (r : Resource) : String :=
  if r.explicitProvider.isEmpty then String.ofList (r.name.type.toList.takeWhile (· != '_'))
  else r.explicitProvider

/-- The type of the resource as a whole (`ResourceNode.output_type`). -/
def outputType (r : Resource) : Ty := (r.schema.getD .undeclared).type.outputOf

end Resource

/-- A module call (`ModuleNode`), without its properties. -/
structure ModuleCall where
  name : String
  source : String

/-- A local value (`LocalNode`). -/
structure LocalValue where
  name : String
  value : Option Tree

/-- An input variable, optionally with a default (`VariableNode`). -/
structure InputVariable where
  name : String
  default : Option Tree

namespace InputVariable

/-- The type of a variable: a string unless its default is something else
(`PropertyBinder._bind_user_variable`). -/
def type (v : InputVariable) : Ty :=
  match v.default with
  | none => Ty.string
  | some tree => if tree.hasType Ty.string then Ty.string else Ty.unknown

end InputVariable

/-- An entity with the serial under which it was added. -/
structure Registered (α : Type) where
  serial : Nat
  entity : α

/-- A graph (`Graph`). `added` counts the additions so far. -/
structure Graph where
  providers : Table String (Registered Provider)
  resources : Table String (Registered Resource)
  modules : Table String (Registered ModuleCall)
  locals : Table String (Registered LocalValue)
  inputs : Table String (Registered InputVariable)
  added : Nat
  deriving Inhabited

/-- An entity that can be added to a graph. -/
inductive Entity where
  | provider (p : Provider)
  | resource (r : Resource)
  | module (m : ModuleCall)
  | local (l : LocalValue)
  | variable (v : InputVariable)

namespace Entity

/-- The kind of an entity. -/
def kind : Entity → EntryKind
  | provider _ => .provider
  | resource _ => .resource
  | module _ => .module
  | «local» _ => .local
  | «variable» _ => .variable

/-- The key of an entity in its table. -/
def key : Entity → String
  | provider p => p.key
  | resource r => r.name.id
  | module m => m.name
  | «local» l => l.name
  | «variable» v => v.name

end Entity

namespace Graph

/-- The graph without entities. -/
def empty : Graph := ⟨.empty, .empty, .empty, .empty, .empty, 0⟩

/-- Adds an entity, in the place of one with its key (`Graph.add_provider` and the other four). -/
def add (g : Graph) (entity : Entity) : Graph :=
  let g' := { g with added := g.added + 1 }
  match entity with
  | .provider p => { g' with providers := g.providers.insert p.key ⟨g.added, p⟩ }
  | .resource r => { g' with resources := g.resources.insert r.name.id ⟨g.added, r⟩ }
  | .module m => { g' with modules := g.modules.insert m.name ⟨g.added, m⟩ }
  | .local l => { g' with locals := g.locals.insert l.name ⟨g.added, l⟩ }
  | .variable v => { g' with inputs := g.inputs.insert v.name ⟨g.added, v⟩ }

/-- The serial of the entity of a kind under a key. -/
def serial? (g : Graph) (kind : EntryKind) (key : String) : Option Nat :=
  match kind with
  | .provider => (g.providers.find? key).map (·.serial)
  | .resource => (g.resources.find? key).map (·.serial)
  | .module => (g.modules.find? key).map (·.serial)
  | .local => (g.locals.find? key).map (·.serial)
  | .variable => (g.inputs.find? key).map (·.serial)

/-- The entity of a kind under a key, as a reference. -/
def ref? (g : Graph) (kind : EntryKind) (key : String) : Option EntryRef :=
  (g.serial? kind key).map fun serial => ⟨kind, key, serial⟩

/-- The keys of a kind of entity, in the order of their first addition. -/
def keys (g : Graph) : EntryKind → List String
  | .provider => g.providers.keys
  | .resource => g.resources.keys
  | .module => g.modules.keys
  | .local => g.locals.keys
  | .variable => g.inputs.keys

/-- The resource of an identity. -/
def resource? (g : Graph) (id : String) : Option Resource :=
  (g.resources.find? id).map (·.entity)

/-- The provider that a resource has or that its key leads to. -/
def providerOf? (g : Graph) (r : Resource) : Option Provider :=
  r.provider.or ((g.providers.find? r.providerKey).map (·.entity))

/-- A resource with its provider attached, and with the schema of that provider for its type unless
it has a schema of its own. There is none when the provider is not known. -/
def resolve? (g : Graph) (r : Resource) : Option Resource :=
  (g.providerOf? r).map fun p =>
    { r with provider := some p, schema := r.schema.or (some (p.schemaFor r.name.type)) }

/-- Attaches the provider of the resource of an identity, or fails with the resource as it is
(`Graph.ensure_provider`). -/
def attachProvider (g : Graph) (id : String) : Except (Option Resource) (Graph × Resource) :=
  match g.resource? id with
  | none => .error none
  | some r =>
    match g.resolve? r with
    | none => .error (some r)
    | some resolved =>
      let resources := g.resources.modify id fun slot => { slot with entity := resolved }
      .ok ({ g with resources }, resolved)

/-- The type of an entity as a whole; only resources, modules and local values have one
(`output_type` of each of them). -/
def outputType? (g : Graph) (kind : EntryKind) (key : String) : Option Ty :=
  match kind with
  | .resource => (g.resource? key).map Resource.outputType
  | .module => (g.modules.find? key).map fun _ => Ty.unknown.outputOf
  | .local => (g.locals.find? key).map fun _ => Ty.unknown.outputOf
  | .provider | .variable => none

end Graph

end Hil
