import Hil.Reference.Segment
import Hil.Text.Str

/-!
# References

A reference names something that an expression can use: a count index, a path, an attribute of the
resource itself, workspace data, an input variable, a local value, an output of a module, or an
attribute of a resource. A reference keeps the text it was read from.
-/

namespace Hil

/-- How a resource is declared (`ResourceMode`). -/
inductive Mode where
  | managed
  | data
  deriving DecidableEq, Repr, Inhabited

/-- The name of a mode. -/
def Mode.name : Mode → String
  | managed => "managed"
  | data => "data"

/-- Which instances of a counted resource a reference selects. -/
inductive Selection where
  /-- No instance is singled out. -/
  | plain
  /-- Every instance. -/
  | splat
  /-- The instance of the number. -/
  | index (n : Nat)
  deriving DecidableEq, Repr, Inhabited

/-- The identity of a resource block. -/
structure ResourceName where
  mode : Mode
  type : String
  name : String
  deriving DecidableEq, Repr

/-- The key under which a resource is known; those of data resources begin with `data.`
(`ResourceConfig.id`, `ResourceVariable.resource_id`). -/
def ResourceName.id (r : ResourceName) : String :=
  match r.mode with
  | .managed => r.type ++ "." ++ r.name
  | .data => "data." ++ r.type ++ "." ++ r.name

/-- What a reference stands for (`InterpolatedVariable`). -/
inductive Target where
  /-- `count.FIELD`, where only the field `index` has a meaning. -/
  | count (isIndex : Bool)
  /-- `path.FIELD`. -/
  | path (field : String)
  /-- `self.FIELD`. -/
  | self (field : String)
  /-- A text without a dot. -/
  | simple
  /-- `terraform.FIELD`. -/
  | terraform (field : String)
  /-- `var.NAME`, with an element as in `var.NAME.ELEM` or with the empty text for none. -/
  | user (name : String) (element : String)
  /-- `local.NAME`. -/
  | local (name : String)
  /-- `module.NAME.FIELD`. -/
  | module (name : String) (field : String)
  /-- `TYPE.NAME.FIELD`, `TYPE.NAME.*.FIELD` or `TYPE.NAME.N.FIELD`, after `data.` for a data
  resource. -/
  | resource (resource : ResourceName) (selection : Selection) (field : String)
  deriving DecidableEq, Repr, Inhabited

/-- A reference with the text it was read from. -/
structure Reference where
  text : Str
  target : Target
  deriving DecidableEq, Repr, Inhabited

/-- Whether references of the kind stand for an entry of the graph. -/
def Target.namesEntry : Target → Bool
  | .user .. | .local .. | .module .. | .resource .. => true
  | _ => false

end Hil
