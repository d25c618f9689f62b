import Hil.Proofs.Binding.References

/-!
# Images of values

The tree that a value is bound to when none of its parts fails: a function of the value and of what
the names of its accesses resolve to. What a name resolves to in a graph does not depend on the
count scope, which only decides whether there is a count index at all.
-/

namespace Hil

mutual

/-- The tree of a property value whose accesses resolve as given; there is none for a value that no
property may have. -/
def Value.image (look : String → Ty × Access) : Value → Tree
  | .expr e => Expr.image look e
  | .list items => unplaced (.list (imagesOf look items))
  | .map entries => unplaced (.map (Table.ofList (entryImages look entries)).entries)
  | .bool b => unplaced (.literal (typed Ty.bool) (.bool b))
  | .int i => unplaced (.literal (typed Ty.number) (.int i))
  | .float x => unplaced (.literal (typed Ty.number) (.float x))
  | .str s => unplaced (.literal (typed Ty.string) (.str s))
  | .unsupported _ _ => .missing

/-- The tree of an expression whose accesses resolve as given; there is none for an expression of a
class without a meaning. -/
def Expr.image (look : String → Ty × Access) : Expr → Tree
  | .arithmetic place operator operands =>
    boundFrom (.arithmetic place operator operands)
      (.arithmetic (typed Ty.unknown) (imagesOf look operands))
  | .call place func args =>
    let bound := imagesOf look args
    let type := (callType func (bound.map Tree.type)).toOption
    boundFrom (.call place func args) (.call func (type.map .known) bound)
  | .conditional place condition whenTrue whenFalse =>
    let c := Value.image look condition
    let t := Value.image look whenTrue
    let f := Value.image look whenFalse
    boundFrom (.conditional place condition whenTrue whenFalse)
      (.conditional (typed (branchType t.type f.type)) c t f)
  | .index place target key =>
    let t := Value.image look target
    let k := Value.image look key
    boundFrom (.index place target key) (.index (typed (elementOrUnknown t.type)) t k)
  | .literal place value tag =>
    boundFrom (.literal place value tag) (.literal (tag.type?.map .known) value)
  | .output place operands => Bind.boundOutput place operands (imagesOf look operands)
  | .access place name =>
    boundFrom (.access place name) (.access (typed (look name).1) (look name).2)
  | .other _ _ => .missing

/-- The trees of values. -/
def imagesOf (look : String → Ty × Access) : List Value → List Tree
  | [] => []
  | value :: values => Value.image look value :: imagesOf look values

/-- The trees of the values of a map, under the texts of their keys. -/
def entryImages (look : String → Ty × Access) : List (Literal × Value) → List (Str × Tree)
  | [] => []
  | (key, value) :: entries => (key.text, Value.image look value) :: entryImages look entries

end

/-- The images of values are those of each. -/
theorem imagesOf_eq_map (look : String → Ty × Access) (values : List Value) :
    imagesOf look values = values.map (Value.image look) := by
  induction values with
  | nil => rfl
  | cons v values ih => rw [imagesOf, List.map_cons, ih]

/-- The images of entries are those of their values, under the texts of the keys. -/
theorem entryImages_eq_map (look : String → Ty × Access) (entries : List (Literal × Value)) :
    entryImages look entries = entries.map fun e ↦ (e.1.text, e.2.image look) := by
  induction entries with
  | nil => rfl
  | cons e entries ih => rw [entryImages, List.map_cons, ih]

/-! ### Names in a graph -/

variable {g : Graph} {hasCount : Bool} {name : String} {reference : Reference} {type : Ty}
  {access : Access}

/-- What resolves outside of a count scope resolves to the same in one. -/
theorem Resolves.inScope (h : Resolves hasCount g reference type access) :
    Resolves true g reference type access := by
  cases h with
  | count target _ => exact .count target rfl
  | «local» target found => exact .local target found
  | module target found => exact .module target found
  | user target found => exact .user target found
  | resource target found resolved => exact .resource target found resolved

namespace Graph

/-- What the name of an access resolves to, if it does. -/
def lookUp (g : Graph) (name : String) : Ty × Access :=
  match Reference.read name with
  | .ok reference => (Bind.outcome g (reference.resolve true none)).toOption.getD default
  | .error _ => default

/-- A name that resolves is looked up with the type and the access that it resolves to. -/
theorem lookUp_eq (read : Reference.read name = .ok reference)
    (h : Resolves hasCount g reference type access) : g.lookUp name = (type, access) := by
  rw [lookUp, read]
  simp only [Bind.outcome_resolve_eq_ok_iff.mpr h.inScope, Except.toOption, Option.getD_some]

end Graph

end Hil
