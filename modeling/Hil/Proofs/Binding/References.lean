import Hil.Proofs.Binding.Outcome

/-!
# What references resolve to

The kinds of reference that stand for something, with the type and the access that each resolves to
in a graph. Every other reference fails.
-/

namespace Hil

/-- The type of a resource property: produced later, and a list when it is of all instances. -/
def propertyType (selection : Selection) (schema : Schema) : Ty :=
  if selection = .splat then schema.type.outputOf.listOf else schema.type.outputOf

/-- A reference resolves to a type and an access, in a count scope or outside of one. -/
inductive Resolves (hasCount : Bool) (g : Graph) (reference : Reference) : Ty → Access → Prop
  | count (target : reference.target = .count true) (scope : hasCount = true) :
      Resolves hasCount g reference Ty.number ⟨[], .plain Ty.unknown, reference, none⟩
  | local {name : String} {ref : EntryRef} (target : reference.target = .local name)
      (found : g.ref? .local name = some ref) :
      Resolves hasCount g reference Ty.unknown.outputOf
        ⟨[], .plain Ty.unknown, reference, some ref⟩
  | module {name field : String} {ref : EntryRef} (target : reference.target = .module name field)
      (found : g.ref? .module name = some ref) :
      Resolves hasCount g reference Ty.unknown.outputOf
        ⟨[], .plain Ty.unknown, reference, some ref⟩
  | user {name : String} {slot : Registered InputVariable}
      (target : reference.target = .user name "") (found : g.inputs.find? name = some slot) :
      Resolves hasCount g reference slot.entity.type
        ⟨[], .plain Ty.unknown, reference, some ⟨.variable, name, slot.serial⟩⟩
  | resource {name : ResourceName} {selection : Selection} {field : String} {r r' : Resource}
      (target : reference.target = .resource name selection field)
      (found : g.resource? name.id = some r) (resolved : g.resolve? r = some r') :
      Resolves hasCount g reference
        (propertyType selection ((r'.schema.getD .undeclared).follow (segmentsOf field)))
        ⟨segmentsOf field, r'.schema.getD .undeclared, reference, g.ref? .resource name.id⟩

namespace Bind

variable {g : Graph} {hasCount : Bool} {place : Option Location} {reference : Reference}
  {type : Ty} {access : Access}

private theorem outcome_resolveResource_eq_ok_iff {name : ResourceName} {selection : Selection}
    {field : String} :
    outcome g (reference.resolveResource place name selection field) = .ok (type, access) ↔
      ∃ r r', g.resource? name.id = some r ∧ g.resolve? r = some r' ∧
        type = propertyType selection ((r'.schema.getD .undeclared).follow (segmentsOf field)) ∧
        access = ⟨segmentsOf field, r'.schema.getD .undeclared, reference,
          g.ref? .resource name.id⟩ := by
  rw [outcome, Reference.resolveResource, run_get_bind]
  cases hp : g.attachProvider name.id with
  | error e =>
    constructor
    · intro h
      cases e <;> cases h
    · rintro ⟨r, r', hr, hres, _⟩
      obtain ⟨g₁, hok, _⟩ := Graph.exists_attachProvider hr hres
      rw [hp] at hok
      cases hok
  | ok p =>
    obtain ⟨g₁, r'⟩ := p
    obtain ⟨r, hr, hres⟩ := Graph.attachProvider_ok hp
    obtain ⟨g₂, hok, ha⟩ := Graph.exists_attachProvider hr hres
    obtain rfl : g₁ = g₂ := by
      rw [hp] at hok
      exact congrArg Prod.fst (Except.ok.inj hok)
    change Except.ok (propertyType selection ((r'.schema.getD .undeclared).follow
      (segmentsOf field)), Access.mk (segmentsOf field) (r'.schema.getD .undeclared) reference
        (g₁.ref? .resource name.id)) = .ok (type, access) ↔ _
    rw [ha.ref?_eq, Except.ok.injEq, Prod.mk.injEq]
    constructor
    · rintro ⟨rfl, rfl⟩
      exact ⟨r, r', hr, hres, rfl, rfl⟩
    · rintro ⟨r₀, r₀', hr₀, hres₀, rfl, rfl⟩
      rw [hr, Option.some.injEq] at hr₀
      subst hr₀
      rw [hres, Option.some.injEq] at hres₀
      subst hres₀
      exact ⟨rfl, rfl⟩

/-- A reference whose resolution gives a type and an access resolves to them. -/
theorem resolves_of_outcome
    (h : outcome g (reference.resolve hasCount place) = .ok (type, access)) :
    Resolves hasCount g reference type access := by
  rw [outcome, Reference.resolve, run_get_bind] at h
  cases ht : reference.target with
  | count isIndex =>
    rw [ht] at h
    cases isIndex with
    | false => cases h
    | true =>
      cases hc : hasCount with
      | false => rw [hc] at h; cases h
      | true =>
        rw [hc] at h
        cases h
        exact .count ht rfl
  | «local» name =>
    simp only [ht] at h
    cases hr : g.ref? .local name with
    | none => rw [hr] at h; cases h
    | some ref =>
      rw [hr] at h
      cases h
      exact .local ht hr
  | module name field =>
    simp only [ht] at h
    cases hr : g.ref? .module name with
    | none => rw [hr] at h; cases h
    | some ref =>
      rw [hr] at h
      cases h
      exact .module ht hr
  | user name element =>
    simp only [ht] at h
    split at h
    · cases h
    · next he =>
      have he : element = "" := by simpa using he
      cases hs : g.inputs.find? name with
      | none =>
        rw [Graph.ref?, Graph.serial?, hs] at h
        cases h
      | some slot =>
        rw [Graph.ref?, Graph.serial?, hs] at h
        cases h
        exact .user (he ▸ ht) hs
  | resource name selection field =>
    simp only [ht] at h
    obtain ⟨r, r', hr, hres, rfl, rfl⟩ := outcome_resolveResource_eq_ok_iff.mp h
    exact .resource ht hr hres
  | _ =>
    rw [ht] at h
    cases h

/-- What a reference resolves to is what its resolution gives. -/
theorem outcome_of_resolves (h : Resolves hasCount g reference type access) :
    outcome g (reference.resolve hasCount place) = .ok (type, access) := by
  cases h with
  | count target scope =>
    rw [outcome, Reference.resolve, run_get_bind, target, scope]
    rfl
  | «local» target found =>
    rw [outcome, Reference.resolve, run_get_bind, target]
    simp only [found]
    rfl
  | module target found =>
    rw [outcome, Reference.resolve, run_get_bind, target]
    simp only [found]
    rfl
  | user target found =>
    rw [outcome, Reference.resolve, run_get_bind, target]
    simp only [Graph.ref?, Graph.serial?, found]
    rfl
  | @resource name selection field r r' target found resolved =>
    rw [outcome, Reference.resolve, run_get_bind, target]
    exact outcome_resolveResource_eq_ok_iff.mpr ⟨r, r', found, resolved, rfl, rfl⟩

/-- What a reference resolves to. -/
theorem outcome_resolve_eq_ok_iff :
    outcome g (reference.resolve hasCount place) = .ok (type, access) ↔
      Resolves hasCount g reference type access :=
  ⟨resolves_of_outcome, outcome_of_resolves⟩

end Bind

end Hil
