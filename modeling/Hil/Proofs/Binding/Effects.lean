import Hil.Proofs.Binding.Running
import Mathlib.Data.List.TakeWhile

/-!
# Effects of binding

Binding changes a graph in the resources alone that the evaluated parts of a value name, whether it
fails or not. Each of these gets the provider that its key leads to and the schema of that provider,
unless it has them already, and stays as it is when there is no such provider.
-/

namespace Hil

variable {g : Graph} {r : Resource} {p : Provider} {named : Prop}

/-! ### Providers of resources -/

/-- A resource that has no provider looks for one under a key: the key given for it, else its type
up to the first underscore, else its whole type. -/
inductive Resource.Seeks (r : Resource) : String → Prop
  | given (explicit : r.explicitProvider ≠ "") : Seeks r r.explicitProvider
  | upTo {first rest : String} (implicit : r.explicitProvider = "")
      (type : r.name.type = first ++ "_" ++ rest) (none : '_' ∉ first.toList) : Seeks r first
  | whole (implicit : r.explicitProvider = "") (none : '_' ∉ r.name.type.toList) :
      Seeks r r.name.type

namespace Resource

/-- A key under which a resource looks is the one that is computed for it. -/
theorem Seeks.eq_providerKey {key : String} (h : r.Seeks key) : key = r.providerKey := by
  have hne {cs : List Char} (none : '_' ∉ cs) : ∀ c ∈ cs, (c != '_') = true := by
    simpa using fun c hc ↦ ne_of_mem_of_not_mem hc none
  cases h with
  | given explicit => simp [providerKey, explicit]
  | upTo implicit type none =>
    simp [providerKey, implicit, type, List.takeWhile_append_of_pos (hne none)]
  | whole implicit none =>
    simp [providerKey, implicit, List.takeWhile_eq_self_iff.mpr (hne none)]

private theorem exists_seeks (r : Resource) : ∃ key, r.Seeks key := by
  by_cases hexplicit : r.explicitProvider = ""
  · by_cases hsep : '_' ∈ r.name.type.toList
    · obtain ⟨first, rest, htype, hfirst⟩ := List.eq_append_cons_of_mem hsep
      have htext : r.name.type = String.ofList first ++ "_" ++ String.ofList rest := by
        rw [← String.toList_inj, htype]
        simp
      exact ⟨_, .upTo hexplicit htext (by simpa using hfirst)⟩
    · exact ⟨_, .whole hexplicit hsep⟩
  · exact ⟨_, .given hexplicit⟩

/-- A resource looks under one key. -/
theorem seeks_iff {key : String} : r.Seeks key ↔ key = r.providerKey := by
  refine ⟨Seeks.eq_providerKey, ?_⟩
  rintro rfl
  obtain ⟨key, h⟩ := r.exists_seeks
  exact h.eq_providerKey ▸ h

end Resource

/-- The provider is the one that the resource has, or that it finds under its key. -/
inductive Graph.Provides (g : Graph) (r : Resource) (p : Provider) : Prop
  | attached (has : r.provider = some p)
  | found {key : String} {serial : Nat} (none : r.provider = none) (seeks : r.Seeks key)
      (found : g.providers.find? key = some ⟨serial, p⟩)

private theorem Graph.provides_iff : g.Provides r p ↔ g.providerOf? r = some p := by
  rw [providerOf?, Option.or_eq_some_iff, Option.map_eq_some_iff]
  constructor
  · intro h
    cases h with
    | attached has => exact .inl has
    | found none seeks found => exact .inr ⟨none, _, Resource.seeks_iff.mp seeks ▸ found, rfl⟩
  · rintro (has | ⟨none, slot, found, rfl⟩)
    · exact .attached has
    · exact .found none (Resource.seeks_iff.mpr rfl) found

/-- What binding makes of a resource, which the evaluated accesses name or do not name. -/
structure Graph.Becomes (g : Graph) (named : Prop) (r r' : Resource) : Prop where
  name : r'.name = r.name
  explicitProvider : r'.explicitProvider = r.explicitProvider
  provider : ∀ p, r.provider = some p → r'.provider = some p
  schema : ∀ s, r.schema = some s → r'.schema = some s
  unnamed : ¬ named → r' = r
  missing : (∀ p, ¬ g.Provides r p) → r' = r
  attached : named → ∀ p, g.Provides r p → r'.provider = some p ∧
    r'.schema = some (r.schema.getD ((p.schemas.lookup r.name.type).getD .undeclared))

/-- A resource that is not named stays as it is. -/
theorem Graph.becomes_self (h : ¬ named) : g.Becomes named r r :=
  ⟨rfl, rfl, fun _ h ↦ h, fun _ h ↦ h, fun _ ↦ rfl, fun _ ↦ rfl, fun h' ↦ absurd h' h⟩

/-- A resource that is named is settled. -/
theorem Graph.becomes_settle (g : Graph) (h : named) : g.Becomes named r (g.settle r) := by
  cases hp : g.providerOf? r with
  | none =>
    have hsettle : g.settle r = r := by rw [settle, resolve?, hp]; rfl
    rw [hsettle]
    refine ⟨rfl, rfl, fun _ h ↦ h, fun _ h ↦ h, fun _ ↦ rfl, fun _ ↦ rfl, fun _ p h ↦ ?_⟩
    rw [provides_iff, hp] at h
    cases h
  | some p =>
    have hsettle : g.settle r =
        { r with provider := some p, schema := r.schema.or (some (p.schemaFor r.name.type)) } := by
      rw [settle, resolve?, hp]
      rfl
    rw [hsettle]
    refine ⟨rfl, rfl, fun p' h' ↦ ?_, fun s hs ↦ ?_, absurd h, fun h' ↦ ?_, fun _ p' h' ↦ ?_⟩
    · exact hp.symm.trans (by rw [providerOf?, h', Option.some_or])
    · simp [hs]
    · exact absurd (provides_iff.mpr hp) (h' p)
    · rw [provides_iff, hp] at h'
      cases h'
      refine ⟨rfl, ?_⟩
      cases r.schema <;> rfl

namespace Bind

/-- Binding a value changes a graph in nothing but the resources that evaluated accesses name,
whether it succeeds or fails. Binding the value again has the same outcome and changes nothing. -/
theorem bindValue_effects (g : Graph) (hasCount : Bool) (value : Value) :
    ∃ g', (bindValue hasCount value).run.run g = (outcome g (bindValue hasCount value), g') ∧
      (g'.providers = g.providers ∧ g'.modules = g.modules ∧ g'.locals = g.locals ∧
        g'.inputs = g.inputs ∧ g'.added = g.added ∧ g'.resources.keys = g.resources.keys) ∧
      (∀ id slot, g.resources.find? id = some slot →
        ∃ r, g'.resources.find? id = some ⟨slot.serial, r⟩ ∧
          g.Becomes (∃ part, Evaluated hasCount g value.evaluation part ∧
            part.resourceId? = some id) slot.entity r) ∧
      (bindValue hasCount value).run.run g' = (outcome g (bindValue hasCount value), g') := by
  obtain ⟨done, hdone, hrun⟩ := (evaluates_bindValue g hasCount value).exists_run
  have ha := (Graph.Attaches.refl g).attachAll (resourceIds done)
  refine ⟨_, hrun g (.refl g), ⟨ha.providers, ha.modules, ha.locals, ha.inputs, ha.added, ha.keys⟩,
    fun id slot hslot ↦ ?_, ?_⟩
  · have hnamed : id ∈ resourceIds done ↔
        ∃ part, Evaluated hasCount g value.evaluation part ∧ part.resourceId? = some id := by
      simp only [resourceIds, List.mem_filterMap, hdone]
    rw [← hnamed, Graph.find?_attachAll, hslot]
    by_cases hid : id ∈ resourceIds done
    · exact ⟨g.settle slot.entity, by rw [if_pos hid, Option.map_some], g.becomes_settle hid⟩
    · exact ⟨slot.entity, if_neg hid, Graph.becomes_self hid⟩
  · rw [hrun _ ha, Graph.attachAll_attachAll]

/-- A provider of resources whose type begins with its name. -/
private def aws : Provider := ⟨"aws", "", [("aws_instance", .plain Ty.unknown)]⟩

/-- A graph with a provider, and a resource that has not been attached to it. -/
private def unattached : Graph :=
  (Graph.empty.add (.provider aws)).add
    (.resource ⟨⟨.managed, "aws_instance", "web"⟩, "", none, none⟩)

/-- A provider stays attached when a later item fails. -/
theorem bindValue_effects_beforeError :
    ∃ e g' r, (bindValue false (.list [.expr (.access none "aws_instance.web.id"),
        .expr (.access none "local.missing")])).run.run unattached = (.error e, g') ∧
      g'.resources.find? "aws_instance.web" = some ⟨1, r⟩ ∧ r.provider = some aws ∧
        r.schema = some (.plain Ty.unknown) := by
  obtain ⟨g', hrun, -, hresources, -⟩ := bindValue_effects unattached false
    (.list [.expr (.access none "aws_instance.web.id"), .expr (.access none "local.missing")])
  obtain ⟨r, hr, hbecomes⟩ := hresources "aws_instance.web" _ rfl
  have hprovides : unattached.Provides ⟨⟨.managed, "aws_instance", "web"⟩, "", none, none⟩ aws :=
    .found rfl (.upTo rfl (rfl : _ = "aws" ++ "_" ++ "instance") (by decide)) rfl
  obtain ⟨hprovider, hschema⟩ := hbecomes.attached ⟨_, ⟨[], _, rfl, nofun⟩, rfl⟩ aws hprovides
  exact ⟨_, g', r, hrun.trans rfl, hr, hprovider, hschema⟩

end Bind

end Hil
