import Hil.Graph
import Hil.Proofs.Reference.Resource

/-!
# Additions to graphs

A graph made by additions holds, under each key, the last resource of the key that was added. The
keys of resources whose types and names are names tell identities apart, so a reference to a
resource finds the last addition of the resource that it spells.
-/

namespace Hil

/-- The graph of entities that are added in order. -/
def Graph.ofEntities (entities : List Entity) : Graph := entities.foldl Graph.add Graph.empty

/-- The resource has the property, and none that is added after it does. -/
def LastAdded (p : Resource → Prop) (entities : List Entity) (r : Resource) : Prop :=
  ∃ before after, entities = before ++ .resource r :: after ∧ p r ∧
    ∀ r', .resource r' ∈ after → ¬ p r'

variable {entities : List Entity} {entity : Entity} {id text field : String} {r : Resource}
  {p q : Resource → Prop} {name : ResourceName} {selection : Selection} {reference : Reference}

/-! ### The last addition -/

/-- What has been added last has been added. -/
theorem LastAdded.mem (h : LastAdded p entities r) : .resource r ∈ entities := by
  obtain ⟨before, after, rfl, -, -⟩ := h
  simp

/-- What has been added last is of the kind. -/
theorem LastAdded.holds (h : LastAdded p entities r) : p r := by
  obtain ⟨before, after, -, hr, -⟩ := h
  exact hr

/-- One more entity is the last addition, or does not count. -/
theorem lastAdded_concat_iff : LastAdded p (entities ++ [entity]) r ↔
    entity = .resource r ∧ p r ∨
      (∀ r', entity = .resource r' → ¬ p r') ∧ LastAdded p entities r := by
  constructor
  · rintro ⟨before, after, heq, hr, hafter⟩
    rcases List.eq_nil_or_concat after with rfl | ⟨after, last, rfl⟩
    · obtain ⟨-, hlast⟩ := List.append_inj' heq rfl
      exact .inl ⟨List.singleton_inj.mp hlast, hr⟩
    · rw [List.concat_eq_append, ← List.cons_append, ← List.append_assoc] at heq
      obtain ⟨rfl, hlast⟩ := List.append_inj' heq rfl
      obtain rfl := List.singleton_inj.mp hlast
      refine .inr ⟨fun r' he ↦ hafter r' (by simp [he]), before, after, rfl, hr, fun r' hr' ↦ ?_⟩
      exact hafter r' (by simp [hr'])
  · rintro (⟨rfl, hr⟩ | ⟨hlast, before, after, rfl, hr, hafter⟩)
    · exact ⟨entities, [], rfl, hr, nofun⟩
    · refine ⟨before, after ++ [entity], by simp, hr, fun r' hr' ↦ ?_⟩
      rcases List.mem_append.mp hr' with hr' | hr'
      · exact hafter r' hr'
      · exact hlast r' (List.mem_singleton.mp hr').symm

/-- The last addition depends on the property of what is added only. -/
theorem lastAdded_congr (h : ∀ r, .resource r ∈ entities → (p r ↔ q r)) :
    LastAdded p entities r ↔ LastAdded q entities r := by
  have himp {p q : Resource → Prop} (h : ∀ r, .resource r ∈ entities → (p r ↔ q r))
      (hp : LastAdded p entities r) : LastAdded q entities r := by
    obtain ⟨before, after, rfl, hr, hafter⟩ := hp
    refine ⟨before, after, rfl, (h r (by simp)).mp hr, fun r' hr' hq ↦ ?_⟩
    exact hafter r' hr' ((h r' (by simp [hr'])).mpr hq)
  exact ⟨himp h, himp fun r hr ↦ (h r hr).symm⟩

/-- If something with the property is added, there is a last addition. -/
theorem exists_lastAdded (h : .resource r ∈ entities) (hr : p r) :
    ∃ r', LastAdded p entities r' := by
  classical
  induction entities using List.reverseRecOn with
  | nil => cases h
  | append_singleton entities entity ih =>
    by_cases hlast : ∃ r', entity = .resource r' ∧ p r'
    · obtain ⟨r', he, hr'⟩ := hlast
      exact ⟨r', lastAdded_concat_iff.mpr (.inl ⟨he, hr'⟩)⟩
    · push Not at hlast
      rcases List.mem_append.mp h with h | h
      · obtain ⟨r', hr'⟩ := ih h
        exact ⟨r', lastAdded_concat_iff.mpr (.inr ⟨hlast, hr'⟩)⟩
      · exact absurd hr (hlast r (List.mem_singleton.mp h).symm)

/-! ### Looking up -/

namespace Graph

/-- An addition decides what is found under the key of a resource, and under no other. -/
theorem resource?_add_eq_some_iff (g : Graph) (entity : Entity) (id : String) (r : Resource) :
    (g.add entity).resource? id = some r ↔
      entity = .resource r ∧ r.name.id = id ∨
        (∀ r', entity = .resource r' → r'.name.id ≠ id) ∧ g.resource? id = some r := by
  cases entity with
  | resource r' =>
    simp only [resource?, add, Table.find?_insert, Entity.resource.injEq]
    by_cases h : id = r'.name.id
    · subst h
      simp only [if_pos, Option.map_some, Option.some.injEq]
      constructor
      · rintro rfl
        exact .inl ⟨rfl, rfl⟩
      · rintro (⟨rfl, -⟩ | ⟨hother, -⟩)
        · rfl
        · exact absurd rfl (hother r' rfl)
    · rw [if_neg h]
      constructor
      · intro hfound
        exact .inr ⟨fun _ he hid ↦ h (he ▸ hid.symm), hfound⟩
      · rintro (⟨rfl, hid⟩ | ⟨-, hfound⟩)
        · exact absurd hid.symm h
        · exact hfound
  | _ => simp [resource?, add]

/-- What is found under a key is the last resource of the key that was added. -/
theorem resource?_ofEntities_eq_some_iff : (ofEntities entities).resource? id = some r ↔
    LastAdded (fun r ↦ r.name.id = id) entities r := by
  induction entities using List.reverseRecOn generalizing r with
  | nil => exact ⟨nofun, fun h ↦ by cases h.mem⟩
  | append_singleton entities entity ih =>
    have hstep : ofEntities (entities ++ [entity]) = (ofEntities entities).add entity := by
      rw [ofEntities, List.foldl_append, ← ofEntities, List.foldl_cons, List.foldl_nil]
    rw [hstep, resource?_add_eq_some_iff, lastAdded_concat_iff, ih]

/-- Nothing is found under a key of which no resource was added. -/
theorem resource?_ofEntities_eq_none_iff : (ofEntities entities).resource? id = none ↔
    ∀ r, .resource r ∈ entities → r.name.id ≠ id := by
  constructor
  · intro hnone r hr hid
    obtain ⟨r', hlast⟩ := exists_lastAdded (p := fun r ↦ r.name.id = id) hr hid
    rw [resource?_ofEntities_eq_some_iff.mpr hlast] at hnone
    cases hnone
  · intro hother
    rw [Option.eq_none_iff_forall_ne_some]
    intro r hr
    have hlast := resource?_ofEntities_eq_some_iff.mp hr
    exact hother r hlast.mem hlast.holds

/-- A reference to a resource finds the last addition of the identity that it spells, and nothing
exactly if no resource of that identity was added. The key of the reference is that of no other
identity, be it of the other mode. -/
theorem finds_lastAdded (named : ∀ r, .resource r ∈ entities → r.name.IsNamed)
    (read : Reference.read text = .ok reference)
    (target : reference.target = .resource name selection field) :
    (∀ r, (ofEntities entities).resource? name.id = some r ↔
      LastAdded (fun r ↦ r.name = name) entities r) ∧
    ((ofEntities entities).resource? name.id = none ↔
      ∀ r, .resource r ∈ entities → r.name ≠ name) ∧
    ∀ r, .resource r ∈ entities → (r.name.id = name.id ↔ r.name = name) := by
  have hkey (r : Resource) (hr : .resource r ∈ entities) : r.name.id = name.id ↔ r.name = name :=
    (named r hr).id_eq_iff (Reference.isNamed read target)
  refine ⟨fun r ↦ ?_, ?_, hkey⟩
  · rw [resource?_ofEntities_eq_some_iff, lastAdded_congr hkey]
  · rw [resource?_ofEntities_eq_none_iff]
    exact forall₂_congr fun r hr ↦ not_congr (hkey r hr)

/-- Two managed resources `data.web`, and between them a data resource of type `data`. -/
private def blocks : List Entity :=
  [.resource ⟨⟨.managed, "data", "web"⟩, "", none, none⟩,
    .resource ⟨⟨.data, "data", "web"⟩, "aws", none, none⟩,
    .resource ⟨⟨.managed, "data", "web"⟩, "azure", none, none⟩]

/-- A reference to a data resource finds it beside managed resources of the type `data`. -/
theorem finds_lastAdded_data :
    (∀ r, .resource r ∈ blocks → r.name.IsNamed) ∧
      Reference.read "data.data.web.id" = .ok ⟨"data.data.web.id",
        .resource ⟨.data, "data", "web"⟩ .plain "id"⟩ ∧
      (ofEntities blocks).resource? "data.data.web" =
        some ⟨⟨.data, "data", "web"⟩, "aws", none, none⟩ := by
  have hnamed (r : Resource) (hr : .resource r ∈ blocks) : r.name.IsNamed := by
    have hdata : IsName "data" := tokenClass?_eq_name_iff.mp rfl
    have hweb : IsName "web" := tokenClass?_eq_name_iff.mp rfl
    simp only [blocks, List.mem_cons, Entity.resource.injEq, List.not_mem_nil, or_false] at hr
    rcases hr with rfl | rfl | rfl <;> exact ⟨hdata, hweb⟩
  have hread : Reference.read "data.data.web.id" = .ok ⟨"data.data.web.id",
      .resource ⟨.data, "data", "web"⟩ .plain "id"⟩ := rfl
  have hlast : LastAdded (fun r ↦ r.name = ⟨.data, "data", "web"⟩) blocks
      ⟨⟨.data, "data", "web"⟩, "aws", none, none⟩ := by
    refine ⟨[_], [_], rfl, rfl, fun r hr ↦ ?_⟩
    simp_all
  exact ⟨hnamed, hread, ((finds_lastAdded hnamed hread rfl).1 _).mpr hlast⟩

end Graph

end Hil
