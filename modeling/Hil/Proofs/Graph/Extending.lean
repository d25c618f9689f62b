import Hil.Graph
import Hil.Proofs.Table.Entries

/-!
# Extended graphs

A graph extends another if it holds all that is in the other, under the same keys. Adding entities
under keys that are not taken extends a graph. What is found in a graph, be it the provider of a
resource, is found in every graph that extends it.
-/

namespace Hil

/-- What is in the first table is in the second, under the same key. -/
def Table.Extends {κ α : Type} [DecidableEq κ] (t t' : Table κ α) : Prop :=
  ∀ key a, t.find? key = some a → t'.find? key = some a

namespace Table.Extends

variable {κ α : Type} [DecidableEq κ] {t t' : Table κ α} {key : κ}

/-- A table extends itself. -/
theorem refl (t : Table κ α) : t.Extends t := fun _ _ h ↦ h

/-- An insertion under a key that the first table does not have is an extension. -/
theorem insert (h : t.Extends t') (fresh : key ∉ t.keys) (a : α) :
    t.Extends (t'.insert key a) := by
  intro other b hb
  have hne : other ≠ key := fun heq ↦ fresh (heq ▸ mem_keys_of_find? hb)
  rw [find?_insert, if_neg hne]
  exact h other b hb

end Table.Extends

namespace Graph

/-- What is in the first graph is in the second, under the same key and with the same serial. -/
structure Extends (g g' : Graph) : Prop where
  providers : g.providers.Extends g'.providers
  resources : g.resources.Extends g'.resources
  modules : g.modules.Extends g'.modules
  locals : g.locals.Extends g'.locals
  inputs : g.inputs.Extends g'.inputs

/-- The graph to which entities have been added in order. -/
def addAll (g : Graph) (entities : List Entity) : Graph := entities.foldl add g

/-- No entity of the kind of the given one is in the graph under its key. -/
def Lacks (g : Graph) (entity : Entity) : Prop := entity.key ∉ g.keys entity.kind

variable {g g' : Graph} {entity : Entity} {entities : List Entity}

namespace Extends

/-- A graph extends itself. -/
theorem refl (g : Graph) : g.Extends g := ⟨.refl _, .refl _, .refl _, .refl _, .refl _⟩

/-- An addition that replaces nothing of the first graph is an extension. -/
theorem add (h : g.Extends g') (lacks : g.Lacks entity) : g.Extends (g'.add entity) := by
  cases entity with
  | provider p => exact { h with providers := h.providers.insert lacks _ }
  | resource r => exact { h with resources := h.resources.insert lacks _ }
  | module m => exact { h with modules := h.modules.insert lacks _ }
  | «local» l => exact { h with locals := h.locals.insert lacks _ }
  | «variable» v => exact { h with inputs := h.inputs.insert lacks _ }

/-- Additions that replace nothing of the first graph are an extension, also when some of them
replace others. -/
theorem addAll (h : g.Extends g') (lacks : ∀ entity ∈ entities, g.Lacks entity) :
    g.Extends (g'.addAll entities) := by
  induction entities generalizing g' with
  | nil => exact h
  | cons entity entities ih =>
    rw [List.forall_mem_cons] at lacks
    exact ih (h.add lacks.1) lacks.2

variable {kind : EntryKind} {key id : String} {ref : EntryRef} {r r' : Resource}

/-- A key that refers to an entity still refers to it. -/
theorem ref? (h : g.Extends g') (found : g.ref? kind key = some ref) :
    g'.ref? kind key = some ref := by
  obtain ⟨serial, hserial, rfl⟩ := Option.map_eq_some_iff.mp found
  have hkept {α : Type} {t t' : Table String (Registered α)} (ht : t.Extends t')
      (hs : (t.find? key).map (·.serial) = some serial) :
      (t'.find? key).map (·.serial) = some serial := by
    obtain ⟨slot, hslot, rfl⟩ := Option.map_eq_some_iff.mp hs
    rw [ht key slot hslot, Option.map_some]
  have hserial' : g'.serial? kind key = some serial := by
    cases kind with
    | provider => exact hkept h.providers hserial
    | resource => exact hkept h.resources hserial
    | module => exact hkept h.modules hserial
    | «local» => exact hkept h.locals hserial
    | «variable» => exact hkept h.inputs hserial
  rw [Graph.ref?, hserial', Option.map_some]

/-- A resource that is there is still the same. -/
theorem resource? (h : g.Extends g') (found : g.resource? id = some r) :
    g'.resource? id = some r := by
  obtain ⟨slot, hslot, rfl⟩ := Option.map_eq_some_iff.mp found
  rw [Graph.resource?, h.resources id slot hslot, Option.map_some]

/-- A resource that finds its provider still finds the same. -/
theorem resolve? (h : g.Extends g') (resolved : g.resolve? r = some r') :
    g'.resolve? r = some r' := by
  obtain ⟨p, hp, rfl⟩ := Option.map_eq_some_iff.mp resolved
  have hp' : g'.providerOf? r = some p := by
    rw [providerOf?, Option.or_eq_some_iff] at hp ⊢
    refine hp.imp_right fun ⟨hnone, hfound⟩ ↦ ⟨hnone, ?_⟩
    obtain ⟨slot, hslot, rfl⟩ := Option.map_eq_some_iff.mp hfound
    rw [h.providers _ slot hslot, Option.map_some]
  rw [Graph.resolve?, hp', Option.map_some]

end Extends

end Graph

end Hil
