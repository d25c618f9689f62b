import Hil.Graph
import Hil.Proofs.Table.Entries

/-!
# Attached providers

Resolving a resource depends on the providers of a graph only, and a resolved resource stays as it
is. A graph in which some resources have been resolved differs from the original in those resources
alone, and finds the provider of every resource that the original finds. So providers can be
attached in any order, and a second time without an effect.
-/

namespace Hil.Graph

variable {g g' g'' : Graph} {r r' : Resource} {id : String}

/-- A resource cannot be resolved if none is attached to it and its key leads to no provider. -/
theorem resolve?_eq_none_iff :
    g.resolve? r = none ↔ r.provider = none ∧ g.providers.find? r.providerKey = none := by
  rw [resolve?, Option.map_eq_none_iff, providerOf?, Option.or_eq_none_iff, Option.map_eq_none_iff]

/-- Resolving again changes nothing. -/
theorem resolve?_resolve? (h : g.resolve? r = some r') : g.resolve? r' = some r' := by
  obtain ⟨p, _, rfl⟩ := Option.map_eq_some_iff.mp h
  cases r.schema <;> rfl

/-- The second graph is the first with some of its resources resolved. -/
structure Attaches (g g' : Graph) : Prop where
  providers : g'.providers = g.providers
  modules : g'.modules = g.modules
  locals : g'.locals = g.locals
  inputs : g'.inputs = g.inputs
  added : g'.added = g.added
  keys : g'.resources.keys = g.resources.keys
  resources : ∀ id, g'.resources.find? id = g.resources.find? id ∨
    ∃ slot r, g.resources.find? id = some slot ∧ g.resolve? slot.entity = some r ∧
      g'.resources.find? id = some { slot with entity := r }

namespace Attaches

/-- Nothing has been resolved in the graph itself. -/
theorem refl (g : Graph) : g.Attaches g := ⟨rfl, rfl, rfl, rfl, rfl, rfl, fun _ ↦ .inl rfl⟩

/-- Resources are resolved as in the first graph. -/
theorem resolve?_eq (h : g.Attaches g') (r : Resource) : g'.resolve? r = g.resolve? r := by
  rw [resolve?, resolve?, providerOf?, providerOf?, h.providers]

/-- Resolving goes on from what has been resolved. -/
theorem trans (h : g.Attaches g') (h' : g'.Attaches g'') : g.Attaches g'' where
  providers := h'.providers.trans h.providers
  modules := h'.modules.trans h.modules
  locals := h'.locals.trans h.locals
  inputs := h'.inputs.trans h.inputs
  added := h'.added.trans h.added
  keys := h'.keys.trans h.keys
  resources id := by
    rcases h'.resources id with he | ⟨slot, r, hs, hr, he⟩
    · rw [he]
      exact h.resources id
    · rw [h.resolve?_eq] at hr
      rcases h.resources id with hg | ⟨slot₀, r₀, hs₀, hr₀, hg⟩
      · exact .inr ⟨slot, r, hg ▸ hs, hr, he⟩
      · rw [hs, Option.some.injEq] at hg
        subst hg
        rw [resolve?_resolve? hr₀, Option.some.injEq] at hr
        subst hr
        exact .inr ⟨slot₀, r₀, hs₀, hr₀, he⟩

/-- Entries have the serials that they have in the first graph. -/
theorem ref?_eq (h : g.Attaches g') (kind : EntryKind) (key : String) :
    g'.ref? kind key = g.ref? kind key := by
  rw [ref?, ref?]
  congr 1
  cases kind with
  | resource =>
    rw [serial?, serial?]
    rcases h.resources key with he | ⟨slot, r, hs, _, he⟩
    · rw [he]
    · rw [he, hs]
      rfl
  | _ => simp only [serial?, h.providers, h.modules, h.locals, h.inputs]

end Attaches

/-! ### Attaching one provider -/

/-- A resource that can be resolved is attached to its provider, and no other resource changes. -/
theorem exists_attachProvider (hr : g.resource? id = some r) (hres : g.resolve? r = some r') :
    ∃ g', g.attachProvider id = .ok (g', r') ∧ g.Attaches g' := by
  rw [attachProvider, hr]
  simp only [hres]
  refine ⟨_, rfl, rfl, rfl, rfl, rfl, rfl, Table.keys_modify .., fun other ↦ ?_⟩
  obtain ⟨slot, hs, rfl⟩ := Option.map_eq_some_iff.mp hr
  rw [Table.find?_modify]
  split
  · next ho =>
    subst ho
    exact .inr ⟨slot, r', hs, hres, by rw [hs, Option.map_some]⟩
  · exact .inl rfl

/-- An attached resource is the resolved one of the graph. -/
theorem attachProvider_ok (h : g.attachProvider id = .ok (g', r')) :
    ∃ r, g.resource? id = some r ∧ g.resolve? r = some r' := by
  rw [attachProvider] at h
  split at h
  · cases h
  · next r hr =>
    split at h
    · cases h
    · next resolved hres =>
      rw [Except.ok.injEq, Prod.mk.injEq] at h
      exact ⟨r, hr, h.2 ▸ hres⟩

/-- What has been resolved before makes no difference to attaching a provider. -/
theorem Attaches.attachProvider (h : g.Attaches g') (id : String) :
    (∃ e, g.attachProvider id = .error e ∧ g'.attachProvider id = .error e) ∨
      ∃ r g₁ g₁', g.attachProvider id = .ok (g₁, r) ∧ g'.attachProvider id = .ok (g₁', r) ∧
        g.Attaches g₁ ∧ g.Attaches g₁' := by
  have hok {r r₀ r₀' : Resource} (hr : g.resource? id = some r₀) (hres : g.resolve? r₀ = some r)
      (hr' : g'.resource? id = some r₀') (hres' : g'.resolve? r₀' = some r) :
      ∃ r g₁ g₁', g.attachProvider id = .ok (g₁, r) ∧ g'.attachProvider id = .ok (g₁', r) ∧
        g.Attaches g₁ ∧ g.Attaches g₁' := by
    obtain ⟨g₁, h₁, ha⟩ := exists_attachProvider hr hres
    obtain ⟨g₁', h₁', ha'⟩ := exists_attachProvider hr' hres'
    exact ⟨r, g₁, g₁', h₁, h₁', ha, h.trans ha'⟩
  rcases h.resources id with he | ⟨slot, r, hs, hr, he⟩
  · have hsame : g'.resource? id = g.resource? id := by rw [resource?, resource?, he]
    cases hg : g.resource? id with
    | none => exact .inl ⟨none, by rw [Graph.attachProvider, hg], by
        rw [Graph.attachProvider, hsame, hg]⟩
    | some r =>
      cases hres : g.resolve? r with
      | none =>
        refine .inl ⟨some r, ?_, ?_⟩
        · simp only [Graph.attachProvider, hg, hres]
        · simp only [Graph.attachProvider, hsame, hg, h.resolve?_eq, hres]
      | some r' => exact .inr (hok hg hres (hsame.trans hg) ((h.resolve?_eq r).trans hres))
  · have hg : g.resource? id = some slot.entity := by rw [resource?, hs, Option.map_some]
    have hg' : g'.resource? id = some r := by rw [resource?, he, Option.map_some]
    exact .inr (hok hg hr hg' ((h.resolve?_eq r).trans (resolve?_resolve? hr)))

/-! ### Attaching providers in a row -/

/-- The graph in which the provider of the resource of an identity is attached, if both are
there. -/
def attach (g : Graph) (id : String) : Graph :=
  match g.attachProvider id with
  | .ok (g', _) => g'
  | .error _ => g

/-- The graph in which the providers of resources are attached one after the other. -/
def attachAll (g : Graph) (ids : List String) : Graph := ids.foldl attach g

/-- A resource with its provider attached, or as it is if there is none. -/
def settle (g : Graph) (r : Resource) : Resource := (g.resolve? r).getD r

/-- A settled resource stays as it is. -/
theorem settle_settle (g : Graph) (r : Resource) : g.settle (g.settle r) = g.settle r := by
  unfold settle
  cases h : g.resolve? r with
  | none => simp [h]
  | some r' => simp [resolve?_resolve? h]

/-- Attaching a provider changes the one resource that can be resolved under the identity. -/
theorem attach_eq (g : Graph) (id : String) :
    g.attach id = match (g.resource? id).bind g.resolve? with
      | some r => { g with resources := g.resources.modify id fun slot ↦ { slot with entity := r } }
      | none => g := by
  rw [attach, attachProvider]
  cases g.resource? id with
  | none => rfl
  | some r =>
    rw [Option.bind_some]
    cases hres : g.resolve? r <;> simp only [hres]

/-- Attaching a provider resolves resources only. -/
theorem attaches_attach (g : Graph) (id : String) : g.Attaches (g.attach id) := by
  rw [attach]
  cases h : g.attachProvider id with
  | error _ => exact .refl g
  | ok p =>
    obtain ⟨g₁, r'⟩ := p
    obtain ⟨r, hr, hres⟩ := attachProvider_ok h
    obtain ⟨g₂, hok, ha⟩ := exists_attachProvider hr hres
    rw [h, Except.ok.injEq, Prod.mk.injEq] at hok
    rw [hok.1]
    exact ha

/-- Attaching providers resolves resources only. -/
theorem Attaches.attachAll (h : g.Attaches g') (ids : List String) :
    g.Attaches (g'.attachAll ids) := by
  induction ids generalizing g' with
  | nil => exact h
  | cons id ids ih => exact ih (h.trans (g'.attaches_attach id))

/-- Attaching a provider settles the resource of the identity and no other. -/
theorem find?_attach (g : Graph) (id other : String) :
    (g.attach id).resources.find? other =
      if other = id then (g.resources.find? other).map fun slot ↦
        { slot with entity := g.settle slot.entity }
      else g.resources.find? other := by
  rw [attach_eq, resource?]
  by_cases ho : other = id
  · subst ho
    rw [if_pos rfl]
    cases hs : g.resources.find? other with
    | none => exact hs
    | some slot =>
      simp only [Option.map_some, Option.bind_some, settle]
      cases g.resolve? slot.entity with
      | none => exact hs
      | some r => simp [Table.find?_modify, hs]
  · rw [if_neg ho]
    cases ((g.resources.find? id).map (·.entity)).bind g.resolve? with
    | none => rfl
    | some r => simp [Table.find?_modify, ho]

/-- Attaching providers settles the resources of the identities and no others. -/
theorem find?_attachAll (g : Graph) (ids : List String) (other : String) :
    (g.attachAll ids).resources.find? other =
      if other ∈ ids then (g.resources.find? other).map fun slot ↦
        { slot with entity := g.settle slot.entity }
      else g.resources.find? other := by
  induction ids generalizing g with
  | nil => rfl
  | cons id ids ih =>
    have hsettle (r : Resource) : (g.attach id).settle r = g.settle r := by
      rw [settle, settle, (g.attaches_attach id).resolve?_eq]
    rw [attachAll, List.foldl_cons, ← attachAll, ih, find?_attach]
    by_cases ho : other = id
    · subst ho
      cases g.resources.find? other <;> simp [hsettle, settle_settle]
    · simp [ho, hsettle]

/-- Attaching a provider again changes nothing. -/
theorem attach_attach (g : Graph) (id : String) : (g.attach id).attach id = g.attach id := by
  have hsame := find?_attach g id id
  rw [if_pos rfl] at hsame
  rw [attach_eq (g.attach id), resource?, hsame]
  cases hs : g.resources.find? id with
  | none => rfl
  | some slot =>
    simp only [Option.map_some, Option.bind_some, (g.attaches_attach id).resolve?_eq]
    cases hres : g.resolve? slot.entity with
    | none => rw [settle, hres, Option.getD_none, hres]
    | some r =>
      have hattach : g.attach id = { g with
          resources := g.resources.modify id fun slot ↦ { slot with entity := r } } := by
        rw [attach_eq, resource?, hs, Option.map_some, Option.bind_some, hres]
      rw [settle, hres, Option.getD_some, resolve?_resolve? hres, hattach]
      simp only [Table.modify_modify]
      rfl

/-- Providers can be attached in any order. -/
theorem attach_comm (g : Graph) (a b : String) :
    (g.attach a).attach b = (g.attach b).attach a := by
  by_cases hab : a = b
  · rw [hab]
  · have hfound {id other : String} (h : other ≠ id) :
        ((g.attach id).resource? other).bind (g.attach id).resolve? =
          (g.resource? other).bind g.resolve? := by
      rw [resource?, find?_attach, if_neg h, ← resource?,
        funext fun r ↦ (g.attaches_attach id).resolve?_eq r]
    rw [attach_eq (g.attach a), attach_eq (g.attach b), hfound (Ne.symm hab), hfound hab,
      attach_eq g a, attach_eq g b]
    cases (g.resource? a).bind g.resolve? <;> cases (g.resource? b).bind g.resolve? <;>
      simp [Table.modify_comm hab]

/-- Attaching the same providers again changes nothing. -/
theorem attachAll_attachAll (g : Graph) (ids : List String) :
    (g.attachAll ids).attachAll ids = g.attachAll ids := by
  -- what a provider has been attached to stays as it is when others are attached
  have hkept {g : Graph} {id : String} (ids : List String) (h : g.attach id = g) :
      (g.attachAll ids).attach id = g.attachAll ids := by
    induction ids generalizing g with
    | nil => exact h
    | cons other ids ih => exact ih (by rw [attach_comm, h])
  have hsettled (ids : List String) (g : Graph) :
      ∀ id ∈ ids, (g.attachAll ids).attach id = g.attachAll ids := by
    induction ids generalizing g with
    | nil => exact List.forall_mem_nil _
    | cons id ids ih =>
      exact List.forall_mem_cons.mpr ⟨hkept ids (g.attach_attach id), ih (g.attach id)⟩
  have hfixed {g : Graph} {ids : List String} (h : ∀ id ∈ ids, g.attach id = g) :
      g.attachAll ids = g := by
    induction ids with
    | nil => rfl
    | cons id ids ih =>
      rw [List.forall_mem_cons] at h
      rw [attachAll, List.foldl_cons, h.1]
      exact ih h.2
  exact hfixed (hsettled ids g)

end Hil.Graph
