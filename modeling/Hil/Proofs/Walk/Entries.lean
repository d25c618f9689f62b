import Hil.Proofs.Store.Layout
import Hil.Proofs.Table.Entries
import Hil.Proofs.Walk.Returns

/-!
# Maps during a walk

While the values of a map are visited in order, its first entries are done and the others are as
they were. After each visit the map is settled at one key: what has become of the value is put
there, or the key is dropped.
-/

namespace Hil

/-- The entries of layouts that are not missing, as a map holds them. -/
def Layout.kept (entries : List (Str × Layout)) : List (Str × Option NodeId) :=
  (entries.filter fun e ↦ !e.2.isMissing).map fun e ↦ (e.1, e.2.root?)

/-- A map with a value in the place of another, or without its key. -/
def Shape.settle {α : Type} (key : Str) : Option α → Shape (Option α) → Shape (Option α)
  | none => mapEntries (Table.eraseEntry key)
  | some value => mapEntries (Table.insertEntry key (some value))

namespace Layout

variable {entries : List (Str × Layout)}

/-- The keys that are kept are keys that there were, in their order. -/
theorem keys_kept_sublist (entries : List (Str × Layout)) :
    ((kept entries).map Prod.fst).Sublist (entries.map Prod.fst) := by
  rw [kept, List.map_map]
  exact List.filter_sublist.map _

/-- Entries are kept one by one. -/
theorem kept_cons (e : Str × Layout) (entries : List (Str × Layout)) :
    kept (e :: entries) = kept [e] ++ kept entries := by
  rw [kept, ← List.singleton_append, List.filter_append, List.map_append]
  rfl

end Layout

open Layout

/-- The node is a map whose first entries are done, and under whose other keys the layouts still
are. -/
structure Store.MapAt (s : Store) (id : NodeId) (info : NodeInfo)
    (done : List (Str × Option NodeId)) (rest : List (Str × Layout)) : Prop where
  bound : id.index < s.size
  cell : s.cell id = ⟨info, .map (done ++ rest.map fun e ↦ (e.1, e.2.root?))⟩
  distinct : (done.map Prod.fst ++ rest.map Prod.fst).Nodup

namespace Store.MapAt

variable {s s' : Store} {id : NodeId} {info : NodeInfo} {done : List (Str × Option NodeId)}
  {rest : List (Str × Layout)} {key : Str} {l : Layout}

/-- A map is as it was where its node is. -/
theorem frame (h : s.MapAt id info done rest) (hsize : s.size ≤ s'.size)
    (hcell : s'.cell id = s.cell id) : s'.MapAt id info done rest :=
  ⟨Nat.lt_of_lt_of_le h.bound hsize, hcell.trans h.cell, h.distinct⟩

/-- The next key is still there. -/
theorem lookup (h : s.MapAt id info done ((key, l) :: rest)) :
    Table.lookupEntry key (s.cell id).shape.entries = some l.root? := by
  rw [h.cell]
  refine Table.lookupEntry_of_mem ?_ (List.mem_append_right _ List.mem_cons_self)
  simpa [Shape.entries, Function.comp_def] using h.distinct

/-- A map that is settled at its next key has one entry more that is done, if there is any value. -/
theorem settle (h : s.MapAt id info done ((key, l) :: rest)) (l' : Layout) :
    (s.modifyShape id (Shape.settle key l'.root?)).MapAt id info (done ++ kept [(key, l')])
      rest := by
  obtain ⟨-, hrest, hapart⟩ := List.nodup_append.mp h.distinct
  have hnew : key ∉ done.map Prod.fst := fun hk ↦ hapart key hk key List.mem_cons_self rfl
  have hold : key ∉ rest.map Prod.fst := (List.nodup_cons.mp hrest).1
  refine ⟨Nat.lt_of_lt_of_eq h.bound (size_modifyShape ..).symm, ?_, ?_⟩
  · rw [cell_modifyShape_self _ h.bound, h.cell]
    cases l' with
    | missing =>
      rw [root?, Shape.settle, List.map_cons, Shape.mapEntries,
        Table.eraseEntry_append_cons hnew (by simpa using hold)]
      simp [kept, isMissing]
    | node id' info' shape' =>
      rw [root?, Shape.settle, List.map_cons, Shape.mapEntries, Table.insertEntry_append_cons hnew]
      simp [kept, isMissing, root?]
  · rw [List.map_append, List.append_assoc]
    exact h.distinct.sublist
      (((keys_kept_sublist [(key, l')]).append (.refl (rest.map Prod.fst))).append_left _)

end Store.MapAt

namespace Visitor

variable {σ : Type} {st st' : WalkState σ} {visit : Visitor σ} {id : NodeId} {key : Str}
  {r : Option NodeId}

/-- Settles a map at a key. -/
def settle (id : NodeId) (key : Str) : Option NodeId → Walk σ Unit
  | none => dropKey id key
  | some value => Walk.modifyShape id (Shape.mapEntries (Table.insertEntry key (some value)))

/-- After the visit of a value the map is settled at its key, and the other values are visited. -/
theorem mapValues_cons (child : Option NodeId) (entries : List (Str × Option NodeId)) :
    mapValues visit id ((key, child) :: entries) =
      visit child >>= fun r ↦ settle id key r >>= fun _ ↦ mapValues visit id entries := by
  rw [mapValues]
  congr 1
  funext r
  cases r <;> rfl

/-- A map can be settled at a key that is there. -/
theorem returns_settle {info : NodeInfo} {done : List (Str × Option NodeId)}
    {rest : List (Str × Layout)} {l : Layout}
    (h : st.store.MapAt id info done ((key, l) :: rest)) (r : Option NodeId) :
    (settle id key r).Returns st () (st.modifyShape id (Shape.settle key r)) := by
  cases r with
  | some value => exact Walk.returns_modifyShape id _ st
  | none =>
    refine .bind (Walk.returns_cell id st) ?_
    rw [h.lookup]
    exact Walk.returns_modifyShape id _ st

/-- Where a map is settled, only that is changed. -/
theorem eq_of_returns_settle (h : (settle id key r).Returns st () st') :
    st' = st.modifyShape id (Shape.settle key r) := by
  cases r with
  | some value => cases h; rfl
  | none =>
    obtain ⟨cell, st₁, hc, h⟩ := Walk.returns_bind_iff.mp h
    cases hc
    split at h
    · cases h; rfl
    · cases h

end Visitor

end Hil
