import Hil.Table
import Mathlib.Data.List.Nodup

/-!
# Entries of tables

An insertion replaces the value of a key in its place or appends the entry. A table made of entries
has each key once, and no entry but those given.
-/

namespace Hil.Table

variable {α κ : Type} [DecidableEq κ] {key : κ} {value old : α} {es es' : List (κ × α)}
  {e : κ × α}

/-- An insertion under a key that is there leaves the entries around it. -/
theorem insertEntry_append_cons (h : key ∉ es.map Prod.fst) :
    insertEntry key value (es ++ (key, old) :: es') = es ++ (key, value) :: es' := by
  induction es with
  | nil => simp [insertEntry]
  | cons e es ih =>
    simp only [List.map_cons, List.mem_cons, not_or] at h
    simp only [List.cons_append, insertEntry, if_neg (Ne.symm h.1), ih h.2]

/-- Erasing a key that is there once leaves the entries around it. -/
theorem eraseEntry_append_cons (h : key ∉ es.map Prod.fst) (h' : key ∉ es'.map Prod.fst) :
    eraseEntry key (es ++ (key, old) :: es') = es ++ es' := by
  have hne (entries : List (κ × α)) (hk : key ∉ entries.map Prod.fst) :
      eraseEntry key entries = entries :=
    List.filter_eq_self.mpr fun e he ↦ bne_iff_ne.mpr fun heq ↦
      hk (heq ▸ List.mem_map_of_mem he)
  rw [eraseEntry, List.filter_append, List.filter_cons, ← eraseEntry, ← eraseEntry, hne es h,
    hne es' h']
  simp

/-- Inserting the value that a key has changes nothing. -/
theorem insertEntry_eq_self (h : lookupEntry key es = some value) :
    insertEntry key value es = es := by
  induction es with
  | nil => cases h
  | cons e es ih =>
    obtain ⟨k, v⟩ := e
    rw [lookupEntry] at h
    rw [insertEntry]
    split at h
    · next hk =>
      obtain rfl := Option.some.inj h
      rw [if_pos hk, hk]
    · next hk => rw [if_neg hk, ih h]

/-- Under distinct keys, every entry is found. -/
theorem lookupEntry_of_mem (h : (es.map Prod.fst).Nodup) (he : (key, value) ∈ es) :
    lookupEntry key es = some value := by
  induction es with
  | nil => cases he
  | cons e es ih =>
    rw [List.map_cons, List.nodup_cons] at h
    rw [lookupEntry]
    rcases List.mem_cons.mp he with rfl | he
    · rw [if_pos rfl]
    · rw [if_neg, ih h.2 he]
      intro hk
      exact h.1 (hk ▸ List.mem_map_of_mem he)

/-- After an insertion there are the inserted entry and others that were there before. -/
theorem mem_insertEntry (h : e ∈ insertEntry key value es) : e = (key, value) ∨ e ∈ es := by
  induction es with
  | nil => exact .inl (List.mem_singleton.mp h)
  | cons first es ih =>
    rw [insertEntry] at h
    split at h
    · rcases List.mem_cons.mp h with he | he
      · exact .inl he
      · exact .inr (List.mem_cons_of_mem _ he)
    · rcases List.mem_cons.mp h with rfl | he
      · exact .inr List.mem_cons_self
      · exact (ih he).imp_right (List.mem_cons_of_mem _)

/-- What is found under a key is the value of an entry. -/
theorem mem_of_lookupEntry (h : lookupEntry key es = some value) : (key, value) ∈ es := by
  induction es with
  | nil => cases h
  | cons first es ih =>
    obtain ⟨k, v⟩ := first
    rw [lookupEntry] at h
    split at h
    · next hk =>
      obtain rfl := Option.some.inj h
      rw [hk]
      exact List.mem_cons_self
    · exact List.mem_cons_of_mem _ (ih h)

/-- A key under which something is found is a key of the table. -/
theorem mem_keys_of_find? {t : Table κ α} (h : t.find? key = some value) : key ∈ t.keys :=
  List.mem_map_of_mem (mem_of_lookupEntry h)

/-- An insertion keeps keys distinct. -/
theorem nodup_insertEntry (h : (es.map Prod.fst).Nodup) :
    ((insertEntry key value es).map Prod.fst).Nodup := by
  induction es with
  | nil => simp [insertEntry]
  | cons first es ih =>
    rw [List.map_cons, List.nodup_cons] at h
    rw [insertEntry]
    split
    · next hk =>
      rw [List.map_cons, List.nodup_cons, ← hk]
      exact h
    · next hk =>
      rw [List.map_cons, List.nodup_cons]
      refine ⟨fun hm ↦ ?_, ih h.2⟩
      obtain ⟨e, he, hfst⟩ := List.mem_map.mp hm
      rcases mem_insertEntry he with rfl | he
      · exact hk hfst.symm
      · exact h.1 (hfst ▸ List.mem_map_of_mem he)

private theorem foldl_insert_induct {P : List (κ × α) → Prop}
    (insert : ∀ es, P es → ∀ e ∈ es', P (insertEntry e.1 e.2 es)) {t : Table κ α}
    (h : P t.entries) : P (es'.foldl (fun t e ↦ t.insert e.1 e.2) t).entries := by
  induction es' generalizing t with
  | nil => exact h
  | cons e es' ih =>
    exact ih (fun es hes e he ↦ insert es hes e (List.mem_cons_of_mem _ he))
      (insert _ h e List.mem_cons_self)

/-- A table made of entries has each key once. -/
theorem nodup_ofList (es : List (κ × α)) : ((ofList es).entries.map Prod.fst).Nodup :=
  foldl_insert_induct (P := fun es ↦ (es.map Prod.fst).Nodup)
    (fun _ h _ _ ↦ nodup_insertEntry h) (by simp [empty])

/-- A table made of entries has no others. -/
theorem mem_of_mem_ofList (h : e ∈ (ofList es).entries) : e ∈ es := by
  refine foldl_insert_induct (P := fun es' ↦ ∀ e ∈ es', e ∈ es) ?_ (by simp [empty]) e h
  intro es' hes e' he' e he
  rcases mem_insertEntry he with rfl | he
  · exact he'
  · exact hes e he

/-- An insertion under a new key goes to the end. -/
theorem insertEntry_of_not_mem (h : key ∉ es.map Prod.fst) :
    insertEntry key value es = es ++ [(key, value)] := by
  induction es with
  | nil => rfl
  | cons first es ih =>
    rw [List.map_cons, List.mem_cons, not_or] at h
    rw [insertEntry, if_neg (Ne.symm h.1), ih h.2, List.cons_append]

private theorem entries_foldl_insert {t : Table κ α}
    (h : ((t.entries ++ es).map Prod.fst).Nodup) :
    (es.foldl (fun t e ↦ t.insert e.1 e.2) t).entries = t.entries ++ es := by
  induction es generalizing t with
  | nil => simp
  | cons e es ih =>
    have hkey : e.1 ∉ t.entries.map Prod.fst := by
      rw [List.map_append, List.map_cons, List.nodup_append] at h
      exact fun hmem ↦ h.2.2 _ hmem _ List.mem_cons_self rfl
    have hentries : (t.insert e.1 e.2).entries = t.entries ++ [e] := insertEntry_of_not_mem hkey
    rw [List.foldl_cons, ih (by simpa [hentries] using h), hentries, List.append_assoc,
      List.singleton_append]

/-- A table made of entries with distinct keys has these entries. -/
theorem entries_ofList (h : (es.map Prod.fst).Nodup) : (ofList es).entries = es :=
  entries_foldl_insert h

/-- Of two modifications under one key, both are seen. -/
theorem modify_modify (t : Table κ α) (key : κ) (f g : α → α) :
    (t.modify key f).modify key g = t.modify key (g ∘ f) := by
  rw [modify, modify, modify, mk.injEq, List.map_map]
  apply List.map_congr_left
  intro e _
  by_cases h : e.1 = key <;> simp [h]

/-- Modifications under different keys can be made in any order. -/
theorem modify_comm {a b : κ} (h : a ≠ b) (t : Table κ α) (f g : α → α) :
    (t.modify a f).modify b g = (t.modify b g).modify a f := by
  rw [modify, modify, modify, modify, mk.injEq, List.map_map, List.map_map]
  apply List.map_congr_left
  intro e _
  by_cases ha : e.1 = a
  · simp [ha, h]
  · by_cases hb : e.1 = b <;> simp [ha, hb, Ne.symm h]

end Hil.Table
