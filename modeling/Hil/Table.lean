/-!
# Tables

Finite maps that keep the order in which keys were first inserted. Looking up after an insertion or
a modification is determined by `find?_insert` and `find?_modify`; neither moves a key that is
already there.
-/

namespace Hil

/-- A table. -/
structure Table (κ α : Type) where
  entries : List (κ × α)
  deriving Inhabited

namespace Table

variable {α κ : Type} [DecidableEq κ]

/-- The table without entries. -/
def empty : Table κ α := ⟨[]⟩

/-- The value of a key in a list of entries, the first of them if there are several. -/
def lookupEntry (key : κ) : List (κ × α) → Option α
  | [] => none
  | (k, v) :: entries => if k = key then some v else lookupEntry key entries

/-- The value under a key. -/
def find? (t : Table κ α) (key : κ) : Option α := lookupEntry key t.entries

/-- The keys in the order of their first insertion. -/
def keys (t : Table κ α) : List κ := t.entries.map Prod.fst

/-- Sets the value of a key in a list of entries; a new key goes to the end. -/
def insertEntry (key : κ) (value : α) : List (κ × α) → List (κ × α)
  | [] => [(key, value)]
  | (k, v) :: entries =>
    if k = key then (key, value) :: entries else (k, v) :: insertEntry key value entries

/-- Sets the value of a key. -/
def insert (t : Table κ α) (key : κ) (value : α) : Table κ α := ⟨insertEntry key value t.entries⟩

/-- Removes the entries of a key from a list. -/
def eraseEntry (key : κ) (entries : List (κ × α)) : List (κ × α) :=
  entries.filter fun entry => entry.1 != key

/-- Changes the value of a key, if it has one. -/
def modify (t : Table κ α) (key : κ) (f : α → α) : Table κ α :=
  ⟨t.entries.map fun entry => if entry.1 = key then (entry.1, f entry.2) else entry⟩

/-- The table of the given entries, later ones replacing earlier ones of the same key. -/
def ofList (entries : List (κ × α)) : Table κ α :=
  entries.foldl (fun t entry => t.insert entry.1 entry.2) empty

/-- Keys in the order of their characters' code points. -/
def sortKeys (keys : List String) : List String := keys.mergeSort fun a b => !decide (b < a)

/-- An insertion into a list of entries is seen under its own key only. -/
theorem lookupEntry_insertEntry (key other : κ) (value : α) (entries : List (κ × α)) :
    lookupEntry other (insertEntry key value entries) =
      if other = key then some value else lookupEntry other entries := by
  induction entries with
  | nil => simp [insertEntry, lookupEntry, eq_comm]
  | cons entry entries ih =>
    obtain ⟨k, v⟩ := entry
    simp only [insertEntry]
    by_cases hk : k = key
    · subst hk
      by_cases h : k = other
      · simp [lookupEntry, h]
      · have h' : ¬other = k := fun e => h e.symm
        simp [lookupEntry, h, h']
    · by_cases h : k = other
      · subst h
        simp [lookupEntry, hk]
      · simp [lookupEntry, hk, h, ih]

/-- An insertion is seen under its own key only. -/
theorem find?_insert (t : Table κ α) (key other : κ) (value : α) :
    (t.insert key value).find? other = if other = key then some value else t.find? other :=
  lookupEntry_insertEntry key other value t.entries

/-- A modification is seen under its own key only. -/
theorem find?_modify (t : Table κ α) (key other : κ) (f : α → α) :
    (t.modify key f).find? other =
      if other = key then (t.find? other).map f else t.find? other := by
  obtain ⟨entries⟩ := t
  simp only [find?, modify]
  induction entries with
  | nil => simp [lookupEntry]
  | cons entry entries ih =>
    obtain ⟨k, v⟩ := entry
    by_cases hk : k = key
    · subst hk
      by_cases h : k = other
      · simp [lookupEntry, h]
      · simp_all [lookupEntry, eq_comm]
    · by_cases h : k = other
      · subst h
        simp [lookupEntry, hk]
      · simp_all [lookupEntry]

/-- A modification leaves the keys as they are. -/
theorem keys_modify (t : Table κ α) (key : κ) (f : α → α) :
    (t.modify key f).keys = t.keys := by
  simp only [keys, modify, List.map_map]
  apply List.map_congr_left
  intro entry _
  by_cases h : entry.1 = key <;> simp [h]

end Table

end Hil
