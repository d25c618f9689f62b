import Hil.Proofs.Reference.Language

/-!
# References to resources

A reference to a resource begins with the key of the resource. The key has one segment for the type
and one for the name, after the segment `data` for a data resource. So it tells the identity, and
what follows it in a reference selects instances and spells an attribute.
-/

namespace Hil

variable {s text rest field : String} {name name' : ResourceName} {selection : Selection}
  {reference : Reference}

/-! ### Segments -/

/-- The segments of two texts around a dot are those of the one and those of the other. -/
theorem segmentsOf_append_dot (a b : String) :
    segmentsOf (a ++ "." ++ b) = segmentsOf a ++ segmentsOf b := by
  have hlist : (a ++ "." ++ b).toList = a.toList ++ '.' :: b.toList := by simp
  rw [segmentsOf, hlist, Text.splitAt_append, List.map_append, segmentsOf, segmentsOf]

/-- No segment holds a dot. -/
theorem dot_not_mem_of_isSegment (h : IsSegment s) : '.' ∉ s.toList := by
  rcases h with ⟨c, cs, hs, hc, hcs⟩ | ⟨_, h⟩ | rfl | rfl
  · rw [hs, List.mem_cons, not_or]
    constructor
    · rintro rfl
      exact absurd (isNameStart_iff.mpr hc) (by decide)
    · exact fun hmem ↦ absurd (isNameRest_iff.mpr (hcs '.' hmem)) (by decide)
  · exact fun hmem ↦ absurd (isDigit_iff.mpr (h '.' hmem)) (by decide)
  · decide
  · decide

/-- A segment is a text of one segment. -/
theorem segmentsOf_of_isSegment (h : IsSegment s) : segmentsOf s = [s] := by
  rw [segmentsOf, Text.splitAt_of_not_mem (dot_not_mem_of_isSegment h), List.map_singleton,
    String.ofList_toList]

/-! ### Keys of resources -/

/-- The type and the name of a resource are names. -/
structure ResourceName.IsNamed (r : ResourceName) : Prop where
  type : IsName r.type
  name : IsName r.name

/-- The segments of the key of a resource. -/
theorem ResourceName.IsNamed.segmentsOf_id (h : name.IsNamed) :
    segmentsOf name.id = match name.mode with
      | .managed => [name.type, name.name]
      | .data => ["data", name.type, name.name] := by
  have htype := segmentsOf_of_isSegment (.inl h.type)
  have hname := segmentsOf_of_isSegment (.inl h.name)
  have hdata : segmentsOf "data" = ["data"] := rfl
  rw [ResourceName.id]
  cases name.mode with
  | managed => rw [segmentsOf_append_dot, htype, hname, List.singleton_append]
  | data =>
    have hkey : "data." ++ name.type ++ "." ++ name.name =
        "data" ++ "." ++ name.type ++ "." ++ name.name := rfl
    rw [hkey, segmentsOf_append_dot, segmentsOf_append_dot, hdata, htype, hname]
    rfl

/-- The key tells the identity: the mode from the number of segments, and the type and the name as
the last two of them. -/
theorem ResourceName.IsNamed.id_eq_iff (h : name.IsNamed) (h' : name'.IsNamed) :
    name.id = name'.id ↔ name = name' := by
  constructor
  · intro hid
    have hsegments : segmentsOf name.id = segmentsOf name'.id := congrArg segmentsOf hid
    rw [h.segmentsOf_id, h'.segmentsOf_id] at hsegments
    obtain ⟨mode, type, n⟩ := name
    obtain ⟨mode', type', n'⟩ := name'
    cases mode <;> cases mode' <;> simp_all
  · rintro rfl
    rfl

/-! ### Reading -/

/-- A text without a dot stands for no resource, and every other reference to a resource spells its
identity. -/
theorem Reference.spells_of_resource (read : Reference.read text = .ok reference)
    (target : reference.target = .resource name selection field) :
    Spells (segmentsOf text) (.resource name selection field) := by
  by_cases hdot : '.' ∈ text.toList
  · rw [← target]
    exact ((Reference.read_eq_ok_iff hdot).mp read).2
  · rw [Reference.read, Text.splitAt_of_not_mem hdot] at read
    simp only at read
    split at read <;> cases read
    cases target

/-- A reference to a resource has a type and a name that are names. -/
theorem Reference.isNamed (read : Reference.read text = .ok reference)
    (target : reference.target = .resource name selection field) : name.IsNamed := by
  have hspells := spells_of_resource read target
  generalize segmentsOf text = segments at hspells
  cases hspells with
  | data typeName name _ => exact ⟨typeName, name⟩
  | managed typeName _ name _ => exact ⟨typeName, name⟩

/-- References can name the resource: its type and name are names, and the type of a managed
resource is no keyword. -/
structure ResourceName.IsReferable (r : ResourceName) : Prop extends r.IsNamed where
  other : r.mode = .managed → r.type ∉ keywords

/-- The key of a resource and what spells an attribute after it are a reference to the resource. -/
theorem Reference.read_resource (h : name.IsReferable)
    (selects : Selects (segmentsOf rest) selection field) :
    Reference.read (name.id ++ "." ++ rest) =
      .ok ⟨name.id ++ "." ++ rest, .resource name selection field⟩ := by
  have hdot : '.' ∈ (name.id ++ "." ++ rest).toList := by simp
  refine (Reference.read_eq_ok_iff hdot).mpr ⟨rfl, ?_⟩
  rw [segmentsOf_append_dot, h.segmentsOf_id]
  obtain ⟨⟨htype, hname⟩, hother⟩ := h
  obtain ⟨mode, type, n⟩ := name
  cases mode with
  | managed => exact .managed htype (hother rfl) hname selects
  | data => exact .data htype hname selects

/-! ### Attributes -/

/-- A path of attributes that begins with a name. -/
def IsAttributePath (field : String) : Prop :=
  ∃ n rest, segmentsOf field = n :: rest ∧ IsName n ∧ ∀ s ∈ rest, IsSegment s

namespace IsAttributePath

/-- A path alone selects no instances. -/
theorem selects_plain (h : IsAttributePath field) :
    Selects (segmentsOf field) .plain field := by
  obtain ⟨n, rest, hfield, name, valid⟩ := h
  have hselects := Selects.named name valid
  rwa [← hfield, joinDots_segmentsOf] at hselects

private theorem valid (h : IsAttributePath field) :
    segmentsOf field ≠ [] ∧ ∀ s ∈ segmentsOf field, IsSegment s := by
  obtain ⟨n, rest, hfield, name, valid⟩ := h
  rw [hfield]
  exact ⟨List.cons_ne_nil _ _, List.forall_mem_cons.mpr ⟨.inl name, valid⟩⟩

/-- A path after an integer is of the instance of the number. -/
theorem selects_index (h : IsAttributePath field) (integer : IsInteger s) :
    Selects (segmentsOf (s ++ "." ++ field)) (.index (numberOf s)) field := by
  have hselects := Selects.index integer h.valid.1 h.valid.2
  rw [joinDots_segmentsOf] at hselects
  rwa [segmentsOf_append_dot, segmentsOf_of_isSegment (.inr (.inl integer))]

/-- A path after `*` is of all instances. -/
theorem selects_splat (h : IsAttributePath field) :
    Selects (segmentsOf ("*" ++ "." ++ field)) .splat field := by
  have hselects := Selects.splat h.valid.1 h.valid.2
  rw [joinDots_segmentsOf] at hselects
  rwa [segmentsOf_append_dot, segmentsOf_of_isSegment (.inr (.inr (.inl rfl)))]

end IsAttributePath

end Hil
