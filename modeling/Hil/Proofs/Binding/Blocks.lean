import Hil.Proofs.Binding.Splat

/-!
# Paths through list blocks

A path can name an attribute of a list of blocks without an index, and stands for the attribute of
the elements then. A name goes through one list in this way: the elements of a list of lists have no
attributes of their own, so there the index makes a difference.
-/

namespace Hil

namespace Schema

/-- The name of an attribute: neither the length of a list nor a selection of elements. -/
structure IsAttribute (name : String) : Prop where
  nonempty : name ≠ ""
  other : name ≠ "#"
  notEvery : name ≠ "*"
  notNumeral : Text.isNumeral name = false

/-- The segment selects elements of a list. -/
def SelectsElement (segment : String) : Prop := Text.isNumeral segment = true ∨ segment = "*"

variable {element : Schema} {name index : String}

/-- A numeral or `*` leads from a list to its element. -/
theorem property_list_of_selectsElement (h : SelectsElement index) :
    (list element).property index = element := by
  have h : (Text.isNumeral index || index == "*") = true := by
    rwa [Bool.or_eq_true, beq_iff_eq]
  have hempty : ¬ index.isEmpty = true := fun he ↦ by
    rw [String.isEmpty_iff.mp he] at h
    cases h
  have hlength : index ≠ "#" := by
    rintro rfl
    revert h
    decide
  rw [property, if_neg hempty]
  simp only [if_neg hlength, if_pos h]

/-- An attribute of a list is looked up in the properties of its element. -/
theorem property_list_of_isAttribute (h : IsAttribute name) :
    (list element).property name = declaredProperty element.properties name := by
  have hempty : ¬ name.isEmpty = true := fun he ↦ h.nonempty (String.isEmpty_iff.mp he)
  have hselects : ¬ (Text.isNumeral name || name == "*") = true := by
    simp [h.notNumeral, h.notEvery]
  rw [property, if_neg hempty]
  simp only [if_neg h.other, if_neg hselects]

/-- An attribute of a list is that of the element, if this is no list. -/
theorem property_list_of_plain (h : IsAttribute name) (plain : element.element? = none) :
    (list element).property name = element.property name := by
  have hempty : ¬ name.isEmpty = true := fun he ↦ h.nonempty (String.isEmpty_iff.mp he)
  rw [property_list_of_isAttribute h]
  cases element with
  | list inner => cases plain
  | _ => exact (if_neg hempty).symm

/-- No attribute of a list of lists is declared. -/
theorem property_list_of_nested (h : IsAttribute name) (nested : element.element? ≠ none) :
    (list element).property name = .undeclared := by
  rw [property_list_of_isAttribute h]
  cases element with
  | list inner => rfl
  | _ => exact absurd rfl nested

/-- The segments of a path are followed one after the other. -/
theorem follow_append (s : Schema) (path more : List String) :
    s.follow (path ++ more) = (s.follow path).follow more :=
  List.foldl_append

end Schema

/-! ### Segments of paths -/

/-- The segments after the name of a resource, when others follow them, select instances and go
through attributes. -/
inductive Leads : List String → Selection → List String → Prop
  | splat {path : List String} (valid : ∀ s ∈ path, IsSegment s) : Leads ("*" :: path) .splat path
  | index {n : String} {path : List String} (integer : IsInteger n)
      (valid : ∀ s ∈ path, IsSegment s) : Leads (n :: path) (.index (numberOf n)) path
  | named {n : String} {path : List String} (name : IsName n) (valid : ∀ s ∈ path, IsSegment s) :
      Leads (n :: path) .plain (n :: path)

variable {segments path more : List String} {selection : Selection} {s : String}

/-- A text of valid segments is split into them. -/
theorem segmentsOf_joinDots (valid : ∀ s ∈ segments, IsSegment s) (some : segments ≠ []) :
    segmentsOf (joinDots segments) = segments := by
  induction segments with
  | nil => exact absurd rfl some
  | cons s segments ih =>
    rw [List.forall_mem_cons] at valid
    have hs := segmentsOf_of_isSegment valid.1
    cases segments with
    | nil => exact hs
    | cons s' segments =>
      rw [joinDots, String.intercalate_cons_cons, ← joinDots, segmentsOf_append_dot, hs,
        ih valid.2 (List.cons_ne_nil _ _), List.singleton_append]

/-- Segments that follow a path spell the end of the attribute that it goes through. -/
theorem Leads.selects (h : Leads segments selection path) (hmore : more ≠ [])
    (valid : ∀ s ∈ more, IsSegment s) :
    ∃ field, Selects (segments ++ more) selection field ∧ segmentsOf field = path ++ more := by
  have hvalid {path : List String} (hpath : ∀ s ∈ path, IsSegment s) :
      ∀ s ∈ path ++ more, IsSegment s := List.forall_mem_append.mpr ⟨hpath, valid⟩
  have hsome (path : List String) : path ++ more ≠ [] := List.append_ne_nil_of_right_ne_nil _ hmore
  cases h with
  | splat hpath =>
    exact ⟨_, .splat (hsome _) (hvalid hpath), segmentsOf_joinDots (hvalid hpath) (hsome _)⟩
  | index integer hpath =>
    exact ⟨_, .index integer (hsome _) (hvalid hpath),
      segmentsOf_joinDots (hvalid hpath) (hsome _)⟩
  | named name hpath =>
    have hall := List.forall_mem_cons.mpr ⟨.inl name, hvalid hpath⟩
    exact ⟨_, .named name (hvalid hpath), segmentsOf_joinDots hall (List.cons_ne_nil _ _)⟩

private theorem isDigit_of_asciiDigit {c : Char} (h : IsDigit c) : Text.isDigit c = true := by
  simp only [IsDigit, Char.le_def, UInt32.le_iff_toNat_le, Char.reduceVal, UInt32.reduceToNat] at h
  have hascii : c.toNat < 0x80 := by
    change c.val.toNat < 0x80
    omega
  rw [Text.isDigit, if_pos hascii, Bool.and_eq_true, decide_eq_true_iff, decide_eq_true_iff]
  exact h

private theorem isDigit_of_nameStart {c : Char} (h : IsLetter c ∨ c = '_') :
    Text.isDigit c = false := by
  have hascii : c.toNat < 0x80 ∧ ¬ c.toNat ≤ '9'.toNat := by
    rcases h with h | rfl
    · simp only [IsLetter, Char.le_def, UInt32.le_iff_toNat_le, Char.reduceVal,
        UInt32.reduceToNat] at h
      change c.val.toNat < 0x80 ∧ ¬ c.val.toNat ≤ 57
      omega
    · decide
  rw [Text.isDigit, if_pos hascii.1, decide_eq_false hascii.2, Bool.and_false]

/-- A name can be the name of an attribute. -/
theorem IsName.isAttribute (h : IsName s) : Schema.IsAttribute s := by
  obtain ⟨c, cs, hs, hc, -⟩ := h
  have hother {t : String} (ht : t.toList.head? ≠ some c) : s ≠ t := by
    rintro rfl
    rw [hs] at ht
    exact ht rfl
  have hstart {d : Char} (hd : isNameStart d = false) : some d ≠ some c := by
    rintro ⟨⟩
    rw [isNameStart_iff.mpr hc] at hd
    cases hd
  refine ⟨hother nofun, hother (hstart rfl), hother (hstart rfl), ?_⟩
  rw [Text.isNumeral, hs, List.all_cons, isDigit_of_nameStart hc, Bool.false_and, Bool.and_false]

/-- An integer selects an element, and `*` does. -/
theorem selectsElement_of_isInteger (h : IsInteger s ∨ s = "*") : Schema.SelectsElement s := by
  refine h.imp_left fun ⟨hsome, hdigits⟩ ↦ ?_
  have hall : s.toList.all Text.isDigit = true :=
    List.all_eq_true.mpr fun c hc ↦ isDigit_of_asciiDigit (hdigits c hc)
  rw [Text.isNumeral, hall, Bool.and_true, Bool.not_eq_true', List.isEmpty_eq_false_iff]
  exact hsome

namespace Bind

variable {g : Graph} {hasCount : Bool} {place : Option Location} {name : ResourceName}
  {r r' : Resource} {text rest : String}

/-- A reference that goes on after a path has the type of what the path and the rest lead to. -/
theorem gives_path (referable : name.IsReferable) (found : g.resource? name.id = some r)
    (resolved : g.resolve? r = some r') (leads : Leads (segmentsOf text) selection path)
    (hrest : segmentsOf rest = more) (valid : ∀ s ∈ more, IsSegment s) :
    Gives hasCount g (.access place (name.id ++ "." ++ (text ++ "." ++ rest)))
      (propertyType selection (((r'.schema.getD .undeclared).follow path).follow more)) := by
  subst hrest
  have hsome : segmentsOf rest ≠ [] := by
    rw [segmentsOf, ne_eq, List.map_eq_nil_iff]
    exact Text.splitAt_ne_nil '.' rest.toList
  obtain ⟨field, selects, hfield⟩ := leads.selects hsome valid
  rw [← Schema.follow_append, ← hfield]
  refine gives_attribute referable ?_ found resolved
  rwa [segmentsOf_append_dot]

/-- The index of a list whose elements are no lists can be left out: the attribute of the list is
that of each element, and references with the index and without it have one type. Of a list of lists
every attribute is undeclared, and the index leads to the attribute of the inner list. -/
theorem gives_without_index {element : Schema} :
    (∀ attr index, Schema.IsAttribute attr → Schema.SelectsElement index →
      let block := Schema.list element
      (element.element? = none →
        block.property attr = (block.property index).property attr) ∧
      (element.element? ≠ none → block.property attr = .undeclared ∧
        (block.property index).property attr = element.property attr)) ∧
    ∀ {hasCount : Bool} {g : Graph} {name : ResourceName} {r r' : Resource} {text : String}
      {selection : Selection} {path : List String}, name.IsReferable →
      g.resource? name.id = some r → g.resolve? r = some r' →
      Leads (segmentsOf text) selection path →
      (r'.schema.getD .undeclared).follow path = .list element →
      ∀ place attr index, IsName attr → IsInteger index ∨ index = "*" →
        let short := Expr.access place (name.id ++ "." ++ (text ++ "." ++ attr))
        let long := Expr.access place (name.id ++ "." ++ (text ++ "." ++ (index ++ "." ++ attr)))
        (element.element? = none →
          ∃ type, Gives hasCount g short type ∧ Gives hasCount g long type) ∧
        (element.element? ≠ none → Gives hasCount g short (propertyType selection .undeclared) ∧
          Gives hasCount g long (propertyType selection (element.property attr))) := by
  constructor
  · intro attr index ha hi block
    rw [Schema.property_list_of_selectsElement hi]
    exact ⟨Schema.property_list_of_plain ha,
      fun nested ↦ ⟨Schema.property_list_of_nested ha nested, rfl⟩⟩
  · intro hasCount g name r r' text selection path referable found resolved leads hlist place attr
      index ha hi short long
    have hsegment : IsSegment index :=
      hi.elim (fun h ↦ .inr (.inl h)) fun h ↦ .inr (.inr (.inl h))
    have hattr : segmentsOf attr = [attr] := segmentsOf_of_isSegment (.inl ha)
    have hindexed : segmentsOf (index ++ "." ++ attr) = [index, attr] := by
      rw [segmentsOf_append_dot, segmentsOf_of_isSegment hsegment, hattr, List.singleton_append]
    have hgives {rest : String} {more : List String} (hrest : segmentsOf rest = more)
        (valid : ∀ s ∈ more, IsSegment s) :
        Gives hasCount g (.access place (name.id ++ "." ++ (text ++ "." ++ rest)))
          (propertyType selection ((Schema.list element).follow more)) :=
      hlist ▸ gives_path referable found resolved leads hrest valid
    have hshort : Gives hasCount g short
        (propertyType selection ((Schema.list element).property attr)) :=
      hgives hattr (List.forall_mem_singleton.mpr (.inl ha))
    have hlong : Gives hasCount g long (propertyType selection (element.property attr)) := by
      have h := hgives hindexed
        (List.forall_mem_cons.mpr ⟨hsegment, List.forall_mem_singleton.mpr (.inl ha)⟩)
      rwa [Schema.follow, List.foldl_cons,
        Schema.property_list_of_selectsElement (selectsElement_of_isInteger hi)] at h
    constructor
    · intro plain
      rw [Schema.property_list_of_plain ha.isAttribute plain] at hshort
      exact ⟨_, hshort, hlong⟩
    · intro nested
      rw [Schema.property_list_of_nested ha.isAttribute nested] at hshort
      exact ⟨hshort, hlong⟩

/-- The specification of a list of lists of blocks. -/
private def grid : Spec :=
  .mk (some (.str "list")) none (some (.mk (some (.str "list")) none (some (.mk none
    (some [("size", .mk (some (.str "int")) none none)]) none))))

/-- An instance with a list of blocks. -/
private def mounted : Graph :=
  (Graph.empty.add (.provider ⟨"aws", "", [("aws_instance", .object
    [("disks", .list (.object [("size", .plain Ty.number)]))])]⟩)).add
      (.resource ⟨⟨.managed, "aws_instance", "web"⟩, "", none, none⟩)

/-- The size of the disks of all instances has one type with the index of a disk and without. -/
theorem gives_without_index_size :
    ∃ type, Gives false mounted (.access none "aws_instance.web.*.disks.size") type ∧
      Gives false mounted (.access none "aws_instance.web.*.disks.0.size") type := by
  have hname {s : String} (h : tokenClass? s.toList = some .name) : IsName s :=
    tokenClass?_eq_name_iff.mp h
  have hreferable : (⟨.managed, "aws_instance", "web"⟩ : ResourceName).IsReferable :=
    ⟨⟨hname rfl, hname rfl⟩, fun _ ↦ by decide⟩
  have hleads : Leads (segmentsOf "*.disks") .splat ["disks"] :=
    .splat (List.forall_mem_singleton.mpr (.inl (hname rfl)))
  exact ((@gives_without_index (.object [("size", .plain Ty.number)])).2 hreferable rfl rfl
    hleads rfl none "size" "0" (hname rfl) (.inl (tokenClass?_eq_int_iff.mp rfl))).1 rfl

/-- The size of the blocks in a list of lists of them is undeclared, but with the index of a list
it is a number. -/
theorem size_of_grid :
    ∃ s, grid.load = .ok s ∧ s.element? ≠ none ∧
      s.property "size" ≠ (s.property "0").property "size" :=
  ⟨_, rfl, nofun, fun h ↦ absurd (congrArg Schema.type h) (by decide)⟩

end Bind

end Hil
