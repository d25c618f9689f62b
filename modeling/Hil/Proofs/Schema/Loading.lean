import Hil.Proofs.List.Related
import Hil.Schema

/-!
# Loaded specifications

A specification can be read without being loaded: its kind says which of its parts count, and a path
of attributes leads from one specification to another. Loading fails with the first fault of a part
that counts: a kind that is not known, or a property under the reserved name. Without a fault it
gives schemas whose paths lead to the types that the same paths lead to in the specification.
-/

namespace Hil

namespace Spec

/-! ### Reading a specification -/

/-- The kind that a specification gives. Without one, a specification that has a property table is
an object, and of any other nothing is known. -/
def kind : Spec → Literal
  | mk (some kind) _ _ => kind
  | mk none (some _) _ => .str "object"
  | mk none none _ => .str "unknown"

/-- Whether the kind is one of the names. -/
def isOneOf (names : List Str) (s : Spec) : Bool :=
  match s.kind with
  | .str kind => names.contains kind
  | _ => false

/-- Whether a specification is of lists, or of sets, which are the same. -/
def isList (s : Spec) : Bool := s.isOneOf ["list", "set"]

/-- Whether a specification is of objects. -/
def isObject (s : Spec) : Bool := s.isOneOf ["object"]

/-- Whether the kind of a specification is known. -/
def isKnown (s : Spec) : Bool :=
  s.isOneOf ["list", "set", "object", "unknown", "bool", "number", "int", "float", "string", "map"]

/-- The specification of the elements, if one is given. -/
def element? : Spec → Option Spec
  | mk _ _ element => element

/-- The specifications of the properties, none if there is no table. -/
def properties : Spec → List (String × Spec)
  | mk _ properties _ => properties.getD []

/-- The parts of a specification that count: the elements of lists and the properties of objects. -/
def parts (s : Spec) : List Spec :=
  if s.isList then s.element?.toList
  else if s.isObject then s.properties.map Prod.snd
  else []

/-- The second specification is the first, or a part that counts of it, or of such a part. -/
inductive Reaches : Spec → Spec → Prop
  | self (s : Spec) : Reaches s s
  | part {s p q : Spec} (counts : p ∈ s.parts) (rest : Reaches p q) : Reaches s q

/-- The specification that says nothing. -/
def nothing : Spec := mk none none none

/-- The specification of numbers. -/
def number : Spec := mk (some (.str "number")) none none

/-- A property of an object. Nothing is said of a property that is not declared, and of one of
anything else. -/
def declared (s : Spec) (name : String) : Spec :=
  if s.isObject then (s.properties.lookup name).getD nothing else nothing

/-- The specification that one segment of a path leads to. A list has its length, its elements by a
numeral or `*`, and the properties of its elements; an object has its properties. -/
def property (s : Spec) (name : String) : Spec :=
  if name = "" then nothing
  else if s.isList then
    if name = "#" then number
    else if Text.isNumeral name ∨ name = "*" then s.element?.getD nothing
    else (s.element?.getD nothing).declared name
  else s.declared name

/-- The specification at the end of a path. -/
def follow (s : Spec) (path : List String) : Spec := path.foldl property s

/-- The type of anything but lists. -/
def plainType (s : Spec) : Ty :=
  if s.isOneOf ["bool"] then Ty.bool
  else if s.isOneOf ["number", "int", "float"] then Ty.number
  else if s.isOneOf ["string"] then Ty.string
  else if s.isOneOf ["map", "object"] then Ty.map
  else Ty.unknown

/-- The type of the values that a specification is of. -/
def type : Spec → Ty
  | mk kind properties none =>
    if (mk kind properties none).isList then Ty.unknown.listOf
    else (mk kind properties none).plainType
  | mk kind properties (some element) =>
    if (mk kind properties (some element)).isList then element.type.listOf
    else (mk kind properties (some element)).plainType

/-! ### Faults -/

/-- Whether an object declares a property under the name `cls`. -/
def declaresReserved (s : Spec) : Bool :=
  s.isObject && (s.properties.map Prod.fst).contains "cls"

/-- Whether the kind is a list or a dictionary, which cannot be looked up. -/
def isUnhashable (s : Spec) : Bool :=
  match s.kind with
  | .list _ | .dict _ => true
  | _ => false

/-- What is wrong with a specification apart from its parts. -/
def fault? (s : Spec) : Option Fault :=
  if s.isKnown then if s.declaresReserved then some .reservedName else none
  else some (if s.isUnhashable then .unhashableKind s.kind else .unknownKind s.kind)

mutual

/-- The specifications that count, in the order in which they are done with when one is loaded: the
parts of a specification, and then itself. -/
def inOrder : Spec → List Spec
  | mk kind properties element =>
    let parts :=
      if (mk kind properties element).isList then inOrderElement element
      else if (mk kind properties element).isObject then inOrderTable? properties
      else []
    parts ++ [mk kind properties element]

/-- The specifications that count of the elements, if they have one. -/
def inOrderElement : Option Spec → List Spec
  | none => []
  | some element => inOrder element

/-- The specifications that count of a table of properties, if there is one. -/
def inOrderTable? : Option (List (String × Spec)) → List Spec
  | none => []
  | some entries => inOrderTable entries

/-- The specifications that count of the properties in a table. -/
def inOrderTable : List (String × Spec) → List Spec
  | [] => []
  | (_, spec) :: entries => inOrder spec ++ inOrderTable entries

end

variable {s p : Spec} {schema : Schema} {fault : Fault} {name : String}

/-! ### Kinds -/

private theorem isOneOf_iff {names : List Str} :
    s.isOneOf names = true ↔ ∃ name ∈ names, s.kind = .str name := by
  rw [isOneOf]
  split
  · next kind hkind => simp [hkind]
  · next hkind =>
    refine ⟨nofun, fun ⟨name, _, h⟩ ↦ absurd h (hkind name)⟩

private theorem isOneOf_mono {names names' : List Str} (hsub : names ⊆ names')
    (h : s.isOneOf names = true) : s.isOneOf names' = true := by
  obtain ⟨name, hname, hkind⟩ := isOneOf_iff.mp h
  exact isOneOf_iff.mpr ⟨name, hsub hname, hkind⟩

/-- Lists are of a known kind. -/
theorem isKnown_of_isList (h : s.isList = true) : s.isKnown = true := isOneOf_mono (by simp) h

/-- Objects are of a known kind. -/
theorem isKnown_of_isObject (h : s.isObject = true) : s.isKnown = true := isOneOf_mono (by simp) h

/-- Lists are no objects. -/
theorem not_isObject_of_isList (h : s.isList = true) : s.isObject = false := by
  obtain ⟨name, hname, hkind⟩ := isOneOf_iff.mp h
  simp only [List.mem_cons, List.not_mem_nil, or_false] at hname
  rcases hname with rfl | rfl <;> simp [isObject, isOneOf, hkind]

/-- The type of lists is the list of the type of their elements. -/
theorem type_of_isList (h : s.isList = true) :
    s.type = ((s.element?.getD nothing).type).listOf := by
  obtain ⟨kind, properties, _ | element⟩ := s
  · rw [type, if_pos h]
    rfl
  · rw [type, if_pos h]
    rfl

/-- The type of anything but lists is plain. -/
theorem type_of_not_isList (h : s.isList = false) : s.type = s.plainType := by
  obtain ⟨kind, properties, _ | element⟩ := s <;> rw [type, h, if_neg Bool.false_ne_true]

/-! ### Loading by kind -/

private theorem bind_eq_ok_iff {ε α β : Type} {x : Except ε α} {f : α → Except ε β} {b : β} :
    x >>= f = .ok b ↔ ∃ a, x = .ok a ∧ f a = .ok b := by
  cases x <;> simp [bind, Except.bind]

private theorem map_eq_ok_iff {ε α β : Type} {f : α → β} {x : Except ε α} {b : β} :
    f <$> x = .ok b ↔ ∃ a, x = .ok a ∧ f a = b := by
  cases x <;> simp [Functor.map, Except.map]

/-- A list is loaded with its elements. -/
theorem load_of_isList (h : s.isList = true) :
    s.load = s.element?.elim (.ok (.list .undeclared)) fun element ↦
      Schema.list <$> element.load := by
  obtain ⟨name, hname, hkind⟩ := isOneOf_iff.mp h
  obtain ⟨_ | kind, _ | table, element⟩ := s
  · simp [← Literal.str.inj hkind] at hname
  · simp [← Literal.str.inj hkind] at hname
  all_goals
    obtain rfl : kind = .str name := hkind
    rw [load.eq_def]
    refine (if_pos (by simpa using hname)).trans ?_
    cases element <;> rfl

/-- An object is loaded with its properties. -/
theorem load_of_isObject (h : s.isObject = true) :
    s.load = loadProperties s.properties >>= objectOf := by
  obtain ⟨name, hname, hkind⟩ := isOneOf_iff.mp h
  obtain rfl := List.mem_singleton.mp hname
  obtain ⟨_ | kind, _ | table, element⟩ := s
  · simp [kind] at hkind
  · rw [load]
    rfl
  all_goals
    obtain rfl : kind = .str "object" := hkind
    rw [load.eq_def]
    simp only [Str.ofString_inj, String.reduceEq, or_self, if_false, if_true]
    rfl

/-- Anything else of a known kind is loaded without any parts. -/
theorem load_of_isKnown (h : s.isKnown = true) (hl : s.isList = false) (ho : s.isObject = false) :
    s.load = .ok (.plain s.plainType) := by
  obtain ⟨name, hname, hkind⟩ := isOneOf_iff.mp h
  obtain ⟨_ | kind, properties, element⟩ := s
  · cases properties with
    | none =>
      rw [load]
      rfl
    | some table => simp [isObject, isOneOf, kind] at ho
  · obtain rfl : kind = .str name := hkind
    have hname' : name ∈ (["unknown", "bool", "number", "int", "float", "string", "map"] :
        List Str) := by
      simp only [isList, isObject, isOneOf, Spec.kind] at hl ho
      simp_all
    rw [load.eq_def]
    simp only [List.mem_cons, List.not_mem_nil, or_false] at hname'
    rcases hname' with rfl | rfl | rfl | rfl | rfl | rfl | rfl <;>
      simp [Kind.name, primitives, List.lookup_cons, plainType, isOneOf, kind]

/-- What is of no known kind cannot be loaded. -/
theorem load_of_not_isKnown (h : s.isKnown = false) :
    s.load = .error (if s.isUnhashable then .unhashableKind s.kind else .unknownKind s.kind) := by
  obtain ⟨_ | kind, properties, element⟩ := s
  · cases properties <;> simp [isKnown, isOneOf, kind] at h
  · cases kind with
    | str name =>
      have hname : name ∉ (["list", "set", "object", "unknown", "bool", "number", "int", "float",
          "string", "map"] : List Str) := by
        simpa [isKnown, isOneOf, kind] using h
      have hprimitive : primitives.lookup name = none := by
        rw [List.lookup_eq_none_iff]
        simp_all [primitives]
      rw [load.eq_def]
      simp only [hprimitive]
      simp_all [Kind.name, kind, isUnhashable, Fault.ofKind]
    | _ =>
      rw [load.eq_def]
      rfl

/-! ### Parts -/

private theorem parts_of_isList (h : s.isList = true) : s.parts = s.element?.toList := if_pos h

private theorem parts_of_isObject (h : s.isObject = true) :
    s.parts = s.properties.map Prod.snd := by
  have hl : ¬s.isList = true := fun hl ↦ by simp [not_isObject_of_isList hl] at h
  rw [parts, if_neg hl, if_pos h]

private theorem parts_of_plain (hl : s.isList = false) (ho : s.isObject = false) :
    s.parts = [] := by
  rw [parts, hl, ho]
  rfl

/-- A property of all specifications follows from that of the parts that count. -/
theorem induct_parts {P : Spec → Prop} (h : ∀ s : Spec, (∀ p ∈ s.parts, P p) → P s) (s : Spec) :
    P s := by
  refine @Spec.rec P (fun table? ↦ ∀ e ∈ table?.getD [], P e.2) (fun element? ↦ ∀ p ∈ element?, P p)
    (fun table ↦ ∀ e ∈ table, P e.2) (fun e ↦ P e.2) ?_ ?_ ?_ ?_ ?_ ?_ ?_ ?_ s
  · intro kind properties element hproperties helement
    refine h _ fun p hp ↦ ?_
    rw [parts] at hp
    split at hp
    · exact helement p (Option.mem_toList.mp hp)
    · split at hp
      · obtain ⟨e, he, rfl⟩ := List.mem_map.mp hp
        exact hproperties e he
      · cases hp
  · exact List.forall_mem_nil _
  · exact fun _ table ↦ table
  · exact fun p hp ↦ absurd hp (Option.not_mem_none p)
  · intro element helement p hp
    rwa [← Option.mem_some_iff.mp hp]
  · exact List.forall_mem_nil _
  · exact fun _ _ head tail ↦ List.forall_mem_cons.mpr ⟨head, tail⟩
  · exact fun _ _ spec ↦ spec

/-- A specification is done with after its parts. -/
theorem inOrder_eq (s : Spec) : s.inOrder = s.parts.flatMap inOrder ++ [s] := by
  have htable (entries : List (String × Spec)) :
      inOrderTable entries = (entries.map Prod.snd).flatMap inOrder := by
    induction entries with
    | nil => rfl
    | cons entry entries ih => rw [inOrderTable, ih, List.map_cons, List.flatMap_cons]
  obtain ⟨kind, properties, element⟩ := s
  rw [inOrder, parts]
  congr 1
  split
  · cases element <;> simp [element?, inOrderElement]
  · split
    · cases properties <;> simp [Spec.properties, inOrderTable?, htable]
    · rfl

/-- The specifications that count are those that are reached. -/
theorem mem_inOrder_iff {q : Spec} : q ∈ s.inOrder ↔ s.Reaches q := by
  induction s using induct_parts with
  | h s ih =>
    rw [inOrder_eq, List.mem_append, List.mem_flatMap, List.mem_singleton]
    constructor
    · rintro (⟨p, hp, hq⟩ | rfl)
      · exact .part hp ((ih p hp).mp hq)
      · exact .self _
    · intro h
      cases h with
      | self => exact .inr rfl
      | part counts rest => exact .inl ⟨_, counts, (ih _ counts).mpr rest⟩

/-- A table is loaded exactly if each of its specifications is, under the same names. -/
theorem loadProperties_eq_ok_iff {entries : List (String × Spec)}
    {table : List (String × Schema)} : loadProperties entries = .ok table ↔
      List.Forall₂ (fun e p ↦ e.1 = p.1 ∧ e.2.load = .ok p.2) entries table := by
  induction entries generalizing table with
  | nil => simp [loadProperties, eq_comm]
  | cons entry entries ih =>
    obtain ⟨name, spec⟩ := entry
    rw [loadProperties]
    cases hs : spec.load with
    | error fault =>
      refine ⟨nofun, fun h ↦ ?_⟩
      cases h with
      | cons head _ => cases hs.symm.trans head.2
    | ok schema =>
      cases hr : loadProperties entries with
      | error fault =>
        refine ⟨nofun, fun h ↦ ?_⟩
        cases h with
        | cons _ tail => cases hr.symm.trans (ih.mpr tail)
      | ok rest =>
        constructor
        · intro h
          obtain rfl := Except.ok.inj h
          exact .cons ⟨rfl, hs⟩ (ih.mp hr)
        · intro h
          cases h with
          | @cons _ p _ table head tail =>
            obtain rfl := Except.ok.inj (hr.symm.trans (ih.mpr tail))
            obtain rfl := Except.ok.inj (hs.symm.trans head.2)
            obtain ⟨_, _⟩ := p
            obtain rfl := head.1
            rfl

/-! ### The first fault -/

/-- What a computation fails with. -/
private def failure? {ε α : Type} : Except ε α → Option ε
  | .error e => some e
  | .ok _ => none

private theorem failure?_eq_some_iff {ε α : Type} {x : Except ε α} {e : ε} :
    failure? x = some e ↔ x = .error e := by
  cases x <;> simp [failure?]

private theorem failure?_map {ε α β : Type} (f : α → β) (x : Except ε α) :
    failure? (f <$> x) = failure? x := by
  cases x <;> rfl

private theorem failure?_loadProperties {entries : List (String × Spec)}
    (ih : ∀ p ∈ entries.map Prod.snd, failure? p.load = p.inOrder.findSome? fault?) :
    failure? (loadProperties entries) =
      ((entries.map Prod.snd).flatMap inOrder).findSome? fault? := by
  induction entries with
  | nil => rfl
  | cons entry entries ihe =>
    obtain ⟨name, spec⟩ := entry
    rw [List.map_cons, List.forall_mem_cons] at ih
    rw [loadProperties, List.map_cons, List.flatMap_cons, List.findSome?_append, ← ih.1,
      ← ihe ih.2]
    cases spec.load with
    | error fault => rfl
    | ok schema => cases loadProperties entries <;> rfl

private theorem failure?_objectOf {table : List (String × Schema)} (ho : s.isObject = true)
    (hnames : table.map Prod.fst = s.properties.map Prod.fst) :
    failure? (objectOf table) = s.fault? := by
  have hreserved : (table.any fun p ↦ p.1 == reserved) = s.declaresReserved := by
    rw [declaresReserved, ho, Bool.true_and, ← hnames, Bool.eq_iff_iff, List.any_eq_true,
      List.contains_iff_mem, List.mem_map]
    simp [reserved]
  rw [objectOf, fault?, if_pos (isKnown_of_isObject ho), hreserved]
  cases s.declaresReserved <;> rfl

private theorem fault?_of_not_isObject (hk : s.isKnown = true) (ho : s.isObject = false) :
    s.fault? = none := by
  rw [fault?, if_pos hk, declaresReserved, ho]
  rfl

/-- Loading a specification fails with the first fault of those that count. -/
theorem failure?_load (s : Spec) : failure? s.load = s.inOrder.findSome? fault? := by
  induction s using induct_parts with
  | h s ih =>
    rw [inOrder_eq, List.findSome?_append, List.findSome?_singleton]
    cases hl : s.isList with
    | true =>
      have ho := not_isObject_of_isList hl
      rw [load_of_isList hl, fault?_of_not_isObject (isKnown_of_isList hl) ho, Option.or_none]
      rw [parts_of_isList hl] at ih ⊢
      cases he : s.element? with
      | none => rfl
      | some element =>
        rw [he] at ih
        simpa [failure?_map] using ih element (by simp)
    | false =>
      cases ho : s.isObject with
      | true =>
        rw [parts_of_isObject ho] at ih ⊢
        rw [load_of_isObject ho, ← failure?_loadProperties ih]
        cases ht : loadProperties s.properties with
        | error fault => rfl
        | ok table =>
          refine failure?_objectOf ho ?_
          exact (forall₂_map_eq (loadProperties_eq_ok_iff.mp ht) fun _ _ h ↦ h.1).symm
      | false =>
        rw [parts_of_plain hl ho, List.flatMap_nil, List.findSome?_nil, Option.none_or]
        cases hk : s.isKnown with
        | true =>
          rw [load_of_isKnown hk hl ho, fault?_of_not_isObject hk ho]
          rfl
        | false =>
          rw [load_of_not_isKnown hk, fault?, hk]
          rfl

/-- Loading fails with the first fault of the specifications that count. -/
theorem load_eq_error_iff : s.load = .error fault ↔ s.inOrder.findSome? fault? = some fault := by
  rw [← failure?_load, failure?_eq_some_iff]

/-- What loading fails with is the fault of something that counts. -/
theorem exists_fault_of_error (h : s.load = .error fault) :
    ∃ q, s.Reaches q ∧ q.fault? = some fault := by
  obtain ⟨q, hq, hfault⟩ := List.exists_of_findSome?_eq_some (load_eq_error_iff.mp h)
  exact ⟨q, mem_inOrder_iff.mp hq, hfault⟩

/-- What counts of something that is loaded has no fault. -/
theorem fault?_of_reaches {q : Spec} (h : s.load = .ok schema) (hr : s.Reaches q) :
    q.fault? = none := by
  have hnone : s.inOrder.findSome? fault? = none := by
    rw [← failure?_load, h]
    rfl
  exact List.findSome?_eq_none_iff.mp hnone q (mem_inOrder_iff.mpr hr)

/-! ### Paths -/

/-- The schema is what the specification is loaded to, or both say nothing. -/
def Describes (s : Spec) (schema : Schema) : Prop :=
  s.load = .ok schema ∨ s = nothing ∧ schema = .undeclared

namespace Describes

/-- Nothing is described by the schema of what is not declared. -/
theorem nothing : Describes nothing .undeclared := .inr ⟨rfl, rfl⟩

/-- What describes a list is a list of what describes its elements. -/
theorem list (h : Describes s schema) (hl : s.isList = true) :
    ∃ element, schema = .list element ∧ Describes (s.element?.getD Spec.nothing) element := by
  rcases h with h | ⟨rfl, rfl⟩
  · rw [load_of_isList hl] at h
    cases he : s.element? with
    | none =>
      rw [he] at h
      exact ⟨.undeclared, (Except.ok.inj h).symm, nothing⟩
    | some element =>
      rw [he] at h
      obtain ⟨loaded, hload, rfl⟩ := map_eq_ok_iff.mp h
      exact ⟨loaded, rfl, .inl hload⟩
  · simp [isList, isOneOf, Spec.nothing, kind] at hl

/-- What describes an object has properties that describe those of the object. -/
theorem object (h : Describes s schema) (ho : s.isObject = true) :
    ∃ table, schema = .object table ∧
      List.Forall₂ (fun e p ↦ e.1 = p.1 ∧ e.2.load = .ok p.2) s.properties table := by
  rcases h with h | ⟨rfl, rfl⟩
  · rw [load_of_isObject ho] at h
    obtain ⟨table, ht, hschema⟩ := bind_eq_ok_iff.mp h
    refine ⟨table, ?_, loadProperties_eq_ok_iff.mp ht⟩
    rw [objectOf] at hschema
    split at hschema
    · cases hschema
    · exact (Except.ok.inj hschema).symm
  · simp [isObject, isOneOf, Spec.nothing, kind] at ho

/-- What describes anything else is its type alone. -/
theorem plain (h : Describes s schema) (hl : s.isList = false) (ho : s.isObject = false) :
    schema.type = s.plainType ∧ schema.element? = none ∧ schema.properties = [] := by
  rcases h with h | ⟨rfl, rfl⟩
  · have hk : s.isKnown = true := by
      by_contra hk
      cases (load_of_not_isKnown (Bool.eq_false_iff.mpr hk)).symm.trans h
    obtain rfl := Except.ok.inj ((load_of_isKnown hk hl ho).symm.trans h)
    exact ⟨rfl, rfl, rfl⟩
  · exact ⟨rfl, rfl, rfl⟩

/-- What describes no list has the type of what it describes, and no elements. -/
theorem of_not_isList (h : Describes s schema) (hl : s.isList = false) :
    schema.type = s.type ∧ schema.element? = none := by
  rw [type_of_not_isList hl]
  cases ho : s.isObject with
  | true =>
    obtain ⟨table, rfl, _⟩ := h.object ho
    obtain ⟨name, hname, hkind⟩ := isOneOf_iff.mp ho
    rw [List.mem_singleton.mp hname] at hkind
    exact ⟨by simp [plainType, isOneOf, hkind, Schema.type, Schema.declared], rfl⟩
  | false =>
    obtain ⟨htype, helement, _⟩ := h.plain hl ho
    exact ⟨htype, helement⟩

/-- What describes a specification has its type. -/
theorem type_eq (h : Describes s schema) : schema.type = s.type := by
  induction s using induct_parts generalizing schema with
  | h s ih =>
    cases hl : s.isList with
    | false => exact (h.of_not_isList hl).1
    | true =>
      obtain ⟨element, rfl, he⟩ := h.list hl
      rw [type_of_isList hl, Schema.type]
      congr 1
      cases hs : s.element? with
      | none =>
        rw [hs] at he
        exact (he.of_not_isList rfl).1
      | some p =>
        rw [hs] at he
        refine ih p ?_ he
        rw [parts_of_isList hl, hs]
        exact List.mem_singleton_self p

/-- What is loaded under a name describes what stands under the name. -/
theorem lookup {entries : List (String × Spec)} {table : List (String × Schema)}
    (h : List.Forall₂ (fun e p ↦ e.1 = p.1 ∧ e.2.load = .ok p.2) entries table) (name : String) :
    Describes ((entries.lookup name).getD Spec.nothing)
      (Schema.declaredProperty table name) := by
  rw [Schema.declaredProperty]
  induction h with
  | nil => exact nothing
  | @cons e p _ _ head _ ih =>
    obtain ⟨key, spec⟩ := e
    obtain ⟨_, loaded⟩ := p
    obtain ⟨rfl, hload⟩ := head
    rw [List.lookup_cons, List.lookup_cons]
    cases name == key with
    | true => exact .inl hload
    | false => exact ih

/-- Properties of what describes an object describe the properties of the object. -/
theorem declared (h : Describes s schema) (name : String) :
    Describes (s.declared name) (Schema.declaredProperty schema.properties name) := by
  rw [Spec.declared]
  cases ho : s.isObject with
  | true =>
    obtain ⟨table, rfl, ht⟩ := h.object ho
    exact lookup ht name
  | false =>
    have hp : schema.properties = [] := by
      cases hl : s.isList with
      | true =>
        obtain ⟨element, rfl, _⟩ := h.list hl
        rfl
      | false => exact (h.plain hl ho).2.2
    rw [hp]
    exact nothing

/-- A segment leads from what describes a specification to what describes the part that the segment
leads to. -/
theorem property (h : Describes s schema) (name : String) :
    Describes (s.property name) (schema.property name) := by
  rw [Spec.property]
  split
  · next hempty =>
    have hproperty : schema.property name = .undeclared := by
      rw [hempty]
      cases schema <;> rfl
    rw [hproperty]
    exact nothing
  · next hname =>
    have hname' : ¬ name.isEmpty = true := by simpa using hname
    cases hl : s.isList with
    | true =>
      obtain ⟨element, rfl, he⟩ := h.list hl
      rw [Schema.property, if_neg hname', if_pos rfl]
      split
      · exact .inl rfl
      · simp only [Bool.or_eq_true, beq_iff_eq]
        split
        · exact he
        · exact he.declared name
    | false =>
      have hproperty : schema.property name =
          Schema.declaredProperty schema.properties name := by
        have helement := (h.of_not_isList hl).2
        cases schema with
        | list => cases helement
        | _ => exact if_neg hname'
      rw [hproperty]
      exact h.declared name

/-- A path leads to what describes what it leads to in the specification. -/
theorem follow (h : Describes s schema) (path : List String) :
    Describes (s.follow path) (schema.follow path) := by
  induction path generalizing s schema with
  | nil => exact h
  | cons name path ih => exact ih (h.property name)

end Describes

/-! ### Failures -/

/-- Where nothing declares the reserved name or has a list or a dictionary as its kind, the failure
is a malformed kind exactly if something is of no known kind. -/
theorem exists_malformed_iff
    (hplain : ∀ q, s.Reaches q → q.declaresReserved = false ∧ q.isUnhashable = false) :
    (∃ fault problem, s.load = .error fault ∧ fault.problem? = some problem ∧
      problem.category = .malformed) ↔ ∃ q, s.Reaches q ∧ q.isKnown = false := by
  constructor
  · rintro ⟨fault, problem, hload, -, -⟩
    obtain ⟨q, hr, hfault⟩ := exists_fault_of_error hload
    refine ⟨q, hr, ?_⟩
    rw [fault?, (hplain q hr).1] at hfault
    by_contra hk
    rw [Bool.not_eq_false] at hk
    rw [if_pos hk] at hfault
    cases hfault
  · rintro ⟨q, hr, hk⟩
    cases hs : s.load with
    | ok schema =>
      have hnone := fault?_of_reaches hs hr
      rw [fault?, hk] at hnone
      cases hnone
    | error fault =>
      obtain ⟨q', hr', hfault⟩ := exists_fault_of_error hs
      obtain ⟨hreserved, hhashable⟩ := hplain q' hr'
      rw [fault?, hreserved, hhashable] at hfault
      split at hfault
      · cases hfault
      · obtain rfl := Option.some.inj hfault
        exact ⟨_, _, rfl, rfl, rfl⟩

/-- Loading fails with the first fault of the specifications that count, in the order in which they
are done with. If none of them declares the reserved name or has a list or a dictionary as its kind,
the failure is a malformed kind exactly if one of them is of no known kind. A specification is
loaded exactly if none of them has a fault, and then every path leads from its schema to one of the
type of the specification that the path leads to. -/
theorem load_reads (s : Spec) :
    (∀ fault, s.load = .error fault ↔ s.inOrder.findSome? fault? = some fault) ∧
    ((∀ q, s.Reaches q → q.declaresReserved = false ∧ q.isUnhashable = false) →
      ((∃ fault problem, s.load = .error fault ∧ fault.problem? = some problem ∧
        problem.category = .malformed) ↔ ∃ q, s.Reaches q ∧ q.isKnown = false)) ∧
    ((∃ schema, s.load = .ok schema ∧ ∀ path, (schema.follow path).type = (s.follow path).type) ↔
      ∀ q, s.Reaches q → q.fault? = none) := by
  refine ⟨fun fault ↦ load_eq_error_iff, exists_malformed_iff, ?_, ?_⟩
  · rintro ⟨schema, hs, -⟩ q hr
    exact fault?_of_reaches hs hr
  · intro hnone
    cases hs : s.load with
    | ok schema =>
      have hdescribes : Describes s schema := .inl hs
      exact ⟨schema, rfl, fun path ↦ (hdescribes.follow path).type_eq⟩
    | error fault =>
      obtain ⟨q, hr, hfault⟩ := exists_fault_of_error hs
      cases hfault.symm.trans (hnone q hr)

/-- The specification of an object with one property. -/
private def single (name : String) (spec : Spec) : Spec := mk none (some [(name, spec)]) none

/-- The specification of a kind. -/
private def ofKind (kind : Literal) : Spec := mk (some kind) none none

/-- A resource with a list of blocks. The elements of its name, which is no list, do not count. -/
private def resource : Spec :=
  .mk none (some [("name", .mk (some (.str "string")) none (some (ofKind (.int 1)))),
    ("blocks", .mk (some (.str "list")) none (some (.mk none
      (some [("size", ofKind (.str "int")), ("tags", ofKind (.str "set"))]) none)))]) none

/-- The paths of a resource lead to the types that its specification gives, with an index or without
one, and to the length of a list. Tuples cannot be loaded, and are reported before the reserved name
of the object that they are a property of. -/
theorem load_reads_resource :
    (∀ q, resource.Reaches q → q.fault? = none) ∧
    (∃ schema, resource.load = .ok schema ∧
      (schema.follow ["blocks", "0", "size"]).type = Ty.number ∧
      (schema.follow ["blocks", "tags"]).type = Ty.unknown.listOf ∧
      (schema.follow ["blocks", "#"]).type = Ty.number ∧
      (schema.follow ["blocks", "tags", "size"]).type = Ty.unknown) ∧
    (single "cls" (ofKind (.str "tuple"))).load = .error (.unknownKind (.str "tuple")) := by
  have hnone (q : Spec) (hq : resource.Reaches q) : q.fault? = none := fault?_of_reaches rfl hq
  obtain ⟨schema, hload, hpaths⟩ := (load_reads resource).2.2.mpr hnone
  refine ⟨hnone, ⟨schema, hload, ?_, ?_, ?_, ?_⟩, ((load_reads _).1 _).mpr rfl⟩
  · exact (hpaths _).trans (by decide)
  · exact (hpaths _).trans (by decide)
  · exact (hpaths _).trans (by decide)
  · exact (hpaths _).trans (by decide)

/-- An object with a property `cls` of strings has known kinds only, and cannot be loaded; and what
has a list as its kind is of no known kind, but is not reported as malformed. -/
theorem not_malformed_iff :
    ((∀ q, (single "cls" (ofKind (.str "string"))).Reaches q → q.isKnown = true) ∧
      (single "cls" (ofKind (.str "string"))).load = .error .reservedName) ∧
    (ofKind (.list [.str "list"])).isKnown = false ∧
      ∀ fault, (ofKind (.list [.str "list"])).load = .error fault → fault.problem? = none := by
  refine ⟨⟨fun q hq ↦ ?_, rfl⟩, rfl, ?_⟩
  · have hall : ((single "cls" (ofKind (.str "string"))).inOrder.all isKnown) = true := by decide
    exact List.all_eq_true.mp hall q (mem_inOrder_iff.mpr hq)
  · rintro fault hload
    obtain rfl := Except.error.inj hload
    rfl

end Spec
end Hil
