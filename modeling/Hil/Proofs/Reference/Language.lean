import Hil.Proofs.Reference.Segment
import Hil.Reference.Parser
import Mathlib.Data.List.Induction
import Mathlib.Data.Nat.Digits.Defs

/-!
# The language of references

The segments of a reference spell its target: a keyword in the first position selects the kind, and
any other name there begins a resource. The reader accepts exactly the texts whose segments spell
something, and returns what they spell.
-/

namespace Hil

/-- The first segments that do not begin a managed resource. -/
def keywords : List String :=
  ["count", "path", "self", "terraform", "var", "local", "module", "data"]

/-- The number that a run of digits denotes. -/
def numberOf (s : String) : Nat :=
  Nat.ofDigits 10 (s.toList.map fun c ↦ c.toNat - '0'.toNat).reverse

/-- The segments after the name of a resource select instances and spell an attribute. -/
inductive Selects : List String → Selection → String → Prop
  | splat {rest : List String} (more : rest ≠ []) (valid : ∀ s ∈ rest, IsSegment s) :
      Selects ("*" :: rest) .splat (joinDots rest)
  | index {n : String} {rest : List String} (integer : IsInteger n) (more : rest ≠ [])
      (valid : ∀ s ∈ rest, IsSegment s) :
      Selects (n :: rest) (.index (numberOf n)) (joinDots rest)
  | named {n : String} {rest : List String} (name : IsName n) (valid : ∀ s ∈ rest, IsSegment s) :
      Selects (n :: rest) .plain (joinDots (n :: rest))
  | last {s : String} (token : IsInteger s ∨ s = "*") : Selects [s] .plain s

/-- The segments of a reference spell a target. -/
inductive Spells : List String → Target → Prop
  | count {field : List String} (more : field ≠ []) (valid : ∀ s ∈ field, IsSegment s) :
      Spells ("count" :: field) (.count (decide (joinDots field = "index")))
  | path {field : List String} (more : field ≠ []) (valid : ∀ s ∈ field, IsSegment s) :
      Spells ("path" :: field) (.path (joinDots field))
  | self {field : List String} (more : field ≠ []) (valid : ∀ s ∈ field, IsSegment s) :
      Spells ("self" :: field) (.self (joinDots field))
  | terraform {field : List String} (more : field ≠ []) (valid : ∀ s ∈ field, IsSegment s) :
      Spells ("terraform" :: field) (.terraform (joinDots field))
  | user {n : String} {element : List String} (name : IsName n)
      (valid : ∀ s ∈ element, IsSegment s) :
      Spells ("var" :: n :: element) (.user n (joinDots element))
  | local {n : String} (name : IsName n) : Spells ["local", n] (.local n)
  | module {n : String} {field : List String} (name : IsName n) (more : field ≠ [])
      (valid : ∀ s ∈ field, IsSegment s) :
      Spells ("module" :: n :: field) (.module n (joinDots field))
  | data {type n field : String} {rest : List String} {selection : Selection}
      (typeName : IsName type) (name : IsName n) (selects : Selects rest selection field) :
      Spells ("data" :: type :: n :: rest) (.resource ⟨.data, type, n⟩ selection field)
  | managed {type n field : String} {rest : List String} {selection : Selection}
      (typeName : IsName type) (other : type ∉ keywords) (name : IsName n)
      (selects : Selects rest selection field) :
      Spells (type :: n :: rest) (.resource ⟨.managed, type, n⟩ selection field)

variable {segments : List String} {s head text : String} {reference : Reference} {target : Target}

/-! ### Numbers -/

/-- Reading digits from the left gives the number that they denote. -/
theorem valueOf_eq_numberOf (s : String) : Decimal.valueOf s.toList = numberOf s := by
  have h (cs : List Char) : Decimal.valueOf cs =
      Nat.ofDigits 10 (cs.map fun c ↦ c.toNat - '0'.toNat).reverse := by
    induction cs using List.reverseRecOn with
    | nil => rfl
    | append_singleton cs c ih =>
      rw [Decimal.valueOf, List.foldl_append, List.map_append, List.reverse_append,
        ← Decimal.valueOf, ih]
      simp [Nat.ofDigits_cons, Nat.mul_comm, Nat.add_comm]
  exact h s.toList

/-! ### Forms -/

/-- The segment is a token of one of the classes. -/
def HasClass (classes : List TokenClass) (s : String) : Prop :=
  ∃ cls ∈ classes, tokenClass? s.toList = some cls

/-- The segments after the first have the required classes, and more follow only if they may. -/
def Fits (isOpen : Bool) : List (List TokenClass) → List String → Prop
  | [], segments => (∀ s ∈ segments, IsSegment s) ∧ (isOpen = false → segments = [])
  | _ :: _, [] => False
  | classes :: required, s :: segments => HasClass classes s ∧ Fits isOpen required segments

/-- A segment is a token of the classes exactly if it has no fault for them. -/
theorem hasClass_iff {classes : List TokenClass} :
    HasClass classes s ↔ tokenFault? classes s.toList = none := tokenFault?_eq_none_iff.symm

/-- The tokens of any class are the segments. -/
theorem hasClass_any_iff : HasClass anyToken s ↔ IsSegment s := by
  rw [isSegment_iff, HasClass]
  constructor
  · rintro ⟨cls, _, h⟩
    exact ⟨cls, h⟩
  · rintro ⟨cls, h⟩
    exact ⟨cls, by cases cls <;> simp [anyToken], h⟩

/-- The tokens of the class of names are the names. -/
theorem hasClass_name_iff : HasClass [.name] s ↔ IsName s := by
  simp [HasClass, tokenClass?_eq_name_iff]

private theorem not_isSegment_empty : ¬IsSegment "" := by
  rw [isSegment_iff]
  rintro ⟨cls, h⟩
  cases h

/-- Segments have no fault exactly if they fit the form. -/
theorem faultColumn?_eq_none_iff {required : List (List TokenClass)} {isOpen : Bool}
    {last start : Nat} :
    faultColumn? required isOpen last start (segments.map String.toList) = none ↔
      Fits isOpen required segments := by
  induction segments generalizing required last start with
  | nil => cases required <;> simp [faultColumn?, Fits]
  | cons s segments ih =>
    have hempty : (s.toList.isEmpty && (segments.map String.toList).isEmpty) = true →
        s = "" := by
      intro h
      rw [Bool.and_eq_true, List.isEmpty_iff] at h
      exact String.toList_inj.mp h.1
    rw [List.map_cons, faultColumn?]
    cases required with
    | nil =>
      cases isOpen with
      | false => simp [Fits]
      | true =>
        rw [if_neg (by simp)]
        split
        · next h =>
          rw [hempty h]
          simp [Fits, not_isSegment_empty]
        · have hfits : Fits true [] (s :: segments) ↔
              tokenFault? anyToken s.toList = none ∧ Fits true [] segments := by
            rw [← hasClass_iff, hasClass_any_iff]
            simp [Fits]
          rw [hfits, List.headD_nil, List.tail_nil]
          cases tokenFault? anyToken s.toList <;> simp [ih]
    | cons classes required =>
      rw [if_neg (by simp)]
      split
      · next h =>
        have hs := hempty h
        subst hs
        simp only [reduceCtorEq, Fits, false_iff, not_and]
        rintro ⟨cls, _, h⟩
        cases h
      · rw [Fits, hasClass_iff, List.headD_cons, List.tail_cons]
        cases tokenFault? classes s.toList <;> simp [ih]

/-! ### Targets -/

/-- The attribute that segments spell is what is read from them. -/
theorem selects_iff {selection : Selection} {field : String} :
    Selects segments selection field ↔
      Fits true [[.name, .int, .splat]] segments ∧ attributeOf segments = (selection, field) := by
  constructor
  · intro h
    cases h with
    | @splat rest more valid =>
      obtain ⟨s, rest, rfl⟩ := List.exists_cons_of_ne_nil more
      refine ⟨⟨⟨.splat, by simp, rfl⟩, valid, nofun⟩, ?_⟩
      have hc : tokenClass? "*".toList = some .splat := rfl
      rw [attributeOf, hc]
    | @index n rest integer more valid =>
      obtain ⟨s, rest, rfl⟩ := List.exists_cons_of_ne_nil more
      have hc := tokenClass?_eq_int_iff.mpr integer
      refine ⟨⟨⟨.int, by simp, hc⟩, valid, nofun⟩, ?_⟩
      rw [attributeOf, hc, valueOf_eq_numberOf]
    | @named n rest name valid =>
      have hc := tokenClass?_eq_name_iff.mpr name
      refine ⟨⟨⟨.name, by simp, hc⟩, valid, nofun⟩, ?_⟩
      cases rest with
      | nil => rfl
      | cons s rest => rw [attributeOf, hc]
    | last token =>
      refine ⟨⟨?_, nofun, nofun⟩, by simp [attributeOf, joinDots]⟩
      rcases token with integer | rfl
      · exact ⟨.int, by simp, tokenClass?_eq_int_iff.mpr integer⟩
      · exact ⟨.splat, by simp, rfl⟩
  · rintro ⟨hfits, ha⟩
    cases segments with
    | nil => cases hfits
    | cons first rest =>
      obtain ⟨⟨cls, hmem, hc⟩, valid, _⟩ := hfits
      cases rest with
      | nil =>
        simp only [attributeOf, joinDots, String.intercalate_singleton, Prod.mk.injEq] at ha
        obtain ⟨rfl, rfl⟩ := ha
        cases cls with
        | name =>
          have h := Selects.named (tokenClass?_eq_name_iff.mp hc) valid
          rwa [joinDots, String.intercalate_singleton] at h
        | int => exact .last (.inl (tokenClass?_eq_int_iff.mp hc))
        | splat => exact .last (.inr (tokenClass?_eq_splat_iff.mp hc))
        | hash => simp at hmem
      | cons second rest =>
        rw [attributeOf, hc] at ha
        cases cls with
        | name =>
          cases ha
          exact .named (tokenClass?_eq_name_iff.mp hc) valid
        | int =>
          cases ha
          rw [valueOf_eq_numberOf]
          exact .index (tokenClass?_eq_int_iff.mp hc) (List.cons_ne_nil _ _) valid
        | splat =>
          cases ha
          obtain rfl := tokenClass?_eq_splat_iff.mp hc
          exact .splat (List.cons_ne_nil _ _) valid
        | hash => simp at hmem

/-- The form of a resource, whose type is no keyword. -/
theorem formOf_other (h : head ∉ keywords) :
    formOf head = ⟨[[.name], [.name, .int, .splat]], true⟩ := by
  simp only [keywords, List.mem_cons, not_or] at h
  unfold formOf
  split <;> simp_all

private theorem targetOf_other (h : head ∉ keywords) (name : String) (rest : List String) :
    targetOf head (name :: rest) =
      .resource ⟨.managed, head, name⟩ (attributeOf rest).1 (attributeOf rest).2 := by
  simp only [keywords, List.mem_cons, not_or] at h
  unfold targetOf
  split <;> simp_all

/-- The keywords are names. -/
theorem isName_of_mem_keywords (h : head ∈ keywords) : IsName head := by
  simp only [keywords, List.mem_cons, List.not_mem_nil, or_false] at h
  rcases h with rfl | rfl | rfl | rfl | rfl | rfl | rfl | rfl <;>
    exact tokenClass?_eq_name_iff.mp rfl

private theorem fits_any_iff :
    Fits true [anyToken] segments ↔ segments ≠ [] ∧ ∀ s ∈ segments, IsSegment s := by
  cases segments <;> simp [Fits, hasClass_any_iff]

private theorem fits_name_iff {isOpen : Bool} {required : List (List TokenClass)} :
    Fits isOpen ([.name] :: required) segments ↔
      ∃ n rest, segments = n :: rest ∧ IsName n ∧ Fits isOpen required rest := by
  cases segments with
  | nil => simp [Fits]
  | cons n rest => simp [Fits, hasClass_name_iff, and_assoc]

/-- What segments spell is the target that their form gives them. -/
theorem spells_iff : Spells (head :: segments) target ↔
    IsName head ∧ Fits (formOf head).isOpen (formOf head).required segments ∧
      targetOf head segments = target := by
  constructor
  · intro h
    cases h with
    | count more valid =>
      exact ⟨isName_of_mem_keywords (by simp [keywords]), fits_any_iff.mpr ⟨more, valid⟩, rfl⟩
    | path more valid =>
      exact ⟨isName_of_mem_keywords (by simp [keywords]), fits_any_iff.mpr ⟨more, valid⟩, rfl⟩
    | self more valid =>
      exact ⟨isName_of_mem_keywords (by simp [keywords]), fits_any_iff.mpr ⟨more, valid⟩, rfl⟩
    | terraform more valid =>
      exact ⟨isName_of_mem_keywords (by simp [keywords]), fits_any_iff.mpr ⟨more, valid⟩, rfl⟩
    | user name valid =>
      exact ⟨isName_of_mem_keywords (by simp [keywords]),
        fits_name_iff.mpr ⟨_, _, rfl, name, valid, nofun⟩, rfl⟩
    | «local» name =>
      exact ⟨isName_of_mem_keywords (by simp [keywords]),
        fits_name_iff.mpr ⟨_, _, rfl, name, nofun, fun _ ↦ rfl⟩, rfl⟩
    | module name more valid =>
      exact ⟨isName_of_mem_keywords (by simp [keywords]),
        fits_name_iff.mpr ⟨_, _, rfl, name, fits_any_iff.mpr ⟨more, valid⟩⟩, rfl⟩
    | data typeName name selects =>
      obtain ⟨hfits, ha⟩ := selects_iff.mp selects
      refine ⟨isName_of_mem_keywords (by simp [keywords]),
        fits_name_iff.mpr ⟨_, _, rfl, typeName, fits_name_iff.mpr ⟨_, _, rfl, name, hfits⟩⟩, ?_⟩
      simp [targetOf, ha]
    | managed typeName other name selects =>
      obtain ⟨hfits, ha⟩ := selects_iff.mp selects
      refine ⟨typeName, ?_, ?_⟩
      · rw [formOf_other other]
        exact fits_name_iff.mpr ⟨_, _, rfl, name, hfits⟩
      · rw [targetOf_other other, ha]
  · rintro ⟨hname, hfits, rfl⟩
    by_cases hk : head ∈ keywords
    · simp only [keywords, List.mem_cons, List.not_mem_nil, or_false] at hk
      rcases hk with rfl | rfl | rfl | rfl | rfl | rfl | rfl | rfl
      · obtain ⟨more, valid⟩ := fits_any_iff.mp hfits
        exact .count more valid
      · obtain ⟨more, valid⟩ := fits_any_iff.mp hfits
        exact .path more valid
      · obtain ⟨more, valid⟩ := fits_any_iff.mp hfits
        exact .self more valid
      · obtain ⟨more, valid⟩ := fits_any_iff.mp hfits
        exact .terraform more valid
      · obtain ⟨n, element, rfl, name, valid, _⟩ := fits_name_iff.mp hfits
        exact .user name valid
      · obtain ⟨n, rest, rfl, name, _, closed⟩ := fits_name_iff.mp hfits
        obtain rfl := closed rfl
        exact .local name
      · obtain ⟨n, field, rfl, name, hfits⟩ := fits_name_iff.mp hfits
        obtain ⟨more, valid⟩ := fits_any_iff.mp hfits
        exact .module name more valid
      · obtain ⟨type, rest, rfl, typeName, hfits⟩ := fits_name_iff.mp hfits
        obtain ⟨n, rest, rfl, name, hfits⟩ := fits_name_iff.mp hfits
        exact .data typeName name (selects_iff.mpr ⟨hfits, rfl⟩)
    · rw [formOf_other hk] at hfits
      obtain ⟨n, rest, rfl, name, hfits⟩ := fits_name_iff.mp hfits
      rw [targetOf_other hk]
      exact .managed hname hk name (selects_iff.mpr ⟨hfits, rfl⟩)

/-! ### Reading -/

/-- A text that holds the separator has at least two runs. -/
theorem exists_runs_of_mem {sep : Char} {cs : List Char} (h : sep ∈ cs) :
    ∃ first second runs, Text.splitAt sep cs = first :: second :: runs := by
  have hall := Text.intercalate_splitAt sep cs
  cases hruns : Text.splitAt sep cs with
  | nil => exact absurd hruns (Text.splitAt_ne_nil sep cs)
  | cons first runs =>
    cases runs with
    | nil =>
      have hcs : first = cs := by simpa [hruns] using hall
      have hmem : first ∈ Text.splitAt sep cs := by simp [hruns]
      exact absurd (hcs ▸ h) (Text.not_mem_of_mem_splitAt hmem)
    | cons second runs => exact ⟨first, second, runs, rfl⟩

/-- Segments have no fault exactly if the first is a name and the others fit the form it selects. -/
theorem referenceFault?_eq_none_iff :
    referenceFault? ((head :: segments).map String.toList) = none ↔
      IsName head ∧ Fits (formOf head).isOpen (formOf head).required segments := by
  rw [← hasClass_name_iff, hasClass_iff, List.map_cons, referenceFault?, String.ofList_toList,
    ← @faultColumn?_eq_none_iff _ _ _ 0 (head.toList.length + 1)]
  cases tokenFault? [.name] head.toList <;> simp

namespace Reference

/-- A text with a dot is read exactly if its segments spell a target, which is then the result. -/
theorem read_eq_ok_iff (h : '.' ∈ text.toList) :
    Reference.read text = .ok reference ↔
      reference.text = text ∧ Spells (segmentsOf text) reference.target := by
  obtain ⟨first, second, runs, hruns⟩ := exists_runs_of_mem h
  have hsegments : segmentsOf text = String.ofList first :: (second :: runs).map String.ofList := by
    rw [segmentsOf, hruns, List.map_cons]
  have hback : (segmentsOf text).map String.toList = first :: second :: runs := by
    rw [hsegments]
    simp [Function.comp_def]
  have hread : Reference.read text = .ok reference ↔
      referenceFault? (first :: second :: runs) = none ∧
        ⟨text, targetOf (String.ofList first) ((second :: runs).map String.ofList)⟩ =
          reference := by
    rw [Reference.read, hruns]
    cases referenceFault? (first :: second :: runs) <;> simp
  have hfault := @referenceFault?_eq_none_iff ((second :: runs).map String.ofList)
    (String.ofList first)
  rw [← hsegments, hback] at hfault
  rw [hread, hsegments, spells_iff, ← and_assoc (a := IsName _), ← hfault]
  cases hf : referenceFault? (first :: second :: runs) with
  | some column => simp
  | none =>
    rw [eq_self, true_and, true_and]
    constructor
    · rintro rfl
      exact ⟨rfl, rfl⟩
    · rintro ⟨htext, ht⟩
      rw [← htext, ht]

/-- An integer before other segments selects the instance of its number. -/
theorem read_eq_ok_instance :
    '.' ∈ "aws_instance.web.07.var".toList ∧
      Reference.read "aws_instance.web.07.var" = .ok ⟨"aws_instance.web.07.var",
        .resource ⟨.managed, "aws_instance", "web"⟩ (.index 7) "var"⟩ := by
  have hdot : '.' ∈ "aws_instance.web.07.var".toList := by decide
  have hspells : Spells ["aws_instance", "web", "07", "var"]
      (.resource ⟨.managed, "aws_instance", "web"⟩ (.index 7) "var") := by
    have hvar : IsSegment "var" := .inl (tokenClass?_eq_name_iff.mp rfl)
    refine .managed ?_ (by decide) ?_ (@Selects.index "07" ["var"] ?_ ?_ ?_)
    · exact tokenClass?_eq_name_iff.mp rfl
    · exact tokenClass?_eq_name_iff.mp rfl
    · exact tokenClass?_eq_int_iff.mp rfl
    · exact List.cons_ne_nil _ _
    · simpa using hvar
  exact ⟨hdot, (read_eq_ok_iff hdot).mpr ⟨rfl, hspells⟩⟩

end Reference

end Hil
