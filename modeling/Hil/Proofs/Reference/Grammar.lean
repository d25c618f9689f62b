import Hil.Proofs.Reference.Resource
import Mathlib.Data.List.Forall2

/-!
# The grammar of references

The references with a dot are given by a grammar, whose rules stand here as data under their names
and in their notation. A terminal is a keyword, a dot or a token of a class. A keyword is read at the
start of a text only, and there it is no name; everywhere else it is one. The forms by which
references are read accept exactly the texts of the grammar.
-/

namespace Hil.Grammar

/-- What the lexer reads. -/
inductive Terminal where
  | keyword (word : String)
  | dot
  | token (cls : TokenClass)
  deriving DecidableEq

/-- The names of the rules. -/
inductive Rule where
  | start
  | countRef
  | pathRef
  | selfRef
  | terraformRef
  | userRef
  | localRef
  | moduleRef
  | dataRef
  | resourceRef
  | resourceField
  | field
  | segment
  deriving DecidableEq

/-- What a rule is made of. -/
inductive Item where
  | terminal (t : Terminal)
  | rule (r : Rule)
  /-- Items that may be left out, as in `("." field)?`. -/
  | optional (items : List Item)
  /-- Items any number of times, as in `("." segment)*`. -/
  | many (items : List Item)

namespace Item

/-- A keyword. -/
def word (s : String) : Item := terminal (.keyword s)

/-- The terminal `"."`. -/
def dot : Item := terminal .dot

/-- The terminal `NAME`. -/
def name : Item := terminal (.token .name)

/-- The terminal `INT`. -/
def int : Item := terminal (.token .int)

/-- The terminal `SPLAT`. -/
def splat : Item := terminal (.token .splat)

/-- The terminal `HASH`. -/
def hash : Item := terminal (.token .hash)

end Item

/-- The alternatives of a rule. -/
def alternatives : Rule → List (List Item)
  | .start => [[.rule .countRef], [.rule .pathRef], [.rule .selfRef], [.rule .terraformRef],
      [.rule .userRef], [.rule .localRef], [.rule .moduleRef], [.rule .dataRef],
      [.rule .resourceRef]]
  | .countRef => [[.word "count", .dot, .rule .field]]
  | .pathRef => [[.word "path", .dot, .rule .field]]
  | .selfRef => [[.word "self", .dot, .rule .field]]
  | .terraformRef => [[.word "terraform", .dot, .rule .field]]
  | .userRef => [[.word "var", .dot, .name, .optional [.dot, .rule .field]]]
  | .localRef => [[.word "local", .dot, .name]]
  | .moduleRef => [[.word "module", .dot, .name, .dot, .rule .field]]
  | .dataRef => [[.word "data", .dot, .name, .dot, .name, .dot, .rule .resourceField]]
  | .resourceRef => [[.name, .dot, .name, .dot, .rule .resourceField]]
  | .resourceField => [[.splat, .optional [.dot, .rule .field]],
      [.int, .optional [.dot, .rule .field]], [.name, .optional [.dot, .rule .field]]]
  | .field => [[.rule .segment, .many [.dot, .rule .segment]]]
  | .segment => [[.name], [.int], [.splat], [.hash]]

/-- Items derive terminals, from the left. -/
inductive Derives : List Item → List Terminal → Prop
  | nil : Derives [] []
  | terminal {t items w} (rest : Derives items w) : Derives (.terminal t :: items) (t :: w)
  | rule {r chosen items v w} (mem : chosen ∈ alternatives r) (first : Derives chosen v)
      (rest : Derives items w) : Derives (.rule r :: items) (v ++ w)
  | skip {chosen items w} (rest : Derives items w) : Derives (.optional chosen :: items) w
  | take {chosen items v w} (first : Derives chosen v) (rest : Derives items w) :
      Derives (.optional chosen :: items) (v ++ w)
  | stop {chosen items w} (rest : Derives items w) : Derives (.many chosen :: items) w
  | again {chosen items v w} (first : Derives chosen v) (rest : Derives (.many chosen :: items) w) :
      Derives (.many chosen :: items) (v ++ w)

/-- The texts from which the lexer reads a terminal, at the start of a reference or after it. -/
def Terminal.Reads (atStart : Bool) (s : String) : Terminal → Prop
  | keyword word => atStart = true ∧ s = word
  | dot => s = "."
  | token .name => IsName s ∧ (atStart = true → s ∉ keywords)
  | token .int => IsInteger s
  | token .splat => s = "*"
  | token .hash => s = "#"

/-- The lexer reads terminals from a text. That tokens reach as far as they can need not be said,
since the rules put a dot after every token but the last. -/
inductive Lexes : Bool → List Char → List Terminal → Prop
  | nil {atStart} : Lexes atStart [] []
  | cons {atStart s t cs w} (first : Terminal.Reads atStart s t) (rest : Lexes false cs w) :
      Lexes atStart (s.toList ++ cs) (t :: w)

/-- The text is one of the grammar. -/
def Generates (text : String) : Prop :=
  ∃ w, Lexes true text.toList w ∧ Derives [.rule .start] w

variable {r : Rule} {items chosen : List Item} {w : List Terminal} {head : Terminal} {form : Form}
  {isOpen : Bool} {required : List (List TokenClass)} {cls : TokenClass}
  {classes : List TokenClass} {cs : List Char} {segments : List String} {s text : String}

/-! ### Rules -/

private theorem derives_nil_iff : Derives [] w ↔ w = [] :=
  ⟨fun h ↦ by cases h; rfl, fun h ↦ h ▸ .nil⟩

private theorem derives_terminal_iff :
    Derives (.terminal head :: items) w ↔ ∃ v, Derives items v ∧ w = head :: v := by
  constructor
  · rintro ⟨⟩
    exact ⟨_, ‹_›, rfl⟩
  · rintro ⟨v, hv, rfl⟩
    exact .terminal hv

private theorem derives_rule_iff :
    Derives [.rule r] w ↔ ∃ chosen ∈ alternatives r, Derives chosen w := by
  constructor
  · rintro (_ | _ | ⟨hmem, hfirst, hrest⟩)
    obtain rfl := derives_nil_iff.mp hrest
    rw [List.append_nil]
    exact ⟨_, hmem, hfirst⟩
  · rintro ⟨chosen, hmem, hfirst⟩
    simpa using Derives.rule hmem hfirst .nil

private theorem derives_segment_iff :
    Derives (.rule .segment :: items) w ↔ ∃ cls v, Derives items v ∧ w = .token cls :: v := by
  constructor
  · rintro (_ | _ | @⟨_, chosen, _, v, v', hmem, hfirst, hrest⟩)
    have hchosen : ∃ cls, chosen = [.terminal (.token cls)] := by
      simp only [alternatives, List.mem_cons, List.not_mem_nil, or_false] at hmem
      rcases hmem with rfl | rfl | rfl | rfl
      · exact ⟨.name, rfl⟩
      · exact ⟨.int, rfl⟩
      · exact ⟨.splat, rfl⟩
      · exact ⟨.hash, rfl⟩
    obtain ⟨cls, rfl⟩ := hchosen
    obtain ⟨_, hnil, rfl⟩ := derives_terminal_iff.mp hfirst
    obtain rfl := derives_nil_iff.mp hnil
    exact ⟨cls, v', hrest, rfl⟩
  · rintro ⟨cls, v, hv, rfl⟩
    have hmem : [Item.terminal (.token cls)] ∈ alternatives .segment := by
      cases cls <;> simp [alternatives, Item.name, Item.int, Item.splat, Item.hash]
    exact Derives.rule hmem (.terminal .nil) hv

/-- Tokens, each after a dot. -/
def dotted (classes : List TokenClass) : List Terminal :=
  classes.flatMap fun cls ↦ [.dot, .token cls]

private theorem derives_segments_iff :
    Derives [.many [.dot, .rule .segment]] w ↔ ∃ classes, w = dotted classes := by
  constructor
  · intro h
    generalize hitems : [Item.many [.dot, .rule .segment]] = items at h
    induction h with
    | stop hrest =>
      cases hitems
      exact ⟨[], derives_nil_iff.mp hrest⟩
    | again hfirst _ _ ih =>
      cases hitems
      obtain ⟨_, hv, rfl⟩ := derives_terminal_iff.mp hfirst
      obtain ⟨cls, _, hnil, rfl⟩ := derives_segment_iff.mp hv
      obtain rfl := derives_nil_iff.mp hnil
      obtain ⟨classes, rfl⟩ := ih rfl
      exact ⟨cls :: classes, rfl⟩
    | _ => cases hitems
  · rintro ⟨classes, rfl⟩
    induction classes with
    | nil => exact .stop .nil
    | cons cls classes ih =>
      exact .again (.terminal (derives_segment_iff.mpr ⟨cls, [], .nil, rfl⟩)) ih

/-- Tokens of the classes are required, and more may follow if the form is open. -/
def Allows (isOpen : Bool) : List (List TokenClass) → List TokenClass → Prop
  | [], classes => isOpen = false → classes = []
  | _ :: _, [] => False
  | allowed :: required, cls :: classes => cls ∈ allowed ∧ Allows isOpen required classes

/-- The items derive the tokens that a form allows, each after a dot. -/
def Follows (items : List Item) (isOpen : Bool) (required : List (List TokenClass)) : Prop :=
  ∀ w, Derives items w ↔ ∃ classes, Allows isOpen required classes ∧ w = dotted classes

private theorem follows_nil : Follows [] false [] := by
  intro w
  rw [derives_nil_iff]
  constructor
  · rintro rfl
    exact ⟨[], fun _ ↦ rfl, rfl⟩
  · rintro ⟨classes, h, rfl⟩
    rw [h rfl]
    rfl

private theorem follows_field : Follows [.dot, .rule .field] true [anyToken] := by
  intro w
  constructor
  · intro h
    obtain ⟨_, hv, rfl⟩ := derives_terminal_iff.mp h
    obtain ⟨chosen, hmem, hchosen⟩ := derives_rule_iff.mp hv
    obtain rfl := List.mem_singleton.mp hmem
    obtain ⟨cls, _, hmany, rfl⟩ := derives_segment_iff.mp hchosen
    obtain ⟨classes, rfl⟩ := derives_segments_iff.mp hmany
    exact ⟨cls :: classes, ⟨by cases cls <;> decide, nofun⟩, rfl⟩
  · rintro ⟨_ | ⟨cls, classes⟩, h, rfl⟩
    · exact h.elim
    · refine .terminal (derives_rule_iff.mpr ⟨_, List.mem_singleton_self _, ?_⟩)
      exact derives_segment_iff.mpr ⟨cls, _, derives_segments_iff.mpr ⟨classes, rfl⟩, rfl⟩

private theorem follows_optional : Follows [.optional [.dot, .rule .field]] true [] := by
  intro w
  constructor
  · rintro (_ | _ | _ | hrest | ⟨hfirst, hrest⟩)
    · obtain rfl := derives_nil_iff.mp hrest
      exact ⟨[], nofun, rfl⟩
    · obtain rfl := derives_nil_iff.mp hrest
      obtain ⟨classes, -, rfl⟩ := (follows_field _).mp hfirst
      exact ⟨classes, nofun, List.append_nil _⟩
  · rintro ⟨_ | ⟨cls, classes⟩, -, rfl⟩
    · exact .skip .nil
    · have hfield : Derives [.dot, .rule .field] (dotted (cls :: classes)) :=
        (follows_field _).mpr ⟨cls :: classes, ⟨by cases cls <;> decide, nofun⟩, rfl⟩
      simpa using Derives.take hfield .nil

/-- A token of a class may follow first. -/
theorem Follows.token (h : Follows items isOpen required) (cls : TokenClass)
    (w : List Terminal) :
    Derives (.terminal (.token cls) :: items) w ↔
      ∃ classes, Allows isOpen required classes ∧ w = .token cls :: dotted classes := by
  rw [derives_terminal_iff]
  constructor
  · rintro ⟨v, hv, rfl⟩
    obtain ⟨classes, hclasses, rfl⟩ := (h v).mp hv
    exact ⟨classes, hclasses, rfl⟩
  · rintro ⟨classes, hclasses, rfl⟩
    exact ⟨_, (h _).mpr ⟨classes, hclasses, rfl⟩, rfl⟩

private theorem Follows.name (h : Follows items isOpen required) :
    Follows (.dot :: .name :: items) isOpen ([.name] :: required) := by
  intro w
  constructor
  · intro hw
    obtain ⟨v, hv, rfl⟩ := derives_terminal_iff.mp hw
    obtain ⟨classes, hclasses, rfl⟩ := (h.token .name v).mp hv
    exact ⟨.name :: classes, ⟨List.mem_singleton_self _, hclasses⟩, rfl⟩
  · rintro ⟨_ | ⟨cls, classes⟩, hclasses, rfl⟩
    · exact hclasses.elim
    · obtain rfl := List.mem_singleton.mp hclasses.1
      exact .terminal ((h.token .name _).mpr ⟨classes, hclasses.2, rfl⟩)

private theorem follows_resourceField :
    Follows [.dot, .rule .resourceField] true [[.name, .int, .splat]] := by
  intro w
  have hchoice (v : List Terminal) : Derives [.rule .resourceField] v ↔
      ∃ cls ∈ [TokenClass.name, .int, .splat], ∃ classes, v = .token cls :: dotted classes := by
    have htoken (cls : TokenClass) := follows_optional.token cls v
    simp only [Allows, Bool.true_eq_false, false_implies, true_and] at htoken
    simp [derives_rule_iff, alternatives, Item.name, Item.int, Item.splat, htoken, or_assoc,
      or_comm, or_left_comm]
  constructor
  · intro h
    obtain ⟨v, hv, rfl⟩ := derives_terminal_iff.mp h
    obtain ⟨cls, hcls, classes, rfl⟩ := (hchoice v).mp hv
    exact ⟨cls :: classes, ⟨hcls, nofun⟩, rfl⟩
  · rintro ⟨_ | ⟨cls, classes⟩, hclasses, rfl⟩
    · exact hclasses.elim
    · exact .terminal ((hchoice _).mpr ⟨cls, hclasses.1, classes, rfl⟩)

/-- The rule derives what a form allows after a first terminal. -/
def Refers (r : Rule) (head : Terminal) (form : Form) : Prop :=
  ∀ w, Derives [.rule r] w ↔
    ∃ classes, Allows form.isOpen form.required classes ∧ w = head :: dotted classes

private theorem Follows.refers (h : Follows items form.isOpen form.required)
    (hr : alternatives r = [.terminal head :: items]) : Refers r head form := by
  intro w
  rw [derives_rule_iff, hr]
  simp only [List.mem_singleton, exists_eq_left, derives_terminal_iff]
  constructor
  · rintro ⟨v, hv, rfl⟩
    obtain ⟨classes, hclasses, rfl⟩ := (h v).mp hv
    exact ⟨classes, hclasses, rfl⟩
  · rintro ⟨classes, hclasses, rfl⟩
    exact ⟨_, (h _).mpr ⟨classes, hclasses, rfl⟩, rfl⟩

/-- The form of resources, whose type is no keyword. -/
def resourceForm : Form := ⟨[[.name], [.name, .int, .splat]], true⟩

/-- A reference begins with a keyword and goes on as its form allows, or with a name and goes on as
the form of resources allows. -/
theorem derives_start_iff : Derives [.rule .start] w ↔ ∃ head form classes,
    ((∃ word ∈ keywords, head = .keyword word ∧ form = formOf word) ∨
      head = .token .name ∧ form = resourceForm) ∧
    Allows form.isOpen form.required classes ∧ w = head :: dotted classes := by
  have hcount : Refers .countRef (.keyword "count") (formOf "count") := follows_field.refers rfl
  have hpath : Refers .pathRef (.keyword "path") (formOf "path") := follows_field.refers rfl
  have hself : Refers .selfRef (.keyword "self") (formOf "self") := follows_field.refers rfl
  have hterraform : Refers .terraformRef (.keyword "terraform") (formOf "terraform") :=
    follows_field.refers rfl
  have huser : Refers .userRef (.keyword "var") (formOf "var") := follows_optional.name.refers rfl
  have hlocal : Refers .localRef (.keyword "local") (formOf "local") := follows_nil.name.refers rfl
  have hmodule : Refers .moduleRef (.keyword "module") (formOf "module") :=
    follows_field.name.refers rfl
  have hdata : Refers .dataRef (.keyword "data") (formOf "data") :=
    follows_resourceField.name.name.refers rfl
  have hresource : Refers .resourceRef (.token .name) resourceForm :=
    follows_resourceField.name.refers rfl
  have hstart : Derives [.rule .start] w ↔ Derives [.rule .countRef] w ∨
      Derives [.rule .pathRef] w ∨ Derives [.rule .selfRef] w ∨ Derives [.rule .terraformRef] w ∨
      Derives [.rule .userRef] w ∨ Derives [.rule .localRef] w ∨ Derives [.rule .moduleRef] w ∨
      Derives [.rule .dataRef] w ∨ Derives [.rule .resourceRef] w := by
    rw [derives_rule_iff]
    simp [alternatives]
  rw [hstart, hcount, hpath, hself, hterraform, huser, hlocal, hmodule, hdata, hresource]
  simp [keywords, or_and_right, exists_or, and_assoc, or_assoc]

/-! ### Texts -/

/-- The segments are tokens of the classes. -/
def AreTokens : List String → List TokenClass → Prop :=
  List.Forall₂ fun s cls ↦ tokenClass? s.toList = some cls

private theorem exists_areTokens_iff :
    (∃ classes, AreTokens segments classes) ↔ ∀ s ∈ segments, IsSegment s := by
  induction segments with
  | nil => exact ⟨fun _ ↦ List.forall_mem_nil _, fun _ ↦ ⟨[], .nil⟩⟩
  | cons s segments ih =>
    rw [List.forall_mem_cons, ← ih, isSegment_iff]
    constructor
    · rintro ⟨_, _ | ⟨hcls, hclasses⟩⟩
      exact ⟨⟨_, hcls⟩, _, hclasses⟩
    · rintro ⟨⟨cls, hcls⟩, classes, hclasses⟩
      exact ⟨cls :: classes, .cons hcls hclasses⟩

/-- Segments fit a form exactly if they are tokens of classes that it allows. -/
theorem fits_iff : Fits isOpen required segments ↔
    ∃ classes, AreTokens segments classes ∧ Allows isOpen required classes := by
  induction required generalizing segments with
  | nil =>
    rw [Fits, ← exists_areTokens_iff]
    constructor
    · rintro ⟨⟨classes, h⟩, hclosed⟩
      refine ⟨classes, h, fun ho ↦ ?_⟩
      rw [hclosed ho] at h
      exact List.forall₂_nil_left_iff.mp h
    · rintro ⟨classes, h, hclosed⟩
      refine ⟨⟨classes, h⟩, fun ho ↦ ?_⟩
      rw [hclosed ho] at h
      exact List.forall₂_nil_right_iff.mp h
  | cons allowed required ih =>
    cases segments with
    | nil =>
      refine ⟨False.elim, ?_⟩
      rintro ⟨_, ⟨⟩, h⟩
      exact h
    | cons s segments =>
      rw [Fits, ih]
      constructor
      · rintro ⟨⟨cls, hmem, hcls⟩, classes, hclasses, hallows⟩
        exact ⟨cls :: classes, .cons hcls hclasses, hmem, hallows⟩
      · rintro ⟨_, _ | ⟨hcls, hclasses⟩, hmem, hallows⟩
        exact ⟨⟨_, hmem, hcls⟩, _, hclasses, hallows⟩

/-- After the start, a token is read from the segments of its class. -/
theorem reads_token_iff :
    Terminal.Reads false s (.token cls) ↔ tokenClass? s.toList = some cls := by
  cases cls with
  | name => simp [Terminal.Reads, tokenClass?_eq_name_iff]
  | int => exact tokenClass?_eq_int_iff.symm
  | splat => exact tokenClass?_eq_splat_iff.symm
  | hash => exact tokenClass?_eq_hash_iff.symm

/-- The text of segments, each after a dot. -/
def afterDots (segments : List String) : List Char := segments.flatMap fun s ↦ '.' :: s.toList

private theorem lexes_dotted_iff : Lexes false cs (dotted classes) ↔
    ∃ segments, AreTokens segments classes ∧ cs = afterDots segments := by
  induction classes generalizing cs with
  | nil =>
    constructor
    · rintro ⟨⟩
      exact ⟨[], .nil, rfl⟩
    · rintro ⟨_, ⟨⟩, rfl⟩
      exact .nil
  | cons cls classes ih =>
    constructor
    · rintro (_ | ⟨rfl, _ | ⟨hcls, hrest⟩⟩)
      obtain ⟨segments, hsegments, rfl⟩ := ih.mp hrest
      exact ⟨_ :: segments, .cons (reads_token_iff.mp hcls) hsegments, rfl⟩
    · rintro ⟨_, _ | ⟨hcls, hsegments⟩, rfl⟩
      have htoken := Lexes.cons (reads_token_iff.mpr hcls) (ih.mpr ⟨_, hsegments, rfl⟩)
      exact Lexes.cons (s := ".") (t := .dot) rfl htoken

private theorem splitAt_afterDots (hs : '.' ∉ s.toList)
    (hsegments : ∀ s ∈ segments, '.' ∉ s.toList) :
    Text.splitAt '.' (s.toList ++ afterDots segments) = (s :: segments).map String.toList := by
  induction segments generalizing s with
  | nil =>
    rw [afterDots, List.flatMap_nil, List.append_nil, Text.splitAt_of_not_mem hs]
    rfl
  | cons s' segments ih =>
    rw [List.forall_mem_cons] at hsegments
    rw [afterDots, List.flatMap_cons, List.cons_append, Text.splitAt_run_append hs, ← afterDots,
      ih hsegments.1 hsegments.2]
    rfl

private theorem intercalate_toList (s : String) (segments : List String) :
    ['.'].intercalate ((s :: segments).map String.toList) = s.toList ++ afterDots segments := by
  induction segments generalizing s with
  | nil => simp [afterDots]
  | cons s' segments ih =>
    rw [List.map_cons, List.map_cons, List.intercalate_cons_cons, ← List.map_cons, ih]
    simp [afterDots]

private theorem eq_afterDots_of_splitAt
    (h : Text.splitAt '.' cs = (s :: segments).map String.toList) :
    cs = s.toList ++ afterDots segments := by
  rw [← intercalate_toList, ← h, Text.intercalate_splitAt]

/-- A first segment is read as a terminal that begins a reference of its form. -/
theorem reads_start_iff : (∃ head,
    ((∃ word ∈ keywords, head = .keyword word ∧ form = formOf word) ∨
      head = .token .name ∧ form = resourceForm) ∧ Terminal.Reads true s head) ↔
    IsName s ∧ form = formOf s := by
  constructor
  · rintro ⟨_, ⟨word, hword, rfl, rfl⟩ | ⟨rfl, rfl⟩, hreads⟩
    · obtain ⟨-, rfl⟩ := hreads
      exact ⟨isName_of_mem_keywords hword, rfl⟩
    · exact ⟨hreads.1, (formOf_other (hreads.2 rfl)).symm⟩
  · rintro ⟨hname, rfl⟩
    by_cases hword : s ∈ keywords
    · exact ⟨.keyword s, .inl ⟨s, hword, rfl, rfl⟩, rfl, rfl⟩
    · exact ⟨.token .name, .inr ⟨rfl, formOf_other hword⟩, hname, fun _ ↦ hword⟩

/-- The texts of the grammar are those of a name and segments that fit its form. -/
theorem generates_iff :
    Generates text ↔ ∃ s segments, text.toList = s.toList ++ afterDots segments ∧
    IsName s ∧ Fits (formOf s).isOpen (formOf s).required segments := by
  constructor
  · rintro ⟨w, hlexes, hderives⟩
    obtain ⟨head, form, classes, hhead, hallows, rfl⟩ := derives_start_iff.mp hderives
    generalize text.toList = cs at hlexes ⊢
    cases hlexes with
    | cons first rest =>
      obtain ⟨segments, htokens, rfl⟩ := lexes_dotted_iff.mp rest
      obtain ⟨hname, rfl⟩ := reads_start_iff.mp ⟨head, hhead, first⟩
      exact ⟨_, segments, rfl, hname, fits_iff.mpr ⟨classes, htokens, hallows⟩⟩
  · rintro ⟨s, segments, htext, hname, hfits⟩
    obtain ⟨classes, htokens, hallows⟩ := fits_iff.mp hfits
    obtain ⟨head, hhead, hreads⟩ := reads_start_iff.mpr ⟨hname, rfl⟩
    have hlexes := Lexes.cons hreads (lexes_dotted_iff.mpr ⟨segments, htokens, rfl⟩)
    rw [← htext] at hlexes
    exact ⟨_, hlexes, derives_start_iff.mpr ⟨head, _, classes, hhead, hallows, rfl⟩⟩

/-- The forms find no fault in exactly the texts of the grammar. -/
theorem referenceFault?_eq_none_iff_generates :
    referenceFault? (Text.splitAt '.' text.toList) = none ↔ Generates text := by
  rw [generates_iff]
  constructor
  · intro h
    obtain ⟨run, runs, hruns⟩ := List.exists_cons_of_ne_nil (Text.splitAt_ne_nil '.' text.toList)
    have hback : Text.splitAt '.' text.toList =
        (String.ofList run :: runs.map String.ofList).map String.toList := by
      rw [hruns]
      simp [Function.comp_def]
    rw [hback] at h
    exact ⟨_, _, eq_afterDots_of_splitAt hback, referenceFault?_eq_none_iff.mp h⟩
  · rintro ⟨s, segments, htext, hname, hfits⟩
    obtain ⟨classes, htokens, -⟩ := fits_iff.mp hfits
    have hsegments := exists_areTokens_iff.mp ⟨classes, htokens⟩
    rw [htext, splitAt_afterDots (dot_not_mem_of_isSegment (.inl hname)) fun s' hs' ↦
      dot_not_mem_of_isSegment (hsegments s' hs')]
    exact referenceFault?_eq_none_iff.mpr ⟨hname, hfits⟩

/-- A text with a dot is a reference exactly if it is one of the grammar. -/
theorem exists_read_iff_generates (h : '.' ∈ text.toList) :
    (∃ reference, Reference.read text = .ok reference) ↔ Generates text := by
  obtain ⟨first, second, runs, hruns⟩ := exists_runs_of_mem h
  rw [← referenceFault?_eq_none_iff_generates, Reference.read, hruns]
  cases referenceFault? (first :: second :: runs) <;> simp

end Hil.Grammar
