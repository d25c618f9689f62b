import Hil.Proofs.Binding.Parts
import Hil.Proofs.Literal.Text

/-!
# The text of a tree determines the tree

A tree is written as a nested list, which its text determines. What the nested list shows of a node
is its class, its operator, function, value, keys or reference, its children and, on request, its
type, and nothing of this can be taken for anything else. Texts of values, keys and references are
shown by their UTF-16 code units, which two texts share if one has the two surrogates of a character
in its place.
-/

namespace Hil

/-! ### Trees as nested lists -/

/-- The last two items of an expression that shows its type. -/
def typeAtoms (withTypes : Bool) (type : Option Annotation) : List Sexp :=
  match withTypes, type with
  | true, some type => [.atom ":type", .atom type.text]
  | _, _ => []

namespace Shape

variable {α : Type}

/-- The function of a call. -/
def function? : Shape α → Option String
  | call func .. => some func
  | _ => none

/-- The word that a node is headed by. -/
def headWord : Shape α → String
  | arithmetic .. => "arithmetic"
  | call .. => "call"
  | conditional .. => "conditional"
  | index .. => "index"
  | literal .. => "literal"
  | output .. => "output"
  | access .. => "variable-access"
  | list _ => "list"
  | map _ => "map"
  | foreign className _ => "<" ++ className ++ ">"

/-- What follows the head of a node, without its type. -/
def items (info : NodeInfo) : Shape Sexp → List Sexp
  | arithmetic _ exprs => .atom ((info.operator?.map Operator.text).getD "?") :: exprs
  | call func _ args => .atom func :: args
  | conditional _ condition whenTrue whenFalse => [condition, whenTrue, whenFalse]
  | index _ target key => [target, key]
  | literal _ value => [.atom (value.json?.getD "")]
  | output _ exprs => exprs
  | access _ resolved => [.atom (Text.jsonString resolved.reference.text)]
  | list elements => elements
  | map entries => entries.map fun entry ↦ .list (Text.jsonString entry.1) [entry.2]
  | foreign .. => []

/-- A node as a list. -/
def sexp (withTypes : Bool) (info : NodeInfo) (s : Shape Sexp) : Sexp :=
  .list s.headWord (s.items info ++ typeAtoms withTypes s.type?)

/-- A node of a known class, with a function that has a type if it is a call, a scalar if it is a
literal, and a type if it is an expression. -/
structure Writable (s : Shape α) : Prop where
  known : s.isTraversable = true
  function : ∀ func ∈ s.function?, func ∈ supportedFunctions
  scalar : ∀ value ∈ s.literal?, value.IsPlain
  typed : ∀ type ∈ s.type?, type.type?.isSome = true

private theorem text_list_typeAtoms (head : String) (items : List Sexp) (withTypes : Bool)
    (type : Option Annotation) :
    (Sexp.list head (items ++ typeAtoms withTypes type)).text =
      parenthesised (head :: items.map Sexp.text ++ typeItems withTypes type) := by
  rw [Sexp.text, Sexp.texts_eq_map, List.map_append, ← String.toList_inj, List.cons_append,
    toList_parenthesised, toList_parenthesised, List.flatMap_append, List.flatMap_append]
  cases withTypes with
  | false => cases type <;> rfl
  | true =>
    cases type with
    | none => rfl
    | some type => simp [typeAtoms, typeItems, Sexp.text]

instance (s : Shape α) : Decidable s.Writable :=
  decidable_of_iff (s.isTraversable = true ∧ (∀ func ∈ s.function?, func ∈ supportedFunctions) ∧
      (∀ value ∈ s.literal?, value.IsPlain) ∧ ∀ type ∈ s.type?, type.type?.isSome = true)
    ⟨fun h ↦ ⟨h.1, h.2.1, h.2.2.1, h.2.2.2⟩, fun h ↦ ⟨h.1, h.2, h.3, h.4⟩⟩

/-- The text of a node is that of its list. -/
theorem sexpr?_eq_text (withTypes : Bool) (info : NodeInfo) {s : Shape Sexp} (h : s.Writable) :
    (s.mapChildren Sexp.text).sexpr? withTypes info = some (s.sexp withTypes info).text := by
  rw [sexp, text_list_typeAtoms]
  cases s with
  | literal type value =>
    obtain ⟨text, htext, -⟩ := Literal.exists_json (h.scalar value rfl)
    simp [mapChildren, sexpr?, items, headWord, Shape.type?, htext, Sexp.text]
  | map entries =>
    simp [mapChildren, sexpr?, items, headWord, Shape.type?, Sexp.text, Sexp.texts,
      Function.comp_def]
  | foreign _ _ => cases h.known
  | _ => simp [mapChildren, sexpr?, items, headWord, Shape.type?, Sexp.text]

/-! ### The atoms of nodes -/

private theorem isWord_operator (operator : Option Operator) :
    IsWord ((operator.map Operator.text).getD "?") := by
  cases operator with
  | none => decide
  | some operator => cases operator <;> decide

private theorem operator_inj {operator operator' : Option Operator}
    (h : (operator.map Operator.text).getD "?" = (operator'.map Operator.text).getD "?") :
    operator = operator' := by
  have hread (operator : Option Operator) :
      Operator.ofText? ((operator.map Operator.text).getD "?") = operator := by
    cases operator with
    | none => decide
    | some operator => cases operator <;> decide
  rw [← hread operator, h, hread]

private theorem isWord_function {func : String} (h : func ∈ supportedFunctions) : IsWord func := by
  have hall : ∀ func ∈ supportedFunctions, IsWord func := by decide
  exact hall func h

private theorem isWord_type (type : Ty) : IsWord type.text := by
  obtain ⟨kind, isList, isOutput⟩ := type
  cases kind <;> cases isList <;> cases isOutput <;> decide

private theorem type_inj {type type' : Ty} (h : type.text = type'.text) : type = type' := by
  have hread (type : Ty) : Ty.ofText? type.text = some type := by
    obtain ⟨kind, isList, isOutput⟩ := type
    cases kind <;> cases isList <;> cases isOutput <;> decide
  rw [← Option.some_inj, ← hread type, h, hread]

private theorem annotation_inj {type type' : Annotation} (ht : type.type?.isSome = true)
    (ht' : type'.type?.isSome = true) (h : type.text = type'.text) : type = type' := by
  cases type with
  | raw _ _ => cases ht
  | known type =>
    cases type' with
    | raw _ _ => cases ht'
    | known type' => exact congrArg Annotation.known (type_inj h)

private theorem isWord_headWord {s : Shape α} (h : s.isTraversable = true) :
    IsWord s.headWord := by
  cases s with
  | foreign _ _ => cases h
  | _ =>
    simp only [headWord]
    decide

private theorem readable_typeAtoms (withTypes : Bool) {type : Option Annotation}
    (ht : ∀ a ∈ type, a.type?.isSome = true) : ∀ x ∈ typeAtoms withTypes type, x.Readable := by
  cases withTypes with
  | false => simp [typeAtoms]
  | true =>
    cases type with
    | none => simp [typeAtoms]
    | some a =>
      cases a with
      | raw value written => cases ht _ rfl
      | known type =>
        have hmark : Sexp.Readable (.atom ":type") := .atom (.word (by decide))
        have htype : Sexp.Readable (.atom type.text) := .atom (.word (isWord_type type))
        simpa [typeAtoms] using ⟨hmark, htype⟩

/-- A node above readable children is readable. -/
theorem Writable.readable {s : Shape Sexp} (h : s.Writable)
    (below : ∀ child ∈ s.children, child.Readable) (withTypes : Bool) (info : NodeInfo) :
    (s.sexp withTypes info).Readable := by
  refine .list (.word (isWord_headWord h.known)) ?_
  rw [List.forall_mem_append]
  constructor
  · cases s with
    | arithmetic type exprs =>
      exact List.forall_mem_cons.mpr ⟨.atom (.word (isWord_operator _)), below⟩
    | call func _ args =>
      exact List.forall_mem_cons.mpr ⟨.atom (.word (isWord_function (h.function func rfl))), below⟩
    | literal _ value =>
      obtain ⟨text, htext, hatom⟩ := Literal.exists_json (h.scalar value rfl)
      simpa [items, htext] using Sexp.Readable.atom hatom
    | access _ resolved =>
      simpa [items] using Sexp.Readable.atom (.quoted resolved.reference.text)
    | map entries =>
      simp only [items, List.forall_mem_map]
      intro entry hentry
      refine .list (.quoted entry.1) (List.forall_mem_singleton.mpr ?_)
      exact below entry.2 (List.mem_map_of_mem hentry)
    | foreign _ _ => cases h.known
    | _ => exact below
  · exact readable_typeAtoms withTypes h.typed

/-! ### Nodes with the same list -/

/-- Nodes of one class that hold the same, but for their types and children: the operator, the
function, the value, the text of the reference by its code units, or the keys in their order by
theirs. -/
inductive SameNode (info info' : NodeInfo) : Shape α → Shape α → Prop
  | arithmetic {type type' : Option Annotation} {exprs exprs' : List α}
      (operator : info.operator? = info'.operator?) :
      SameNode info info' (.arithmetic type exprs) (.arithmetic type' exprs')
  | call {func : String} {type type' : Option Annotation} {args args' : List α} :
      SameNode info info' (.call func type args) (.call func type' args')
  | conditional {type type' : Option Annotation} {c t f c' t' f' : α} :
      SameNode info info' (.conditional type c t f) (.conditional type' c' t' f')
  | index {type type' : Option Annotation} {t k t' k' : α} :
      SameNode info info' (.index type t k) (.index type' t' k')
  | literal {type type' : Option Annotation} {value value' : Literal} (alike : value.Alike value') :
      SameNode info info' (.literal type value) (.literal type' value')
  | output {type type' : Option Annotation} {exprs exprs' : List α} :
      SameNode info info' (.output type exprs) (.output type' exprs')
  | access {type type' : Option Annotation} {resolved resolved' : Access}
      (reference : resolved.reference.text.units = resolved'.reference.text.units) :
      SameNode info info' (.access type resolved) (.access type' resolved')
  | list {elements elements' : List α} : SameNode info info' (.list elements) (.list elements')
  | map {entries entries' : List (Str × α)}
      (keys : (entries.map fun e ↦ e.1.units) = entries'.map fun e ↦ e.1.units) :
      SameNode info info' (.map entries) (.map entries')

variable {f : α → Sexp} {s s' : Shape α} {info info' : NodeInfo} {withTypes : Bool}

private theorem append_typeAtoms_inj {xs xs' : List Sexp} {type type' : Option Annotation}
    (ht : ∀ a ∈ type, a.type?.isSome = true) (ht' : ∀ a ∈ type', a.type?.isSome = true)
    (hsome : type.isSome = type'.isSome)
    (h : xs ++ typeAtoms withTypes type = xs' ++ typeAtoms withTypes type') :
    xs = xs' ∧ (withTypes = true → type = type') := by
  cases withTypes with
  | false =>
    simp only [typeAtoms, List.append_nil] at h
    exact ⟨h, Bool.noConfusion⟩
  | true =>
    cases type with
    | none =>
      obtain rfl : type' = none := by simpa using hsome
      exact ⟨List.append_cancel_right h, fun _ ↦ rfl⟩
    | some a =>
      obtain ⟨a', rfl⟩ := Option.isSome_iff_exists.mp hsome.symm
      obtain ⟨hxs, htypes⟩ := List.append_inj' h rfl
      simp only [typeAtoms, List.cons.injEq, Sexp.atom.injEq, and_true, true_and] at htypes
      exact ⟨hxs, fun _ ↦ congrArg some (annotation_inj (ht a rfl) (ht' a' rfl) htypes)⟩

private theorem items_map_eq_iff {entries entries' : List (Str × α)} :
    (entries.map fun e ↦ Sexp.list (Text.jsonString e.1) [f e.2]) =
        (entries'.map fun e ↦ Sexp.list (Text.jsonString e.1) [f e.2]) ↔
      ((entries.map fun e ↦ e.1.units) = entries'.map fun e ↦ e.1.units) ∧
        (entries.map fun e ↦ f e.2) = entries'.map fun e ↦ f e.2 := by
  induction entries generalizing entries' with
  | nil => cases entries' <;> simp
  | cons e entries ih =>
    cases entries' with
    | nil => simp
    | cons e' entries' => simp [ih, Text.jsonString_inj, and_assoc, and_left_comm]

private theorem isSome_type?_eq (h : s.isTraversable = true) (h' : s'.isTraversable = true)
    (hhead : s.headWord = s'.headWord) : s.type?.isSome = s'.type?.isSome := by
  cases s <;> cases s' <;> simp_all [headWord, isTraversable, type?]

private theorem sameNode_of_items (h : s.Writable) (h' : s'.Writable)
    (hhead : s.headWord = s'.headWord)
    (hitems : (s.mapChildren f).items info = (s'.mapChildren f).items info') :
    SameNode info info' s s' ∧ s.children.map f = s'.children.map f := by
  have hknown := h.known
  have hknown' := h'.known
  -- The heads of two classes differ.
  cases s <;> cases s' <;>
    simp only [isTraversable, headWord, String.reduceEq, Bool.false_eq_true] at hknown hknown' hhead
  case arithmetic.arithmetic _ exprs _ exprs' =>
    obtain ⟨hoperator, hexprs⟩ := List.cons.inj hitems
    exact ⟨.arithmetic (operator_inj (Sexp.atom.inj hoperator)), hexprs⟩
  case call.call func _ args func' _ args' =>
    obtain ⟨hfunc, hargs⟩ := List.cons.inj hitems
    obtain rfl := Sexp.atom.inj hfunc
    exact ⟨.call, hargs⟩
  case conditional.conditional => exact ⟨.conditional, hitems⟩
  case index.index => exact ⟨.index, hitems⟩
  case literal.literal value _ value' =>
    have hscalar := h.scalar value rfl
    have hscalar' := h'.scalar value' rfl
    obtain ⟨text, htext, -⟩ := Literal.exists_json hscalar
    obtain ⟨text', htext', -⟩ := Literal.exists_json hscalar'
    have hsame : text = text' := by simpa [mapChildren, items, htext, htext'] using hitems
    exact ⟨.literal ((Literal.json_eq_iff hscalar hscalar').mp (by rw [htext, htext', hsame])), rfl⟩
  case output.output => exact ⟨.output, hitems⟩
  case access.access =>
    have hreference := Sexp.atom.inj (List.cons.inj hitems).1
    exact ⟨.access (Text.jsonString_inj.mp hreference), rfl⟩
  case list.list => exact ⟨.list, hitems⟩
  case map.map entries entries' =>
    simp only [mapChildren, items, List.map_map, Function.comp_def] at hitems
    obtain ⟨hkeys, hchildren⟩ := items_map_eq_iff.mp hitems
    refine ⟨.map hkeys, ?_⟩
    simpa only [children, List.map_map, Function.comp_def] using hchildren

private theorem items_of_sameNode (h : s.Writable) (h' : s'.Writable)
    (hsame : SameNode info info' s s') (hchildren : s.children.map f = s'.children.map f) :
    (s.mapChildren f).items info = (s'.mapChildren f).items info' := by
  cases hsame with
  | arithmetic operator => simp only [mapChildren, items, operator]; exact congrArg _ hchildren
  | call => exact congrArg _ hchildren
  | conditional | index | output | list => exact hchildren
  | literal alike =>
    have hjson := (Literal.json_eq_iff (h.scalar _ rfl) (h'.scalar _ rfl)).mpr alike
    simp only [mapChildren, items, hjson]
  | access reference => simp only [mapChildren, items, Text.jsonString_inj.mpr reference]
  | map keys =>
    simp only [children, List.map_map, Function.comp_def] at hchildren
    simpa only [mapChildren, items, List.map_map, Function.comp_def] using
      items_map_eq_iff.mpr ⟨keys, hchildren⟩

/-- Nodes have the same list exactly if they are the same, their types are if they are shown, and
their children have the same lists. -/
theorem sexp_eq_iff (h : s.Writable) (h' : s'.Writable) :
    (s.mapChildren f).sexp withTypes info = (s'.mapChildren f).sexp withTypes info' ↔
      SameNode info info' s s' ∧ (withTypes = true → s.type? = s'.type?) ∧
        s.children.map f = s'.children.map f := by
  have hhead (s : Shape α) : (s.mapChildren f).headWord = s.headWord := by cases s <;> rfl
  simp only [sexp, Sexp.list.injEq, hhead, type?_mapChildren]
  constructor
  · rintro ⟨hheads, hitems⟩
    obtain ⟨hparts, htypes⟩ := append_typeAtoms_inj h.typed h'.typed
      (isSome_type?_eq h.known h'.known hheads) hitems
    obtain ⟨hsame, hchildren⟩ := sameNode_of_items h h' hheads hparts
    exact ⟨hsame, htypes, hchildren⟩
  · rintro ⟨hsame, htypes, hchildren⟩
    refine ⟨by cases hsame <;> rfl, ?_⟩
    rw [items_of_sameNode h h' hsame hchildren]
    cases withTypes with
    | false => rfl
    | true => rw [htypes rfl]

/-- What has to hold of a node does not concern its children. -/
theorem writable_mapChildren_iff {β : Type} {f : α → β} :
    (s.mapChildren f).Writable ↔ s.Writable := by
  constructor
  · intro h
    cases s <;> exact ⟨h.known, h.function, h.scalar, h.typed⟩
  · intro h
    cases s <;> exact ⟨h.known, h.function, h.scalar, h.typed⟩

end Shape

/-! ### Trees with the same text -/

namespace Tree

variable {t t' : Tree}

/-- Trees of the same nodes in the same places, up to what texts do not show: where the nodes come
from, schemas and, unless types are shown, types. -/
inductive Alike (withTypes : Bool) : Tree → Tree → Prop
  | node {info info' : NodeInfo} {shape shape' : Shape Tree}
      (here : Shape.SameNode info info' shape shape')
      (types : withTypes = true → shape.type? = shape'.type?)
      (below : List.Forall₂ (Alike withTypes) shape.children shape'.children) :
      Alike withTypes (.node info shape) (.node info' shape')

/-- A tree that can be written: of the classes that have a text, with functions that have a type,
scalars and types. -/
def Writable : Tree → Prop := Everywhere fun _ shape ↦ shape.Writable

instance : DecidablePred Writable :=
  inferInstanceAs (DecidablePred (Everywhere fun _ shape ↦ shape.Writable))

/-- A tree as a nested list. -/
def sexp (withTypes : Bool) : Tree → Sexp :=
  fold (.list ("<" ++ missingClass ++ ">") []) (Shape.sexp withTypes)

private theorem sexp_node (withTypes : Bool) (info : NodeInfo) (shape : Shape Tree) :
    (node info shape).sexp withTypes =
      (shape.mapChildren (sexp withTypes)).sexp withTypes info := fold_node _ _ _ _

/-- The text of a tree is that of its nested list. -/
theorem sexpr?_eq_text (withTypes : Bool) (h : t.Writable) :
    t.sexpr? withTypes = some (t.sexp withTypes).text := by
  induction h with
  | @node info shape here _ ih =>
    have htexts : shape.mapChildren (sexpr? withTypes) =
        ((shape.mapChildren (sexp withTypes)).mapChildren Sexp.text).mapChildren some := by
      rw [Shape.mapChildren_mapChildren, Shape.mapChildren_mapChildren]
      exact Shape.mapChildren_congr ih
    rw [sexpr?, fold_node, ← sexpr?, htexts, Shape.sequence_map_some, Option.bind_some,
      Shape.sexpr?_eq_text withTypes info (Shape.writable_mapChildren_iff.mpr here), sexp_node]

/-- The atoms of the nested list of a tree can be told apart. -/
theorem readable_sexp (withTypes : Bool) (h : t.Writable) : (t.sexp withTypes).Readable := by
  induction h with
  | @node info shape here _ ih =>
    rw [sexp_node]
    exact (Shape.writable_mapChildren_iff.mpr here).readable
      (Shape.forall_mem_mapChildren.mpr ih) withTypes info

private theorem map_eq_map_iff {α β : Type} {f : α → β} {xs ys : List α} :
    xs.map f = ys.map f ↔ List.Forall₂ (fun x y ↦ f x = f y) xs ys := by
  rw [← List.forall₂_eq_eq_eq, List.forall₂_map_left_iff, List.forall₂_map_right_iff]

/-- Trees have the same nested list exactly if they are alike. -/
theorem sexp_eq_iff {withTypes : Bool} (h : t.Writable) (h' : t'.Writable) :
    t.sexp withTypes = t'.sexp withTypes ↔ Alike withTypes t t' := by
  induction h generalizing t' with
  | @node info shape here _ ih =>
    cases h' with
    | @node info' shape' here' below' =>
      rw [sexp_node, sexp_node, Shape.sexp_eq_iff here here', map_eq_map_iff]
      constructor
      · rintro ⟨hsame, htypes, hchildren⟩
        exact .node hsame htypes
          (forall₂_imp_mem hchildren fun t ht t' ht' ↦ (ih t ht (below' t' ht')).mp)
      · rintro ⟨hsame, htypes, hchildren⟩
        exact ⟨hsame, htypes,
          forall₂_imp_mem hchildren fun t ht t' ht' ↦ (ih t ht (below' t' ht')).mpr⟩

/-- A tree that can be written has a text, and a second one has the same text exactly if it is
alike: the nodes are of the same classes in the same places, with the same operators, functions,
values, keys and references, and with the same types if types are shown. Texts of values, keys and
references count as the same if their code units are. -/
theorem exists_sexpr_iff_alike (withTypes : Bool) (h : t.Writable) (h' : t'.Writable) :
    ∃ text, t.sexpr? withTypes = some text ∧
      (t'.sexpr? withTypes = some text ↔ Alike withTypes t t') := by
  refine ⟨_, sexpr?_eq_text withTypes h, ?_⟩
  rw [sexpr?_eq_text withTypes h', Option.some_inj, eq_comm,
    Sexp.text_inj (readable_sexp withTypes h) (readable_sexp withTypes h'), sexp_eq_iff h h']

/-- `ami-${var.ami}`. -/
private def image : Tree :=
  .node {} (.output (some (.known .string)) [
    .node {} (.literal (some (.known .string)) (.str "ami-")),
    .node {} (.access (some (.known .string))
      { elements := [], schema := default, reference := ⟨"var.ami", .user "ami" ""⟩,
        entry := none })])

/-- A text that looks like the two parts of `image`. -/
private def lookalike : Tree :=
  .node {} (.output (some (.known .string))
    [.node {} (.literal none (.str "ami-\") (variable-access \"var.ami"))])

/-- A quote within a text does not end it. -/
theorem exists_sexpr_iff_alike_quotes :
    (image.Writable ∧ lookalike.Writable) ∧ ∃ text, image.sexpr? false = some text ∧
      (lookalike.sexpr? false = some text ↔ Alike false image lookalike) := by
  have h : image.Writable := by decide
  have h' : lookalike.Writable := by decide
  exact ⟨⟨h, h'⟩, exists_sexpr_iff_alike false h h'⟩

/-- The two surrogates of U+1F600. -/
private def surrogates : Str := ⟨[.surrogate 0x3d, .surrogate 0x600]⟩

/-- The character U+1F600. -/
private def astral : Str := ⟨[.char (Char.ofNat 0x1f600)]⟩

/-- A literal of a text. -/
private def textLiteral (s : Str) : Tree := .node {} (.literal (some (.known .string)) (.str s))

private theorem sexpr?_textLiteral (s : Str) (withTypes : Bool) :
    (textLiteral s).sexpr? withTypes = some (parenthesised
      (["literal", Text.jsonString s] ++ typeItems withTypes (some (.known .string)))) := rfl

/-- Literals of two texts that differ have the same text, with types and without. -/
theorem sexpr_of_surrogates :
    surrogates ≠ astral ∧ (textLiteral surrogates).Writable ∧ (textLiteral astral).Writable ∧
      ∀ withTypes, ∃ text, (textLiteral surrogates).sexpr? withTypes = some text ∧
        (textLiteral astral).sexpr? withTypes = some text := by
  refine ⟨by decide, by decide, by decide, fun withTypes ↦ ⟨_, sexpr?_textLiteral _ _, ?_⟩⟩
  have hsame : Text.jsonString surrogates = Text.jsonString astral :=
    Text.jsonString_inj.mpr (by decide)
  rw [sexpr?_textLiteral, hsame]

end Tree

end Hil
