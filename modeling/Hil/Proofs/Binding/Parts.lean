import Hil.Proofs.Binding.Nodes

/-!
# Parts of values

Binding evaluates the parts of a value one after another, each after the parts that it is made of.
Whether a part fails, and for which reason, can be told from the part, the original graph and the
count scope.
-/

namespace Hil

/-! ### Parts -/

/-- A part of a value as it is evaluated: a value that a property may hold or not, an operand that
is no expression, or an expression. -/
inductive Part where
  | property (value : Value)
  | operand (value : Value)
  | node (e : Expr)

/-- Where a part stands; only expressions have a place. -/
def Part.place : Part → Option Location
  | property _ | operand _ => none
  | node e => e.place

mutual

/-- The parts of a property value in the order of their evaluation. -/
def Value.evaluation : Value → List Part
  | .expr e => Expr.evaluation e
  | .list items => itemsEvaluation items ++ [.property (.list items)]
  | .map entries => entriesEvaluation entries ++ [.property (.map entries)]
  | .bool b => [.property (.bool b)]
  | .int i => [.property (.int i)]
  | .float x => [.property (.float x)]
  | .str s => [.property (.str s)]
  | .unsupported kindName shown => [.property (.unsupported kindName shown)]

/-- The parts of an operand; one that is no expression is not taken apart. -/
def Value.operandEvaluation : Value → List Part
  | .expr e => Expr.evaluation e
  | value => [.operand value]

/-- The parts of an expression: those of its operands from left to right, then itself. -/
def Expr.evaluation : Expr → List Part
  | .arithmetic place operator operands =>
    operandsEvaluation operands ++ [.node (.arithmetic place operator operands)]
  | .call place func args => operandsEvaluation args ++ [.node (.call place func args)]
  | .conditional place c t f =>
    Value.operandEvaluation c ++ (Value.operandEvaluation t ++ (Value.operandEvaluation f ++
      [.node (.conditional place c t f)]))
  | .index place t k =>
    Value.operandEvaluation t ++ (Value.operandEvaluation k ++ [.node (.index place t k)])
  | .literal place value tag => [.node (.literal place value tag)]
  | .output place operands => operandsEvaluation operands ++ [.node (.output place operands)]
  | .access place name => [.node (.access place name)]
  | .other place className => [.node (.other place className)]

/-- The parts of operands, from left to right. -/
def operandsEvaluation : List Value → List Part
  | [] => []
  | value :: values => Value.operandEvaluation value ++ operandsEvaluation values

/-- The parts of the items of a list, in order. -/
def itemsEvaluation : List Value → List Part
  | [] => []
  | value :: values => Value.evaluation value ++ itemsEvaluation values

/-- The parts of the values of a map, in order. -/
def entriesEvaluation : List (Literal × Value) → List Part
  | [] => []
  | (_, value) :: entries => Value.evaluation value ++ entriesEvaluation entries

end

/-- Operands have the parts of each in turn. -/
theorem operandsEvaluation_eq_flatMap (values : List Value) :
    operandsEvaluation values = values.flatMap Value.operandEvaluation := by
  induction values with
  | nil => rfl
  | cons v values ih => rw [operandsEvaluation, List.flatMap_cons, ih]

/-- Items have the parts of each in turn. -/
theorem itemsEvaluation_eq_flatMap (values : List Value) :
    itemsEvaluation values = values.flatMap Value.evaluation := by
  induction values with
  | nil => rfl
  | cons v values ih => rw [itemsEvaluation, List.flatMap_cons, ih]

/-- Entries have the parts of their values in turn. -/
theorem entriesEvaluation_eq_flatMap (entries : List (Literal × Value)) :
    entriesEvaluation entries = entries.flatMap fun e ↦ e.2.evaluation := by
  induction entries with
  | nil => rfl
  | cons e entries ih => rw [entriesEvaluation, List.flatMap_cons, ih]

/-- An expression is evaluated after all of its operands. -/
theorem Expr.evaluation_eq (e : Expr) :
    e.evaluation = e.operands.flatMap Value.operandEvaluation ++ [.node e] := by
  cases e <;> simp [Expr.evaluation, Expr.operands, operandsEvaluation_eq_flatMap]

/-! ### Faults of parts -/

/-- The functions that have a type. -/
def supportedFunctions : List String :=
  stringFunctions ++ ["element", "list", "lookup", "map", "split"]

/-- A reference cannot be resolved for the reason, in a count scope or outside of one. -/
inductive Reference.Unresolvable (hasCount : Bool) (g : Graph) (reference : Reference) :
    BindFault → Prop
  | countField (target : reference.target = .count false) :
      Unresolvable hasCount g reference (.countField reference.text)
  | noCountScope (target : reference.target = .count true) (scope : hasCount = false) :
      Unresolvable hasCount g reference .noCountScope
  | path {field : String} (target : reference.target = .path field) :
      Unresolvable hasCount g reference (.notYet "path variables")
  | self {field : String} (target : reference.target = .self field) :
      Unresolvable hasCount g reference (.notYet "self variables")
  | simple (target : reference.target = .simple) :
      Unresolvable hasCount g reference (.notYet "simple variables")
  | terraform {field : String} (target : reference.target = .terraform field) :
      Unresolvable hasCount g reference (.notYet "terraform variables")
  | element {name element : String} (target : reference.target = .user name element)
      (given : element ≠ "") :
      Unresolvable hasCount g reference (.notYet "user variable elements")
  | user {name : String} (target : reference.target = .user name "")
      (missing : g.inputs.find? name = none) :
      Unresolvable hasCount g reference (.unknownEntity .variable name)
  | local {name : String} (target : reference.target = .local name)
      (missing : g.locals.find? name = none) :
      Unresolvable hasCount g reference (.unknownEntity .local name)
  | module {name field : String} (target : reference.target = .module name field)
      (missing : g.modules.find? name = none) :
      Unresolvable hasCount g reference (.unknownEntity .module name)
  | resource {name : ResourceName} {selection : Selection} {field : String}
      (target : reference.target = .resource name selection field)
      (missing : g.resource? name.id = none) :
      Unresolvable hasCount g reference (.unknownEntity .resource name.id)
  | provider {name : ResourceName} {selection : Selection} {field : String} {r : Resource}
      (target : reference.target = .resource name selection field)
      (found : g.resource? name.id = some r) (unattached : r.provider = none)
      (missing : g.providers.find? r.providerKey = none) :
      Unresolvable hasCount g reference (.unknownProvider r.providerKey r.name.id)

/-- A part fails on its own for the reason, against the graph and in a count scope or outside of
one. -/
inductive Part.Fails (hasCount : Bool) (g : Graph) : Part → BindFault → Prop
  | property (kindName : String) (shown : Option String) :
      Fails hasCount g (.property (.unsupported kindName shown)) (.unsupportedValue kindName)
  | operand (value : Value) :
      Fails hasCount g (.operand value) (.notAnExpression value.kindName)
  | other (place : Option Location) (className : String) :
      Fails hasCount g (.node (.other place className)) (.notAnExpression className)
  | literal {place : Option Location} {value : Literal} {tag : Tag}
      (untyped : tag ∉ [Tag.bool, .int, .float, .string]) :
      Fails hasCount g (.node (.literal place value tag)) (.literalTag tag)
  | function {place : Option Location} {func : String} {args : List Value}
      (unsupported : func ∉ supportedFunctions) :
      Fails hasCount g (.node (.call place func args)) (.unknownFunction func)
  | oddMap {place : Option Location} {args : List Value} (odd : args.length % 2 = 1) :
      Fails hasCount g (.node (.call place "map" args)) .oddMapArguments
  | notAReference {place : Option Location} {name : String} {fault : ReferenceFault}
      (read : Reference.read name = .error fault) :
      Fails hasCount g (.node (.access place name)) (.notAReference name fault)
  | access {place : Option Location} {name : String} {reference : Reference} {fault : BindFault}
      (read : Reference.read name = .ok reference)
      (unresolvable : reference.Unresolvable hasCount g fault) :
      Fails hasCount g (.node (.access place name)) fault

/-- Nothing about the part fails on its own. -/
def Part.Sound (hasCount : Bool) (g : Graph) (part : Part) : Prop :=
  ∀ fault, ¬ part.Fails hasCount g fault

/-- The error of the first of the parts that fails. -/
def FirstError (hasCount : Bool) (g : Graph) (parts : List Part) (e : BindError) : Prop :=
  ∃ before part after, parts = before ++ part :: after ∧
    (∀ p ∈ before, p.Sound hasCount g) ∧ part.Fails hasCount g e.fault ∧ e.place = part.place

variable {hasCount : Bool} {g : Graph} {fault fault' : BindFault} {reference : Reference}
  {part : Part} {parts parts' : List Part} {place : Option Location} {e e' : BindError}

/-- A reference has one reason to be unresolvable. -/
theorem Reference.Unresolvable.unique (h : reference.Unresolvable hasCount g fault)
    (h' : reference.Unresolvable hasCount g fault') : fault = fault' := by
  cases h <;> cases h' <;> simp_all

/-- A part has one reason to fail. -/
theorem Part.Fails.unique (h : part.Fails hasCount g fault) (h' : part.Fails hasCount g fault') :
    fault = fault' := by
  cases h with
  | access read unresolvable =>
    cases h' with
    | notAReference read' => rw [read] at read'; cases read'
    | access read' unresolvable' =>
      obtain rfl := Except.ok.inj (read.symm.trans read')
      exact unresolvable.unique unresolvable'
  | _ => cases h' <;> simp_all [supportedFunctions]

/-- An error is reported at its place. -/
theorem BindError.location_problem (e : BindError) : e.problem.location = e.place := by
  obtain ⟨fault, place⟩ := e
  cases fault with
  | notAReference text fault => cases fault <;> rfl
  | _ => rfl

/-- Parts that do not fail stand before a part that does. -/
theorem isPrefix_of_fails {before after before' after' : List Part}
    (h : before ++ part :: after = before' ++ after') (fails : part.Fails hasCount g fault)
    (sound : ∀ p ∈ before', p.Sound hasCount g) : before' <+: before := by
  rcases List.append_eq_append_iff.mp h with ⟨between, hb, ha⟩ | ⟨between, hb, -⟩
  · cases between with
    | nil => exact ⟨[], by simp [hb]⟩
    | cons p between =>
      obtain ⟨rfl, -⟩ := List.cons.inj ha
      exact absurd fails (sound part (by simp [hb]) fault)
  · exact ⟨between, hb.symm⟩

/-- There is one place at which the first part that fails stands. -/
theorem firstFailing_unique {before after before' after' : List Part} {part' : Part}
    (h : before ++ part :: after = before' ++ part' :: after')
    (sound : ∀ p ∈ before, p.Sound hasCount g) (fails : part.Fails hasCount g fault)
    (sound' : ∀ p ∈ before', p.Sound hasCount g) (fails' : part'.Fails hasCount g fault') :
    before = before' ∧ part = part' ∧ after = after' := by
  have hle := (isPrefix_of_fails h.symm fails' sound).length_le
  obtain rfl := (isPrefix_of_fails h fails sound').eq_of_length_le hle
  simpa using h

/-- There is one first error. -/
theorem FirstError.unique (h : FirstError hasCount g parts e)
    (h' : FirstError hasCount g parts e') : e = e' := by
  obtain ⟨before, part, after, rfl, sound, fails, place⟩ := h
  obtain ⟨before', part', after', heq, sound', fails', place'⟩ := h'
  obtain ⟨-, rfl, -⟩ := firstFailing_unique heq sound fails sound' fails'
  have hfault : e.fault = e'.fault := fails.unique fails'
  cases e
  cases e'
  simp_all

/-! ### Evaluated parts -/

/-- The part is evaluated: no part before it fails. -/
def Evaluated (hasCount : Bool) (g : Graph) (parts : List Part) (part : Part) : Prop :=
  ∃ before after, parts = before ++ part :: after ∧ ∀ p ∈ before, p.Sound hasCount g

/-- All parts are evaluated if none of them fails. -/
theorem evaluated_iff_of_sound (sound : ∀ p ∈ parts, p.Sound hasCount g) :
    Evaluated hasCount g parts part ↔ part ∈ parts := by
  constructor
  · rintro ⟨before, after, rfl, _⟩
    simp
  · intro h
    obtain ⟨before, after, rfl⟩ := List.append_of_mem h
    exact ⟨before, after, rfl, fun p hp ↦ sound p (List.mem_append_left _ hp)⟩

/-- The parts up to the first that fails are evaluated, and no others. -/
theorem evaluated_iff_of_fails {before after : List Part} {failing : Part}
    (sound : ∀ p ∈ before, p.Sound hasCount g) (fails : failing.Fails hasCount g fault) :
    Evaluated hasCount g (before ++ failing :: after) part ↔ part ∈ before ++ [failing] := by
  constructor
  · rintro ⟨before', after', heq, sound'⟩
    obtain ⟨between, rfl⟩ := isPrefix_of_fails heq fails sound'
    rw [List.append_assoc, List.append_cancel_left_eq] at heq
    cases between <;> simp_all
  · intro h
    rcases List.mem_append.mp h with h | h
    · obtain ⟨pre, post, rfl⟩ := List.append_of_mem h
      exact ⟨pre, post ++ failing :: after, by simp, fun p hp ↦ sound p (by simp [hp])⟩
    · obtain rfl := List.mem_singleton.mp h
      exact ⟨before, after, rfl, sound⟩

namespace Bind

/-! ### The faults of one part -/

/-- The tags of literals that have a type. -/
theorem type?_eq_none_iff {tag : Tag} :
    tag.type? = none ↔ tag ∉ [Tag.bool, .int, .float, .string] := by
  cases tag <;> decide

/-- A call has no type if its function is not supported, or pairs an odd number of arguments. -/
theorem callType_eq_error_iff {func : String} {types : List Ty} :
    callType func types = .error fault ↔
      func ∉ supportedFunctions ∧ fault = .unknownFunction func ∨
        func = "map" ∧ types.length % 2 = 1 ∧ fault = .oddMapArguments := by
  unfold callType supportedFunctions
  split
  · next hs =>
    have hmem : func ∈ stringFunctions := by simpa using hs
    have hmap : func ≠ "map" := by rintro rfl; revert hmem; decide
    simp [hmem, hmap]
  · next hs =>
    have hmem : func ∉ stringFunctions := by simpa using hs
    split
    · simp
    · simp
    · simp
    · split
      · next he => simp [he]
      · next ho => simp [Nat.mod_two_ne_zero.mp ho, eq_comm]
    · simp
    · simp_all [eq_comm]

/-- What can be resolved is not unresolvable. -/
theorem not_unresolvable {type : Ty} {access : Access}
    (h : Resolves hasCount g reference type access) :
    ¬ reference.Unresolvable hasCount g fault := by
  intro h'
  cases h <;> cases h' <;>
    simp_all [Graph.ref?, Graph.serial?, Graph.resolve?, Graph.providerOf?]

/-- A reference that is not resolved has the reason that is reported, at its place. -/
theorem unresolvable_of_outcome
    (h : outcome g (reference.resolve hasCount place) = .error e) :
    reference.Unresolvable hasCount g e.fault ∧ e.place = place := by
  rw [outcome, Reference.resolve, run_get_bind] at h
  cases ht : reference.target with
  | count isIndex =>
    rw [ht] at h
    cases isIndex with
    | false => cases h; exact ⟨.countField ht, rfl⟩
    | true =>
      cases hc : hasCount with
      | true => rw [hc] at h; cases h
      | false => rw [hc] at h; cases h; exact ⟨.noCountScope ht rfl, rfl⟩
  | path field => rw [ht] at h; cases h; exact ⟨.path ht, rfl⟩
  | self field => rw [ht] at h; cases h; exact ⟨.self ht, rfl⟩
  | simple => rw [ht] at h; cases h; exact ⟨.simple ht, rfl⟩
  | terraform field => rw [ht] at h; cases h; exact ⟨.terraform ht, rfl⟩
  | «local» name =>
    simp only [ht, Graph.ref?, Graph.serial?] at h
    cases hf : g.locals.find? name with
    | some slot => rw [hf] at h; cases h
    | none => rw [hf] at h; cases h; exact ⟨.local ht hf, rfl⟩
  | module name field =>
    simp only [ht, Graph.ref?, Graph.serial?] at h
    cases hf : g.modules.find? name with
    | some slot => rw [hf] at h; cases h
    | none => rw [hf] at h; cases h; exact ⟨.module ht hf, rfl⟩
  | user name element =>
    simp only [ht, Graph.ref?, Graph.serial?] at h
    split at h
    · next he =>
      cases h
      exact ⟨.element ht (by simpa using he), rfl⟩
    · next he =>
      obtain rfl : element = "" := by simpa using he
      cases hf : g.inputs.find? name with
      | some slot => rw [hf] at h; cases h
      | none => rw [hf] at h; cases h; exact ⟨.user ht hf, rfl⟩
  | resource name selection field =>
    simp only [ht, Reference.resolveResource, run_get_bind] at h
    cases hr : g.resource? name.id with
    | none =>
      rw [Graph.attachProvider, hr] at h
      cases h
      exact ⟨.resource ht hr, rfl⟩
    | some r =>
      cases hres : g.resolve? r with
      | some r' =>
        obtain ⟨g', hok, _⟩ := Graph.exists_attachProvider hr hres
        rw [hok] at h
        cases h
      | none =>
        rw [Graph.attachProvider, hr] at h
        simp only [hres] at h
        cases h
        obtain ⟨unattached, missing⟩ := Graph.resolve?_eq_none_iff.mp hres
        exact ⟨.provider ht hr unattached missing, rfl⟩

end Bind

end Hil
