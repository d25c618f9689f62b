import Hil.Proofs.Dependencies.Source
import Hil.Proofs.Graph.Extending

/-!
# Binding in extended graphs

What resolves in a graph resolves to the same in every graph that extends it. The parts that fail in
a graph fail for the same reason in every other graph, unless they name an entity or a provider that
is missing. So additions to a graph do not change what a value is bound to, nor any error but that
of a missing name.
-/

namespace Hil

variable {g g' : Graph} {hasCount : Bool} {reference : Reference} {type : Ty} {access : Access}
  {fault : BindFault} {place : Option Location} {part : Part} {parts : List Part} {value : Value}
  {look look' : String → Ty × Access}

/-! ### References -/

/-- What resolves in a graph resolves to the same in one that extends it. -/
theorem Resolves.extend (h : Resolves hasCount g reference type access) (hg : g.Extends g') :
    Resolves hasCount g' reference type access := by
  cases h with
  | count target scope => exact .count target scope
  | «local» target found => exact .local target (hg.ref? found)
  | module target found => exact .module target (hg.ref? found)
  | user target found => exact .user target (hg.inputs _ _ found)
  | @resource name selection field r r' target found resolved =>
    have hentry : g'.ref? .resource name.id = g.ref? .resource name.id := by
      obtain ⟨slot, hslot, -⟩ := Option.map_eq_some_iff.mp found
      have href : g.ref? .resource name.id = some ⟨.resource, name.id, slot.serial⟩ := by
        rw [Graph.ref?, Graph.serial?, hslot]
        rfl
      rw [href, hg.ref? href]
    rw [← hentry]
    exact .resource target (hg.resource? found) (hg.resolve? resolved)

/-- A reference that is unresolvable for another reason than a missing name is unresolvable in every
graph. -/
theorem Reference.Unresolvable.inGraph (h : reference.Unresolvable hasCount g fault)
    (other : (fault.problem place).category ≠ .unresolved) (g' : Graph) :
    reference.Unresolvable hasCount g' fault := by
  cases h with
  | countField target => exact .countField target
  | noCountScope target scope => exact .noCountScope target scope
  | path target => exact .path target
  | self target => exact .self target
  | simple target => exact .simple target
  | terraform target => exact .terraform target
  | element target given => exact .element target given
  | user | «local» | module | resource | provider => exact absurd rfl other

/-! ### Parts -/

/-- A part that fails for another reason than a missing name fails for it in every graph. -/
theorem Part.Fails.inGraph (h : part.Fails hasCount g fault)
    (other : (fault.problem place).category ≠ .unresolved) (g' : Graph) :
    part.Fails hasCount g' fault := by
  cases h with
  | property kindName shown => exact .property kindName shown
  | operand value => exact .operand value
  | other place className => exact .other place className
  | literal untyped => exact .literal untyped
  | function unsupported => exact .function unsupported
  | oddMap odd => exact .oddMap odd
  | notAReference read => exact .notAReference read
  | access read unresolvable => exact .access read (unresolvable.inGraph other g')

/-- A part that does not fail in a graph does not fail in one that extends it. -/
theorem Part.Sound.extend (h : part.Sound hasCount g) (hg : g.Extends g') :
    part.Sound hasCount g' := by
  intro fault hf
  cases hf with
  | property kindName shown => exact h _ (.property kindName shown)
  | operand value => exact h _ (.operand value)
  | other place className => exact h _ (.other place className)
  | literal untyped => exact h _ (.literal untyped)
  | function unsupported => exact h _ (.function unsupported)
  | oddMap odd => exact h _ (.oddMap odd)
  | notAReference read => exact h _ (.notAReference read)
  | access read unresolvable =>
    -- the reference resolves in the first graph, and so it does in the second
    obtain ⟨reference, type, access, read', resolves⟩ := h.exists_resolves
    obtain rfl := Except.ok.inj (read.symm.trans read')
    exact Bind.not_unresolvable (resolves.extend hg) unresolvable

/-- A first error that is no missing name is the first in a graph that extends the first one. -/
theorem FirstError.extend {e : BindError} (h : FirstError hasCount g parts e)
    (other : e.problem.category ≠ .unresolved) (hg : g.Extends g') :
    FirstError hasCount g' parts e := by
  obtain ⟨before, part, after, heq, sound, fails, place⟩ := h
  exact ⟨before, part, after, heq, fun p hp ↦ (sound p hp).extend hg, fails.inGraph other g',
    place⟩

/-! ### Images -/

/-- The image of a value depends on what its accesses resolve to, and on nothing else. -/
theorem Value.image_congr (h : ∀ name ∈ value.accesses, look name = look' name) :
    value.image look = value.image look' := by
  induction value using Value.induct_parts with
  | h value ih =>
    have hparts (hnames : ∀ name ∈ value.parts.flatMap accesses, look name = look' name) :
        ∀ v ∈ value.parts, v.image look = v.image look' := fun v hv ↦
      ih v hv fun name hname ↦ hnames name (List.mem_flatMap.mpr ⟨v, hv, hname⟩)
    cases value with
    | expr e =>
      rw [accesses_expr, List.forall_mem_append] at h
      have hoperands : ∀ v ∈ e.operands, v.image look = v.image look' := hparts h.2
      rw [Value.image, Value.image]
      cases e with
      | arithmetic | call | output =>
        simp only [Expr.operands] at hoperands
        simp only [Expr.image, imagesOf_eq_map, List.map_congr_left hoperands]
      | conditional place c t f =>
        simp only [Expr.operands, List.forall_mem_cons] at hoperands
        rw [Expr.image, Expr.image, hoperands.1, hoperands.2.1, hoperands.2.2.1]
      | index place t k =>
        simp only [Expr.operands, List.forall_mem_cons] at hoperands
        rw [Expr.image, Expr.image, hoperands.1, hoperands.2.1]
      | access place name =>
        rw [Expr.image, Expr.image, h.1 name (List.mem_singleton_self name)]
      | literal | other => rfl
    | list items =>
      rw [accesses_list] at h
      have hitems : ∀ v ∈ items, v.image look = v.image look' := hparts h
      rw [Value.image, Value.image, imagesOf_eq_map, imagesOf_eq_map, List.map_congr_left hitems]
    | map entries =>
      rw [accesses_map] at h
      have hentries : ∀ e ∈ entries, (e.1.text, e.2.image look) = (e.1.text, e.2.image look') :=
        fun e he ↦ congrArg (Prod.mk _) (hparts h e.2 (List.mem_map_of_mem he))
      rw [Value.image, Value.image, entryImages_eq_map, entryImages_eq_map,
        List.map_congr_left hentries]
    | _ => rfl

/-- A value without failing parts has the same image in a graph that extends the first one. -/
theorem Value.image_extend (sound : ∀ p ∈ value.evaluation, p.Sound hasCount g)
    (hg : g.Extends g') : value.image g'.lookUp = value.image g.lookUp := by
  refine image_congr fun name hname ↦ ?_
  obtain ⟨place, hp⟩ := mem_evaluation_of_mem_accesses sound hname
  obtain ⟨reference, type, access, read, resolves⟩ := (sound _ hp).exists_resolves
  rw [Graph.lookUp_eq read resolves, Graph.lookUp_eq read (resolves.extend hg)]

namespace Bind

/-- Entities that are added under keys which the graph does not have change nothing of what a value
is bound to, and no error but that of a name that stands for nothing. -/
theorem bindValue_addAll {entities : List Entity} (lacks : ∀ entity ∈ entities, g.Lacks entity) :
    (∀ tree, outcome g (bindValue hasCount value) = .ok tree →
      outcome (g.addAll entities) (bindValue hasCount value) = .ok tree) ∧
    ∀ e, outcome g (bindValue hasCount value) = .error e → e.problem.category ≠ .unresolved →
      outcome (g.addAll entities) (bindValue hasCount value) = .error e := by
  have hg : g.Extends (g.addAll entities) := (Graph.Extends.refl g).addAll lacks
  have hbefore := evaluates_bindValue g hasCount value
  have hafter := evaluates_bindValue (g.addAll entities) hasCount value
  constructor
  · intro tree htree
    obtain ⟨rfl, sound⟩ := hbefore.of_outcome_eq_ok htree
    rw [hafter.outcome_eq_ok fun p hp ↦ (sound p hp).extend hg, Value.image_extend sound hg]
  · intro e herror other
    rw [hbefore.outcome_eq_error_iff] at herror
    rw [hafter.outcome_eq_error_iff]
    exact herror.extend other hg

/-- A resource with its provider, and the input variable `region`. -/
private def small : Graph :=
  Graph.empty.addAll [.provider
    ⟨"aws", "", [("aws_instance", .object [("ami", .plain Ty.string)])]⟩,
    .resource ⟨⟨.managed, "aws_instance", "web"⟩, "", none, none⟩, .variable ⟨"region", none⟩]

/-- Entities under new keys, one of them twice: the key `aws.west` is that of no provider, and the
key `region` that of no local value. -/
private def additions : List Entity :=
  [.provider ⟨"aws", "west", []⟩, .local ⟨"region", none⟩, .local ⟨"region", none⟩,
    .resource ⟨⟨.data, "aws_instance", "web"⟩, "aws.west", none, none⟩]

/-- An attribute keeps its type when a provider with an alias is added. A list whose first item has
a kind of reference without a meaning fails there before and after the additions, although its
second item then resolves. -/
theorem bindValue_addAll_west :
    (∀ entity ∈ additions, small.Lacks entity) ∧
    (∃ tree, outcome (small.addAll additions) (bindValue false
        (.expr (.access none "aws_instance.web.ami"))) = .ok tree ∧
      tree.type = Ty.string.outputOf) ∧
    outcome (small.addAll additions) (bindValue false (.list
      [.expr (.access (some ⟨"main.tf", 1, 3, 0, 0⟩) "path.root"),
        .expr (.access none "local.region")])) =
      .error ⟨.notYet "path variables", some ⟨"main.tf", 1, 3, 0, 0⟩⟩ := by
  have hlacks : ∀ entity ∈ additions, small.Lacks entity := by
    simp only [additions, List.forall_mem_cons, Graph.Lacks]
    decide
  obtain ⟨tree, htree, htype⟩ : ∃ tree, outcome small (bindValue false
      (.expr (.access none "aws_instance.web.ami"))) = .ok tree ∧ tree.type = Ty.string.outputOf :=
    ⟨_, rfl, rfl⟩
  exact ⟨hlacks, ⟨tree, (bindValue_addAll hlacks).1 tree htree, htype⟩,
    (bindValue_addAll hlacks).2 _ rfl (by decide)⟩

end Bind

end Hil
