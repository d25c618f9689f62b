import Hil.Proofs.Binding.Running
import Hil.Proofs.Reference.Segment

/-!
# Count scopes

One text alone refers to the index of a count scope. An access with that text fails outside of a
count scope, and no other part of a value is affected by the scope. So binding a value in a count
scope and outside of one is the same up to the first such access.
-/

namespace Hil

variable {g : Graph} {part : Part} {parts : List Part} {fault : BindFault} {name : String}
  {place : Option Location} {hasCount : Bool}

/-! ### The text of the count index -/

private theorem targetOf_eq_count {head : String} {rest : List String}
    (h : targetOf head rest = .count true) : head = "count" ∧ joinDots rest = "index" := by
  unfold targetOf at h
  split at h <;> simp_all

/-- The text with which an access refers to the count index. -/
theorem Reference.read_countIndex :
    Reference.read "count.index" = .ok ⟨"count.index", .count true⟩ := rfl

/-- No other text refers to the count index. -/
theorem Reference.eq_of_read_countIndex {reference : Reference}
    (read : Reference.read name = .ok reference) (target : reference.target = .count true) :
    name = "count.index" := by
  have hjoin := joinDots_segmentsOf name
  rw [segmentsOf] at hjoin
  rw [Reference.read] at read
  cases hruns : Text.splitAt '.' name.toList with
  | nil => exact absurd hruns (Text.splitAt_ne_nil '.' name.toList)
  | cons first runs =>
    rw [hruns] at read hjoin
    cases runs with
    | nil =>
      -- a text without a dot is a simple reference
      simp only at read
      split at read <;> cases read
      cases target
    | cons second runs =>
      simp only at read
      split at read <;> cases read
      obtain ⟨hhead, hrest⟩ := targetOf_eq_count target
      simp only [List.map_cons, List.headD_cons, List.tail_cons] at hhead hrest hjoin
      rw [← hjoin, joinDots, String.intercalate_cons_cons, ← joinDots, hhead, hrest]
      rfl

/-! ### Parts in and outside of a scope -/

/-- The part is an access to the count index. -/
def Part.IsCountIndex (part : Part) : Prop := ∃ place, part = .node (.access place "count.index")

/-- A reference to anything but the count index is unresolvable in a count scope exactly if it is
outside of one. -/
theorem Reference.Unresolvable.ofScope {reference : Reference}
    (other : reference.target ≠ .count true) (h : reference.Unresolvable hasCount g fault)
    (hasCount' : Bool) :
    reference.Unresolvable hasCount' g fault := by
  cases h with
  | countField target => exact .countField target
  | noCountScope target _ => exact absurd target other
  | path target => exact .path target
  | self target => exact .self target
  | simple target => exact .simple target
  | terraform target => exact .terraform target
  | element target given => exact .element target given
  | user target missing => exact .user target missing
  | «local» target missing => exact .local target missing
  | module target missing => exact .module target missing
  | resource target missing => exact .resource target missing
  | provider target found unattached missing => exact .provider target found unattached missing

/-- A part other than an access to the count index fails in a count scope exactly if it fails
outside of one. -/
theorem Part.Fails.ofScope (other : ¬ part.IsCountIndex) (h : part.Fails hasCount g fault)
    (hasCount' : Bool) : part.Fails hasCount' g fault := by
  cases h with
  | property kindName shown => exact .property kindName shown
  | operand value => exact .operand value
  | other place className => exact .other place className
  | literal untyped => exact .literal untyped
  | function unsupported => exact .function unsupported
  | oddMap odd => exact .oddMap odd
  | notAReference read => exact .notAReference read
  | @access place name reference _ read unresolvable =>
    refine .access read (unresolvable.ofScope (fun target ↦ other ⟨place, ?_⟩) hasCount')
    rw [Reference.eq_of_read_countIndex read target]

private theorem Part.Sound.ofScope (other : ¬ part.IsCountIndex) (h : part.Sound hasCount g)
    (hasCount' : Bool) : part.Sound hasCount' g :=
  fun fault hf ↦ h fault (hf.ofScope other hasCount)

/-- There is no count index outside of a count scope. -/
theorem Part.fails_countIndex (g : Graph) (place : Option Location) :
    Part.Fails false g (.node (.access place "count.index")) .noCountScope :=
  .access Reference.read_countIndex (.noCountScope rfl rfl)

/-- A count scope has a count index. -/
theorem Part.IsCountIndex.sound (h : part.IsCountIndex) (g : Graph) : part.Sound true g := by
  obtain ⟨place, rfl⟩ := h
  intro fault hf
  cases hf with
  | notAReference read => rw [Reference.read_countIndex] at read; cases read
  | access read unresolvable =>
    obtain rfl := Except.ok.inj (Reference.read_countIndex.symm.trans read)
    cases unresolvable <;> simp_all

namespace Bind

variable {α : Type} {x x' : Bind α} {a : α}

/-- Steps that evaluate the same parts in a count scope and outside of one do the same, unless they
come to the count index. -/
theorem Evaluates.run_eq (h : Evaluates true g parts x a) (h' : Evaluates false g parts x' a)
    (other : ∀ p, Evaluated true g parts p → ¬ p.IsCountIndex) : x'.run.run g = x.run.run g := by
  cases h with
  | done sound run =>
    have sound' (p : Part) (hp : p ∈ parts) : p.Sound false g :=
      (sound p hp).ofScope (other p ((evaluated_iff_of_sound sound).mpr hp)) false
    cases h' with
    | done _ run' => rw [run g (.refl g), run' g (.refl g)]
    | failed split _ fails => exact absurd fails (sound' _ (by simp [split]) _)
  | @failed before after part e split sound fails place run =>
    subst split
    have hother (p : Part) (hp : p ∈ before ++ [part]) : ¬ p.IsCountIndex :=
      other p ((evaluated_iff_of_fails sound fails).mpr hp)
    have sound' (p : Part) (hp : p ∈ before) : p.Sound false g :=
      (sound p hp).ofScope (hother p (by simp [hp])) false
    have fails' : part.Fails false g e.fault := fails.ofScope (hother part (by simp)) false
    cases h' with
    | done all _ => exact absurd fails' (all part (by simp) e.fault)
    | @failed before' after' part' e' split' sound'' fails'' place' run' =>
      obtain rfl : e = e' := FirstError.unique ⟨before, part, after, rfl, sound', fails', place⟩
        ⟨before', part', after', split', sound'', fails'', place'⟩
      obtain ⟨rfl, rfl, -⟩ := firstFailing_unique split' sound' fails' sound'' fails''
      rw [run g (.refl g), run' g (.refl g)]

/-- Outside of a count scope a step fails at the first access to the count index. -/
theorem Evaluates.outcome_countIndex {before after : List Part}
    (h : Evaluates false g (before ++ .node (.access place "count.index") :: after) x a)
    (sound : ∀ p ∈ before, p.Sound true g ∧ ¬ p.IsCountIndex) :
    outcome g x = .error ⟨.noCountScope, place⟩ := by
  have hfails := Part.fails_countIndex g place
  have hsound (p : Part) (hp : p ∈ before) : p.Sound false g :=
    (sound p hp).1.ofScope (sound p hp).2 false
  rw [outcome]
  cases h with
  | done all _ => exact absurd hfails (all _ (by simp) _)
  | @failed before' after' part' e split sound' fails place' run =>
    obtain rfl : e = ⟨.noCountScope, place⟩ :=
      FirstError.unique ⟨before', part', after', split, sound', fails, place'⟩
        ⟨before, _, after, rfl, hsound, hfails, rfl⟩
    rw [run g (.refl g)]

/-- If an access to the count index is evaluated, one of them is the first. -/
theorem exists_first_countIndex {part : Part} (h : Evaluated true g parts part)
    (hpart : part.IsCountIndex) :
    ∃ before place after, parts = before ++ .node (.access place "count.index") :: after ∧
      ∀ p ∈ before, p.Sound true g ∧ ¬ p.IsCountIndex := by
  classical
  obtain ⟨before, after, rfl, sound⟩ := h
  have hsound (p : Part) (hp : p ∈ before ++ [part]) : p.Sound true g := by
    rcases List.mem_append.mp hp with hp | hp
    · exact sound p hp
    · rw [List.mem_singleton.mp hp]
      exact hpart.sound g
  have hfind : ((before ++ [part]).find? fun p ↦ decide p.IsCountIndex).isSome := by
    rw [List.find?_isSome]
    exact ⟨part, by simp, by simpa using hpart⟩
  obtain ⟨first, hfirst⟩ := Option.isSome_iff_exists.mp hfind
  obtain ⟨hcount, before', after', hsplit, hnone⟩ := List.find?_eq_some_iff_append.mp hfirst
  obtain ⟨place, rfl⟩ := of_decide_eq_true hcount
  refine ⟨before', place, after' ++ after, ?_, fun p hp ↦ ⟨hsound p (by simp [hsplit, hp]), ?_⟩⟩
  · rw [← List.cons_append, ← List.append_assoc, ← hsplit, List.append_assoc,
      List.singleton_append]
  · simpa using hnone p hp

/-- The count scope gates the count index and nothing else. A value that comes to no access to the
count index is bound in the same way outside of a count scope, with the same outcome and the same
effect on the graph. Any other value fails there, at the first access to the count index that it
comes to. So what a value is bound to outside of a count scope it is also bound to in one. -/
theorem bindValue_countScope (g : Graph) (value : Value) :
    ((∀ p, Evaluated true g value.evaluation p → ¬ p.IsCountIndex) →
      (bindValue false value).run.run g = (bindValue true value).run.run g) ∧
    ((∃ p, Evaluated true g value.evaluation p ∧ p.IsCountIndex) →
      ∃ before place after,
        value.evaluation = before ++ .node (.access place "count.index") :: after ∧
        (∀ p ∈ before, p.Sound true g ∧ ¬ p.IsCountIndex) ∧
        ∃ e, outcome g (bindValue false value) = .error e ∧ e.fault = .noCountScope ∧
          e.problem.category = .scope ∧ e.problem.location = place) ∧
    ∀ tree, outcome g (bindValue false value) = .ok tree →
      outcome g (bindValue true value) = .ok tree := by
  have hscope := evaluates_bindValue g true value
  have hnoScope := evaluates_bindValue g false value
  have hfirst {p : Part} (h : Evaluated true g value.evaluation p) (hp : p.IsCountIndex) :
      ∃ before place after,
        value.evaluation = before ++ .node (.access place "count.index") :: after ∧
        (∀ p ∈ before, p.Sound true g ∧ ¬ p.IsCountIndex) ∧
        outcome g (bindValue false value) = .error ⟨.noCountScope, place⟩ := by
    obtain ⟨before, place, after, hsplit, hbefore⟩ := exists_first_countIndex h hp
    exact ⟨before, place, after, hsplit, hbefore, (hsplit ▸ hnoScope).outcome_countIndex hbefore⟩
  refine ⟨hscope.run_eq hnoScope, ?_, fun tree htree ↦ ?_⟩
  · rintro ⟨p, h, hp⟩
    obtain ⟨before, place, after, hsplit, hbefore, herror⟩ := hfirst h hp
    exact ⟨before, place, after, hsplit, hbefore, _, herror, rfl, rfl, rfl⟩
  · by_cases hnone : ∀ p, Evaluated true g value.evaluation p → ¬ p.IsCountIndex
    · rw [outcome, ← hscope.run_eq hnoScope hnone]
      exact htree
    · push Not at hnone
      obtain ⟨p, h, hp⟩ := hnone
      obtain ⟨_, _, _, _, _, herror⟩ := hfirst h hp
      rw [herror] at htree
      cases htree

/-- An access to a field of the count index, which is no access to the count index. -/
private def indexField : Value := .expr (.access none "count.index.foo")

/-- A list whose second item is the count index. -/
private def countedItem : Value :=
  .list [.str "a", .expr (.access (some ⟨"main.tf", 1, 3, 1, 14⟩) "count.index")]

/-- A field of the count index fails in the same way in a count scope and outside of one. The list
comes to the count index, and fails there outside of a count scope. -/
theorem bindValue_countScope_item :
    ((∀ p, Evaluated true Graph.empty indexField.evaluation p → ¬ p.IsCountIndex) ∧
      (bindValue false indexField).run.run Graph.empty =
        (bindValue true indexField).run.run Graph.empty) ∧
    (∃ p, Evaluated true Graph.empty countedItem.evaluation p ∧ p.IsCountIndex) ∧
      ∃ e, outcome Graph.empty (bindValue false countedItem) = .error e ∧
        e.problem.category = .scope ∧ e.problem.location = some ⟨"main.tf", 1, 3, 1, 14⟩ := by
  have hother (p : Part) (h : Evaluated true Graph.empty indexField.evaluation p) :
      ¬ p.IsCountIndex := by
    obtain ⟨before, after, hsplit, _⟩ := h
    have hp : p ∈ indexField.evaluation := by simp [hsplit]
    obtain rfl := List.mem_singleton.mp hp
    simp [Part.IsCountIndex]
  have hcomes : ∃ p, Evaluated true Graph.empty countedItem.evaluation p ∧ p.IsCountIndex := by
    refine ⟨_, ⟨[.property (.str "a")], _, rfl, List.forall_mem_singleton.mpr ?_⟩, _, rfl⟩
    rintro _ ⟨⟩
  refine ⟨⟨hother, (bindValue_countScope Graph.empty indexField).1 hother⟩, hcomes, ?_⟩
  obtain ⟨before, place, after, hsplit, hbefore, e, herror, -, hcategory, hlocation⟩ :=
    (bindValue_countScope Graph.empty countedItem).2.1 hcomes
  refine ⟨e, herror, hcategory, hlocation.trans ?_⟩
  -- the access is the second of the three parts
  rcases before with _ | ⟨p, _ | ⟨q, _ | ⟨r, before⟩⟩⟩ <;>
    simp_all [countedItem, Value.evaluation, itemsEvaluation, Expr.evaluation]

end Bind

end Hil
