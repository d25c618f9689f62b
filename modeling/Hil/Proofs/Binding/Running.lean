import Hil.Proofs.Binding.Image
import Hil.Proofs.Binding.Parts

/-!
# Runs of binding

Binding a value evaluates the parts of the value in order, up to and including the first that fails.
It attaches the providers of the resources that the evaluated parts name, and gives the image of the
value if no part fails.
-/

namespace Hil

/-- The resource that a reference names. -/
def Reference.resourceId? (reference : Reference) : Option String :=
  match reference.target with
  | .resource name _ _ => some name.id
  | _ => none

/-- The resource that a part names. -/
def Part.resourceId? : Part → Option String
  | .node (.access _ name) =>
    match Reference.read name with
    | .ok reference => reference.resourceId?
    | .error _ => none
  | _ => none

/-- The resources that parts name, in their order. -/
def resourceIds (parts : List Part) : List String := parts.filterMap Part.resourceId?

private theorem resourceIds_append (parts parts' : List Part) :
    resourceIds (parts ++ parts') = resourceIds parts ++ resourceIds parts' :=
  List.filterMap_append

namespace Bind

variable {α β : Type} {hasCount : Bool} {g g' : Graph} {x : Bind α} {k : α → Bind β} {a : α}
  {b : β} {part : Part} {parts parts' : List Part} {fault : BindFault}

/-- The step evaluates the parts in order, from every graph in which some resources have been
resolved. It gives the value if all of them are sound, and the error of the first that is not
otherwise. In between it attaches the providers of the resources that it comes to. -/
inductive Evaluates (hasCount : Bool) (g : Graph) (parts : List Part) (x : Bind α) (a : α) : Prop
  | done (sound : ∀ p ∈ parts, p.Sound hasCount g)
      (run : ∀ g', g.Attaches g' → x.run.run g' = (.ok a, g'.attachAll (resourceIds parts)))
  | failed {before after : List Part} {part : Part} {e : BindError}
      (split : parts = before ++ part :: after) (sound : ∀ p ∈ before, p.Sound hasCount g)
      (fails : part.Fails hasCount g e.fault) (place : e.place = part.place)
      (run : ∀ g', g.Attaches g' →
        x.run.run g' = (.error e, g'.attachAll (resourceIds (before ++ [part]))))

/-! ### Steps -/

/-- A step that has nothing to check evaluates no parts. -/
theorem evaluates_pure (a : α) : Evaluates hasCount g [] (pure a : Bind α) a :=
  .done (List.forall_mem_nil _) fun _ _ ↦ rfl

/-- A step that gives a value evaluates a sound part that names no resource. -/
theorem evaluates_sound (h : part.Sound hasCount g) (hid : part.resourceId? = none) (a : α) :
    Evaluates hasCount g [part] (pure a : Bind α) a :=
  .done (List.forall_mem_singleton.mpr h) fun _ _ ↦ by simp [resourceIds, hid, Graph.attachAll]; rfl

/-- A failing step evaluates a part that fails and names no resource. -/
theorem evaluates_fail (h : part.Fails hasCount g fault) (hid : part.resourceId? = none) (a : α) :
    Evaluates hasCount g [part] (fail part.place fault : Bind α) a :=
  .failed rfl (List.forall_mem_nil _) h rfl fun _ _ ↦ by
    simp [resourceIds, hid, Graph.attachAll]; rfl

/-- A step that goes on evaluates first its own parts and then those of what it goes on with. -/
theorem Evaluates.bind (hx : Evaluates hasCount g parts x a)
    (hk : Evaluates hasCount g parts' (k a) b) :
    Evaluates hasCount g (parts ++ parts') (x >>= k) b := by
  cases hx with
  | @failed before after part e split sound fails place run =>
    have hsplit : parts ++ parts' = before ++ part :: (after ++ parts') := by
      rw [split, List.append_assoc, List.cons_append]
    refine .failed hsplit sound fails place fun g' hg ↦ ?_
    rw [run_bind, run g' hg]
  | done sound run =>
    have hattach (g' : Graph) (ps : List Part) :
        (g'.attachAll (resourceIds parts)).attachAll (resourceIds ps) =
          g'.attachAll (resourceIds (parts ++ ps)) := by
      rw [resourceIds_append, Graph.attachAll, Graph.attachAll, Graph.attachAll, List.foldl_append]
    cases hk with
    | done sound' run' =>
      refine .done (List.forall_mem_append.mpr ⟨sound, sound'⟩) fun g' hg ↦ ?_
      rw [run_bind, run g' hg, ← hattach]
      exact run' _ (hg.attachAll _)
    | @failed before after part e split sound' fails place run' =>
      have hsplit : parts ++ parts' = (parts ++ before) ++ part :: after := by
        rw [split, List.append_assoc]
      refine .failed hsplit (List.forall_mem_append.mpr ⟨sound, sound'⟩) fails place
        fun g' hg ↦ ?_
      rw [run_bind, run g' hg, List.append_assoc, ← hattach]
      exact run' _ (hg.attachAll _)

/-- What is made of a value is not checked. -/
theorem Evaluates.map (hx : Evaluates hasCount g parts x a) (f : α → β) :
    Evaluates hasCount g parts (x >>= fun a ↦ pure (f a)) (f a) := by
  rw [← List.append_nil parts]
  exact hx.bind (evaluates_pure _)

/-- Steps that are run in order evaluate the parts of each in turn. -/
theorem evaluates_mapM {as : List α} {partsOf : α → List Part} {f : α → Bind β} {image : α → β}
    (h : ∀ a ∈ as, Evaluates hasCount g (partsOf a) (f a) (image a)) :
    Evaluates hasCount g (as.flatMap partsOf) (as.mapM f) (as.map image) := by
  induction as with
  | nil => exact evaluates_pure []
  | cons a as ih =>
    rw [List.forall_mem_cons] at h
    rw [List.flatMap_cons, List.mapM_cons, List.map_cons]
    exact h.1.bind ((ih h.2).map _)

/-! ### Parts -/

/-- A reference attaches the provider of the resource that it names, if any, and changes nothing
else. -/
theorem run_resolve (place : Option Location) (reference : Reference) (h : g.Attaches g') :
    (reference.resolve hasCount place).run.run g' =
      (outcome g (reference.resolve hasCount place),
        g'.attachAll reference.resourceId?.toList) := by
  have houtcome : ((reference.resolve hasCount place).run.run g').1 =
      outcome g (reference.resolve hasCount place) := by
    obtain ⟨_, hrun, _⟩ := stable_resolve hasCount place reference g' h
    rw [hrun]
  refine Prod.ext houtcome ?_
  rw [Reference.resolve, run_get_bind, Reference.resourceId?]
  cases reference.target with
  | count isIndex => cases isIndex <;> cases hasCount <;> rfl
  | «local» name => simp only; cases g'.ref? .local name <;> rfl
  | module name field => simp only; cases g'.ref? .module name <;> rfl
  | user name element =>
    simp only
    split
    · rfl
    · cases g'.ref? .variable name <;> rfl
  | resource name selection field =>
    simp only [Reference.resolveResource, run_get_bind, Option.toList_some, Graph.attachAll,
      List.foldl_cons, List.foldl_nil, Graph.attach]
    cases g'.attachProvider name.id with
    | error e => cases e <;> rfl
    | ok p => rfl
  | _ => rfl

/-- An access evaluates itself. -/
theorem evaluates_access (place : Option Location) (name : String) :
    Evaluates hasCount g [.node (.access place name)] (bindExpr hasCount (.access place name))
      (Expr.image g.lookUp (.access place name)) := by
  rw [bindExpr]
  cases hread : Reference.read name with
  | error fault =>
    have hfails : Part.Fails hasCount g (.node (.access place name)) (.notAReference name fault) :=
      .notAReference hread
    exact evaluates_fail hfails (by rw [Part.resourceId?, hread]) _
  | ok reference =>
    have hids : resourceIds [.node (.access place name)] = reference.resourceId?.toList := by
      simp only [resourceIds, List.filterMap_cons, Part.resourceId?, hread, List.filterMap_nil]
      cases reference.resourceId? <;> rfl
    have hresolve : Evaluates hasCount g [.node (.access place name)]
        (reference.resolve hasCount place) (g.lookUp name) := by
      cases h : outcome g (reference.resolve hasCount place) with
      | ok resolved =>
        have hres := outcome_resolve_eq_ok_iff.mp h
        refine .done (List.forall_mem_singleton.mpr fun fault hf ↦ ?_) fun g' hg ↦ ?_
        · cases hf with
          | notAReference read => rw [hread] at read; cases read
          | access read unresolvable =>
            obtain rfl := Except.ok.inj (hread.symm.trans read)
            exact not_unresolvable hres unresolvable
        · rw [run_resolve place reference hg, h, hids, Graph.lookUp_eq hread hres]
      | error e =>
        obtain ⟨unresolvable, hplace⟩ := unresolvable_of_outcome h
        have hsplit : [Part.node (.access place name)] =
            [] ++ .node (.access place name) :: [] := rfl
        refine .failed hsplit (List.forall_mem_nil _) (.access hread unresolvable) hplace
          fun g' hg ↦ ?_
        rw [run_resolve place reference hg, h, List.nil_append, hids]
    exact hresolve.map _

/-- A call evaluates itself when its arguments have been bound. -/
theorem evaluates_call (place : Option Location) (func : String) (args : List Value)
    {bound : List Tree} (h : bound.length = args.length) :
    Evaluates hasCount g [.node (.call place func args)]
      (ofExcept place (callType func (bound.map Tree.type)) >>= fun type ↦
        pure (boundFrom (.call place func args) (.call func (typed type) bound)))
      (boundFrom (.call place func args) (.call func
        ((callType func (bound.map Tree.type)).toOption.map .known) bound)) := by
  cases hc : callType func (bound.map Tree.type) with
  | ok type =>
    refine evaluates_sound (fun fault hf ↦ ?_) rfl _
    have herror : callType func (bound.map Tree.type) = .error fault := by
      rw [callType_eq_error_iff, List.length_map, h]
      cases hf with
      | function unsupported => exact .inl ⟨unsupported, rfl⟩
      | oddMap odd => exact .inr ⟨rfl, odd, rfl⟩
    rw [hc] at herror
    cases herror
  | error fault =>
    have hfails : Part.Fails hasCount g (.node (.call place func args)) fault := by
      rw [callType_eq_error_iff, List.length_map, h] at hc
      rcases hc with ⟨unsupported, rfl⟩ | ⟨rfl, odd, rfl⟩
      · exact .function unsupported
      · exact .oddMap odd
    exact evaluates_fail hfails rfl _

/-- Operands are evaluated from left to right. -/
theorem evaluates_bindOperands {values : List Value}
    (h : ∀ v ∈ values, Evaluates hasCount g v.operandEvaluation (bindOperand hasCount v)
      (v.image g.lookUp)) :
    Evaluates hasCount g (operandsEvaluation values) (bindOperands hasCount values)
      (imagesOf g.lookUp values) := by
  rw [operandsEvaluation_eq_flatMap, bindOperands_eq_mapM, imagesOf_eq_map]
  exact evaluates_mapM h

/-- Values and operands are bound by evaluating their parts. -/
theorem evaluates_both (g : Graph) (hasCount : Bool) (value : Value) :
    Evaluates hasCount g value.evaluation (bindValue hasCount value) (value.image g.lookUp) ∧
      Evaluates hasCount g value.operandEvaluation (bindOperand hasCount value)
        (value.image g.lookUp) := by
  -- an operand that is no expression fails as a whole, so the two differ on everything else
  induction value using Value.induct (Q := fun e ↦
    Evaluates hasCount g e.evaluation (bindExpr hasCount e) (e.image g.lookUp)) with
  | expr e ih => exact ⟨ih, ih⟩
  | bool b => exact ⟨evaluates_sound (by rintro _ ⟨⟩) rfl _, evaluates_fail (.operand _) rfl _⟩
  | int i => exact ⟨evaluates_sound (by rintro _ ⟨⟩) rfl _, evaluates_fail (.operand _) rfl _⟩
  | float x => exact ⟨evaluates_sound (by rintro _ ⟨⟩) rfl _, evaluates_fail (.operand _) rfl _⟩
  | str s => exact ⟨evaluates_sound (by rintro _ ⟨⟩) rfl _, evaluates_fail (.operand _) rfl _⟩
  | list items ih =>
    refine ⟨?_, evaluates_fail (.operand _) rfl _⟩
    rw [Value.evaluation, itemsEvaluation_eq_flatMap, bindValue, bindItems_eq_mapM, Value.image,
      imagesOf_eq_map]
    exact (evaluates_mapM fun v hv ↦ (ih v hv).1).bind (evaluates_sound (by rintro _ ⟨⟩) rfl _)
  | map entries ih =>
    refine ⟨?_, evaluates_fail (.operand _) rfl _⟩
    rw [Value.evaluation, entriesEvaluation_eq_flatMap, bindValue, bindEntries_eq_mapM, Value.image,
      entryImages_eq_map]
    exact (evaluates_mapM fun e he ↦ (ih e he).1.map _).bind
      (evaluates_sound (by rintro _ ⟨⟩) rfl _)
  | unsupported kindName shown =>
    exact ⟨evaluates_fail (.property kindName shown) rfl _, evaluates_fail (.operand _) rfl _⟩
  | arithmetic place operator operands ih =>
    rw [Expr.evaluation, bindExpr, Expr.image]
    exact (evaluates_bindOperands fun v hv ↦ (ih v hv).2).bind
      (evaluates_sound (by rintro _ ⟨⟩) rfl _)
  | call place func args ih =>
    rw [Expr.evaluation, bindExpr, Expr.image]
    exact (evaluates_bindOperands fun v hv ↦ (ih v hv).2).bind
      (evaluates_call place func args (by rw [imagesOf_eq_map, List.length_map]))
  | conditional place c t f ihc iht ihf =>
    rw [Expr.evaluation, bindExpr, Expr.image]
    exact ihc.2.bind (iht.2.bind (ihf.2.bind (evaluates_sound (by rintro _ ⟨⟩) rfl _)))
  | index place t k iht ihk =>
    rw [Expr.evaluation, bindExpr, Expr.image]
    exact iht.2.bind (ihk.2.bind (evaluates_sound (by rintro _ ⟨⟩) rfl _))
  | literal place value tag =>
    rw [Expr.evaluation, bindExpr, Expr.image]
    cases htag : tag.type? with
    | none =>
      have hfails : Part.Fails hasCount g (.node (.literal place value tag)) (.literalTag tag) :=
        .literal (type?_eq_none_iff.mp htag)
      exact evaluates_fail hfails rfl _
    | some type =>
      refine evaluates_sound (fun fault hf ↦ ?_) rfl _
      cases hf with
      | literal untyped => rw [type?_eq_none_iff.mpr untyped] at htag; cases htag
  | output place operands ih =>
    rw [Expr.evaluation, bindExpr_output, Expr.image]
    exact (evaluates_bindOperands fun v hv ↦ (ih v hv).2).bind
      (evaluates_sound (by rintro _ ⟨⟩) rfl _)
  | access place name =>
    rw [Expr.evaluation]
    exact evaluates_access place name
  | other place className =>
    have hfails : Part.Fails hasCount g (.node (.other place className))
        (.notAnExpression className) := .other place className
    exact evaluates_fail hfails rfl _

/-- A step that gives a value gives the one that it evaluates to, and none of its parts fails. -/
theorem Evaluates.of_outcome_eq_ok {a' : α} (h : Evaluates hasCount g parts x a)
    (hok : outcome g x = .ok a') : a' = a ∧ ∀ p ∈ parts, p.Sound hasCount g := by
  rw [outcome] at hok
  cases h with
  | done sound run =>
    rw [run g (.refl g)] at hok
    cases hok
    exact ⟨rfl, sound⟩
  | failed split sound fails place run =>
    rw [run g (.refl g)] at hok
    cases hok

/-- A step gives the value that it evaluates to if none of its parts fails. -/
theorem Evaluates.outcome_eq_ok (h : Evaluates hasCount g parts x a)
    (sound : ∀ p ∈ parts, p.Sound hasCount g) : outcome g x = .ok a := by
  rw [outcome]
  cases h with
  | done _ run => rw [run g (.refl g)]
  | failed split _ fails => exact absurd fails (sound _ (by simp [split]) _)

/-- A step that evaluates parts fails exactly with the error of the first that does. -/
theorem Evaluates.outcome_eq_error_iff {e : BindError} (h : Evaluates hasCount g parts x a) :
    outcome g x = .error e ↔ FirstError hasCount g parts e := by
  rw [outcome]
  cases h with
  | done sound run =>
    rw [run g (.refl g)]
    constructor
    · rintro ⟨⟩
    · rintro ⟨before, part, after, heq, -, fails, -⟩
      exact absurd fails (sound part (by simp [heq]) e.fault)
  | failed split sound fails place run =>
    have hfirst : FirstError hasCount g parts _ := ⟨_, _, _, split, sound, fails, place⟩
    rw [run g (.refl g)]
    exact ⟨fun he ↦ Except.error.inj he ▸ hfirst, fun he ↦ congrArg _ (hfirst.unique he)⟩

/-- A step attaches the providers of the resources that the evaluated parts name, from every graph
in which some have been attached. -/
theorem Evaluates.exists_run (h : Evaluates hasCount g parts x a) :
    ∃ done, (∀ p, p ∈ done ↔ Evaluated hasCount g parts p) ∧
      ∀ g', g.Attaches g' → x.run.run g' = (outcome g x, g'.attachAll (resourceIds done)) := by
  rw [outcome]
  cases h with
  | done sound run =>
    refine ⟨parts, fun p ↦ (evaluated_iff_of_sound sound).symm, fun g' hg ↦ ?_⟩
    rw [run g' hg, run g (.refl g)]
  | @failed before after part e split sound fails place run =>
    subst split
    refine ⟨before ++ [part], fun p ↦ (evaluated_iff_of_fails sound fails).symm, fun g' hg ↦ ?_⟩
    rw [run g' hg, run g (.refl g)]

/-- Binding a value evaluates its parts, and gives its image if none of them fails. -/
theorem evaluates_bindValue (g : Graph) (hasCount : Bool) (value : Value) :
    Evaluates hasCount g value.evaluation (bindValue hasCount value) (value.image g.lookUp) :=
  (evaluates_both g hasCount value).1

end Bind

end Hil
