import Hil.Proofs.Dependencies.Source

/-!
# Bound trees and their sources

A bound tree has the arrangement of the value that it was bound from. An output of one operand is
its operand, so it leaves no node, and every other expression has a node of its own that points back
to it.
-/

namespace Hil

/-- The node points to the expression and has its place. -/
structure NodeInfo.StandsFor (info : NodeInfo) (e : Expr) : Prop where
  origin : info.origin = some e
  place : info.place = e.place

/-- The node points to no expression and has no place. -/
structure NodeInfo.StandsAlone (info : NodeInfo) : Prop where
  origin : info.origin = none
  place : info.place = none

/-- The tree has the arrangement and the contents of the value. -/
inductive Mirrors : Value → Tree → Prop
  | bool {info : NodeInfo} {type : Option Annotation} (alone : info.StandsAlone) (b : Bool) :
      Mirrors (.bool b) (.node info (.literal type (.bool b)))
  | int {info : NodeInfo} {type : Option Annotation} (alone : info.StandsAlone) (i : Int) :
      Mirrors (.int i) (.node info (.literal type (.int i)))
  | float {info : NodeInfo} {type : Option Annotation} (alone : info.StandsAlone) (x : Binary64) :
      Mirrors (.float x) (.node info (.literal type (.float x)))
  | str {info : NodeInfo} {type : Option Annotation} (alone : info.StandsAlone) (s : Str) :
      Mirrors (.str s) (.node info (.literal type (.str s)))
  | list {info : NodeInfo} {items : List Value} {elements : List Tree} (alone : info.StandsAlone)
      (images : List.Forall₂ Mirrors items elements) :
      Mirrors (.list items) (.node info (.list elements))
  /-- The keys of a map are the texts of the keys in the source. -/
  | map {info : NodeInfo} {entries : List (Literal × Value)} {bound : List (Str × Tree)}
      (alone : info.StandsAlone) (keys : bound.map Prod.fst = entries.map fun e ↦ e.1.text)
      (images : List.Forall₂ Mirrors (entries.map Prod.snd) (bound.map Prod.snd)) :
      Mirrors (.map entries) (.node info (.map bound))
  | arithmetic {info : NodeInfo} {place : Option Location} {operator : Option Operator}
      {operands : List Value} {type : Option Annotation} {exprs : List Tree}
      (source : info.StandsFor (.arithmetic place operator operands))
      (same : info.operator? = operator) (images : List.Forall₂ Mirrors operands exprs) :
      Mirrors (.expr (.arithmetic place operator operands)) (.node info (.arithmetic type exprs))
  | call {info : NodeInfo} {place : Option Location} {func : String} {operands : List Value}
      {type : Option Annotation} {args : List Tree}
      (source : info.StandsFor (.call place func operands))
      (images : List.Forall₂ Mirrors operands args) :
      Mirrors (.expr (.call place func operands)) (.node info (.call func type args))
  | conditional {info : NodeInfo} {place : Option Location} {condition whenTrue whenFalse : Value}
      {type : Option Annotation} {c t f : Tree}
      (source : info.StandsFor (.conditional place condition whenTrue whenFalse))
      (conditionImage : Mirrors condition c) (trueImage : Mirrors whenTrue t)
      (falseImage : Mirrors whenFalse f) :
      Mirrors (.expr (.conditional place condition whenTrue whenFalse))
        (.node info (.conditional type c t f))
  | index {info : NodeInfo} {place : Option Location} {target key : Value}
      {type : Option Annotation} {t k : Tree} (source : info.StandsFor (.index place target key))
      (targetImage : Mirrors target t) (keyImage : Mirrors key k) :
      Mirrors (.expr (.index place target key)) (.node info (.index type t k))
  | literal {info : NodeInfo} {place : Option Location} {tag : Tag} {type : Option Annotation}
      {value : Literal} (source : info.StandsFor (.literal place value tag)) :
      Mirrors (.expr (.literal place value tag)) (.node info (.literal type value))
  | access {info : NodeInfo} {place : Option Location} {name : String} {type : Option Annotation}
      {resolved : Access} (source : info.StandsFor (.access place name))
      (read : Reference.read name = .ok resolved.reference) :
      Mirrors (.expr (.access place name)) (.node info (.access type resolved))
  /-- An output of one operand is its operand. -/
  | wrapper {place : Option Location} {operand : Value} {tree : Tree}
      (image : Mirrors operand tree) : Mirrors (.expr (.output place [operand])) tree
  | output {info : NodeInfo} {place : Option Location} {operands : List Value}
      {type : Option Annotation} {exprs : List Tree}
      (source : info.StandsFor (.output place operands)) (several : operands.length ≠ 1)
      (images : List.Forall₂ Mirrors operands exprs) :
      Mirrors (.expr (.output place operands)) (.node info (.output type exprs))

variable {g : Graph} {hasCount : Bool} {look : String → Ty × Access} {values : List Value}
  {value : Value} {e : Expr} {reference : Reference} {type : Ty} {access : Access}

private theorem standsAlone : ({} : NodeInfo).StandsAlone := ⟨rfl, rfl⟩

private theorem standsFor (e : Expr) : ({ origin := some e } : NodeInfo).StandsFor e := ⟨rfl, rfl⟩

/-- What a reference resolves to keeps the reference. -/
theorem Resolves.reference_eq (h : Resolves hasCount g reference type access) :
    access.reference = reference := by
  cases h <;> rfl

private theorem sound_operand (h : ∀ p ∈ (Value.expr e).evaluation, p.Sound hasCount g) :
    ∀ v ∈ e.operands, ∀ p ∈ v.evaluation, p.Sound hasCount g := by
  intro v hv
  rw [Value.evaluation, Expr.evaluation_eq, List.forall_mem_append] at h
  have hoperand : ∀ p ∈ v.operandEvaluation, p.Sound hasCount g := fun p hp ↦
    h.1 p (List.mem_flatMap.mpr ⟨v, hv, hp⟩)
  rwa [← Value.operandEvaluation_eq hoperand]

private theorem mirrors_images (h : ∀ v ∈ values, Mirrors v (v.image look)) :
    List.Forall₂ Mirrors values (imagesOf look values) := by
  rw [imagesOf_eq_map, List.forall₂_map_right_iff, List.forall₂_same]
  exact h

/-- The image of a value without failing parts mirrors the value. -/
theorem mirrors_image (keys : value.DistinctKeys)
    (sound : ∀ p ∈ value.evaluation, p.Sound hasCount g) :
    Mirrors value (value.image g.lookUp) := by
  -- the parts of the value have distinct keys and are sound with the value
  induction keys with
  | @intro value here below ih =>
    cases value with
    | bool b => exact .bool standsAlone b
    | int i => exact .int standsAlone i
    | float x => exact .float standsAlone x
    | str s => exact .str standsAlone s
    | unsupported kindName shown =>
      exact absurd (.property kindName shown) (sound _ List.mem_cons_self _)
    | list items =>
      rw [Value.evaluation, itemsEvaluation_eq_flatMap, List.forall_mem_append] at sound
      exact .list standsAlone (mirrors_images fun v hv ↦
        ih v hv fun p hp ↦ sound.1 p (List.mem_flatMap.mpr ⟨v, hv, hp⟩))
    | map entries =>
      rw [Value.evaluation, entriesEvaluation_eq_flatMap, List.forall_mem_append] at sound
      have hkeys : (entryImages g.lookUp entries).map Prod.fst =
          entries.map fun e ↦ e.1.text := by
        rw [entryImages_eq_map, List.map_map]
        rfl
      have hentries : (Table.ofList (entryImages g.lookUp entries)).entries =
          entryImages g.lookUp entries :=
        Table.entries_ofList (hkeys ▸ here entries rfl)
      rw [Value.image, hentries]
      refine .map standsAlone hkeys ?_
      rw [entryImages_eq_map, List.map_map, List.forall₂_map_left_iff, List.forall₂_map_right_iff,
        List.forall₂_same]
      intro e he
      exact ih e.2 (List.mem_map_of_mem he) fun p hp ↦
        sound.1 p (List.mem_flatMap.mpr ⟨e, he, hp⟩)
    | expr e =>
      have himages (v : Value) (hv : v ∈ e.operands) : Mirrors v (v.image g.lookUp) :=
        ih v hv (sound_operand sound v hv)
      cases e with
      | arithmetic place operator operands =>
        exact .arithmetic (standsFor _) rfl (mirrors_images himages)
      | call place func args => exact .call (standsFor _) (mirrors_images himages)
      | conditional place c t f =>
        exact .conditional (standsFor _) (himages c (by simp [Expr.operands]))
          (himages t (by simp [Expr.operands])) (himages f (by simp [Expr.operands]))
      | index place t k =>
        exact .index (standsFor _) (himages t (by simp [Expr.operands]))
          (himages k (by simp [Expr.operands]))
      | literal place value tag => exact .literal (standsFor _)
      | output place operands =>
        rcases operands with _ | ⟨v, _ | ⟨v', vs⟩⟩
        · exact .output (standsFor _) (by simp) (mirrors_images himages)
        · exact .wrapper (himages v List.mem_cons_self)
        · exact .output (standsFor _) (by simp) (mirrors_images himages)
      | access place name =>
        obtain ⟨reference, type, access, read, resolves⟩ :=
          (sound _ List.mem_cons_self).exists_resolves
        rw [Value.image, Expr.image, Graph.lookUp_eq read resolves]
        exact .access (standsFor _) (resolves.reference_eq ▸ read)
      | other place className =>
        exact absurd (.other place className) (sound _ List.mem_cons_self _)

namespace Bind

/-- A tree that binding returns mirrors the value that it was bound from, and has no output of one
operand at any depth. -/
theorem bindValue_mirrors {tree : Tree} (h : outcome g (bindValue hasCount value) = .ok tree)
    (keys : value.DistinctKeys) :
    Mirrors value tree ∧
      tree.Everywhere fun _ shape ↦
        ∀ type exprs, shape = .output type exprs → exprs.length ≠ 1 := by
  constructor
  · obtain ⟨rfl, sound⟩ := (evaluates_bindValue g hasCount value).of_outcome_eq_ok h
    exact mirrors_image keys sound
  · refine (makes_bindValue h).imp fun info shape hmade type exprs hshape ↦ ?_
    subst hshape
    cases hmade.1 with
    | output _ several => exact several

/-- The map of `${"${format("a")}"}`, the call in two outputs, under `true`. -/
private def wrapped : Value :=
  .map [(.bool true, .expr (.output (some ⟨"main.tf", 1, 1, 0, 0⟩)
    [.expr (.output (some ⟨"main.tf", 1, 4, 0, 0⟩)
      [.expr (.call (some ⟨"main.tf", 1, 7, 0, 0⟩) "format"
        [.expr (.literal none (.str "a") .string)])])]))]

/-- A call in two outputs is bound to the call, with the place of the call. -/
theorem bindValue_mirrors_wrapped :
    ∃ info info' call, outcome .empty (bindValue false wrapped) =
        .ok (.node info (.map [("True", .node info' call)])) ∧
      wrapped.DistinctKeys ∧
      Mirrors wrapped (.node info (.map [("True", .node info' call)])) ∧
      info.place = none ∧ info'.place = some ⟨"main.tf", 1, 7, 0, 0⟩ := by
  have hdistinct : wrapped.DistinctKeys := by
    refine .intro (fun entries he ↦ ?_) (List.forall_mem_singleton.mpr ?_)
    · cases he
      exact List.nodup_singleton _
    · refine .intro nofun (List.forall_mem_singleton.mpr (.intro nofun ?_))
      refine List.forall_mem_singleton.mpr (.intro nofun (List.forall_mem_singleton.mpr ?_))
      exact .intro nofun nofun
  exact ⟨_, _, _, rfl, hdistinct, (@bindValue_mirrors .empty false wrapped _ rfl hdistinct).1, rfl,
    rfl⟩

end Bind

end Hil
