import Hil.Proofs.Binding.References
import Hil.Proofs.List.Related
import Hil.Proofs.Table.Entries
import Hil.Proofs.Tree.Everywhere

/-!
# Nodes that binding makes

Binding makes one kind of node for each kind of value and expression, above parts that have been
bound before. Whatever holds of all such nodes holds everywhere in a bound tree.
-/

namespace Hil

/-- The operands of an expression. -/
def Expr.operands : Expr → List Value
  | .arithmetic _ _ operands | .output _ operands => operands
  | .call _ _ args => args
  | .conditional _ condition whenTrue whenFalse => [condition, whenTrue, whenFalse]
  | .index _ target key => [target, key]
  | .literal .. | .access .. | .other .. => []

/-- The values that a value is made of. -/
def Value.parts : Value → List Value
  | .expr e => e.operands
  | .list items => items
  | .map entries => entries.map Prod.snd
  | .bool _ | .int _ | .float _ | .str _ | .unsupported .. => []

/-- A property of all values follows from that of the values that they are made of. -/
theorem Value.induct_parts {P : Value → Prop} (h : ∀ v : Value, (∀ p ∈ v.parts, P p) → P v)
    (v : Value) : P v := by
  induction v using Value.induct (Q := fun e ↦ P (.expr e)) with
  | expr e ih => exact ih
  | map entries ih =>
    refine h _ fun p hp ↦ ?_
    obtain ⟨e, he, rfl⟩ := List.mem_map.mp hp
    exact ih e he
  | list items ih => exact h _ ih
  | arithmetic _ _ operands ih => exact h _ ih
  | call _ _ args ih => exact h _ ih
  | output _ operands ih => exact h _ ih
  | conditional _ c t f ihc iht ihf =>
    exact h _ (List.forall_mem_cons.mpr ⟨ihc, List.forall_mem_cons.mpr ⟨iht,
      List.forall_mem_singleton.mpr ihf⟩⟩)
  | index _ t k iht ihk =>
    exact h _ (List.forall_mem_cons.mpr ⟨iht, List.forall_mem_singleton.mpr ihk⟩)
  | _ => exact h _ (List.forall_mem_nil _)

/-- An expression that occurs in a value. -/
inductive Value.Contains : Value → Expr → Prop
  | self (e : Expr) : Contains (.expr e) e
  | part {v p : Value} {e : Expr} (part : p ∈ v.parts) (inside : Contains p e) : Contains v e

/-- A node that binding makes against the graph, in a count scope or outside of one. -/
inductive Makes (hasCount : Bool) (g : Graph) : NodeInfo → Shape Tree → Prop
  | list (elements : List Tree) : Makes hasCount g {} (.list elements)
  | map {entries : List (Str × Tree)} (distinct : (entries.map Prod.fst).Nodup) :
      Makes hasCount g {} (.map entries)
  | bool (b : Bool) : Makes hasCount g {} (.literal (typed Ty.bool) (.bool b))
  | int (i : Int) : Makes hasCount g {} (.literal (typed Ty.number) (.int i))
  | float (x : Binary64) : Makes hasCount g {} (.literal (typed Ty.number) (.float x))
  | str (s : Str) : Makes hasCount g {} (.literal (typed Ty.string) (.str s))
  | arithmetic {place : Option Location} {operator : Option Operator} {operands : List Value}
      {exprs : List Tree} (bound : ∀ t ∈ exprs, t.isExpr = true) :
      Makes hasCount g { origin := some (.arithmetic place operator operands) }
        (.arithmetic (typed Ty.unknown) exprs)
  | call {place : Option Location} {func : String} {operands : List Value} {args : List Tree}
      {type : Ty} (bound : ∀ t ∈ args, t.isExpr = true)
      (typing : callType func (args.map Tree.type) = .ok type) :
      Makes hasCount g { origin := some (.call place func operands) } (.call func (typed type) args)
  | conditional {place : Option Location} {condition whenTrue whenFalse : Value} {c t f : Tree}
      (bound : ∀ u ∈ [c, t, f], u.isExpr = true) :
      Makes hasCount g { origin := some (.conditional place condition whenTrue whenFalse) }
        (.conditional (typed (branchType t.type f.type)) c t f)
  | index {place : Option Location} {target key : Value} {t k : Tree}
      (bound : ∀ u ∈ [t, k], u.isExpr = true) :
      Makes hasCount g { origin := some (.index place target key) }
        (.index (typed (elementOrUnknown t.type)) t k)
  | literal {place : Option Location} {value : Literal} {tag : Tag} {type : Ty}
      (typing : tag.type? = some type) :
      Makes hasCount g { origin := some (.literal place value tag) } (.literal (typed type) value)
  | output {place : Option Location} {operands : List Value} {exprs : List Tree}
      (bound : ∀ t ∈ exprs, t.isExpr = true) (several : exprs.length ≠ 1) :
      Makes hasCount g { origin := some (.output place operands) }
        (.output (typed Ty.string) exprs)
  | access {place : Option Location} {name : String} {reference : Reference} {type : Ty}
      {resolved : Access} (read : Reference.read name = .ok reference)
      (resolves : Resolves hasCount g reference type resolved) :
      Makes hasCount g { origin := some (.access place name) } (.access (typed type) resolved)

/-- A node that binding makes is of a class that traversals know, with distinct keys, and has
expressions below if it is one. -/
theorem Makes.regular {hasCount : Bool} {g : Graph} {info : NodeInfo} {shape : Shape Tree}
    (h : Makes hasCount g info shape) : Tree.Regular shape := by
  have keys : shape.keys.Nodup := by
    cases h with
    | map distinct => exact distinct
    | _ => exact List.nodup_nil
  cases h with
  | list elements => exact ⟨rfl, keys, nofun⟩
  | map distinct => exact ⟨rfl, keys, nofun⟩
  | arithmetic bound => exact ⟨rfl, keys, fun _ ↦ bound⟩
  | call bound _ => exact ⟨rfl, keys, fun _ ↦ bound⟩
  | conditional bound => exact ⟨rfl, keys, fun _ ↦ bound⟩
  | index bound => exact ⟨rfl, keys, fun _ ↦ bound⟩
  | output bound _ => exact ⟨rfl, keys, fun _ ↦ bound⟩
  | _ => exact ⟨rfl, keys, fun _ ↦ nofun⟩

namespace Bind

variable {g : Graph} {hasCount : Bool} {values : List Value} {trees : List Tree} {tree : Tree}
  {value : Value} {e : Expr}

/-- The tree consists of nodes that binding makes, for expressions that occur in the value. -/
private def MadeOf (hasCount : Bool) (g : Graph) (value : Value) : Tree → Prop :=
  Tree.Everywhere fun info shape ↦
    Makes hasCount g info shape ∧ ∀ e ∈ info.origin, value.Contains e

private theorem MadeOf.part {v : Value} (h : MadeOf hasCount g v tree) (hv : v ∈ value.parts) :
    MadeOf hasCount g value tree :=
  h.imp fun _ _ hm ↦ hm.imp_right fun inside e he ↦ .part hv (inside e he)

/-- The tree is an expression made of the value. -/
private def MadeOfOperand (hasCount : Bool) (g : Graph) (value : Value) (tree : Tree) : Prop :=
  MadeOf hasCount g value tree ∧ tree.isExpr = true

/-- An operand is bound to an expression made of it. -/
private def OperandMade (hasCount : Bool) (g : Graph) (value : Value) : Prop :=
  ∀ t, outcome g (bindOperand hasCount value) = .ok t → MadeOfOperand hasCount g value t

/-- An expression is bound to an expression made of it. -/
private def ExprMade (hasCount : Bool) (g : Graph) (e : Expr) : Prop :=
  ∀ t, outcome g (bindExpr hasCount e) = .ok t → MadeOfOperand hasCount g (.expr e) t

/-- A node that binding makes for an expression above what it has made of the operands. -/
theorem madeOf_node {shape : Shape Tree}
    (here : Makes hasCount g { origin := some e } shape)
    (below : ∀ t ∈ shape.children, MadeOf hasCount g (.expr e) t)
    (expr : shape.isExpr = true) : MadeOfOperand hasCount g (.expr e) (boundFrom e shape) :=
  ⟨.node ⟨here, fun _ he ↦ Option.some.inj he ▸ .self e⟩ below, expr⟩

private theorem madeOf_operands (e : Expr) (hv : ∀ v ∈ values, v ∈ e.operands)
    (h : ∀ v ∈ values, OperandMade hasCount g v)
    (hb : outcome g (bindOperands hasCount values) = .ok trees) :
    (∀ t ∈ trees, MadeOf hasCount g (.expr e) t) ∧ ∀ t ∈ trees, t.isExpr = true := by
  have hall : ∀ t ∈ trees, MadeOfOperand hasCount g (.expr e) t := by
    intro t ht
    obtain ⟨v, hm, hvt⟩ := forall₂_exists_left (outcome_bindOperands_eq_ok_iff.mp hb) ht
    exact (h v hm t hvt).imp_left fun made ↦ made.part (hv v hm)
  exact ⟨fun t ht ↦ (hall t ht).1, fun t ht ↦ (hall t ht).2⟩

private theorem madeOf_unplaced {shape : Shape Tree} (here : Makes hasCount g {} shape)
    (below : ∀ t ∈ shape.children, MadeOf hasCount g value t) :
    MadeOf hasCount g value (unplaced shape) :=
  .node ⟨here, fun _ he ↦ by cases he⟩ below

private theorem madeOf_scalar {shape : Shape Tree} (here : Makes hasCount g {} shape)
    (leaf : shape.children = [])
    (hvalue : outcome g (bindValue hasCount value) = .ok (unplaced shape))
    (hoperand : ∀ t, outcome g (bindOperand hasCount value) ≠ .ok t) :
    (∀ t, outcome g (bindValue hasCount value) = .ok t → MadeOf hasCount g value t) ∧
      OperandMade hasCount g value := by
  refine ⟨fun t h ↦ ?_, fun t h ↦ absurd h (hoperand t)⟩
  rw [hvalue] at h
  obtain rfl := Except.ok.inj h
  refine madeOf_unplaced here ?_
  rw [leaf]
  exact List.forall_mem_nil _

private theorem exprMade_call (place : Option Location) (func : String) {args : List Value}
    (ih : ∀ v ∈ args, OperandMade hasCount g v) : ExprMade hasCount g (.call place func args) := by
  intro t h
  rw [bindExpr, outcome_bind_eq_ok_iff (stable_bindOperands g hasCount args)
    fun _ ↦ (stable_ofExcept g _ _).bind fun _ ↦ stable_pure g _] at h
  obtain ⟨bound, hargs, h⟩ := h
  rw [outcome_bind_eq_ok_iff (stable_ofExcept g _ _) fun _ ↦ stable_pure g _] at h
  obtain ⟨type, htype, ht⟩ := h
  obtain rfl := Except.ok.inj ht
  obtain ⟨below, hbound⟩ := madeOf_operands (.call place func args) (fun _ hv ↦ hv) ih hargs
  exact madeOf_node (.call hbound (outcome_ofExcept_eq_ok_iff.mp htype)) below rfl

private theorem exprMade_conditional (place : Option Location) {c t f : Value}
    (ihc : OperandMade hasCount g c) (iht : OperandMade hasCount g t)
    (ihf : OperandMade hasCount g f) : ExprMade hasCount g (.conditional place c t f) := by
  intro tree h
  rw [bindExpr, outcome_bind_eq_ok_iff (stable_bindOperand g hasCount c) fun _ ↦
    (stable_bindOperand g hasCount t).bind fun _ ↦ (stable_bindOperand g hasCount f).bind fun _ ↦
      stable_pure g _] at h
  obtain ⟨c', hc, h⟩ := h
  rw [outcome_bind_eq_ok_iff (stable_bindOperand g hasCount t) fun _ ↦
    (stable_bindOperand g hasCount f).bind fun _ ↦ stable_pure g _] at h
  obtain ⟨t', ht, h⟩ := h
  rw [outcome_bind_eq_ok_iff (stable_bindOperand g hasCount f) fun _ ↦ stable_pure g _] at h
  obtain ⟨f', hf, h⟩ := h
  obtain rfl := Except.ok.inj h
  have hbound : ∀ u ∈ [c', t', f'], u.isExpr = true := by
    simpa using ⟨(ihc c' hc).2, (iht t' ht).2, (ihf f' hf).2⟩
  refine madeOf_node (.conditional hbound) ?_ rfl
  rw [Shape.children, List.forall_mem_cons, List.forall_mem_cons, List.forall_mem_singleton]
  exact ⟨(ihc c' hc).1.part (by simp [Value.parts, Expr.operands]),
    (iht t' ht).1.part (by simp [Value.parts, Expr.operands]),
    (ihf f' hf).1.part (by simp [Value.parts, Expr.operands])⟩

private theorem exprMade_index (place : Option Location) {t k : Value}
    (iht : OperandMade hasCount g t) (ihk : OperandMade hasCount g k) :
    ExprMade hasCount g (.index place t k) := by
  intro tree h
  rw [bindExpr, outcome_bind_eq_ok_iff (stable_bindOperand g hasCount t) fun _ ↦
    (stable_bindOperand g hasCount k).bind fun _ ↦ stable_pure g _] at h
  obtain ⟨t', ht, h⟩ := h
  rw [outcome_bind_eq_ok_iff (stable_bindOperand g hasCount k) fun _ ↦ stable_pure g _] at h
  obtain ⟨k', hk, h⟩ := h
  obtain rfl := Except.ok.inj h
  have hbound : ∀ u ∈ [t', k'], u.isExpr = true := by
    simpa using ⟨(iht t' ht).2, (ihk k' hk).2⟩
  refine madeOf_node (.index hbound) ?_ rfl
  rw [Shape.children, List.forall_mem_cons, List.forall_mem_singleton]
  exact ⟨(iht t' ht).1.part (by simp [Value.parts, Expr.operands]),
    (ihk k' hk).1.part (by simp [Value.parts, Expr.operands])⟩

private theorem exprMade_output (place : Option Location) {operands : List Value}
    (ih : ∀ v ∈ operands, OperandMade hasCount g v) :
    ExprMade hasCount g (.output place operands) := by
  intro t h
  rw [bindExpr_output, outcome_bind_eq_ok_iff (stable_bindOperands g hasCount operands)
    fun _ ↦ stable_pure g _] at h
  obtain ⟨exprs, hexprs, ht⟩ := h
  obtain rfl := Except.ok.inj ht
  obtain ⟨below, bound⟩ := madeOf_operands (.output place operands) (fun _ hv ↦ hv) ih hexprs
  -- only an output of one operand has no node of its own
  rcases exprs with _ | ⟨first, _ | ⟨second, exprs⟩⟩
  · exact madeOf_node (.output bound (by simp)) below rfl
  · exact ⟨below _ List.mem_cons_self, bound _ List.mem_cons_self⟩
  · exact madeOf_node (.output bound (by simp)) below rfl

private theorem exprMade_access (place : Option Location) (name : String) :
    ExprMade hasCount g (.access place name) := by
  intro t h
  rw [bindExpr] at h
  cases hread : Reference.read name with
  | error fault => rw [hread] at h; cases h
  | ok reference =>
    rw [hread] at h
    rw [outcome_bind_eq_ok_iff (stable_resolve hasCount place reference)
      fun _ ↦ stable_pure g _] at h
    obtain ⟨⟨type, resolved⟩, hres, ht⟩ := h
    obtain rfl := Except.ok.inj ht
    exact madeOf_node (.access hread (outcome_resolve_eq_ok_iff.mp hres))
      (List.forall_mem_nil _) rfl

private theorem madeOf_both (g : Graph) (hasCount : Bool) (value : Value) :
    (∀ t, outcome g (bindValue hasCount value) = .ok t → MadeOf hasCount g value t) ∧
      OperandMade hasCount g value := by
  induction value using Value.induct (Q := ExprMade hasCount g) with
  | expr e ih => exact ⟨fun t h ↦ (ih t h).1, ih⟩
  | bool b => exact madeOf_scalar (.bool b) rfl rfl fun t h ↦ by cases h
  | int i => exact madeOf_scalar (.int i) rfl rfl fun t h ↦ by cases h
  | float x => exact madeOf_scalar (.float x) rfl rfl fun t h ↦ by cases h
  | str s => exact madeOf_scalar (.str s) rfl rfl fun t h ↦ by cases h
  | list items ih =>
    refine ⟨fun t h ↦ ?_, fun t h ↦ by cases h⟩
    rw [bindValue, outcome_bind_eq_ok_iff (stable_bindItems g hasCount items)
      fun _ ↦ stable_pure g _] at h
    obtain ⟨trees, htrees, ht⟩ := h
    obtain rfl := Except.ok.inj ht
    refine madeOf_unplaced (.list trees) fun u hu ↦ ?_
    obtain ⟨v, hv, hvu⟩ := forall₂_exists_left (outcome_bindItems_eq_ok_iff.mp htrees) hu
    exact MadeOf.part ((ih v hv).1 u hvu) hv
  | map entries ih =>
    refine ⟨fun t h ↦ ?_, fun t h ↦ by cases h⟩
    rw [bindValue, outcome_bind_eq_ok_iff (stable_bindEntries g hasCount entries)
      fun _ ↦ stable_pure g _] at h
    obtain ⟨bound, hbound, ht⟩ := h
    obtain rfl := Except.ok.inj ht
    refine madeOf_unplaced (.map (Table.nodup_ofList bound)) fun u hu ↦ ?_
    obtain ⟨b, hb, rfl⟩ := List.mem_map.mp hu
    obtain ⟨e, he, _, heb⟩ := forall₂_exists_left (outcome_bindEntries_eq_ok_iff.mp hbound)
      (Table.mem_of_mem_ofList hb)
    exact MadeOf.part ((ih e he).1 b.2 heb) (List.mem_map_of_mem he)
  | unsupported kindName shown =>
    constructor <;> intro t h <;> cases h
  | arithmetic place operator operands ih =>
    intro t h
    rw [bindExpr, outcome_bind_eq_ok_iff (stable_bindOperands g hasCount operands)
      fun _ ↦ stable_pure g _] at h
    obtain ⟨exprs, hexprs, ht⟩ := h
    obtain rfl := Except.ok.inj ht
    obtain ⟨below, bound⟩ := madeOf_operands (.arithmetic place operator operands)
      (fun _ hv ↦ hv) (fun v hv ↦ (ih v hv).2) hexprs
    exact madeOf_node (.arithmetic bound) below rfl
  | call place func args ih => exact exprMade_call place func fun v hv ↦ (ih v hv).2
  | conditional place c t f ihc iht ihf => exact exprMade_conditional place ihc.2 iht.2 ihf.2
  | index place t k iht ihk => exact exprMade_index place iht.2 ihk.2
  | literal place value tag =>
    intro t h
    rw [bindExpr] at h
    cases htag : tag.type? with
    | none => rw [htag] at h; cases h
    | some type =>
      rw [htag] at h
      obtain rfl := Except.ok.inj h
      exact madeOf_node (.literal htag) (List.forall_mem_nil _) rfl
  | output place operands ih => exact exprMade_output place fun v hv ↦ (ih v hv).2
  | access place name => exact exprMade_access place name
  | other place className =>
    intro t h
    cases h

/-- Every node of a bound tree is one that binding makes against the original graph, and the
expression that it was bound from occurs in the value. -/
theorem makes_bindValue (h : outcome g (bindValue hasCount value) = .ok tree) :
    tree.Everywhere fun info shape ↦
      Makes hasCount g info shape ∧ ∀ e ∈ info.origin, value.Contains e :=
  (madeOf_both g hasCount value).1 tree h

end Bind

end Hil
