import Hil.Binding
import Hil.Proofs.Graph.Attaching
import Mathlib.Data.List.Forall2

/-!
# Outcomes of binding

Binding changes a graph only by resolving resources, and what it gives does not depend on which of
them have been resolved before. So the outcome of a value is a function of the original graph, and
the outcome of a part is that of the part alone.
-/

namespace Hil

/-! ### Induction over values -/

/-- A property of all values and expressions follows from that of their parts. -/
theorem Value.induct {P : Value → Prop} {Q : Expr → Prop}
    (expr : ∀ e, Q e → P (.expr e)) (bool : ∀ b, P (.bool b)) (int : ∀ i, P (.int i))
    (float : ∀ x, P (.float x)) (str : ∀ s, P (.str s))
    (list : ∀ items, (∀ v ∈ items, P v) → P (.list items))
    (map : ∀ entries, (∀ e ∈ entries, P e.2) → P (.map entries))
    (unsupported : ∀ kindName shown, P (.unsupported kindName shown))
    (arithmetic : ∀ place operator operands, (∀ v ∈ operands, P v) →
      Q (.arithmetic place operator operands))
    (call : ∀ place func args, (∀ v ∈ args, P v) → Q (.call place func args))
    (conditional : ∀ place c t f, P c → P t → P f → Q (.conditional place c t f))
    (index : ∀ place t k, P t → P k → Q (.index place t k))
    (literal : ∀ place value tag, Q (.literal place value tag))
    (output : ∀ place operands, (∀ v ∈ operands, P v) → Q (.output place operands))
    (access : ∀ place name, Q (.access place name))
    (other : ∀ place className, Q (.other place className)) (v : Value) : P v := by
  refine @Value.rec Q P (fun vs ↦ ∀ v ∈ vs, P v) (fun es ↦ ∀ e ∈ es, P e.2) (fun e ↦ P e.2)
    arithmetic call conditional index literal output access other expr bool int float str list map
    unsupported ?_ ?_ ?_ ?_ ?_ v <;> simp_all

namespace Bind

variable {α β : Type} {g g' : Graph} {x : Bind α} {k : α → Bind β} {a : α} {e : BindError}

/-- What a step gives from a graph. -/
def outcome (g : Graph) (x : Bind α) : Except BindError α := (x.run.run g).1

/-- From every graph in which some resources have been resolved, the step gives the same, and
changes the graph only by resolving resources. -/
def Stable (g : Graph) (x : Bind α) : Prop :=
  ∀ g', g.Attaches g' → ∃ g'', x.run.run g' = (outcome g x, g'') ∧ g.Attaches g''

/-! ### Steps -/

/-- A step that does nothing is stable. -/
theorem stable_pure (g : Graph) (a : α) : Stable g (pure a) := fun g' h ↦ ⟨g', rfl, h⟩

private theorem stable_fail (g : Graph) (place : Option Location) (fault : BindFault) :
    Stable g (fail place fault : Bind α) := fun g' h ↦ ⟨g', rfl, h⟩

/-- A step that reads no graph is stable. -/
theorem stable_ofExcept (g : Graph) (place : Option Location) (r : Except BindFault α) :
    Stable g (ofExcept place r) := by
  cases r with
  | ok a => exact stable_pure g a
  | error fault => exact stable_fail g place fault

/-- A result at a place is the result without it. -/
theorem outcome_ofExcept_eq_ok_iff {place : Option Location} {r : Except BindFault α} :
    outcome g (ofExcept place r) = .ok a ↔ r = .ok a := by
  cases r with
  | ok b => exact ⟨fun h ↦ congrArg _ (Except.ok.inj h), fun h ↦ congrArg _ (Except.ok.inj h)⟩
  | error fault => exact ⟨nofun, nofun⟩

/-- A binding goes on from the graph that its first part leaves, or fails as that does. -/
theorem run_bind (x : Bind α) (k : α → Bind β) (g : Graph) :
    (x >>= k).run.run g = match x.run.run g with
      | (.ok a, g') => (k a).run.run g'
      | (.error e, g') => (.error e, g') := by
  rw [ExceptT.run_bind, StateT.run_bind]
  change (match x.run.run g with | (r, g') => _ : Except BindError β × Graph) = _
  rcases x.run.run g with ⟨_ | _, g'⟩ <;> rfl

/-- The outcome of a step that goes on is that of what it goes on with, from the same graph. -/
theorem outcome_bind (hx : Stable g x) (hk : ∀ a, Stable g (k a)) :
    outcome g (x >>= k) = outcome g x >>= fun a ↦ outcome g (k a) := by
  obtain ⟨g₁, hrun, hg⟩ := hx g (.refl g)
  rw [outcome, run_bind, hrun]
  cases outcome g x with
  | error e => rfl
  | ok a =>
    obtain ⟨g₂, hrun₂, _⟩ := hk a g₁ hg
    simp only [hrun₂]
    rfl

/-- A step that goes on succeeds exactly if both its parts do. -/
theorem outcome_bind_eq_ok_iff {b : β} (hx : Stable g x) (hk : ∀ a, Stable g (k a)) :
    outcome g (x >>= k) = .ok b ↔ ∃ a, outcome g x = .ok a ∧ outcome g (k a) = .ok b := by
  rw [outcome_bind hx hk]
  cases outcome g x with
  | error e => exact ⟨nofun, nofun⟩
  | ok a => exact ⟨fun h ↦ ⟨a, rfl, h⟩, fun ⟨_, rfl, h⟩ ↦ h⟩

/-- A stable step goes on stably. -/
theorem Stable.bind (hx : Stable g x) (hk : ∀ a, Stable g (k a)) : Stable g (x >>= k) := by
  intro g' hg'
  obtain ⟨g₁, hrun, hg⟩ := hx g' hg'
  rw [outcome_bind hx hk, run_bind, hrun]
  cases outcome g x with
  | error e => exact ⟨g₁, rfl, hg⟩
  | ok a => exact hk a g₁ hg

/-! ### Lists -/

variable {f : α → Bind β} {as : List α}

/-- Stable steps that are run in order are stable. -/
theorem stable_mapM (h : ∀ a ∈ as, Stable g (f a)) : Stable g (as.mapM f) := by
  induction as with
  | nil => exact stable_pure g []
  | cons a as ih =>
    rw [List.forall_mem_cons] at h
    rw [List.mapM_cons]
    exact h.1.bind fun _ ↦ (ih h.2).bind fun _ ↦ stable_pure g _

/-- Stable steps that are run in order succeed exactly if each of them does. -/
theorem outcome_mapM_eq_ok_iff {bs : List β} (h : ∀ a ∈ as, Stable g (f a)) :
    outcome g (as.mapM f) = .ok bs ↔
      List.Forall₂ (fun a b ↦ outcome g (f a) = .ok b) as bs := by
  induction as generalizing bs with
  | nil =>
    rw [List.forall₂_nil_left_iff]
    exact ⟨fun h ↦ (Except.ok.inj h).symm, fun h ↦ h ▸ rfl⟩
  | cons a as ih =>
    rw [List.forall_mem_cons] at h
    have hrest := stable_mapM h.2
    rw [List.mapM_cons,
      outcome_bind_eq_ok_iff h.1 fun _ ↦ hrest.bind fun _ ↦ stable_pure g _]
    constructor
    · rintro ⟨b, hb, hbs⟩
      obtain ⟨bs', hbs', hp⟩ := (outcome_bind_eq_ok_iff hrest fun _ ↦ stable_pure g _).mp hbs
      obtain rfl := Except.ok.inj hp
      exact .cons hb ((ih h.2).mp hbs')
    · intro hbs
      cases hbs with
      | cons head tail =>
        exact ⟨_, head, (outcome_bind_eq_ok_iff hrest fun _ ↦ stable_pure g _).mpr
          ⟨_, (ih h.2).mpr tail, rfl⟩⟩

/-! ### References -/

/-- What reads the graph goes on with it. -/
theorem run_get_bind (k : Graph → Bind β) (g : Graph) :
    (get >>= k).run.run g = (k g).run.run g := rfl

/-- A resource is resolved to the same access, and fails for the same reason, whatever has been
resolved before. -/
theorem stable_resolveResource (place : Option Location) (reference : Reference)
    (name : ResourceName) (selection : Selection) (field : String) :
    Stable g (reference.resolveResource place name selection field) := by
  intro g' hg'
  rw [outcome, Reference.resolveResource, run_get_bind, run_get_bind]
  rcases hg'.attachProvider name.id with ⟨e, h, h'⟩ | ⟨r, g₁, g₁', h, h', ha, ha'⟩
  · rw [h, h']
    cases e with
    | none => exact ⟨g', rfl, hg'⟩
    | some r => exact ⟨g', rfl, hg'⟩
  · rw [h, h']
    refine ⟨g₁', ?_, ha'⟩
    change (Except.ok (_, Access.mk _ _ _ (g₁'.ref? .resource name.id)), g₁') =
      (Except.ok (_, Access.mk _ _ _ (g₁.ref? .resource name.id)), g₁')
    rw [ha.ref?_eq, ha'.ref?_eq]

/-- A reference is resolved to the same access, and fails for the same reason, whatever has been
resolved before. -/
theorem stable_resolve (hasCount : Bool) (place : Option Location) (reference : Reference) :
    Stable g (reference.resolve hasCount place) := by
  intro g' hg'
  have hentry (kind : EntryKind) (name : String) := hg'.ref?_eq kind name
  rw [outcome, Reference.resolve, run_get_bind, run_get_bind]
  cases reference.target with
  | count isIndex => cases isIndex <;> cases hasCount <;> exact ⟨g', rfl, hg'⟩
  | «local» name =>
    simp only [hentry]
    cases g.ref? .local name <;> exact ⟨g', rfl, hg'⟩
  | module name field =>
    simp only [hentry]
    cases g.ref? .module name <;> exact ⟨g', rfl, hg'⟩
  | user name element =>
    simp only [hentry, hg'.inputs]
    split
    · exact ⟨g', rfl, hg'⟩
    · cases g.ref? .variable name <;> exact ⟨g', rfl, hg'⟩
  | resource name selection field =>
    exact stable_resolveResource place reference name selection field g' hg'
  | _ => exact ⟨g', rfl, hg'⟩

/-! ### Values -/

/-- Operands are bound one after the other. -/
theorem bindOperands_eq_mapM (hasCount : Bool) (values : List Value) :
    bindOperands hasCount values = values.mapM (bindOperand hasCount) := by
  induction values with
  | nil => rfl
  | cons v values ih => rw [bindOperands, List.mapM_cons, ih]

/-- The items of a list are bound one after the other. -/
theorem bindItems_eq_mapM (hasCount : Bool) (values : List Value) :
    bindItems hasCount values = values.mapM (bindValue hasCount) := by
  induction values with
  | nil => rfl
  | cons v values ih => rw [bindItems, List.mapM_cons, ih]

/-- Binds an entry of a map. -/
def bindEntry (hasCount : Bool) (entry : Literal × Value) : Bind (Str × Tree) := do
  let tree ← bindValue hasCount entry.2
  return (entry.1.text, tree)

/-- The entries of a map are bound one after the other. -/
theorem bindEntries_eq_mapM (hasCount : Bool) (entries : List (Literal × Value)) :
    bindEntries hasCount entries = entries.mapM (bindEntry hasCount) := by
  induction entries with
  | nil => rfl
  | cons e entries ih =>
    rw [bindEntries, List.mapM_cons, ih, bindEntry, bind_assoc]
    simp only [pure_bind]

/-- What an output of bound operands becomes. -/
def boundOutput (place : Option Location) (operands : List Value) : List Tree → Tree
  | [expr] => expr
  | exprs => boundFrom (.output place operands) (.output (typed Ty.string) exprs)

/-- An output is bound to what its bound operands make. -/
theorem bindExpr_output (hasCount : Bool) (place : Option Location) (operands : List Value) :
    bindExpr hasCount (.output place operands) =
      bindOperands hasCount operands >>= fun exprs ↦ pure (boundOutput place operands exprs) := by
  rw [bindExpr]
  congr 1
  funext exprs
  rcases exprs with _ | ⟨first, _ | ⟨second, exprs⟩⟩ <;> rfl

private theorem stable_both (g : Graph) (hasCount : Bool) (value : Value) :
    Stable g (bindValue hasCount value) ∧ Stable g (bindOperand hasCount value) := by
  induction value using Value.induct (Q := fun e ↦ Stable g (bindExpr hasCount e)) with
  | expr e ih => exact ⟨ih, ih⟩
  | bool b => exact ⟨stable_pure g _, stable_fail g _ _⟩
  | int i => exact ⟨stable_pure g _, stable_fail g _ _⟩
  | float x => exact ⟨stable_pure g _, stable_fail g _ _⟩
  | str s => exact ⟨stable_pure g _, stable_fail g _ _⟩
  | list items ih =>
    refine ⟨?_, stable_fail g _ _⟩
    rw [bindValue, bindItems_eq_mapM]
    exact (stable_mapM fun v hv ↦ (ih v hv).1).bind fun _ ↦ stable_pure g _
  | map entries ih =>
    refine ⟨?_, stable_fail g _ _⟩
    rw [bindValue, bindEntries_eq_mapM]
    exact (stable_mapM fun e he ↦ (ih e he).1.bind fun _ ↦ stable_pure g _).bind
      fun _ ↦ stable_pure g _
  | unsupported kindName shown => exact ⟨stable_fail g _ _, stable_fail g _ _⟩
  | arithmetic place operator operands ih =>
    rw [bindExpr, bindOperands_eq_mapM]
    exact (stable_mapM fun v hv ↦ (ih v hv).2).bind fun _ ↦ stable_pure g _
  | call place func args ih =>
    rw [bindExpr, bindOperands_eq_mapM]
    exact (stable_mapM fun v hv ↦ (ih v hv).2).bind fun _ ↦
      (stable_ofExcept g _ _).bind fun _ ↦ stable_pure g _
  | conditional place c t f ihc iht ihf =>
    rw [bindExpr]
    exact ihc.2.bind fun _ ↦ iht.2.bind fun _ ↦ ihf.2.bind fun _ ↦ stable_pure g _
  | index place t k iht ihk =>
    rw [bindExpr]
    exact iht.2.bind fun _ ↦ ihk.2.bind fun _ ↦ stable_pure g _
  | literal place value tag =>
    rw [bindExpr]
    cases tag.type? with
    | none => exact stable_fail g _ _
    | some type => exact stable_pure g _
  | output place operands ih =>
    rw [bindExpr_output, bindOperands_eq_mapM]
    exact (stable_mapM fun v hv ↦ (ih v hv).2).bind fun _ ↦ stable_pure g _
  | access place name =>
    rw [bindExpr]
    cases Reference.read name with
    | error fault => exact stable_fail g _ _
    | ok reference =>
      exact (stable_resolve hasCount place reference).bind fun _ ↦ stable_pure g _
  | other place className => exact stable_fail g _ _

/-- What a value is bound to does not depend on which resources have been resolved. -/
theorem stable_bindValue (g : Graph) (hasCount : Bool) (value : Value) :
    Stable g (bindValue hasCount value) := (stable_both g hasCount value).1

/-- What an operand is bound to does not depend on which resources have been resolved. -/
theorem stable_bindOperand (g : Graph) (hasCount : Bool) (value : Value) :
    Stable g (bindOperand hasCount value) := (stable_both g hasCount value).2

/-! ### Parts -/

variable {hasCount : Bool} {values : List Value} {entries : List (Literal × Value)}

private theorem stable_bindEntry (g : Graph) (hasCount : Bool) (entry : Literal × Value) :
    Stable g (bindEntry hasCount entry) :=
  (stable_bindValue g hasCount entry.2).bind fun _ ↦ stable_pure g _

/-- Binding operands is stable. -/
theorem stable_bindOperands (g : Graph) (hasCount : Bool) (values : List Value) :
    Stable g (bindOperands hasCount values) := by
  rw [bindOperands_eq_mapM]
  exact stable_mapM fun v _ ↦ stable_bindOperand g hasCount v

/-- Binding items is stable. -/
theorem stable_bindItems (g : Graph) (hasCount : Bool) (values : List Value) :
    Stable g (bindItems hasCount values) := by
  rw [bindItems_eq_mapM]
  exact stable_mapM fun v _ ↦ stable_bindValue g hasCount v

/-- Binding entries is stable. -/
theorem stable_bindEntries (g : Graph) (hasCount : Bool) (entries : List (Literal × Value)) :
    Stable g (bindEntries hasCount entries) := by
  rw [bindEntries_eq_mapM]
  exact stable_mapM fun e _ ↦ stable_bindEntry g hasCount e

/-- Operands are bound one by one. -/
theorem outcome_bindOperands_eq_ok_iff {trees : List Tree} :
    outcome g (bindOperands hasCount values) = .ok trees ↔
      List.Forall₂ (fun v t ↦ outcome g (bindOperand hasCount v) = .ok t) values trees := by
  rw [bindOperands_eq_mapM]
  exact outcome_mapM_eq_ok_iff fun v _ ↦ stable_bindOperand g hasCount v

/-- Items are bound one by one. -/
theorem outcome_bindItems_eq_ok_iff {trees : List Tree} :
    outcome g (bindItems hasCount values) = .ok trees ↔
      List.Forall₂ (fun v t ↦ outcome g (bindValue hasCount v) = .ok t) values trees := by
  rw [bindItems_eq_mapM]
  exact outcome_mapM_eq_ok_iff fun v _ ↦ stable_bindValue g hasCount v

/-- Entries are bound one by one, and their keys become texts. -/
theorem outcome_bindEntries_eq_ok_iff {bound : List (Str × Tree)} :
    outcome g (bindEntries hasCount entries) = .ok bound ↔
      List.Forall₂ (fun e b ↦ e.1.text = b.1 ∧ outcome g (bindValue hasCount e.2) = .ok b.2)
        entries bound := by
  rw [bindEntries_eq_mapM, outcome_mapM_eq_ok_iff fun e _ ↦ stable_bindEntry g hasCount e]
  have hentry (e : Literal × Value) (b : Str × Tree) :
      outcome g (bindEntry hasCount e) = .ok b ↔
        e.1.text = b.1 ∧ outcome g (bindValue hasCount e.2) = .ok b.2 := by
    rw [bindEntry, outcome_bind_eq_ok_iff (stable_bindValue g hasCount e.2) fun _ ↦ stable_pure g _]
    constructor
    · rintro ⟨t, ht, hb⟩
      obtain rfl := Except.ok.inj hb
      exact ⟨rfl, ht⟩
    · rintro ⟨hk, ht⟩
      exact ⟨b.2, ht, by rw [hk]; rfl⟩
  simp only [hentry]

end Bind

end Hil
