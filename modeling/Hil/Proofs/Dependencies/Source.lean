import Hil.Proofs.Binding.Nodes
import Hil.Proofs.Binding.Running
import Hil.Proofs.Dependencies.References
import Hil.Proofs.Store.Adding

/-!
# Dependencies of bound values

A bound tree refers to the entities that the accesses of its value select in the graph, in the same
order. So what is collected of the tree can be read from the value.
-/

namespace Hil

/-! ### Accesses of values -/

mutual

/-- The expressions of a value, each before those of its operands. -/
def Value.preorder : Value → List Expr
  | .expr e => Expr.preorder e
  | .list items => valuesPreorder items
  | .map entries => entriesPreorder entries
  | .bool _ | .int _ | .float _ | .str _ | .unsupported _ _ => []

/-- An expression before those of its operands. -/
def Expr.preorder : Expr → List Expr
  | .arithmetic place operator operands =>
    .arithmetic place operator operands :: valuesPreorder operands
  | .call place func args => .call place func args :: valuesPreorder args
  | .conditional place c t f =>
    .conditional place c t f :: (Value.preorder c ++ (Value.preorder t ++ Value.preorder f))
  | .index place t k => .index place t k :: (Value.preorder t ++ Value.preorder k)
  | .literal place value tag => [.literal place value tag]
  | .output place operands => .output place operands :: valuesPreorder operands
  | .access place name => [.access place name]
  | .other place className => [.other place className]

/-- The expressions of values, from left to right. -/
def valuesPreorder : List Value → List Expr
  | [] => []
  | value :: values => Value.preorder value ++ valuesPreorder values

/-- The expressions of the values of a map, in order. -/
def entriesPreorder : List (Literal × Value) → List Expr
  | [] => []
  | (_, value) :: entries => Value.preorder value ++ entriesPreorder entries

end

/-- The name that an expression accesses. -/
def Expr.accessed? : Expr → Option String
  | .access _ name => some name
  | _ => none

/-- The names that a value accesses, from left to right and as often as it does. -/
def Value.accesses (value : Value) : List String := value.preorder.filterMap Expr.accessed?

/-- In no map of a value two keys have the same text. -/
inductive Value.DistinctKeys : Value → Prop
  | intro {value : Value}
      (here : ∀ entries, value = .map entries → (entries.map fun e ↦ e.1.text).Nodup)
      (below : ∀ part ∈ value.parts, DistinctKeys part) : DistinctKeys value

private theorem valuesPreorder_eq_flatMap (values : List Value) :
    valuesPreorder values = values.flatMap Value.preorder := by
  induction values with
  | nil => rfl
  | cons v values ih => rw [valuesPreorder, List.flatMap_cons, ih]

private theorem entriesPreorder_eq_flatMap (entries : List (Literal × Value)) :
    entriesPreorder entries = entries.flatMap fun e ↦ e.2.preorder := by
  induction entries with
  | nil => rfl
  | cons e entries ih => rw [entriesPreorder, List.flatMap_cons, ih]

namespace Value

variable {e : Expr}

private theorem preorder_expr (e : Expr) :
    (Value.expr e).preorder = e :: e.operands.flatMap preorder := by
  cases e <;> simp [preorder, Expr.preorder, Expr.operands, valuesPreorder_eq_flatMap]

/-- An expression accesses what its operands do, unless it is an access itself. -/
theorem accesses_expr (e : Expr) :
    (Value.expr e).accesses = e.accessed?.toList ++ e.operands.flatMap accesses := by
  rw [accesses, preorder_expr, List.filterMap_cons, List.filterMap_flatMap]
  cases e.accessed? <;> rfl

/-- A list has the accesses of its items in turn. -/
theorem accesses_list (items : List Value) :
    (Value.list items).accesses = items.flatMap accesses := by
  rw [accesses, preorder, valuesPreorder_eq_flatMap, List.filterMap_flatMap]
  rfl

/-- A map has the accesses of its values in turn. -/
theorem accesses_map (entries : List (Literal × Value)) :
    (Value.map entries).accesses = (entries.map Prod.snd).flatMap accesses := by
  rw [accesses, preorder, entriesPreorder_eq_flatMap, List.filterMap_flatMap, List.flatMap_map]
  rfl

end Value

/-! ### References of images -/

variable {look : String → Ty × Access} {value : Value}

/-- The value refers to what its accesses resolve to. -/
private def Faithful (look : String → Ty × Access) (value : Value) : Prop :=
  (value.image look).references = value.accesses.filterMap fun name ↦ (look name).2.entry

private theorem flatMap_references {values : List Value} (h : ∀ v ∈ values, Faithful look v) :
    (values.map (Value.image look)).flatMap Tree.references =
      (values.flatMap Value.accesses).filterMap fun name ↦ (look name).2.entry := by
  rw [List.flatMap_map, List.filterMap_flatMap, List.flatMap_def, List.flatMap_def,
    List.map_congr_left h]

private theorem faithful_node {e : Expr} {info : NodeInfo} (shape : Shape Tree)
    (image : e.image look = .node info shape) (other : e.accessed? = none)
    (entry : shape.entity? = none) (children : shape.children = e.operands.map (Value.image look))
    (h : ∀ v ∈ e.operands, Faithful look v) : Faithful look (.expr e) := by
  rw [Faithful, Value.accesses_expr, other, Value.image, image, Tree.references_node, entry,
    children]
  exact flatMap_references h

/-- The image of a value refers to what the accesses of the value resolve to. -/
theorem references_image (h : value.DistinctKeys) :
    (value.image look).references = value.accesses.filterMap fun name ↦ (look name).2.entry := by
  -- the distinct keys of the parts come with those of the value
  induction h with
  | @intro value here below ih =>
    cases value with
    | expr e =>
      cases e with
      | arithmetic place operator operands =>
        exact faithful_node (.arithmetic (typed Ty.unknown) (imagesOf look operands)) rfl rfl rfl
          (imagesOf_eq_map look operands) ih
      | call place func args =>
        exact faithful_node (.call _ _ (imagesOf look args)) rfl rfl rfl
          (imagesOf_eq_map look args) ih
      | conditional place c t f =>
        exact faithful_node (.conditional _ (c.image look) (t.image look) (f.image look)) rfl rfl
          rfl rfl ih
      | index place t k =>
        exact faithful_node (.index _ (t.image look) (k.image look)) rfl rfl rfl rfl ih
      | literal place value tag => exact faithful_node (.literal _ value) rfl rfl rfl rfl ih
      | output place operands =>
        match operands with
        | [] => exact faithful_node (.output (typed Ty.string) []) rfl rfl rfl rfl ih
        | [v] =>
          -- the image is that of the operand
          have haccesses : (Value.expr (.output place [v])).accesses = v.accesses := by
            simp [Value.accesses_expr, Expr.accessed?, Expr.operands]
          rw [haccesses]
          exact ih v List.mem_cons_self
        | v :: v' :: vs =>
          exact faithful_node (.output (typed Ty.string) (imagesOf look (v :: v' :: vs)))
            rfl rfl rfl
            (imagesOf_eq_map look _) ih
      | access place name =>
        rw [Value.accesses_expr, Value.image, Expr.image, boundFrom, Tree.references_node]
        simp only [Shape.entity?, Shape.access?, Option.bind_some, Shape.children, Expr.accessed?,
          Expr.operands, Option.toList_some, List.flatMap_nil, List.append_nil,
          List.filterMap_cons, List.filterMap_nil]
        cases (look name).2.entry <;> rfl
      | other place className => rfl
    | list items =>
      rw [Value.image, unplaced, Tree.references_node, imagesOf_eq_map, Value.accesses_list]
      exact flatMap_references ih
    | map entries =>
      have hkeys : ((entryImages look entries).map Prod.fst).Nodup := by
        rw [entryImages_eq_map, List.map_map]
        exact here entries rfl
      have hchildren : (Table.ofList (entryImages look entries)).entries.map Prod.snd =
          (entries.map Prod.snd).map (Value.image look) := by
        rw [Table.entries_ofList hkeys, entryImages_eq_map, List.map_map, List.map_map]
        rfl
      rw [Value.image, unplaced, Tree.references_node, Shape.children, hchildren,
        Value.accesses_map]
      exact flatMap_references ih
    | _ => rfl

/-! ### Entities in a graph -/

/-- The entity that a reference selects in a graph by its kind and name. -/
def Reference.entity? (g : Graph) (reference : Reference) : Option EntryRef :=
  match reference.target with
  | .local name => g.ref? .local name
  | .module name _ => g.ref? .module name
  | .user name _ => g.ref? .variable name
  | .resource name _ _ => g.ref? .resource name.id
  | _ => none

/-- The entity that a name selects in a graph. -/
def Graph.selected? (g : Graph) (name : String) : Option EntryRef :=
  match Reference.read name with
  | .ok reference => reference.entity? g
  | .error _ => none

variable {g : Graph} {hasCount : Bool} {name : String} {reference : Reference} {type : Ty}
  {access : Access} {place : Option Location}

/-- What a reference resolves to has the entity that the reference selects. -/
theorem Resolves.entry_eq (h : Resolves hasCount g reference type access) :
    access.entry = reference.entity? g := by
  cases h with
  | user target found => simp [Reference.entity?, target, Graph.ref?, Graph.serial?, found]
  | _ => simp_all [Reference.entity?]

/-- A reference that resolves selects an entity, unless it is to the count index. -/
theorem Resolves.exists_entry (h : Resolves hasCount g reference type access) :
    reference.target = .count true ∨ ∃ entry, reference.entity? g = some entry := by
  rw [← h.entry_eq]
  cases h with
  | count target _ => exact .inl target
  | resource _ found _ =>
    obtain ⟨slot, hslot, _⟩ := Option.map_eq_some_iff.mp found
    exact .inr ⟨_, by rw [Graph.ref?, Graph.serial?, hslot]; rfl⟩
  | _ => exact .inr ⟨_, rfl⟩

/-- An access that does not fail resolves. -/
theorem Part.Sound.exists_resolves (h : Part.Sound hasCount g (.node (.access place name))) :
    ∃ reference type access, Reference.read name = .ok reference ∧
      Resolves hasCount g reference type access := by
  cases read : Reference.read name with
  | error fault => exact absurd (.notAReference read) (h _)
  | ok reference =>
    cases hres : Bind.outcome g (reference.resolve hasCount place) with
    | ok resolved =>
      exact ⟨reference, resolved.1, resolved.2, rfl, Bind.outcome_resolve_eq_ok_iff.mp hres⟩
    | error e => exact absurd (.access read (Bind.unresolvable_of_outcome hres).1) (h _)

/-- An operand without failing parts is evaluated as a value. -/
theorem Value.operandEvaluation_eq (h : ∀ p ∈ value.operandEvaluation, p.Sound hasCount g) :
    value.operandEvaluation = value.evaluation := by
  cases value with
  | expr e => rfl
  | _ => exact absurd (.operand _) (h _ List.mem_cons_self _)

/-- Every access of a value without failing parts is evaluated. -/
theorem Value.mem_evaluation_of_mem_accesses (h : ∀ p ∈ value.evaluation, p.Sound hasCount g)
    (hname : name ∈ value.accesses) : ∃ place, .node (.access place name) ∈ value.evaluation := by
  induction value using Value.induct_parts with
  | h value ih =>
    -- it is enough to find the access in a part of the value that is evaluated with it
    have hbelow {v : Value} (hv : v ∈ value.parts) (hname : name ∈ v.accesses)
        (hsub : ∀ p ∈ v.evaluation, p ∈ value.evaluation) :
        ∃ place, .node (.access place name) ∈ value.evaluation := by
      obtain ⟨place, hp⟩ := ih v hv (fun p hp ↦ h p (hsub p hp)) hname
      exact ⟨place, hsub _ hp⟩
    cases value with
    | expr e =>
      rw [Value.accesses_expr, List.mem_append, List.mem_flatMap] at hname
      rcases hname with hname | ⟨v, hv, hname⟩
      · cases e with
        | access place =>
          obtain rfl : name = _ := by simpa [Expr.accessed?] using hname
          exact ⟨place, List.mem_singleton_self _⟩
        | _ => cases hname
      · have hsub : ∀ p ∈ v.operandEvaluation, p ∈ (Value.expr e).evaluation := fun p hp ↦ by
          rw [Value.evaluation, Expr.evaluation_eq]
          exact List.mem_append_left _ (List.mem_flatMap.mpr ⟨v, hv, hp⟩)
        have heq := Value.operandEvaluation_eq fun p hp ↦ h p (hsub p hp)
        exact hbelow hv hname (heq ▸ hsub)
    | list items =>
      rw [Value.accesses_list] at hname
      obtain ⟨v, hv, hname⟩ := List.mem_flatMap.mp hname
      refine hbelow hv hname fun p hp ↦ ?_
      rw [Value.evaluation, itemsEvaluation_eq_flatMap]
      exact List.mem_append_left _ (List.mem_flatMap.mpr ⟨v, hv, hp⟩)
    | map entries =>
      rw [Value.accesses_map] at hname
      obtain ⟨v, hv, hname⟩ := List.mem_flatMap.mp hname
      refine hbelow hv hname fun p hp ↦ ?_
      obtain ⟨e, he, rfl⟩ := List.mem_map.mp hv
      rw [Value.evaluation, entriesEvaluation_eq_flatMap]
      exact List.mem_append_left _ (List.mem_flatMap.mpr ⟨e, he, hp⟩)
    | _ => cases hname

namespace Dependencies

/-- The accesses of a value that can be bound resolve. So each of them refers to the count index or
selects an entity, and the collected entities of the bound tree are the first occurrences of those
that the accesses select, in the order of the accesses. -/
theorem collect_bindValue {tree : Tree} (h : Bind.outcome g (bindValue hasCount value) = .ok tree)
    (hkeys : value.DistinctKeys) (s : Store) :
    let entries := (value.accesses.filterMap g.selected?).eraseDups
    (∀ name ∈ value.accesses, ∃ reference, Reference.read name = .ok reference ∧
      (reference.target = .count true ∨ ∃ entry, reference.entity? g = some entry)) ∧
    (collect (s.addTree tree).1).Returns ⟨(s.addTree tree).2, []⟩ entries
      ⟨(s.addTree tree).2, entries⟩ := by
  intro entries
  obtain ⟨rfl, sound⟩ := (Bind.evaluates_bindValue g hasCount value).of_outcome_eq_ok h
  have hresolves (name : String) (hname : name ∈ value.accesses) :
      ∃ reference type access, Reference.read name = .ok reference ∧
        Resolves hasCount g reference type access := by
    obtain ⟨place, hp⟩ := Value.mem_evaluation_of_mem_accesses sound hname
    exact (sound _ hp).exists_resolves
  have hselected (name : String) (hname : name ∈ value.accesses) :
      (g.lookUp name).2.entry = g.selected? name := by
    obtain ⟨reference, type, access, read, resolves⟩ := hresolves name hname
    rw [Graph.lookUp_eq read resolves, Graph.selected?, read]
    exact resolves.entry_eq
  have hentries : entriesOf (value.image g.lookUp) = entries := by
    rw [entriesOf_eq, references_image hkeys, List.filterMap_congr hselected]
  have hw : (value.image g.lookUp).WellFormed :=
    (Bind.makes_bindValue h).imp fun _ _ hm ↦ hm.1.regular
  refine ⟨fun name hname ↦ ?_, ?_⟩
  · obtain ⟨reference, type, access, read, resolves⟩ := hresolves name hname
    exact ⟨reference, read, resolves.exists_entry⟩
  · obtain ⟨id, hid, htree⟩ := s.tree_addTree hw
    have hroot : ((s.addTree (value.image g.lookUp)).2.tree (some id)).WellFormed := by rwa [htree]
    have hcollect := returns_collect hroot
    rw [htree, hentries] at hcollect
    rwa [hid]

/-- The local value `a` and the input variable `region`. -/
private def named : Graph :=
  (Graph.empty.add (.local ⟨"a", none⟩)).add (.variable ⟨"region", none⟩)

/-- The map of `${var.region}` under `x` and of the list of `${local.a}`, `${count.index}` and
`${var.region}` under `y`. -/
private def repeated : Value :=
  .map [(.str "x", .expr (.output none [.expr (.access none "var.region")])),
    (.str "y", .list [.expr (.access none "local.a"), .expr (.access none "count.index"),
      .expr (.access none "var.region")])]

/-- An entity that is referred to twice is collected at its first reference. -/
theorem collect_bindValue_repeated :
    ∃ tree, Bind.outcome named (bindValue true repeated) = .ok tree ∧ repeated.DistinctKeys ∧
      (collect (Store.empty.addTree tree).1).Returns ⟨(Store.empty.addTree tree).2, []⟩
        [⟨.variable, "region", 1⟩, ⟨.local, "a", 0⟩]
        ⟨(Store.empty.addTree tree).2, [⟨.variable, "region", 1⟩, ⟨.local, "a", 0⟩]⟩ := by
  have haccess (name : String) : (Value.expr (.access none name)).DistinctKeys :=
    .intro nofun nofun
  have hitems : (Value.list [.expr (.access none "local.a"), .expr (.access none "count.index"),
      .expr (.access none "var.region")]).DistinctKeys :=
    .intro nofun (List.forall_mem_cons.mpr ⟨haccess _, List.forall_mem_cons.mpr ⟨haccess _,
      List.forall_mem_singleton.mpr (haccess _)⟩⟩)
  have houtput : (Value.expr (.output none [.expr (.access none "var.region")])).DistinctKeys :=
    .intro nofun (List.forall_mem_singleton.mpr (haccess _))
  have hdistinct : repeated.DistinctKeys := by
    refine .intro (fun entries he ↦ ?_) (List.forall_mem_cons.mpr ⟨houtput,
      List.forall_mem_singleton.mpr hitems⟩)
    cases he
    decide
  exact ⟨_, rfl, hdistinct, (@collect_bindValue repeated named true _ rfl hdistinct .empty).2⟩

end Dependencies

end Hil
