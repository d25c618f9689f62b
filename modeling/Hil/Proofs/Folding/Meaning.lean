import Hil.Proofs.Folding.Walk

/-!
# The meaning of folded trees

A tree means a literal value in an environment, which interprets whatever folding leaves alone:
references, calls, arithmetic and indices. Folding constants keeps the meaning of a tree in every
environment, for one fold at a node and thus for the folded tree.
-/

namespace Hil

/-- What interprets the nodes that are not folded. -/
structure Environment where
  access : Access → Literal
  call : String → List Literal → Literal
  arithmetic : Option Operator → List Literal → Literal
  index : Literal → Literal → Literal

namespace Tree

variable (env : Environment)

/-- What a node means, of the meanings of its children. -/
def denote (info : NodeInfo) : Shape Literal → Literal
  | .arithmetic _ exprs => env.arithmetic info.operator? exprs
  | .call func _ args => env.call func args
  | .conditional _ condition whenTrue whenFalse =>
    if condition.isTruthy then whenTrue else whenFalse
  | .index _ target key => env.index target key
  | .literal _ value => value
  | .output _ exprs => .str (.join (exprs.map Literal.interpolated))
  | .access _ resolved => env.access resolved
  | .list elements => .list elements
  | .map entries => .dict (entries.map fun entry ↦ (.str entry.1, entry.2))
  | .foreign _ content => content.literal?.getD .none

/-- What a tree means. -/
def meaning : Tree → Literal := fold .none (denote env)

/-- A node means what it makes of the meanings of its children. -/
theorem meaning_node (info : NodeInfo) (shape : Shape Tree) :
    (node info shape).meaning env = denote env info (shape.mapChildren (meaning env)) :=
  fold_node ..

/-- A literal means its value. -/
theorem meaning_of_literal? {t : Tree} {value : Literal} (h : t.literal? = some value) :
    t.meaning env = value := by
  cases t with
  | missing => cases h
  | node info shape =>
    rw [meaning_node]
    cases shape with
    | literal type v => exact Option.some.inj h
    | foreign className content =>
      exact congrArg (Option.getD · Literal.none) h
    | _ => cases h

/-- Literals mean their values. -/
theorem map_meaning_of_literals? {ts : List Tree} {values : List Literal}
    (h : ts.mapM literal? = some values) : ts.map (meaning env) = values := by
  induction ts generalizing values with
  | nil => exact Option.some.inj h
  | cons t ts ih =>
    rw [List.mapM_cons] at h
    obtain ⟨value, hv, h⟩ := Option.bind_eq_some_iff.mp h
    obtain ⟨rest, hr, h⟩ := Option.bind_eq_some_iff.mp h
    rw [List.map_cons, meaning_of_literal? env hv, ih hr]
    exact Option.some.inj h

/-- A condition of a value means that value. -/
theorem meaning_of_condition? {t : Tree} {value : Literal} (h : t.condition? = some value) :
    t.meaning env = value := by
  rw [condition?] at h
  split at h
  · exact meaning_of_literal? env h
  · cases h

/-- What becomes of a node means what the node means. -/
theorem meaning_foldRoot (info : NodeInfo) (shape : Shape Tree) :
    (foldRoot info shape).meaning env = (node info shape).meaning env := by
  rcases foldRoot_cases info shape with
    ⟨type, c, t, f, value, rfl, hc, h⟩ | ⟨type, exprs, values, rfl, hv, h⟩ | h
  · rw [h, meaning_node, Shape.mapChildren, denote, meaning_of_condition? env hc]
    split <;> rfl
  · rw [h, meaning_node, Shape.mapChildren, denote, map_meaning_of_literals? env hv]
    rfl
  · rw [h]

/-- Folding its constants keeps the meaning of a tree. -/
theorem meaning_folded (t : Tree) : t.folded.meaning env = t.meaning env := by
  induction t with
  | missing => rfl
  | node info shape ih =>
    have hchildren : (shape.mapChildren folded).mapChildren (meaning env) =
        shape.mapChildren (meaning env) := by
      rw [Shape.mapChildren_mapChildren]
      exact Shape.mapChildren_congr ih
    rw [folded_node, meaning_foldRoot, meaning_node, meaning_node, hchildren]

end Tree

namespace Pass

/-- The folding pass returns a tree of the same meaning, for every well-formed tree of a store and
every environment. -/
theorem folding_preserves_meaning (env : Environment) (st : WalkState Context)
    (node : Option NodeId) (hw : (st.store.tree node).WellFormed) :
    ∃ id st', (folding.run node).Returns st (some id) st' ∧
      (st'.store.tree (some id)).meaning env = (st.store.tree node).meaning env := by
  obtain ⟨id, store, count, hret, _, htree⟩ := returns_folding hw
  refine ⟨id, _, hret, ?_⟩
  rw [htree]
  exact Tree.meaning_folded env _

/-- An output of a text and of a conditional on `true`, whose branches are a text and a call. -/
private def greeting : WalkState Context where
  store := ⟨#[⟨{}, .literal (some (.known Ty.bool)) (.bool true)⟩,
    ⟨{}, .literal (some (.known Ty.string)) (.str "a")⟩,
    ⟨{}, .call "file" (some (.known Ty.string)) [some ⟨1⟩]⟩,
    ⟨{}, .conditional (some (.known Ty.string)) (some ⟨0⟩) (some ⟨1⟩) (some ⟨2⟩)⟩,
    ⟨{}, .output none [some ⟨1⟩, some ⟨3⟩]⟩], .empty⟩
  memo := .ofFiles []

/-- An environment in which a call gives its name, and an index gives its target. -/
private def naming : Environment where
  access _ := .none
  call func _ := .str func
  arithmetic _ := .list
  index target _ := target

/-- Folds that enable one another keep the meaning, and leave alone what is not folded. -/
theorem folding_preserves_meaning_greeting :
    (greeting.store.tree (some ⟨4⟩)).WellFormed ∧
      ∃ id st', (folding.run (some ⟨4⟩)).Returns greeting (some id) st' ∧
        (st'.store.tree (some id)).meaning naming =
          (greeting.store.tree (some ⟨4⟩)).meaning naming := by
  have hw : (greeting.store.tree (some ⟨4⟩)).WellFormed := by decide
  exact ⟨hw, folding_preserves_meaning _ greeting _ hw⟩

end Pass
end Hil
