import Hil.Walk
import Hil.Proofs.Shape.Relation

/-!
# Outcomes of walks

A walk that returns gives a value and leaves a state. The laws say what the steps of walks return
and how returns are chained; the walk of two visitors is opened one level at a time.
-/

namespace Hil

/-- Children in the same slot of related shapes are related. -/
theorem Shape.Rel.slot? {α β : Type} {R : α → β → Prop} {s : Shape α} {s' : Shape β} {a : α}
    (h : Rel R s s') {which : Slot} (hs : s.slot? which = some a) :
    ∃ b, s'.slot? which = some b ∧ R a b := by
  cases h <;> cases which <;> simp_all [Shape.slot?]

/-- The state with the shape of a node changed. -/
def WalkState.modifyShape {σ : Type} (st : WalkState σ) (id : NodeId)
    (f : Shape (Option NodeId) → Shape (Option NodeId)) : WalkState σ :=
  { st with store := st.store.modifyShape id f }

namespace Walk

variable {σ α β : Type} {st st' : WalkState σ} {w : Walk σ α} {a : α}

/-- From the first state the walk ends with the value and leaves the second state. -/
def Returns (w : Walk σ α) (st : WalkState σ) (a : α) (st' : WalkState σ) : Prop :=
  w.run.run st = (.ok a, st')

/-- The state that a walk leaves where it returns. -/
theorem Returns.state_eq (h : w.Returns st a st') : (w.run.run st).2 = st' := by rw [h]

/-- A walk that is done returns at once. -/
theorem returns_pure (a : α) (st : WalkState σ) : (pure a : Walk σ α).Returns st a st := rfl

/-- A walk goes on from what it leaves, or fails as it does. -/
theorem run_bind (w : Walk σ α) (k : α → Walk σ β) (st : WalkState σ) :
    (w >>= k).run.run st = match w.run.run st with
      | (.ok a, st') => (k a).run.run st'
      | (.error failure, st') => (.error failure, st') := by
  rw [ExceptT.run_bind, StateT.run_bind]
  change (match w.run.run st with | (r, st') => _ : Except Failure β × WalkState σ) = _
  rcases w.run.run st with ⟨_ | _, st'⟩ <;> rfl

/-- What a walk goes on with starts from what it leaves. -/
theorem Returns.bind {k : α → Walk σ β} {b : β} {st'' : WalkState σ} (h : w.Returns st a st')
    (hk : (k a).Returns st' b st'') : (w >>= k).Returns st b st'' := by
  rw [Returns, run_bind, h]
  exact hk

/-- A walk that goes on returns exactly if both its parts do. -/
theorem returns_bind_iff {k : α → Walk σ β} {b : β} {st'' : WalkState σ} :
    (w >>= k).Returns st b st'' ↔ ∃ a st', w.Returns st a st' ∧ (k a).Returns st' b st'' := by
  refine ⟨fun h ↦ ?_, fun ⟨a, st', hw, hk⟩ ↦ hw.bind hk⟩
  rw [Returns, run_bind] at h
  rcases hw : w.run.run st with ⟨_ | a, st'⟩
  · rw [hw] at h
    cases h
  · rw [hw] at h
    exact ⟨a, st', hw, h⟩

/-- Only what it is given comes of a walk that is done. -/
theorem returns_pure_iff {b : α} : (pure a : Walk σ α).Returns st b st' ↔ b = a ∧ st' = st := by
  constructor
  · rintro ⟨⟩
    exact ⟨rfl, rfl⟩
  · rintro ⟨rfl, rfl⟩
    exact returns_pure b st'

/-- Reading the state leaves it as it is. -/
theorem returns_get (st : WalkState σ) : (get : Walk σ (WalkState σ)).Returns st st st := rfl

/-- Reading a cell leaves the state as it is. -/
theorem returns_cell (id : NodeId) (st : WalkState σ) :
    (Walk.cell id).Returns st (st.store.cell id) st := rfl

/-- A change of a shape leaves the store with the change. -/
theorem returns_modifyShape (id : NodeId) (f : Shape (Option NodeId) → Shape (Option NodeId))
    (st : WalkState σ) :
    (Walk.modifyShape id f).Returns st () (st.modifyShape id f) := rfl

/-- An added node is in the store that is left. -/
theorem returns_add (cell : Cell) (st : WalkState σ) :
    (Walk.add cell).Returns st (st.store.add cell).1
      { st with store := (st.store.add cell).2 } := rfl

/-- Reading the memo leaves the state as it is. -/
theorem returns_memo (st : WalkState σ) : (Walk.memo : Walk σ σ).Returns st st.memo st := rfl

/-- A change of the memo leaves the store as it is. -/
theorem returns_modifyMemo (f : σ → σ) (st : WalkState σ) :
    (Walk.modifyMemo f).Returns st () { st with memo := f st.memo } := rfl

/-- A walk on the store of another always gives its outcome with its last memo, and leaves the memo
of the other as it is. -/
theorem returns_isolate_iff {τ : Type} {memo : τ} {walk : Walk τ α}
    {result : Except Failure α × τ} :
    (Walk.isolate memo walk).Returns st result st' ↔
      ∃ after, walk.run.run ⟨st.store, memo⟩ = (result.1, after) ∧ result.2 = after.memo ∧
        st' = { st with store := after.store } := by
  have hrun : (Walk.isolate memo walk).run.run st =
      (.ok ((walk.run.run ⟨st.store, memo⟩).1, (walk.run.run ⟨st.store, memo⟩).2.memo),
        { st with store := (walk.run.run ⟨st.store, memo⟩).2.store }) := rfl
  rw [Returns, hrun]
  constructor
  · intro h
    obtain ⟨hresult, hstate⟩ := Prod.mk.inj h
    cases hresult
    exact ⟨_, rfl, rfl, hstate.symm⟩
  · rintro ⟨after, hafter, hmemo, rfl⟩
    rw [hafter, ← hmemo]

/-- However a walk ends, its outcome is given on the store of another. -/
theorem returns_isolate {τ : Type} {memo : τ} {walk : Walk τ α} {outcome : Except Failure α}
    {after : WalkState τ} (h : walk.run.run ⟨st.store, memo⟩ = (outcome, after)) :
    (Walk.isolate memo walk).Returns st (outcome, after.memo) { st with store := after.store } :=
  returns_isolate_iff.mpr ⟨after, h, rfl, rfl⟩

/-- A walk that returns on the store of another gives its value there. -/
theorem Returns.isolate {τ : Type} {memo : τ} {walk : Walk τ α} {after : WalkState τ}
    (h : walk.Returns ⟨st.store, memo⟩ a after) :
    (Walk.isolate memo walk).Returns st (.ok a, after.memo) { st with store := after.store } :=
  returns_isolate h

/-- Only the value of an outcome comes of it. -/
theorem returns_ofOutcome_iff {outcome : Except Failure α} :
    (ofOutcome outcome : Walk σ α).Returns st a st' ↔ outcome = .ok a ∧ st' = st := by
  cases outcome with
  | ok b =>
    rw [ofOutcome, returns_pure_iff, Except.ok.injEq, eq_comm]
  | error failure => exact ⟨nofun, nofun⟩

end Walk

namespace Visitor

variable {σ : Type} {st st' : WalkState σ} {visit pre post : Visitor σ} {id : NodeId}

/-- The visitor that keeps nodes returns them. -/
theorem returns_keep (node : Option NodeId) (st : WalkState σ) :
    (keep node : Walk σ _).Returns st node st := rfl

/-- A walk down to a depth visits the node that the first visitor returns, and what is below it. -/
theorem returns_visitTo {depth : Nat} {node : Option NodeId} {result : Option NodeId}
    {after : WalkState σ} (hpre : (pre node).Returns st (some id) st')
    (h : (descend (visitTo pre post depth) post id (st'.store.cell id).shape).Returns
      st' result after) :
    (visitTo pre post (depth + 1) node).Returns st result after :=
  hpre.bind (.bind (Walk.returns_cell id st') h)

/-- The walk of two visitors is the walk down to a depth that the store allows. -/
theorem run_visitNode (node : Option NodeId) (st : WalkState σ) :
    (visitNode pre post node).run.run st =
      (visitTo pre post (st.store.size + depthAllowance) node).run.run st := by
  rw [visitNode, Walk.run_bind]
  rfl

/-- It returns what the walk down to that depth returns. -/
theorem returns_visitNode {node result : Option NodeId} {after : WalkState σ}
    (h : (visitTo pre post (st.store.size + depthAllowance) node).Returns st result after) :
    (visitNode pre post node).Returns st result after :=
  .bind (Walk.returns_get st) h

/-- Nothing is left of no children. -/
theorem returns_survivors_nil (st : WalkState σ) :
    (survivors visit []).Returns st [] st := rfl

/-- A child that is kept comes before what is left of the others. -/
theorem returns_survivors_cons {child : Option NodeId} {children left : List (Option NodeId)}
    {after : WalkState σ} (h : (visit child).Returns st (some id) st')
    (hs : (survivors visit children).Returns st' left after) :
    (survivors visit (child :: children)).Returns st (some id :: left) after :=
  h.bind (.bind hs (Walk.returns_pure _ _))

/-- A visit that returns an expression returns it from an expression. -/
theorem returns_exprOnly {node : Option NodeId} (h : (visit node).Returns st (some id) st')
    (he : (st'.store.cell id).shape.isExpr = true) :
    (exprOnly visit node).Returns st (some id) st' := by
  refine h.bind (.bind (Walk.returns_cell id st') ?_)
  rw [if_pos he]
  exact Walk.returns_pure _ _

/-- A slot is read as it is then, and what its visit returns is put there. -/
theorem returns_slot {which : Slot} {owner : NodeId}
    (h : (visit ((st.store.cell owner).shape.slot? which).join).Returns st (some id) st') :
    (slot visit owner which).Returns st id st' :=
  .bind (Walk.returns_cell owner st) (h.bind (Walk.returns_pure _ _))

/-- A list-bearing node that is not emptied is visited with what is left of its children. -/
theorem returns_listNode {children left : List (Option NodeId)} {result : Option NodeId}
    {after : WalkState σ} {shape : List (Option NodeId) → Shape (Option NodeId)}
    (h : (survivors visit children).Returns st left st') (hl : left.length = children.length)
    (hp : (post (some id)).Returns (st'.modifyShape id fun _ ↦ shape left) result after) :
    (listNode visit post id children shape).Returns st result after := by
  refine h.bind ?_
  have hempty : (!children.isEmpty && left.isEmpty) = false := by
    cases children <;> cases left <;> simp_all
  rw [hempty]
  exact .bind (Walk.returns_modifyShape id _ st') hp

/-- A conditional is visited with what its three slots return. -/
theorem returns_conditional {c t f : NodeId} {st₁ st₂ st₃ after : WalkState σ}
    {result c₀ t₀ f₀ : Option NodeId} {type : Option Annotation}
    (hc : (slot (exprOnly visit) id .condition).Returns st c st₁)
    (ht : (slot (exprOnly visit) id .whenTrue).Returns st₁ t st₂)
    (hf : (slot (exprOnly visit) id .whenFalse).Returns st₂ f st₃)
    (hp : (post (some id)).Returns
      (st₃.modifyShape id fun _ ↦ .conditional type (some c) (some t) (some f)) result after) :
    (descend visit post id (.conditional type c₀ t₀ f₀)).Returns st result after :=
  hc.bind (ht.bind (hf.bind (.bind (Walk.returns_modifyShape id _ st₃) hp)))

/-- An index is visited with what its two slots return. -/
theorem returns_index {t k : NodeId} {st₁ st₂ after : WalkState σ}
    {result t₀ k₀ : Option NodeId} {type : Option Annotation}
    (ht : (slot (exprOnly visit) id .target).Returns st t st₁)
    (hk : (slot (exprOnly visit) id .key).Returns st₁ k st₂)
    (hp : (post (some id)).Returns
      (st₂.modifyShape id fun _ ↦ .index type (some t) (some k)) result after) :
    (descend visit post id (.index type t₀ k₀)).Returns st result after :=
  ht.bind (hk.bind (.bind (Walk.returns_modifyShape id _ st₂) hp))

/-- A map whose values have all been visited stays as it is. -/
theorem returns_mapValues_nil (id : NodeId) (st : WalkState σ) :
    (mapValues visit id []).Returns st () st := rfl

/-- A value that is kept is put under its key before the others are visited. -/
theorem returns_mapValues_cons {key : Str} {child : Option NodeId} {value : NodeId}
    {entries : List (Str × Option NodeId)} {after : WalkState σ}
    (h : (visit child).Returns st (some value) st')
    (hs : (mapValues visit id entries).Returns
      (st'.modifyShape id (Shape.mapEntries (Table.insertEntry key (some value)))) () after) :
    (mapValues visit id ((key, child) :: entries)).Returns st () after :=
  h.bind (.bind (Walk.returns_modifyShape id _ st') hs)

/-- A map is visited after its values. -/
theorem returns_map {entries : List (Str × Option NodeId)} {result : Option NodeId}
    {after : WalkState σ} (h : (mapValues visit id entries).Returns st () st')
    (hp : (post (some id)).Returns st' result after) :
    (descend visit post id (.map entries)).Returns st result after :=
  h.bind hp

end Visitor
end Hil
