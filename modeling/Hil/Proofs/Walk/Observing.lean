import Hil.Proofs.Store.Reading
import Hil.Proofs.Table.Entries
import Hil.Proofs.Walk.Returns

/-!
# Observing walks

A visitor observes when it returns every node as it is, leaves the store alone and changes its memo
by what the node shows. A walk with an observing visitor comes through the labels of a tree: it
folds the memo over them and puts back what it has found everywhere, up to the first node of a class
that walks do not know, at which it fails. The visitor that runs after the children may do more
elsewhere, as long as it rests at the nodes of the tree.
-/

namespace Hil

/-- What a node shows besides its children. -/
def Cell.label (cell : Cell) : Tree.Label := ⟨cell.info, cell.shape.outline⟩

/-- Giving a node the shape that it has changes nothing. -/
theorem Store.modifyShape_eq_self {s : Store} {id : NodeId}
    {f : Shape (Option NodeId) → Shape (Option NodeId)}
    (h : f (s.cell id).shape = (s.cell id).shape) : s.modifyShape id f = s := by
  obtain ⟨cells, labels⟩ := s
  rw [modifyShape, mk.injEq]
  refine ⟨Array.ext (by simp) fun i h₁ h₂ ↦ ?_, rfl⟩
  rw [Array.getElem_modify]
  split
  · next hi =>
    subst hi
    rw [cell, Array.getD_eq_getD_getElem?, Array.getElem?_eq_getElem h₂, Option.getD_some] at h
    rw [h]
  · rfl

namespace WalkState

variable {σ : Type} {step : Tree.Label → σ → σ} {st : WalkState σ} {id : NodeId}

/-- The state after labels have been observed. -/
def observed (step : Tree.Label → σ → σ) (st : WalkState σ) (labels : List Tree.Label) :
    WalkState σ :=
  { st with memo := labels.foldl (fun memo label ↦ step label memo) st.memo }

/-- Labels are observed one after the other. -/
theorem observed_append (st : WalkState σ) (xs ys : List Tree.Label) :
    st.observed step (xs ++ ys) = (st.observed step xs).observed step ys := by
  simp [observed]

private theorem modifyShape_eq_self {f : Shape (Option NodeId) → Shape (Option NodeId)}
    (h : f (st.store.cell id).shape = (st.store.cell id).shape) : st.modifyShape id f = st := by
  rw [modifyShape, Store.modifyShape_eq_self h]

end WalkState

namespace Walk

open Hil.Tree

variable {σ α β : Type} {step : Label → σ → σ} {st : WalkState σ} {w : Walk σ α}
  {k : α → Walk σ β} {a : α} {b : β} {xs ys : List Label}

/-- The walk comes through the labels: it returns the value once it has observed them all, if all
are of classes that traversals know. At the first that is not it fails, having observed that too. -/
structure Surveys (step : Label → σ → σ) (w : Walk σ α) (st : WalkState σ) (a : α)
    (labels : List Label) : Prop where
  returns : (∀ label ∈ labels, label.isKnown = true) → w.Returns st a (st.observed step labels)
  fails : ∀ {before label after}, labels = before ++ label :: after →
    (∀ l ∈ before, l.isKnown = true) → label.isKnown = false →
    w.run.run st = (.error (.violation (.unknownClass label.outline.className)),
      st.observed step (before ++ [label]))

/-- Giving a node the shape that it has leaves the state as it is. -/
theorem returns_modifyShape_self {id : NodeId} {f : Shape (Option NodeId) → Shape (Option NodeId)}
    (h : f (st.store.cell id).shape = (st.store.cell id).shape) :
    (Walk.modifyShape id f).Returns st () st := by
  have hchange := returns_modifyShape id f st
  rwa [WalkState.modifyShape_eq_self h] at hchange

/-- Nothing is observed by a walk that leaves the state as it is. -/
theorem Surveys.of_returns (h : w.Returns st a st) : w.Surveys step st a [] where
  returns _ := h
  fails heq := by simp at heq

/-- A step that observes a known label comes through that label. -/
theorem Surveys.of_known {label : Label} (hknown : label.isKnown = true)
    (h : w.Returns st a (st.observed step [label])) : w.Surveys step st a [label] where
  returns _ := h
  fails {before label' after} heq _ hlabel := by
    have hmem : label' ∈ [label] := heq ▸ List.mem_append_right _ List.mem_cons_self
    rw [List.mem_singleton.mp hmem, hknown] at hlabel
    cases hlabel

/-- A walk that fails at an unknown label comes through no label that follows. -/
theorem Surveys.of_unknown {label : Label} (hunknown : label.isKnown = false)
    (h : w.run.run st = (.error (.violation (.unknownClass label.outline.className)),
      st.observed step [label])) : w.Surveys step st a (label :: xs) where
  returns hall := by
    rw [hall label List.mem_cons_self] at hunknown
    cases hunknown
  fails {before label' after} heq hbefore _ := by
    cases before with
    | nil =>
      obtain ⟨rfl, -⟩ := List.cons.inj heq
      exact h
    | cons first before =>
      obtain ⟨rfl, -⟩ := List.cons.inj heq
      rw [hbefore label List.mem_cons_self] at hunknown
      cases hunknown

private theorem first_of_append {before after : List Label} {label : Label}
    (h : xs ++ ys = before ++ label :: after) (hbefore : ∀ l ∈ before, l.isKnown = true) :
    (∃ more, xs = before ++ label :: more) ∨
      (∀ l ∈ xs, l.isKnown = true) ∧ ∃ more, before = xs ++ more ∧ ys = more ++ label :: after := by
  rcases List.append_eq_append_iff.mp h with ⟨more, rfl, hys⟩ | ⟨more, hxs, htail⟩
  · exact .inr ⟨fun l hl ↦ hbefore l (List.mem_append_left _ hl), more, rfl, hys⟩
  · cases more with
    | nil =>
      rw [List.append_nil] at hxs
      subst hxs
      exact .inr ⟨hbefore, [], (List.append_nil _).symm, htail.symm⟩
    | cons l more =>
      obtain ⟨rfl, -⟩ := List.cons.inj htail
      exact .inl ⟨more, hxs⟩

/-- What a walk goes on with comes through the labels that are left. -/
theorem Surveys.bind (h : w.Surveys step st a xs)
    (hk : (∀ label ∈ xs, label.isKnown = true) →
      (k a).Surveys step (st.observed step xs) b ys) :
    (w >>= k).Surveys step st b (xs ++ ys) where
  returns hall := by
    rw [List.forall_mem_append] at hall
    rw [WalkState.observed_append]
    exact (h.returns hall.1).bind ((hk hall.1).returns hall.2)
  fails heq hbefore hlabel := by
    rw [run_bind]
    rcases first_of_append heq hbefore with ⟨more, hxs⟩ | ⟨hxs, more, rfl, hys⟩
    · rw [h.fails hxs hbefore hlabel]
    · rw [h.returns hxs, List.append_assoc, WalkState.observed_append]
      exact (hk hxs).fails hys (fun l hl ↦ hbefore l (List.mem_append_right _ hl)) hlabel

/-- Steps that leave the state as it is can follow. -/
theorem Surveys.bind_returns (h : w.Surveys step st a xs)
    (hk : (∀ label ∈ xs, label.isKnown = true) →
      (k a).Returns (st.observed step xs) b (st.observed step xs)) :
    (w >>= k).Surveys step st b xs := by
  simpa using h.bind fun hxs ↦ .of_returns (hk hxs)

/-- Steps that leave the state as it is can come first. -/
theorem Surveys.returns_bind (h : w.Returns st a st) (hk : (k a).Surveys step st b ys) :
    (w >>= k).Surveys step st b ys := by
  simpa using (Surveys.of_returns h).bind fun _ ↦ hk

end Walk

namespace Visitor

open Hil.Tree

variable {σ : Type} {step : Label → σ → σ} {Q : NodeInfo → Shape Tree → Prop} {st : WalkState σ}
  {visit pre post : Visitor σ} {id : NodeId} {node : Option NodeId} {info : NodeInfo}
  {shape : Shape Tree} {t : Tree} {n : Nat} {exprs : Bool}

/-- The visitor returns every node as it is, and changes the memo by the label of the node. -/
def Observes (step : Label → σ → σ) (pre : Visitor σ) : Prop :=
  ∀ st id, (pre (some id)).Returns st (some id) (st.observed step [(st.store.cell id).label])

/-- The visitor returns the nodes with the property as they are, and changes nothing. -/
def Rests (Q : NodeInfo → Shape Tree → Prop) (post : Visitor σ) : Prop :=
  ∀ {st id info shape}, st.store.Reads (some id) (.node info shape) → Q info shape →
    (post (some id)).Returns st (some id) st

/-- The visitor that keeps nodes rests everywhere. -/
theorem rests_keep : (keep : Visitor σ).Rests fun _ _ ↦ True := fun _ _ ↦ returns_keep _ _

/-- What a walk down to a depth comes through: a walkable tree of bounded height with a property
everywhere, an expression or of an unknown class if it has to be an expression. -/
structure Surveyable (Q : NodeInfo → Shape Tree → Prop) (exprs : Bool) (n : Nat) (t : Tree) :
    Prop where
  walkable : t.Walkable
  height : t.height ≤ n
  property : t.Everywhere Q
  expr : exprs = true → t.isExpr = true ∨ t.isForeign = true

/-- The children of a node are one level further down, expressions below expressions. -/
theorem Surveyable.child (h : Surveyable Q exprs (n + 1) (.node info shape)) :
    ∀ t ∈ shape.children, Surveyable Q shape.isExpr n t := fun t ht ↦
  ⟨h.walkable.child ht, height_node_le_iff.mp h.height t ht, h.property.child ht,
    fun he ↦ h.walkable.root.exprs he t ht⟩

/-- The visitor comes through the trees of a store that have a property everywhere. -/
structure SurveysTrees (step : Label → σ → σ) (Q : NodeInfo → Shape Tree → Prop) (exprs : Bool)
    (n : Nat) (visit : Visitor σ) : Prop where
  surveys : ∀ {st node t}, st.store.Reads node t → Surveyable Q exprs n t →
    (visit node).Surveys step st node t.labels

namespace SurveysTrees

/-- A visitor that returns nodes as they are returns expressions for expressions. -/
theorem exprOnly (h : SurveysTrees step Q false n visit) :
    SurveysTrees step Q true n (exprOnly visit) := by
  constructor
  intro st node t hr hv
  obtain ⟨id, info, shape, rfl, rfl⟩ := hr.exists_node
  refine (h.surveys hr ⟨hv.walkable, hv.height, hv.property, nofun⟩).bind_returns fun hknown ↦
    .bind (Walk.returns_cell id _) ?_
  have hroot : shape.isTraversable = true := by
    rw [labels_node, List.forall_mem_cons] at hknown
    exact shape.isTraversable_outline.symm.trans hknown.1
  have hexpr : (st.store.cell id).shape.isExpr = true := by
    rw [(Store.reads_node_iff.mp hr).2.isExpr_eq]
    exact (hv.expr rfl).resolve_right (by simp [isForeign, hroot])
  change Walk.Returns (if (st.store.cell id).shape.isExpr = true then _ else _) _ _ _
  rw [if_pos hexpr]
  exact Walk.returns_pure _ _

/-- Children are observed in order, and none is dropped. -/
theorem survivors (h : SurveysTrees step Q exprs n visit) {children : List (Option NodeId)}
    {ts : List Tree} (hr : List.Forall₂ st.store.Reads children ts)
    (hv : ∀ t ∈ ts, Surveyable Q exprs n t) :
    (survivors visit children).Surveys step st children (ts.flatMap labels) := by
  induction children generalizing ts st with
  | nil =>
    cases hr
    exact .of_returns (returns_survivors_nil st)
  | cons child children ih =>
    cases hr with
    | @cons _ t _ ts head tail =>
      rw [List.forall_mem_cons] at hv
      obtain ⟨id, _, _, rfl, _⟩ := head.exists_node
      have htail : (Visitor.survivors visit children).Surveys step (st.observed step t.labels)
          children (ts.flatMap labels) := ih tail hv.2
      rw [List.flatMap_cons]
      exact (h.surveys head hv.1).bind fun _ ↦ htail.bind_returns fun _ ↦ Walk.returns_pure _ _

private theorem listNode (h : SurveysTrees step Q exprs n visit) {children : List (Option NodeId)}
    {ts : List Tree} {mk : List (Option NodeId) → Shape (Option NodeId)}
    (hcell : (st.store.cell id).shape = mk children)
    (hr : List.Forall₂ st.store.Reads children ts) (hv : ∀ t ∈ ts, Surveyable Q exprs n t)
    (hp : ∀ labels, (post (some id)).Returns (st.observed step labels) (some id)
      (st.observed step labels)) :
    (listNode visit post id children mk).Surveys step st (some id) (ts.flatMap labels) := by
  refine (h.survivors hr hv).bind_returns fun _ ↦ ?_
  have hempty : (!children.isEmpty && children.isEmpty) = false := by
    cases children <;> rfl
  rw [hempty]
  exact .bind (Walk.returns_modifyShape_self hcell.symm) (hp _)

private theorem slot (h : SurveysTrees step Q true n visit) (which : Slot)
    (hslot : (st.store.cell id).shape.slot? which = some node) (hr : st.store.Reads node t)
    (hv : Surveyable Q true n t) :
    ∃ child, node = some child ∧ ∀ seen,
      (slot visit id which).Surveys step (st.observed step seen) child t.labels := by
  obtain ⟨child, _, _, rfl, _⟩ := hr.exists_node
  refine ⟨child, rfl, fun seen ↦ .returns_bind (Walk.returns_cell id _) ?_⟩
  change (visit ((st.store.cell id).shape.slot? which).join >>= _).Surveys _ _ _ _
  rw [hslot]
  exact (@h.surveys (st.observed step seen) _ _ hr hv).bind_returns fun _ ↦ Walk.returns_pure _ _

private theorem mapValues (h : SurveysTrees step Q false n visit)
    {all entries : List (Str × Option NodeId)} {us : List (Str × Tree)}
    (hcell : (st.store.cell id).shape = .map all)
    (hall : ∀ e ∈ entries, Table.lookupEntry e.1 all = some e.2)
    (hr : List.Forall₂ (fun e u ↦ e.1 = u.1 ∧ st.store.Reads e.2 u.2) entries us)
    (hv : ∀ u ∈ us.map Prod.snd, Surveyable Q false n u) :
    (mapValues visit id entries).Surveys step st () ((us.map Prod.snd).flatMap labels) := by
  induction entries generalizing us st with
  | nil =>
    cases hr
    exact .of_returns (returns_mapValues_nil id st)
  | cons entry entries ih =>
    cases hr with
    | @cons _ u _ us head tail =>
      obtain ⟨key, child⟩ := entry
      rw [List.map_cons, List.forall_mem_cons] at hv
      rw [List.forall_mem_cons] at hall
      obtain ⟨value, _, _, rfl, _⟩ := head.2.exists_node
      rw [List.map_cons, List.flatMap_cons]
      have hsame : Shape.mapEntries (Table.insertEntry key (some value)) (st.store.cell id).shape =
          (st.store.cell id).shape := by
        rw [hcell, Shape.mapEntries, Table.insertEntry_eq_self hall.1]
      have htail : (Visitor.mapValues visit id entries).Surveys step
          (st.observed step u.2.labels) () ((us.map Prod.snd).flatMap labels) :=
        ih hcell hall.2 tail hv.2
      exact (h.surveys head.2 hv.1).bind fun _ ↦
        .returns_bind (Walk.returns_modifyShape_self hsame) htail

/-- What is below a node of a known class is observed once its children can be. -/
theorem descend (h : SurveysTrees step Q false n visit) (hpost : post.Rests Q)
    (hr : st.store.Reads (some id) (.node info shape))
    (hv : Surveyable Q false (n + 1) (.node info shape)) (hknown : shape.isTraversable = true) :
    (descend visit post id (st.store.cell id).shape).Surveys step st (some id)
      (shape.children.flatMap labels) := by
  have hchildren := hv.child
  have hrest (labels : List Label) : (post (some id)).Returns (st.observed step labels) (some id)
      (st.observed step labels) := hpost hr hv.property.root
  have hrel := (Store.reads_node_iff.mp hr).2
  generalize hcell : (st.store.cell id).shape = cellShape at hrel
  cases hrel with
  | arithmetic type exprs => exact h.exprOnly.listNode hcell exprs hchildren hrest
  | call func type args => exact h.exprOnly.listNode hcell args hchildren hrest
  | @conditional type _ _ _ c t f hc ht hf =>
    simp only [Shape.children, List.forall_mem_cons] at hchildren
    obtain ⟨_, rfl, surveysC⟩ := h.exprOnly.slot .condition (by rw [hcell]; rfl) hc hchildren.1
    obtain ⟨_, rfl, surveysT⟩ := h.exprOnly.slot .whenTrue (by rw [hcell]; rfl) ht hchildren.2.1
    obtain ⟨_, rfl, surveysF⟩ := h.exprOnly.slot .whenFalse (by rw [hcell]; rfl) hf hchildren.2.2.1
    have hlabels : [c, t, f].flatMap labels = c.labels ++ (t.labels ++ f.labels) := by simp
    rw [Shape.children, hlabels]
    refine (surveysC []).bind fun _ ↦ (surveysT _).bind fun _ ↦ ?_
    rw [← WalkState.observed_append]
    refine (surveysF _).bind_returns fun _ ↦ .bind (Walk.returns_modifyShape_self hcell.symm) ?_
    rw [← WalkState.observed_append]
    exact hrest _
  | @index type _ _ t k ht hk =>
    simp only [Shape.children, List.forall_mem_cons] at hchildren
    obtain ⟨_, rfl, surveysT⟩ := h.exprOnly.slot .target (by rw [hcell]; rfl) ht hchildren.1
    obtain ⟨_, rfl, surveysK⟩ := h.exprOnly.slot .key (by rw [hcell]; rfl) hk hchildren.2.1
    have hlabels : [t, k].flatMap labels = t.labels ++ k.labels := by simp
    rw [Shape.children, hlabels]
    refine (surveysT []).bind fun _ ↦ (surveysK _).bind_returns fun _ ↦
      .bind (Walk.returns_modifyShape_self hcell.symm) ?_
    rw [← WalkState.observed_append]
    exact hrest _
  | literal type value => exact .of_returns (hrest [])
  | output type exprs => exact h.exprOnly.listNode hcell exprs hchildren hrest
  | access type resolved => exact .of_returns (hrest [])
  | list elements => exact h.listNode hcell elements hchildren hrest
  | @map xs us entries =>
    have hdistinct : (Shape.map xs).keys.Nodup :=
      (Shape.Rel.map entries).keys_eq ▸ hv.walkable.root.distinct
    exact (h.mapValues hcell (fun e he ↦ Table.lookupEntry_of_mem hdistinct he) entries
      hchildren).bind_returns fun _ ↦ hrest _
  | foreign => cases hknown

end SurveysTrees

/-- A walk that comes to a node of an unknown class has observed it when it fails there. -/
theorem Observes.run_visitTo_unknown (h : Observes step pre)
    (hknown : (st.store.cell id).shape.isTraversable = false) :
    (Visitor.visitTo pre post (n + 1) (some id)).run.run st =
      (.error (.violation (.unknownClass (st.store.cell id).label.outline.className)),
        st.observed step [(st.store.cell id).label]) := by
  rw [Visitor.visitTo, Walk.run_bind, h st id]
  dsimp only
  rw [Walk.run_bind, Walk.returns_cell]
  change (Visitor.descend _ _ _ (st.store.cell id).shape).run.run _ = _
  rw [Cell.label]
  generalize (st.store.cell id).shape = shape at hknown
  cases shape <;> first | rfl | cases hknown

/-- A walk with an observing visitor and one that rests comes through the trees that are as high as
it may go deep. -/
theorem Observes.visitTo (h : Observes step pre) (hpost : post.Rests Q) (n : Nat) :
    SurveysTrees step Q false n (visitTo pre post n) := by
  induction n with
  | zero =>
    constructor
    intro st node t hr hv
    obtain ⟨_, info, shape, _, rfl⟩ := hr.exists_node
    exact absurd hv.height (Nat.not_le_of_gt (height_node_pos info shape))
  | succ n ih =>
    constructor
    intro st node t hr hv
    obtain ⟨id, info, shape, rfl, rfl⟩ := hr.exists_node
    obtain ⟨hinfo, hrel⟩ := Store.reads_node_iff.mp hr
    have hlabel : (st.store.cell id).label = ⟨info, shape.outline⟩ := by
      rw [Cell.label, hinfo, hrel.outline_eq]
    have hknown : (st.store.cell id).label.isKnown = shape.isTraversable := by
      rw [hlabel]
      exact shape.isTraversable_outline
    rw [labels_node, ← hlabel]
    cases htraversable : shape.isTraversable with
    | true =>
      have hroot := Walk.Surveys.of_known (hknown.trans htraversable) (h st id)
      exact hroot.bind fun _ ↦ .returns_bind (Walk.returns_cell id _)
        (@SurveysTrees.descend _ _ _ (st.observed step _) _ _ _ _ _ _ ih hpost hr hv htraversable)
    | false =>
      exact .of_unknown (hknown.trans htraversable)
        (h.run_visitTo_unknown (hrel.isTraversable_eq.trans htraversable))

/-- A walk with an observing visitor, and one that rests at all nodes of the tree, comes through the
labels of the tree in their order, and returns the node that it starts from. -/
theorem Observes.surveys_visitNode (h : Observes step pre) (hpost : post.Rests Q)
    (hw : (st.store.tree node).Walkable) (hq : (st.store.tree node).Everywhere Q) :
    (visitNode pre post node).Surveys step st node (st.store.tree node).labels := by
  have hr := Store.reads_tree hw.present
  have hh : (st.store.tree node).height ≤ st.store.size := Store.height_treeTo_le _ _ _
  exact .returns_bind (Walk.returns_get st) ((h.visitTo hpost _).surveys hr
    ⟨hw, Nat.le_trans hh (Nat.le_add_right _ _), hq, nofun⟩)

/-- Of a well-formed tree it observes all labels, and leaves the store as it is. -/
theorem Observes.returns_visitNode_of_rests (h : Observes step pre) (hpost : post.Rests Q)
    (hw : (st.store.tree node).WellFormed) (hq : (st.store.tree node).Everywhere Q) :
    (visitNode pre post node).Returns st node (st.observed step (st.store.tree node).labels) :=
  (h.surveys_visitNode hpost hw.walkable hq).returns hw.isKnown

/-- A walk with an observing visitor alone observes the labels of any well-formed tree. -/
theorem Observes.returns_visitNode (h : Observes step pre)
    (hw : (st.store.tree node).WellFormed) :
    (visitNode pre keep node).Returns st node (st.observed step (st.store.tree node).labels) :=
  h.returns_visitNode_of_rests rests_keep hw hw.present

end Visitor

end Hil
