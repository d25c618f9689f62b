import Hil.Pass
import Hil.Proofs.Folding.Store
import Hil.Proofs.Table.Entries
import Hil.Proofs.Walk.Observing

/-!
# The folding walk

The walk that folds the constants of a store in place computes the folded tree: from a node that a
well-formed tree is read at, it returns a node that the folded tree is read at. Nodes may be shared
between positions, so the walk may come to a node again after it has folded what is below it.
-/

namespace Hil.Folding

open Hil.Tree Visitor

variable {st st' : WalkState Nat} {s : Store} {node : Option NodeId} {id : NodeId} {t : Tree}
  {info : NodeInfo} {shape shape₁ : Shape Tree} {n : Nat} {visit : Visitor Nat}

/-! ### Folding one node -/

/-- A node is a literal of a value exactly if the tree read there is one. -/
theorem literal?_eq (h : s.Reads node t) : literal? s node = t.literal? := by
  obtain ⟨_, info, shape, _, rfl⟩ := h.exists_node
  exact h.cellOf.2.literal?_eq

/-- A node is a condition of a value exactly if the tree read there is one. -/
theorem condition?_eq (h : s.Reads node t) : condition? s node = t.condition? := by
  have hl := literal?_eq h
  obtain ⟨_, info, shape, _, rfl⟩ := h.exists_node
  have ht : (s.cellOf node).shape.hasType Ty.bool = shape.hasType Ty.bool := by
    rw [Shape.hasType, Shape.hasType, h.cellOf.2.type?_eq]
  rw [condition?, ht, hl]
  rfl

/-- Nodes are all literals exactly if the trees read there are. -/
theorem literals?_eq {nodes : List (Option NodeId)} {ts : List Tree}
    (h : List.Forall₂ s.Reads nodes ts) : literals? s nodes = ts.mapM Tree.literal? := by
  rw [literals?]
  induction h with
  | nil => rfl
  | cons head _ ih => rw [List.mapM_cons, List.mapM_cons, literal?_eq head, ih]

/-- A node at which nothing is left to fold is returned as it is. -/
theorem rests_foldNode : foldNode.Rests fun _ shape ↦ Idle shape := by
  intro st id info shape hr hidle
  have hrel := (Store.reads_node_iff.mp hr).2
  refine .bind (Walk.returns_get st) ?_
  generalize hcell : (st.store.cell id).shape = cellShape at hrel
  cases hrel with
  | conditional type hc ht hf =>
    have hcond := condition?_eq hc
    rw [Idle, ← isSome_condition?, Option.not_isSome_iff_eq_none] at hidle
    simp only [hcell, hcond, hidle]
    exact Walk.returns_pure _ _
  | output type exprs =>
    have hvals := literals?_eq exprs
    rw [Idle, ← isSome_literals?, Option.not_isSome_iff_eq_none] at hidle
    simp only [hcell, hvals, hidle]
    exact Walk.returns_pure _ _
  | _ =>
    simp only [hcell]
    exact Walk.returns_pure _ _

/-- A node is folded as its tree is, once its children are. -/
theorem returns_foldNode (hr : st.store.Reads (some id) (.node info shape)) :
    ∃ r st', (foldNode (some id)).Returns st (some r) st' ∧ st.store.Refolds st'.store ∧
      st'.store.Reads (some r) (foldRoot info shape) := by
  by_cases hidle : Idle shape
  · exact ⟨id, st, rests_foldNode hr hidle, .refl _, foldRoot_of_idle hidle ▸ hr⟩
  · obtain ⟨hinfo, hrel⟩ := Store.reads_node_iff.mp hr
    generalize hcell : (st.store.cell id).shape = cellShape at hrel
    rcases not_idle_iff.mp hidle with ⟨type, c', t', f', value, rfl, hv⟩ |
      ⟨type, ys, values, rfl, hv⟩
    · cases hrel with
      | @conditional _ c t f _ _ _ hc ht hf =>
        have hcond := condition?_eq hc
        obtain ⟨r, hr'⟩ : ∃ r, (if value.isTruthy then t else f) = some r ∧
            st.store.Reads (some r) (if value.isTruthy then t' else f') := by
          split
          · obtain ⟨r, _, _, rfl, _⟩ := ht.exists_node
            exact ⟨r, rfl, ht⟩
          · obtain ⟨r, _, _, rfl, _⟩ := hf.exists_node
            exact ⟨r, rfl, hf⟩
        refine ⟨r, { st with memo := st.memo + 1 }, .bind (Walk.returns_get st) ?_, .refl _, ?_⟩
        · simp only [hcell, hcond, hv, hr'.1]
          exact .bind (Walk.returns_modifyMemo _ st) (Walk.returns_pure _ _)
        · simpa [foldRoot, hv] using hr'.2
    · cases hrel with
      | output _ hx =>
        have hvals := literals?_eq hx
        let cell : Cell := ⟨{ origin := info.origin },
          .literal (some (.known Ty.string)) (.str (outputText values))⟩
        refine ⟨(st.store.add cell).1, ⟨(st.store.add cell).2, st.memo + 1⟩,
          .bind (Walk.returns_get st) ?_, .of_extends (.add _ _), ?_⟩
        · simp only [hcell, hvals, hv, hinfo]
          exact .bind (Walk.returns_modifyMemo _ st)
            (.bind (Walk.returns_add cell _) (Walk.returns_pure _ _))
        · have hf : foldRoot info (.output type ys) = outputLiteral info values := by
            simp [foldRoot, hv]
          rw [hf, outputLiteral, Store.reads_node_iff, Store.cell_add]
          exact ⟨rfl, .literal _ _⟩

private theorem returns_foldNode_modifyShape
    {g : Shape (Option NodeId) → Shape (Option NodeId)}
    (hr : st.store.Reads (some id) (.node info shape₁)) (hw : (Tree.node info shape).WellFormed)
    (hred : shape.Rel Reduces shape₁)
    (hg : Shape.Rel st.store.Reads (g (st.store.cell id).shape) (shape.mapChildren folded)) :
    ∃ r st', (foldNode (some id)).Returns (st.modifyShape id g) (some r) st' ∧
      st.store.Refolds st'.store ∧ st'.store.Reads (some r) (Tree.node info shape).folded := by
  have hw₁ := (Reduces.node hw hred).wellFormed
  have hred₁ : shape₁.Rel Reduces (shape.mapChildren folded) := by
    rw [Shape.rel_map_right_iff]
    refine hred.flip.imp fun t₁ t h ↦ ?_
    rw [← h.folded]
    exact .to_folded h.wellFormed
  obtain ⟨shape₂, hred₂, hr₂⟩ := Store.reads_modifyShape_self hr hw₁ hg hred₁
  have hsettled : shape₂ = shape.mapChildren folded := by
    apply Store.rel_reduces_settled hred₂
    exact Shape.forall_mem_mapChildren.mpr fun u _ ↦ folded_folded u
  subst hsettled
  obtain ⟨r, st', hret, hst', hread⟩ :=
    @returns_foldNode (st.modifyShape id g) _ _ _ hr₂
  refine ⟨r, st', hret, (Store.Refolds.modifyShape hr hw₁ hg hred₁).trans hst', ?_⟩
  rwa [folded_node]

/-! ### Folding children -/

/-- The visitor folds the visitable trees of a store in place. -/
structure Folds (exprs : Bool) (n : Nat) (visit : Visitor Nat) : Prop where
  returns : ∀ {st node t}, st.store.Reads node t → Visitable exprs n t →
    ∃ r st', (visit node).Returns st (some r) st' ∧ st.store.Refolds st'.store ∧
      st'.store.Reads (some r) t.folded

/-- A visitor that folds trees folds expressions into expressions. -/
theorem Folds.exprOnly (h : Folds false n visit) : Folds true n (exprOnly visit) := by
  constructor
  intro st node t hr hv
  obtain ⟨r, st', hret, hst', hr'⟩ := h.returns hr hv.any
  refine ⟨r, st', returns_exprOnly hret ?_, hst', hr'⟩
  have he := (isExpr_folded hv.wellFormed).trans (hv.expr rfl)
  obtain ⟨_, info, shape, _, ht⟩ := hr'.exists_node
  rw [ht] at hr' he
  rw [(Store.reads_node_iff.mp hr').2.isExpr_eq]
  exact he

/-- Children that are visited in order are all folded, and none is dropped. -/
theorem Folds.survivors {exprs : Bool} (h : Folds exprs n visit) {children : List (Option NodeId)}
    {ts : List Tree} (hr : List.Forall₂ st.store.Reads children ts)
    (hv : ∀ t ∈ ts, Visitable exprs n t) :
    ∃ left st', (survivors visit children).Returns st left st' ∧ st.store.Refolds st'.store ∧
      List.Forall₂ st'.store.Reads left (ts.map folded) := by
  induction children generalizing ts st with
  | nil =>
    cases hr
    exact ⟨[], st, returns_survivors_nil st, .refl _, .nil⟩
  | cons child children ih =>
    cases hr with
    | @cons _ t _ ts head tail =>
      obtain ⟨r, st₁, hret, hst₁, hr₁⟩ := h.returns head (hv t List.mem_cons_self)
      -- the other children may share nodes with this one, and are read as they are now
      have hrest : ∃ us, List.Forall₂ st₁.store.Reads children us ∧ List.Forall₂ Reduces ts us := by
        have hboth := forall₂_exists_between (R := st₁.store.Reads) (S := fun u t ↦ Reduces t u)
          (forall₂_imp_mem tail fun c _ u hu hc ↦ ?_)
        · obtain ⟨us, hus, hts⟩ := hboth
          exact ⟨us, hus, hts.flip⟩
        · obtain ⟨u', hu', hc'⟩ := hst₁.reduces hc (hv u (List.mem_cons_of_mem _ hu)).wellFormed
          exact ⟨u', hc', hu'⟩
      obtain ⟨us, hus, hts⟩ := hrest
      have hvs : ∀ u ∈ us, Visitable exprs n u := by
        intro u hu
        obtain ⟨t, ht, hr⟩ := forall₂_exists_left hts hu
        exact (hv t (List.mem_cons_of_mem _ ht)).reduces hr
      have hfs : ts.map folded = us.map folded :=
        forall₂_map_eq hts fun _ _ hr ↦ hr.folded.symm
      obtain ⟨left, st₂, hret₂, hst₂, hr₂⟩ := ih hus hvs
      have ht := (hv t List.mem_cons_self).wellFormed
      refine ⟨some r :: left, st₂, returns_survivors_cons hret hret₂, hst₁.trans hst₂, ?_⟩
      rw [List.map_cons, hfs]
      exact .cons (hst₂.settled hr₁ ht.folded (folded_folded t)) hr₂

/-- A child in a slot is folded, whatever it has been reduced to before. -/
theorem Folds.slot (h : Folds true n visit) (which : Slot)
    (hr : st.store.Reads (some id) (.node info shape₁)) (hw : (Tree.node info shape).WellFormed)
    (hred : shape.Rel Reduces shape₁) (hslot : shape.slot? which = some t)
    (hv : Visitable true n t) :
    ∃ r st', (slot visit id which).Returns st r st' ∧ st.store.Refolds st'.store ∧
      st'.store.Reads (some r) t.folded ∧
      ∃ shape₂, shape.Rel Reduces shape₂ ∧ st'.store.Reads (some id) (.node info shape₂) := by
  obtain ⟨u, hu, htu⟩ := hred.slot? hslot
  obtain ⟨child, hchild, hcu⟩ := (Store.reads_node_iff.mp hr).2.flip.slot? hu
  obtain ⟨r, st', hret, hst', hr'⟩ := h.returns hcu (hv.reduces htu)
  obtain ⟨shape₂, hred₂, hr₂⟩ := hst'.reads hr (Reduces.node hw hred).wellFormed
  refine ⟨r, st', returns_slot ?_, hst', htu.folded ▸ hr',
    shape₂, hred.trans hred₂ fun _ _ _ ↦ Reduces.trans, hr₂⟩
  rwa [hchild]

/-- A list-bearing node is folded after its children. -/
theorem Folds.listNode {exprs : Bool} (h : Folds exprs n visit)
    {children : List (Option NodeId)} {ts : List Tree} (mk : {α : Type} → List α → Shape α)
    (hmk : ∀ {α β : Type} {R : α → β → Prop} {xs : List α} {ys : List β},
      List.Forall₂ R xs ys → Shape.Rel R (mk xs) (mk ys))
    (hmap : (mk ts).mapChildren folded = mk (ts.map folded))
    (hr : st.store.Reads (some id) (.node info (mk ts))) (hw : (Tree.node info (mk ts)).WellFormed)
    (hc : List.Forall₂ st.store.Reads children ts) (hv : ∀ t ∈ ts, Visitable exprs n t) :
    ∃ r st', (listNode visit foldNode id children mk).Returns st (some r) st' ∧
      st.store.Refolds st'.store ∧ st'.store.Reads (some r) (Tree.node info (mk ts)).folded := by
  obtain ⟨left, st₁, hret₁, hst₁, hleft⟩ := h.survivors hc hv
  obtain ⟨shape₁, hred, hr₁⟩ := hst₁.reads hr hw
  have hg : Shape.Rel st₁.store.Reads (mk left) ((mk ts).mapChildren folded) := by
    rw [hmap]
    exact hmk hleft
  obtain ⟨r, st₂, hret₂, hst₂, hr₂⟩ :=
    returns_foldNode_modifyShape (g := fun _ ↦ mk left) hr₁ hw hred hg
  refine ⟨r, st₂, returns_listNode hret₁ ?_ hret₂, hst₁.trans hst₂, hr₂⟩
  rw [hleft.length_eq, List.length_map, hc.length_eq]

/-- A conditional is folded after its condition and both its branches. -/
theorem Folds.conditional (h : Folds false n visit) {type : Option Annotation}
    {c t f : Tree} (hr : st.store.Reads (some id) (.node info (.conditional type c t f)))
    (hw : (Tree.node info (.conditional type c t f)).WellFormed)
    (hv : ∀ u ∈ [c, t, f], Visitable true n u) (c₀ t₀ f₀ : Option NodeId) :
    ∃ r st', (descend visit foldNode id (.conditional type c₀ t₀ f₀)).Returns st (some r) st' ∧
      st.store.Refolds st'.store ∧
      st'.store.Reads (some r) (Tree.node info (.conditional type c t f)).folded := by
  have hvc := hv c (by simp)
  have hvt := hv t (by simp)
  have hvf := hv f (by simp)
  have hself : (Shape.conditional type c t f).Rel Reduces (.conditional type c t f) :=
    .conditional type (.refl hvc.wellFormed) (.refl hvt.wellFormed) (.refl hvf.wellFormed)
  obtain ⟨rc, st₁, ret₁, hst₁, hc₁, _, hred₁, hr₁⟩ :=
    h.exprOnly.slot .condition hr hw hself rfl hvc
  obtain ⟨rt, st₂, ret₂, hst₂, ht₂, _, hred₂, hr₂⟩ :=
    h.exprOnly.slot .whenTrue hr₁ hw hred₁ rfl hvt
  obtain ⟨rf, st₃, ret₃, hst₃, hf₃, _, hred₃, hr₃⟩ :=
    h.exprOnly.slot .whenFalse hr₂ hw hred₂ rfl hvf
  have hc₃ := (hst₂.trans hst₃).settled hc₁ hvc.wellFormed.folded (folded_folded c)
  have ht₃ := hst₃.settled ht₂ hvt.wellFormed.folded (folded_folded t)
  obtain ⟨r, st₄, ret₄, hst₄, hr₄⟩ := returns_foldNode_modifyShape
    (g := fun _ ↦ .conditional type (some rc) (some rt) (some rf)) hr₃ hw hred₃
    (.conditional type hc₃ ht₃ hf₃)
  exact ⟨r, st₄, returns_conditional ret₁ ret₂ ret₃ ret₄,
    (hst₁.trans (hst₂.trans hst₃)).trans hst₄, hr₄⟩

/-- An index is folded after its target and its key. -/
theorem Folds.index (h : Folds false n visit) {type : Option Annotation} {t k : Tree}
    (hr : st.store.Reads (some id) (.node info (.index type t k)))
    (hw : (Tree.node info (.index type t k)).WellFormed)
    (hv : ∀ u ∈ [t, k], Visitable true n u) (t₀ k₀ : Option NodeId) :
    ∃ r st', (descend visit foldNode id (.index type t₀ k₀)).Returns st (some r) st' ∧
      st.store.Refolds st'.store ∧
      st'.store.Reads (some r) (Tree.node info (.index type t k)).folded := by
  have hvt := hv t (by simp)
  have hvk := hv k (by simp)
  have hself : (Shape.index type t k).Rel Reduces (.index type t k) :=
    .index type (.refl hvt.wellFormed) (.refl hvk.wellFormed)
  obtain ⟨rt, st₁, ret₁, hst₁, ht₁, _, hred₁, hr₁⟩ :=
    h.exprOnly.slot .target hr hw hself rfl hvt
  obtain ⟨rk, st₂, ret₂, hst₂, hk₂, _, hred₂, hr₂⟩ :=
    h.exprOnly.slot .key hr₁ hw hred₁ rfl hvk
  have ht₂ := hst₂.settled ht₁ hvt.wellFormed.folded (folded_folded t)
  obtain ⟨r, st₃, ret₃, hst₃, hr₃⟩ := returns_foldNode_modifyShape
    (g := fun _ ↦ .index type (some rt) (some rk)) hr₂ hw hred₂ (.index type ht₂ hk₂)
  exact ⟨r, st₃, returns_index ret₁ ret₂ ret₃,
    (hst₁.trans hst₂).trans hst₃, hr₃⟩

/-! ### Folding the values of a map -/

/-- Entries with the same keys, whose values reduce. -/
private abbrev EntriesReduce (us us' : List (Str × Tree)) : Prop :=
  List.Forall₂ (fun x y ↦ x.1 = y.1 ∧ Reduces x.2 y.2) us us'

private theorem EntriesReduce.map_folded {us us' : List (Str × Tree)}
    (h : EntriesReduce us us') :
    (us'.map fun u ↦ (u.1, u.2.folded)) = us.map fun u ↦ (u.1, u.2.folded) :=
  (forall₂_map_eq h fun _ _ hr ↦ by rw [hr.1, hr.2.folded]).symm

private theorem map_reduces {ds us : List (Str × Tree)} {shape' : Shape Tree}
    (h : (Shape.map (ds ++ us)).Rel Reduces shape') (hs : ∀ d ∈ ds, d.2.folded = d.2) :
    ∃ us', shape' = .map (ds ++ us') ∧ EntriesReduce us us' := by
  cases h with
  | map entries =>
    obtain ⟨ds', us', rfl, hds, hus⟩ := forall₂_append_left entries
    have heq : List.Forall₂ (· = ·) ds ds' := forall₂_imp_mem hds fun d hd d' _ h ↦
      Prod.ext h.1 (h.2.settled (hs d hd)).symm
    rw [List.forall₂_eq_eq_eq] at heq
    exact ⟨us', by rw [heq], hus⟩

private theorem forall_folded_append {ds : List (Str × Tree)}
    (h : ∀ d ∈ ds, d.2.folded = d.2) (key : Str) (t : Tree) :
    ∀ d ∈ ds ++ [(key, t.folded)], d.2.folded = d.2 := by
  intro d hd
  rcases List.mem_append.mp hd with hd | hd
  · exact h d hd
  · obtain rfl := List.mem_singleton.mp hd
    exact folded_folded t

private theorem reads_insertEntry {ds us : List (Str × Tree)} {key : Str} {r : NodeId}
    (hr : s.Reads (some id) (.node info (.map (ds ++ (key, t) :: us))))
    (hw : (Tree.node info (.map (ds ++ (key, t) :: us))).WellFormed)
    (hds : ∀ d ∈ ds, d.2.folded = d.2) (hnew : s.Reads (some r) t.folded) :
    s.Refolds (s.modifyShape id (Shape.mapEntries (Table.insertEntry key (some r)))) ∧
      ∃ us', EntriesReduce us us' ∧
        (Tree.node info (.map (ds ++ (key, t.folded) :: us'))).WellFormed ∧
        (s.modifyShape id (Shape.mapEntries (Table.insertEntry key (some r)))).Reads (some id)
          (.node info (.map (ds ++ (key, t.folded) :: us'))) := by
  have hself (e : Str × Tree) (he : e ∈ ds ++ (key, t) :: us) : e.1 = e.1 ∧ e.2.Reduces e.2 :=
    ⟨rfl, .refl (hw.child (List.mem_map_of_mem he))⟩
  have hred : (Shape.map (ds ++ (key, t) :: us)).Rel Reduces
      (.map (ds ++ (key, t.folded) :: us)) := by
    refine .map (List.rel_append (List.forall₂_same.mpr fun e he ↦ hself e ?_)
      (.cons ⟨rfl, .to_folded ?_⟩ (List.forall₂_same.mpr fun e he ↦ hself e ?_)))
    · exact List.mem_append_left _ he
    · exact hw.child (t := t) (by simp [Shape.children])
    · exact List.mem_append_right _ (List.mem_cons_of_mem _ he)
  have hg : Shape.Rel s.Reads
      (Shape.mapEntries (Table.insertEntry key (some r)) (s.cell id).shape)
      (.map (ds ++ (key, t.folded) :: us)) := by
    have hrel := (Store.reads_node_iff.mp hr).2
    generalize (s.cell id).shape = cellShape at hrel
    cases hrel with
    | map entries =>
      obtain ⟨ces, _, rfl, hces, htail⟩ := forall₂_append_left entries.flip
      cases htail with
      | @cons _ c _ ces' head tail =>
        obtain ⟨key', c⟩ := c
        obtain rfl : key' = key := head.1
        have hfresh : key' ∉ ces.map Prod.fst := by
          have hd : (ds ++ (key', t) :: us).map Prod.fst =
              (ces ++ (key', c) :: ces').map Prod.fst :=
            (Shape.Rel.map entries).keys_eq.symm
          have hn : ((ces ++ (key', c) :: ces').map Prod.fst).Nodup := hd ▸ hw.root.distinct
          rw [List.map_append, List.map_cons, List.nodup_append] at hn
          exact fun hm ↦ hn.2.2 _ hm _ List.mem_cons_self rfl
        rw [Shape.mapEntries, Table.insertEntry_append_cons hfresh]
        exact .map (List.rel_append hces.flip (.cons ⟨rfl, hnew⟩ tail.flip))
  refine ⟨.modifyShape hr hw hg hred, ?_⟩
  obtain ⟨_, hred', hr'⟩ := Store.reads_modifyShape_self hr hw hg hred
  have hw' := (Reduces.node hw (hred.trans hred' fun _ _ _ ↦ Reduces.trans)).wellFormed
  rw [List.append_cons] at hred'
  obtain ⟨us', rfl, hus⟩ := map_reduces hred' (forall_folded_append hds key t)
  rw [← List.append_cons] at hw' hr'
  exact ⟨us', hus, hw', hr'⟩

/-- The entries from which values are still to be visited, and what they are to be folded to. A
value may have been reduced since, where it shares nodes with others. -/
private def Pending (s : Store) (n : Nat) (entries : List (Str × Option NodeId))
    (us : List (Str × Tree)) : Prop :=
  List.Forall₂ (fun e u ↦ e.1 = u.1 ∧
    ∃ v, s.Reads e.2 v ∧ Visitable false n v ∧ v.folded = u.2.folded) entries us

private theorem Pending.refolds {s' : Store} {entries : List (Str × Option NodeId)}
    {us us' : List (Str × Tree)} (h : Pending s n entries us) (hs : s.Refolds s')
    (hu : EntriesReduce us us') :
    Pending s' n entries us' := by
  induction h generalizing us' with
  | nil => cases hu; exact .nil
  | cons head _ ih =>
    cases hu with
    | cons head' tail' =>
      obtain ⟨hk, v, hv, hvis, hf⟩ := head
      obtain ⟨w, hvw, hw⟩ := hs.reduces hv hvis.wellFormed
      exact .cons ⟨hk.trans head'.1, w, hw, hvis.reduces hvw,
        hvw.folded.trans (hf.trans head'.2.folded.symm)⟩ (ih tail')

/-- The values of a map are folded one by one, each in the map that the others have left. -/
theorem Folds.mapValues (h : Folds false n visit) {entries : List (Str × Option NodeId)}
    {ds us : List (Str × Tree)}
    (hr : st.store.Reads (some id) (.node info (.map (ds ++ us))))
    (hw : (Tree.node info (.map (ds ++ us))).WellFormed) (hds : ∀ d ∈ ds, d.2.folded = d.2)
    (hp : Pending st.store n entries us) :
    ∃ st', (mapValues visit id entries).Returns st () st' ∧ st.store.Refolds st'.store ∧
      st'.store.Reads (some id)
        (.node info (.map (ds ++ us.map fun u ↦ (u.1, u.2.folded)))) := by
  induction entries generalizing st ds us with
  | nil =>
    cases hp
    exact ⟨st, returns_mapValues_nil id st, .refl _, by simpa using hr⟩
  | cons entry entries ih =>
    obtain ⟨key, child⟩ := entry
    cases hp with
    | @cons _ u _ us head tail =>
      obtain ⟨hkey, v, hv, hvis, hfv⟩ := head
      obtain ⟨key', u⟩ := u
      obtain rfl : key = key' := hkey
      obtain ⟨r, st₁, ret₁, hst₁, hr₁⟩ := h.returns hv hvis
      obtain ⟨_, hred, hid⟩ := hst₁.reads hr hw
      have hw₁ := (Reduces.node hw hred).wellFormed
      obtain ⟨_, rfl, hus⟩ := map_reduces hred hds
      cases hus with
      | @cons _ u₁ _ us₁ hu₁ hus₁ =>
        obtain ⟨key', u₁⟩ := u₁
        obtain rfl : key = key' := hu₁.1
        have hf : u₁.folded = u.folded := hu₁.2.folded
        rw [hfv, ← hf] at hr₁
        obtain ⟨hst₂, us₂, hus₂, hw₂, hid₂⟩ := reads_insertEntry hid hw₁ hds hr₁
        rw [List.append_cons] at hw₂ hid₂
        obtain ⟨st₃, ret₃, hst₃, hr₃⟩ :=
          @ih (st₁.modifyShape id (Shape.mapEntries (Table.insertEntry key (some r)))) _ _
            hid₂ hw₂ (forall_folded_append hds key u₁)
              (Pending.refolds (Pending.refolds tail hst₁ hus₁) hst₂ hus₂)
        refine ⟨st₃, returns_mapValues_cons ret₁ ret₃, (hst₁.trans hst₂).trans hst₃, ?_⟩
        rw [EntriesReduce.map_folded hus₂, EntriesReduce.map_folded hus₁, hf] at hr₃
        simpa using hr₃

/-- A map is folded after its values. -/
theorem Folds.map (h : Folds false n visit) {entries : List (Str × Option NodeId)}
    {us : List (Str × Tree)} (hr : st.store.Reads (some id) (.node info (.map us)))
    (hw : (Tree.node info (.map us)).WellFormed)
    (hv : ∀ u ∈ us.map Prod.snd, Visitable false n u)
    (hc : Shape.Rel st.store.Reads (.map entries) (.map us)) :
    ∃ r st', (descend visit foldNode id (.map entries)).Returns st (some r) st' ∧
      st.store.Refolds st'.store ∧
      st'.store.Reads (some r) (Tree.node info (.map us)).folded := by
  have hp : Pending st.store n entries us := by
    cases hc with
    | map hes =>
      clear hr hw
      induction hes with
      | nil => exact .nil
      | cons head _ ih =>
        rw [List.map_cons, List.forall_mem_cons] at hv
        exact .cons ⟨head.1, _, head.2, hv.1, rfl⟩ (ih hv.2)
  obtain ⟨st₁, ret₁, hst₁, hr₁⟩ := @Folds.mapValues _ _ _ _ _ h entries [] us hr hw nofun hp
  obtain ⟨r, st₂, ret₂, hst₂, hr₂⟩ := returns_foldNode hr₁
  refine ⟨r, st₂, returns_map ret₁ ret₂, hst₁.trans hst₂, ?_⟩
  rw [folded_node]
  exact hr₂

/-! ### Folding trees -/

/-- A node is folded once its children can be. -/
theorem Folds.descend (h : Folds false n visit)
    (hr : st.store.Reads (some id) (.node info shape))
    (hv : Visitable false (n + 1) (Tree.node info shape)) :
    ∃ r st', (descend visit foldNode id (st.store.cell id).shape).Returns st (some r) st' ∧
      st.store.Refolds st'.store ∧ st'.store.Reads (some r) (Tree.node info shape).folded := by
  have hw := hv.wellFormed
  have hchildren := hv.child
  have hrel := (Store.reads_node_iff.mp hr).2
  have hknown := hw.root.known
  generalize (st.store.cell id).shape = cellShape at hrel
  cases hrel with
  | arithmetic type exprs =>
    exact h.exprOnly.listNode (.arithmetic type) (.arithmetic type) rfl hr hw exprs hchildren
  | call func type args =>
    exact h.exprOnly.listNode (.call func type) (.call func type) rfl hr hw args hchildren
  | conditional type _ _ _ => exact h.conditional hr hw hchildren _ _ _
  | index type _ _ => exact h.index hr hw hchildren _ _
  | literal type value =>
    obtain ⟨r, st', hret, hst', hr'⟩ := returns_foldNode hr
    exact ⟨r, st', hret, hst', by rwa [folded_node]⟩
  | output type exprs =>
    exact h.exprOnly.listNode (.output type) (.output type) rfl hr hw exprs hchildren
  | access type resolved =>
    obtain ⟨r, st', hret, hst', hr'⟩ := returns_foldNode hr
    exact ⟨r, st', hret, hst', by rwa [folded_node]⟩
  | list elements => exact h.listNode .list .list rfl hr hw elements hchildren
  | map entries => exact h.map hr hw hchildren (.map entries)
  | foreign => cases hknown

/-- The folding walk folds trees as high as it may go deep. -/
theorem visitTo_folds (n : Nat) : Folds false n (visitTo keep foldNode n) := by
  induction n with
  | zero =>
    constructor
    intro st node t hr hv
    obtain ⟨_, info, shape, _, rfl⟩ := hr.exists_node
    have hpos := height_node_pos info shape
    exact absurd hv.height (by omega)
  | succ n ih =>
    constructor
    intro st node t hr hv
    obtain ⟨id, info, shape, rfl, rfl⟩ := hr.exists_node
    obtain ⟨r, st', hret, hst', hr'⟩ := ih.descend hr hv
    exact ⟨r, st', returns_visitTo (returns_keep _ st) hret, hst', hr'⟩

/-- Folding the constants of a well-formed tree returns a node at which the folded tree stands. -/
theorem returns_foldConstants (hw : (st.store.tree node).WellFormed) :
    ∃ r st', (foldConstants node).Returns st (some r) st' ∧ st.store.Refolds st'.store ∧
      st'.store.tree (some r) = (st.store.tree node).folded := by
  have hr := Store.reads_tree hw.present
  have hh : (st.store.tree node).height ≤ st.store.size := Store.height_treeTo_le _ _ _
  obtain ⟨r, st', hret, hst', hr'⟩ := (visitTo_folds (st.store.size + depthAllowance)).returns hr
    ⟨hw, Nat.le_trans hh (Nat.le_add_right _ _), nofun⟩
  refine ⟨r, st', returns_visitNode hret, hst', hr'.tree_eq ?_⟩
  exact Nat.le_trans (height_folded_le _) (Nat.le_trans hh hst'.size)

end Hil.Folding

namespace Hil.Pass

/-- The folding pass folds a well-formed tree in any context, of which it changes the count. -/
theorem returns_folding {st : WalkState Context} {node : Option NodeId}
    (hw : (st.store.tree node).WellFormed) :
    ∃ r store count, (folding.run node).Returns st (some r)
        ⟨store, { st.memo with folded := count }⟩ ∧
      st.store.Refolds store ∧ store.tree (some r) = (st.store.tree node).folded := by
  obtain ⟨r, after, hret, hst, hr⟩ := @Folding.returns_foldConstants ⟨st.store, 0⟩ node hw
  exact ⟨r, after.store, after.memo,
    .bind hret.isolate (.bind (Walk.returns_modifyMemo _ _) (Walk.returns_pure _ _)), hst, hr⟩

end Hil.Pass
