import Hil.Proofs.Walk.Custody
import Hil.Proofs.Walk.Entries
import Hil.Proofs.Walk.Rewriting

/-!
# Visitors that answer by the tree

A visitor answers by a rewriting if what it returns from a node, or its failure, is what the
rewriting makes of the tree at the node. Then the walk of two such visitors answers by the rewriting
of whole trees. So one walk with two visitors has the outcome of two walks, the first with the one
visitor and the second with the other.
-/

namespace Hil

/-! ### Outcomes of walks -/

namespace Walk

variable {σ α β γ δ : Type} {w : Walk σ α} {k : α → Walk σ γ} {x : Except Failure β}
  {f : β → Except Failure δ} {st st' : WalkState σ} {R : β → α → WalkState σ → Prop}
  {Q : δ → γ → WalkState σ → Prop} {a : α}

/-- The walk fails as the outcome does, or returns what the relation says of the value. -/
def Yields (w : Walk σ α) (st : WalkState σ) (x : Except Failure β)
    (R : β → α → WalkState σ → Prop) : Prop :=
  match x with
  | .error failure => ∃ st', w.run.run st = (.error failure, st')
  | .ok b => ∃ a st', w.Returns st a st' ∧ R b a st'

/-- A walk that is done yields what it is given. -/
theorem yields_pure {b : β} (h : R b a st) : (pure a : Walk σ α).Yields st (.ok b) R :=
  ⟨a, st, returns_pure a st, h⟩

/-- A walk that fails yields its failure. -/
theorem yields_throw (failure : Failure) :
    (throw failure : Walk σ α).Yields st (.error failure) R := ⟨st, rfl⟩

/-- A walk yields what the rest of it yields after a part that returns. -/
theorem Returns.yields_bind {y : Except Failure δ} (h : w.Returns st a st')
    (hk : (k a).Yields st' y Q) : (w >>= k).Yields st y Q := by
  cases y with
  | error failure =>
    obtain ⟨st'', hrun⟩ := hk
    exact ⟨st'', by rw [run_bind, h]; exact hrun⟩
  | ok c =>
    obtain ⟨c', st'', hrun, hq⟩ := hk
    exact ⟨c', st'', h.bind hrun, hq⟩

/-- A walk yields in turn what its parts yield. -/
theorem Yields.bind (h : w.Yields st x R)
    (hk : ∀ b a st', R b a st' → (k a).Yields st' (f b) Q) :
    (w >>= k).Yields st (x >>= f) Q := by
  cases x with
  | error failure =>
    obtain ⟨st', hw⟩ := h
    exact ⟨st', by rw [run_bind, hw]⟩
  | ok b =>
    obtain ⟨a, st', hw, hr⟩ := h
    exact hw.yields_bind (hk b a st' hr)

/-- What is known of what a walk yields can be put in other words. -/
theorem Yields.imp {S : β → α → WalkState σ → Prop} (h : w.Yields st x R)
    (hs : ∀ b a st', R b a st' → S b a st') : w.Yields st x S := by
  cases x with
  | error failure => exact h
  | ok b =>
    obtain ⟨a, st', hw, hr⟩ := h
    exact ⟨a, st', hw, hs b a st' hr⟩

/-- The value of an outcome can be changed. -/
theorem Yields.map {g : β → δ} {S : δ → α → WalkState σ → Prop} (h : w.Yields st x R)
    (hs : ∀ b a st', R b a st' → S (g b) a st') : w.Yields st (x >>= fun b ↦ pure (g b)) S := by
  cases x with
  | error failure => exact h
  | ok b =>
    obtain ⟨a, st', hw, hr⟩ := h
    exact ⟨a, st', hw, hs b a st' hr⟩

/-- A walk that returns yields a value. -/
theorem Yields.of_returns (h : w.Yields st x R) (hw : w.Returns st a st') :
    ∃ b, x = .ok b ∧ R b a st' := by
  cases x with
  | error failure =>
    obtain ⟨st'', hrun⟩ := h
    cases hrun.symm.trans hw
  | ok b =>
    obtain ⟨a', st'', hrun, hr⟩ := h
    cases Eq.trans (Eq.symm hrun) hw
    exact ⟨b, rfl, hr⟩

/-- The outcome of a walk with the tree at the node that it returns. -/
def treeOf (w : Walk σ (Option NodeId)) (st : WalkState σ) : Except Failure Tree :=
  (w.run.run st).1.map (w.run.run st).2.store.tree

end Walk

/-- There is a tree exactly if there is a layout. -/
@[simp] theorem Layout.isMissing_tree (l : Layout) : l.tree.isMissing = l.isMissing := by
  cases l with
  | missing => rfl
  | node => rw [tree_node]; rfl

namespace Visitor

open Layout

variable {σ : Type} {I : WalkState σ → Set NodeId → Prop} {st st₁ : WalkState σ} {T : Set NodeId}
  {id : NodeId} {info : NodeInfo} {shape : Shape Layout} {l : Layout} {ls : List Layout}
  {f p q : Rewriting} {visit pre post : Visitor σ}

/-- The nodes of a layout in use have been exchanged for those of a layout of the tree. -/
def Becomes (I : WalkState σ → Set NodeId → Prop) (T : Set NodeId) (l : Layout) (st : WalkState σ)
    (t : Tree) (r : Option NodeId) (st' : WalkState σ) : Prop :=
  ∃ l', l'.root? = r ∧ l'.tree = t ∧ st'.store.Stands l' ∧ Exchange I T l.ids l'.ids st st'

/-- In every state, what the visitor returns from a layout in use, or its failure, is what the
rewriting makes of the tree. As trees have the labels of their nodes, that can depend on which node
the visitor is given. -/
structure Answers (I : WalkState σ → Set NodeId → Prop) (f : Rewriting) (visit : Visitor σ) :
    Prop where
  yields : ∀ {st T l}, InUse I T [l] st →
    (visit l.root?).Yields st (f l.tree) (Becomes I T l st)

/-- The visitor that keeps nodes answers by the rewriting that keeps trees. -/
theorem answers_keep (hI : Custody I) : Answers I .keep (keep : Visitor σ) := by
  constructor
  intro st T l hu
  exact Walk.yields_pure ⟨l, rfl, rfl, hu.stands, hu.exchange hI⟩

namespace Answers

/-! ### Handlers -/

/-- Where nodes have to stay expressions, trees have to. -/
theorem exprOnly (h : Answers I f visit) : Answers I f.exprOnly (exprOnly visit) := by
  constructor
  intro st T l hu
  apply (h.yields hu).bind
  rintro t r st₁ ⟨l', rfl, rfl, hl', hx⟩
  cases l' with
  | missing => exact Walk.yields_pure ⟨.missing, rfl, rfl, hl', hx⟩
  | node id info shape =>
    apply (Walk.returns_cell id st₁).yields_bind
    cases hl'.holds with
    | node _ cell _ _ =>
      rw [cell, Shape.isExpr_mapChildren, Shape.className_mapChildren, tree_node,
        Rewriting.checkExpr, Shape.isExpr_mapChildren, Shape.className_mapChildren]
      split
      · exact Walk.yields_pure ⟨_, rfl, tree_node, hl', hx⟩
      · exact Walk.yields_throw _

/-- Children that are visited in order are exchanged, and those that are not missing are left. -/
theorem survivors (hI : Custody I) (h : Answers I f visit) (hu : InUse I T ls st) :
    (survivors visit (ls.map root?)).Yields st
      (Rewriting.survivors Tree.isMissing f (ls.map tree)) fun ts left st' ↦
      ∃ ls', Traded I (fun _ ↦ True) T [] ls ls' st st' ∧
        left = (ls'.filter fun l ↦ !l.isMissing).map root? ∧
        ts = (ls'.filter fun l ↦ !l.isMissing).map tree := by
  induction ls generalizing st T with
  | nil => exact Walk.yields_pure ⟨[], .nil hI hu.custody nofun, rfl, rfl⟩
  | cons l ls ih =>
    apply (h.yields hu.head).bind
    rintro t r st₁ ⟨l', rfl, rfl, hl', hx⟩
    cases l' with
    | missing =>
      apply (ih (hu.tail hx)).map
      rintro ts left st₂ ⟨ls', ht, rfl, rfl⟩
      exact ⟨_, .cons hI hu hl' hx trivial ht, rfl, rfl⟩
    | node id info shape =>
      apply (ih (hu.tail hx)).bind
      rintro ts left st₂ ⟨ls', ht, rfl, rfl⟩
      refine Walk.yields_pure ⟨_, .cons hI hu hl' hx trivial ht, rfl, ?_⟩
      rw [isMissing_tree]
      rfl

/-- The child in a slot is exchanged for a node, and its parent and what is in use besides stay as
they are. -/
theorem slot (h : Answers I f visit) (hu : InUse I T (l :: ls) st) (hid : id ∈ T)
    (hout : id ∉ (l :: ls).flatMap ids) {which : Slot}
    (hs : (st.store.cell id).shape.slot? which = some l.root?) :
    (slot visit id which).Yields st (f.slot which l.tree) fun t child st' ↦
      ∃ l', l'.root? = some child ∧ l'.tree = t ∧ st'.store.Stands l' ∧
        Exchange I T l.ids l'.ids st st' ∧ InUse I (traded T l.ids l'.ids) ls st' ∧
        id ∈ traded T l.ids l'.ids ∧ id ∉ ls.flatMap ids ∧
        st'.store.cell id = st.store.cell id := by
  rw [List.flatMap_cons, List.mem_append, not_or] at hout
  apply (Walk.returns_cell id st).yields_bind
  rw [hs]
  apply (h.yields hu.head).bind
  rintro t r st₁ ⟨l', rfl, rfl, hl', hx⟩
  cases l' with
  | missing => exact Walk.yields_throw _
  | node id' info' shape' =>
    rw [tree_node]
    exact Walk.yields_pure ⟨_, rfl, tree_node, hl', hx, hu.tail hx, .inl ⟨hid, hout.1⟩, hout.2,
      hx.frame id hid hout.1⟩

/-- The values of a map are exchanged in order, and those that are not missing stay under their
keys after whatever stands before them. -/
theorem mapValues (hI : Custody I) (h : Answers I f visit) {rest : List (Str × Layout)}
    {done : List (Str × Option NodeId)} (hu : InUse I T (rest.map Prod.snd) st) (hid : id ∈ T)
    (hout : id ∉ (rest.map Prod.snd).flatMap ids) (hmap : st.store.MapAt id info done rest) :
    (mapValues visit id (rest.map fun e ↦ (e.1, e.2.root?))).Yields st
      (Rewriting.survivors (·.2.isMissing) f.entry (rest.map fun e ↦ (e.1, e.2.tree)))
      fun left _ st' ↦ ∃ rest' : List (Str × Layout),
        rest'.map Prod.fst = rest.map Prod.fst ∧
        Traded I (fun _ ↦ True) T [id] (rest.map Prod.snd) (rest'.map Prod.snd) st st' ∧
        st'.store.cell id = ⟨info, .map (done ++ kept rest')⟩ ∧
        left = (rest'.filter fun e ↦ !e.2.isMissing).map fun e ↦ (e.1, e.2.tree) := by
  induction rest generalizing st T done with
  | nil =>
    exact Walk.yields_pure
      ⟨[], rfl, .nil hI hu.custody (List.forall_mem_singleton.mpr hid), hmap.cell, rfl⟩
  | cons entry rest ih =>
    obtain ⟨key, l⟩ := entry
    rw [List.map_cons, mapValues_cons, List.map_cons, Rewriting.survivors, Rewriting.entry,
      bind_assoc]
    simp only [List.map_cons, List.flatMap_cons, List.mem_append, not_or] at hu hout
    apply (h.yields hu.head).bind
    rintro t r st₁ ⟨l', rfl, rfl, hl', hx⟩
    have hmap₁ := hmap.frame hx.size (hx.frame id hid hout.1)
    apply (returns_settle hmap₁ l'.root?).yields_bind
    have hbelow : ∀ i ∈ [id], i ∉ (rest.map Prod.snd).flatMap ids :=
      List.forall_mem_singleton.mpr hout.2
    have hgone : id ∉ l'.ids := fun hm ↦ (hx.fresh id hm).elim hout.1 fun hn ↦ hn hid
    have hx' : Exchange I T ([id] ++ l.ids) ([id] ++ l'.ids) st
        (st₁.modifyShape id (Shape.settle key l'.root?)) :=
      hx.then_modifyShape hI hid hout.1 _
    apply (ih (hu.tail_of_above hx' hbelow) (.inr List.mem_cons_self) hout.2
      (hmap₁.settle l')).map
    rintro left _ st₂ ⟨rest', hfst, ht, hcell, rfl⟩
    refine ⟨(key, l') :: rest', by rw [List.map_cons, hfst, List.map_cons], ?_, ?_, ?_⟩
    · exact .cons_of_above hI hu hbelow ⟨hl'.holds.modifyShape hgone _, hl'.unshared⟩ hx' trivial
        (List.forall_mem_singleton.mpr hgone) ht
    · rw [hcell, List.append_assoc, ← kept_cons]
    · cases hm : l'.isMissing <;> simp [hm]

/-! ### Nodes above their new children -/

/-- A node above its new children is visited as the tree that it then is. -/
theorem finish (hI : Custody I) (h : Answers I q post) {shape' : Shape Layout}
    (hl' : st₁.store.Stands (.node id info shape'))
    (hx : Exchange I T (Layout.node id info shape).ids (Layout.node id info shape').ids st st₁) :
    (post (some id)).Yields st₁ (q (.node info (shape'.mapChildren tree)))
      (Becomes I T (.node id info shape) st) := by
  have hpost := h.yields (.of_stands hx hl')
  rw [tree_node] at hpost
  apply hpost.imp
  rintro t r st₂ ⟨l'', hroot, htree, hl'', hx'⟩
  exact ⟨l'', hroot, htree, hl'', hx.comp hI hx'⟩

/-- A list-bearing node answers by its tree. -/
theorem listNode (hI : Custody I) (h : Answers I f visit) (hpost : Answers I q post)
    (c : Shape.ListClass) (hu : InUse I T [.node id info (c.shape ls)] st) :
    (listNode visit post id (ls.map root?) c.shape).Yields st
      (f.listNode q info c (ls.map tree)) (Becomes I T (.node id info (c.shape ls)) st) := by
  obtain ⟨hchildren, hid, hout⟩ := hu.children
  rw [Shape.ListClass.children_shape] at hchildren hout
  apply (h.survivors hI hchildren).bind
  rintro ts left st₁ ⟨ls', ht, rfl, rfl⟩
  simp only [List.isEmpty_map]
  split
  · refine Walk.yields_pure
      ⟨.missing, rfl, rfl, .missing _, ht.exchange.widen hI ?_ (List.forall_mem_nil _)⟩
    intro i hi
    rw [ids_node, Shape.ListClass.children_shape]
    exact List.mem_cons_of_mem _ hi
  · apply (Walk.returns_modifyShape id _ st₁).yields_bind
    rw [← Shape.ListClass.mapChildren_shape, ← Shape.ListClass.mapChildren_shape]
    rw [← c.children_shape ls] at ht
    obtain ⟨hl', hx⟩ := ht.stands_modifyShape hI hu (c.shape (ls'.filter fun l ↦ !l.isMissing))
      (by simp) (by simp)
    exact hpost.finish hI hl' hx

/-- A conditional answers by its tree. -/
theorem conditional (hI : Custody I) (h : Answers I f visit) (hpost : Answers I q post)
    {type : Option Annotation} {c t e : Layout} {c₀ t₀ e₀ : Option NodeId}
    (hu : InUse I T [.node id info (.conditional type c t e)] st) :
    (descend visit post id (.conditional type c₀ t₀ e₀)).Yields st
      (f.descend q info (.conditional type c.tree t.tree e.tree))
      (Becomes I T (.node id info (.conditional type c t e)) st) := by
  obtain ⟨hchildren, hid, hout⟩ := hu.children
  have hcell : (st.store.cell id).shape = .conditional type c.root? t.root? e.root? :=
    congrArg Cell.shape hu.cell_eq
  apply (h.exprOnly.slot hchildren hid hout (by rw [hcell]; rfl)).bind
  rintro _ cId st₁ ⟨c', hcr, rfl, hcl, hcx, hu₁, hid₁, hout₁, hcell₁⟩
  apply (h.exprOnly.slot hu₁ hid₁ hout₁ (by rw [hcell₁, hcell]; rfl)).bind
  rintro _ tId st₂ ⟨t', htr, rfl, htl, htx, hu₂, hid₂, hout₂, hcell₂⟩
  apply (h.exprOnly.slot hu₂ hid₂ hout₂ (by rw [hcell₂, hcell₁, hcell]; rfl)).bind
  rintro _ eId st₃ ⟨e', her, rfl, hel, hex, hu₃, -, -, -⟩
  apply (Walk.returns_modifyShape id _ st₃).yields_bind
  have hall : Traded I (fun _ ↦ True) T [] [c, t, e] [c', t', e'] st st₃ :=
    .cons hI hchildren hcl hcx trivial (.cons hI hu₁ htl htx trivial
      (.cons hI hu₂ hel hex trivial (.nil hI hu₃.custody nofun)))
  obtain ⟨hl', hx⟩ :=
    hall.stands_modifyShape hI hu (.conditional type c' t' e') (.refl _) List.nodup_nil
  rw [← hcr, ← htr, ← her]
  exact hpost.finish hI hl' hx

/-- An index answers by its tree. -/
theorem index (hI : Custody I) (h : Answers I f visit) (hpost : Answers I q post)
    {type : Option Annotation} {t k : Layout} {t₀ k₀ : Option NodeId}
    (hu : InUse I T [.node id info (.index type t k)] st) :
    (descend visit post id (.index type t₀ k₀)).Yields st
      (f.descend q info (.index type t.tree k.tree))
      (Becomes I T (.node id info (.index type t k)) st) := by
  obtain ⟨hchildren, hid, hout⟩ := hu.children
  have hcell : (st.store.cell id).shape = .index type t.root? k.root? :=
    congrArg Cell.shape hu.cell_eq
  apply (h.exprOnly.slot hchildren hid hout (by rw [hcell]; rfl)).bind
  rintro _ tId st₁ ⟨t', htr, rfl, htl, htx, hu₁, hid₁, hout₁, hcell₁⟩
  apply (h.exprOnly.slot hu₁ hid₁ hout₁ (by rw [hcell₁, hcell]; rfl)).bind
  rintro _ kId st₂ ⟨k', hkr, rfl, hkl, hkx, hu₂, -, -, -⟩
  apply (Walk.returns_modifyShape id _ st₂).yields_bind
  have hall : Traded I (fun _ ↦ True) T [] [t, k] [t', k'] st st₂ :=
    .cons hI hchildren htl htx trivial (.cons hI hu₁ hkl hkx trivial (.nil hI hu₂.custody nofun))
  obtain ⟨hl', hx⟩ := hall.stands_modifyShape hI hu (.index type t' k') (.refl _) List.nodup_nil
  rw [← htr, ← hkr]
  exact hpost.finish hI hl' hx

/-- A map answers by its tree. -/
theorem map (hI : Custody I) (h : Answers I f visit) (hpost : Answers I q post)
    {entries : List (Str × Layout)} (hu : InUse I T [.node id info (.map entries)] st) :
    (descend visit post id ((Shape.map entries).mapChildren root?)).Yields st
      (f.descend q info ((Shape.map entries).mapChildren tree))
      (Becomes I T (.node id info (.map entries)) st) := by
  obtain ⟨hchildren, hid, hout⟩ := hu.children
  cases hu.stands.holds with
  | node bound cell distinct below =>
    have hmap : st.store.MapAt id info [] entries := ⟨bound, cell, distinct⟩
    apply (h.mapValues hI hchildren hid hout hmap).bind
    rintro left _ st₁ ⟨entries', hkeys, ht, hcell, rfl⟩
    have hdistinct : ((entries'.filter fun e ↦ !e.2.isMissing).map Prod.fst).Nodup := by
      refine List.Nodup.sublist (List.filter_sublist.map _) ?_
      rw [hkeys]
      exact distinct
    obtain ⟨hl', hx⟩ := ht.stands hI hu (.map (entries'.filter fun e ↦ !e.2.isMissing)) hcell
      (List.filter_sublist.map _) hdistinct
    exact hpost.finish hI hl' hx

/-- A node without children answers by its tree. -/
theorem leaf (hpost : Answers I q post) (hu : InUse I T [.node id info shape] st) :
    (post (some id)).Yields st (q (.node info (shape.mapChildren tree)))
      (Becomes I T (.node id info shape) st) := by
  rw [← tree_node]
  exact hpost.yields hu

/-! ### Walks -/

/-- A node in use answers by its tree when its children do. -/
theorem descend (hI : Custody I) (h : Answers I f visit) (hpost : Answers I q post)
    (hu : InUse I T [.node id info shape] st) :
    (descend visit post id (shape.mapChildren root?)).Yields st
      (f.descend q info (shape.mapChildren tree)) (Becomes I T (.node id info shape) st) := by
  cases shape with
  | arithmetic type exprs => exact h.exprOnly.listNode hI hpost (.arithmetic type) hu
  | call func type args => exact h.exprOnly.listNode hI hpost (.call func type) hu
  | conditional type c t e => exact h.conditional hI hpost hu
  | index type t k => exact h.index hI hpost hu
  | literal type value => exact hpost.leaf hu
  | output type exprs => exact h.exprOnly.listNode hI hpost (.output type) hu
  | access type resolved => exact hpost.leaf hu
  | list elements => exact h.listNode hI hpost .list hu
  | map entries => exact h.map hI hpost hu
  | foreign className content => exact Walk.yields_throw _

/-- The walk of two visitors down to a depth answers by the rewriting of whole trees. -/
theorem visitTo (hI : Custody I) (hpre : Answers I p pre) (hpost : Answers I q post) (n : Nat) :
    Answers I (p.rewrite q n) (visitTo pre post n) := by
  induction n with
  | zero => exact ⟨fun _ ↦ Walk.yields_throw _⟩
  | succ n ih =>
    constructor
    intro st T l hu
    apply (hpre.yields hu).bind
    rintro t r st₁ ⟨l', rfl, rfl, hl', hx⟩
    cases l' with
    | missing => exact Walk.yields_pure ⟨.missing, rfl, rfl, hl', hx⟩
    | node id info shape =>
      apply (Walk.returns_cell id st₁).yields_bind
      cases hl'.holds with
      | node _ cell _ _ =>
        rw [cell, tree_node]
        apply (ih.descend hI hpost (.of_stands hx hl')).imp
        rintro t r st₂ ⟨l'', hroot, htree, hl'', hx'⟩
        exact ⟨l'', hroot, htree, hl'', hx.comp hI hx'⟩

/-- The walk of two visitors ends with the tree that the rewriting of whole trees makes. -/
theorem treeOf_eq {w : Walk σ (Option NodeId)} {x : Except Failure Tree}
    (h : w.Yields st x (Becomes I T l st)) : w.treeOf st = x := by
  cases x with
  | error failure =>
    obtain ⟨st', hrun⟩ := h
    rw [Walk.treeOf, hrun]
    rfl
  | ok t =>
    obtain ⟨r, st', hrun, l', rfl, rfl, hl', -⟩ := h
    have hrun : w.run.run st = (.ok l'.root?, st') := hrun
    rw [Walk.treeOf, hrun, ← hl'.tree_eq]
    rfl

end Answers

private theorem treeOf_visitNode (node : Option NodeId) (st : WalkState σ) :
    (visitNode pre post node).treeOf st =
      (visitTo pre post (st.store.size + depthAllowance) node).treeOf st := by
  rw [Walk.treeOf, run_visitNode]
  rfl

/-- Of two visitors that answer by the tree and introduce no sharing: when the walk of an unshared
layout with the first visitor returns, the walk with both visitors ends as the walk of what it has
returned with the second visitor does, with the same tree or the same failure. If the first visitor
alone deletes the tree, both do. -/
theorem visitNode_in_two_walks {r : Option NodeId} (hI : Custody I) (hpre : Answers I p pre)
    (hpost : Answers I q post) (hl : st.store.Stands l) (hst : I st {id | id ∈ l.ids})
    (h : (visitNode pre keep l.root?).Returns st r st₁) :
    (visitNode pre post l.root?).treeOf st = (visitNode keep post r).treeOf st₁ ∧
    (r = none → ∃ st', (visitNode pre post l.root?).Returns st none st') := by
  have hu : InUse I {id | id ∈ l.ids} [l] st := .alone hst hl
  let n := st.store.size + depthAllowance
  let m := st₁.store.size + depthAllowance
  rw [Walk.Returns, run_visitNode] at h
  obtain ⟨t₁, hfirst, l₁, rfl, rfl, hl₁, hx⟩ :=
    ((hpre.visitTo hI (answers_keep hI) n).yields hu).of_returns h
  have hheight : l₁.tree.height < m :=
    Nat.lt_of_le_of_lt (l₁.height_tree_le.trans hl₁.length_ids_le)
      (Nat.lt_add_of_pos_right (by decide))
  have hboth := (hpre.visitTo hI hpost n).yields hu
  rw [Rewriting.rewrite_fuse p q m n l.tree l₁.tree hfirst hheight] at hboth
  constructor
  · have hsecond := ((answers_keep hI).visitTo hI hpost m).yields (.of_stands hx hl₁)
    rw [treeOf_visitNode, treeOf_visitNode, Answers.treeOf_eq hboth, Answers.treeOf_eq hsecond]
  · intro hr
    obtain rfl := root?_eq_none_iff.mp hr
    have hnone : Rewriting.keep.rewrite q m .missing = .ok .missing :=
      Rewriting.rewrite_missing q (Nat.lt_of_le_of_lt (Nat.zero_le _) hheight)
    rw [show Layout.missing.tree = Tree.missing from rfl, hnone] at hboth
    obtain ⟨r, st', hrun, l', rfl, htree, -⟩ := hboth
    cases l' with
    | missing => exact ⟨st', returns_visitNode hrun⟩
    | node => rw [tree_node] at htree; cases htree

/-- What a visitor can do about a tree. -/
inductive Choice where
  | keep
  | delete
  | put (info : NodeInfo)

/-- The visitor that chooses by the tree what to do about a node, and can put an empty list in its
place. -/
def choosing (choose : Tree → Choice) : Visitor σ := fun node => do
  match choose ((← get).store.tree node) with
  | .keep => return node
  | .delete => return none
  | .put info => return some (← Walk.add ⟨info, .list []⟩)

/-- What is made of a tree by choosing. -/
def chosen (choose : Tree → Choice) : Rewriting := fun t ↦
  match choose t with
  | .keep => .ok t
  | .delete => .ok .missing
  | .put info => .ok (.node info (.list []))

/-- Choosing by the tree is answering by it. -/
theorem answers_choosing (choose : Tree → Choice) :
    Answers (@Occupied σ) (chosen choose) (choosing choose) := by
  constructor
  intro st T l hu
  apply (Walk.returns_get st).yields_bind
  rw [hu.stands.tree_eq, chosen]
  cases choose l.tree with
  | keep => exact (answers_keep custody_occupied).yields hu
  | delete =>
    refine Walk.yields_pure ⟨.missing, rfl, rfl, .missing _, ?_⟩
    exact (hu.exchange custody_occupied).widen custody_occupied (fun _ hid ↦ hid)
      (List.forall_mem_nil _)
  | put info =>
    obtain ⟨hl', hx⟩ := Occupied.add hu.custody l.ids info (.list []) rfl
    apply (Walk.returns_add ⟨info, .list []⟩ st).yields_bind
    exact Walk.yields_pure ⟨_, rfl, tree_node, hl', hx⟩

/-- What a node carries that is known by a name only. -/
private def called (name : String) : NodeInfo := ⟨none, some name⟩

/-- A list of two texts before another text, in a list. -/
private def nested : Store where
  cells := #[⟨called "a", .literal none (.str "a")⟩, ⟨called "b", .literal none (.str "b")⟩,
    ⟨called "inner", .list [some ⟨0⟩, some ⟨1⟩]⟩, ⟨called "c", .literal none (.str "c")⟩,
    ⟨called "outer", .list [some ⟨2⟩, some ⟨3⟩]⟩]
  labels := .empty

/-- The same lists with another one in the place of the first text, and without the second text. -/
private def halved : Store where
  cells := #[⟨called "a", .literal none (.str "a")⟩, ⟨called "b", .literal none (.str "b")⟩,
    ⟨called "inner", .list [some ⟨5⟩]⟩, ⟨called "c", .literal none (.str "c")⟩,
    ⟨called "outer", .list [some ⟨2⟩, some ⟨3⟩]⟩, ⟨called "new", .list []⟩]
  labels := ⟨[("new", ⟨5⟩)]⟩

/-- Replaces the first text of the inner list and deletes the second. -/
private def halving : Tree → Choice
  | .node ⟨_, some "a"⟩ _ => .put (called "new")
  | .node ⟨_, some "b"⟩ _ => .delete
  | _ => .keep

/-- Deletes what has been put in the place of a text. -/
private def emptying : Tree → Choice
  | .node ⟨_, some "new"⟩ _ => .delete
  | _ => .keep

/-- The inner list loses one text to the first visitor, and what that puts in the place of the other
to the second. -/
theorem visitNode_in_two_walks_emptied :
    let first : Visitor Unit := choosing halving
    let second : Visitor Unit := choosing emptying
    (visitNode first keep (some ⟨4⟩)).Returns ⟨nested, ()⟩ (some ⟨4⟩) ⟨halved, ()⟩ ∧
      (visitNode keep second (some ⟨4⟩)).treeOf ⟨halved, ()⟩ = .ok
        (.node (called "outer") (.list [.node (called "c") (.literal none (.str "c"))])) ∧
      (visitNode first second (some ⟨4⟩)).treeOf ⟨nested, ()⟩ =
        (visitNode keep second (some ⟨4⟩)).treeOf ⟨halved, ()⟩ := by
  intro first second
  let text (id : NodeId) (name : String) : Layout :=
    .node id (called name) (.literal none (.str name))
  let l : Layout := .node ⟨4⟩ (called "outer")
    (.list [.node ⟨2⟩ (called "inner") (.list [text ⟨0⟩ "a", text ⟨1⟩ "b"]), text ⟨3⟩ "c"])
  have htext (id : NodeId) (name : String) (hbound : id.index < nested.size)
      (hcell : nested.cell id = ⟨called name, .literal none (.str name)⟩) :
      nested.Holds (text id name) :=
    .node hbound hcell List.nodup_nil (List.forall_mem_nil _)
  have hl : nested.Stands l := by
    refine ⟨.node (by decide) rfl List.nodup_nil (List.forall_mem_cons.mpr ⟨?_,
      List.forall_mem_singleton.mpr (htext _ _ (by decide) rfl)⟩), by decide⟩
    exact .node (by decide) rfl List.nodup_nil (List.forall_mem_cons.mpr
      ⟨htext _ _ (by decide) rfl, List.forall_mem_singleton.mpr (htext _ _ (by decide) rfl)⟩)
  have hst : Occupied (⟨nested, ()⟩ : WalkState Unit) {id | id ∈ l.ids} := hl.holds.lt_size
  have hret : (visitNode first keep (some ⟨4⟩)).Returns ⟨nested, ()⟩ (some ⟨4⟩) ⟨halved, ()⟩ := rfl
  refine ⟨hret, rfl, ?_⟩
  exact (visitNode_in_two_walks custody_occupied (answers_choosing halving)
    (answers_choosing emptying) hl hst hret).1

end Visitor

end Hil
