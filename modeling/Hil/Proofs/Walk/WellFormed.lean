import Hil.Proofs.Walk.Custody
import Hil.Proofs.Walk.Entries

/-!
# What a walk lets through

A walk checks the expressions below a node on its way back and knows nine classes. So whatever the
first visitor puts in the place of nodes, a walk that returns has made a well-formed tree of them,
provided that the second visitor makes none ill-formed.
-/

namespace Hil.Visitor

open Layout

variable {σ : Type} {I : WalkState σ → Set NodeId → Prop} {st st' : WalkState σ} {T : Set NodeId}
  {id child : NodeId} {info : NodeInfo} {shape : Shape Layout} {l l' : Layout}
  {ls ls' : List Layout} {P : Layout → Prop} {visit pre post : Visitor σ} {r : Option NodeId}

/-- There is no node, or all of the tree is well-formed. -/
def Sound (l : Layout) : Prop := l = .missing ∨ l.tree.WellFormed

/-- There is no node, or all of the tree is well-formed and it is an expression. -/
def SoundExpr (l : Layout) : Prop := l = .missing ∨ l.tree.WellFormed ∧ l.tree.isExpr = true

/-! ### Handlers -/

/-- What is returned as an expression is one. -/
theorem Gives.exprOnly (h : Gives I Sound visit) : Gives I SoundExpr (exprOnly visit) := by
  constructor
  intro st T l r st' hu hr
  obtain ⟨r', st₁, hv, hk⟩ := Walk.returns_bind_iff.mp hr
  obtain ⟨l', rfl, hl', hx, hs⟩ := h.returns hu hv
  cases l' with
  | missing =>
    obtain ⟨rfl, rfl⟩ := Walk.returns_pure_iff.mp hk
    exact ⟨.missing, rfl, hl', hx, .inl rfl⟩
  | node id info shape =>
    obtain ⟨cell, st₂, hc, hk⟩ := Walk.returns_bind_iff.mp hk
    cases hc
    split at hk
    · next he =>
      obtain ⟨rfl, rfl⟩ := Walk.returns_pure_iff.mp hk
      refine ⟨_, rfl, hl', hx, hs.imp_right fun hw ↦ ⟨hw, ?_⟩⟩
      cases hl'.holds with
      | node _ cell _ _ =>
        rw [cell, Shape.isExpr_mapChildren] at he
        rw [tree_node, Tree.isExpr, Shape.isExpr_mapChildren, he]
    · cases hk

/-- Children that are visited in order are exchanged, and those that are not missing are left. -/
theorem Gives.survivors (hI : Custody I) (h : Gives I P visit) (hu : InUse I T ls st)
    {left : List (Option NodeId)} (hr : (survivors visit (ls.map root?)).Returns st left st') :
    ∃ ls', Traded I P T [] ls ls' st st' ∧ left = (ls'.filter fun l ↦ !l.isMissing).map root? := by
  induction ls generalizing st T left with
  | nil =>
    obtain ⟨rfl, rfl⟩ := Walk.returns_pure_iff.mp hr
    exact ⟨[], .nil hI hu.custody nofun, rfl⟩
  | cons l ls ih =>
    obtain ⟨r, st₁, hv, hk⟩ := Walk.returns_bind_iff.mp hr
    obtain ⟨l', rfl, hl', hx, hp⟩ := h.returns hu.head hv
    cases l' with
    | missing =>
      obtain ⟨ls', ht, rfl⟩ := ih (hu.tail hx) hk
      exact ⟨_, .cons hI hu hl' hx hp ht, rfl⟩
    | node id info shape =>
      obtain ⟨rest, st₂, hrest, hk⟩ := Walk.returns_bind_iff.mp hk
      obtain ⟨rfl, rfl⟩ := Walk.returns_pure_iff.mp hk
      obtain ⟨ls', ht, rfl⟩ := ih (hu.tail hx) hrest
      exact ⟨_, .cons hI hu hl' hx hp ht, rfl⟩

/-- The child in a slot is exchanged for a node, and its parent and what is in use besides stay as
they are. -/
theorem Gives.slot (h : Gives I P visit) (hu : InUse I T (l :: ls) st) (hid : id ∈ T)
    (hout : id ∉ (l :: ls).flatMap ids) {which : Slot}
    (hs : (st.store.cell id).shape.slot? which = some l.root?)
    (hr : (slot visit id which).Returns st child st') :
    ∃ l', l'.root? = some child ∧ st'.store.Stands l' ∧ Exchange I T l.ids l'.ids st st' ∧ P l' ∧
      InUse I (traded T l.ids l'.ids) ls st' ∧ id ∈ traded T l.ids l'.ids ∧
      id ∉ ls.flatMap ids ∧ st'.store.cell id = st.store.cell id := by
  rw [List.flatMap_cons, List.mem_append, not_or] at hout
  obtain ⟨cell, st₁, hc, hk⟩ := Walk.returns_bind_iff.mp hr
  cases hc
  rw [hs] at hk
  obtain ⟨r, st₂, hv, hk⟩ := Walk.returns_bind_iff.mp hk
  obtain ⟨l', rfl, hl', hx, hp⟩ := h.returns hu.head hv
  cases l' with
  | missing => cases hk
  | node id' info shape =>
    obtain ⟨rfl, rfl⟩ := Walk.returns_pure_iff.mp hk
    exact ⟨_, rfl, hl', hx, hp, hu.tail hx, .inl ⟨hid, hout.1⟩, hout.2, hx.frame id hid hout.1⟩

/-- The values of a map are exchanged in order, and those that are not missing stay under their
keys after whatever stands before them. -/
theorem Gives.mapValues (hI : Custody I) (h : Gives I P visit) {rest : List (Str × Layout)}
    {done : List (Str × Option NodeId)} (hu : InUse I T (rest.map Prod.snd) st) (hid : id ∈ T)
    (hout : id ∉ (rest.map Prod.snd).flatMap ids) (hmap : st.store.MapAt id info done rest)
    (hr : (mapValues visit id (rest.map fun e ↦ (e.1, e.2.root?))).Returns st () st') :
    ∃ rest' : List (Str × Layout), rest'.map Prod.fst = rest.map Prod.fst ∧
      Traded I P T [id] (rest.map Prod.snd) (rest'.map Prod.snd) st st' ∧
      st'.store.cell id = ⟨info, .map (done ++ kept rest')⟩ := by
  induction rest generalizing st T done with
  | nil =>
    obtain ⟨-, rfl⟩ := Walk.returns_pure_iff.mp hr
    exact ⟨[], rfl, .nil hI hu.custody (List.forall_mem_singleton.mpr hid), hmap.cell⟩
  | cons entry rest ih =>
    obtain ⟨key, l⟩ := entry
    rw [List.map_cons, mapValues_cons] at hr
    simp only [List.map_cons, List.flatMap_cons, List.mem_append, not_or] at hu hout
    obtain ⟨r, st₁, hv, hk⟩ := Walk.returns_bind_iff.mp hr
    obtain ⟨l', rfl, hl', hx, hp⟩ := h.returns hu.head hv
    obtain ⟨_, st₂, hs, hk⟩ := Walk.returns_bind_iff.mp hk
    obtain rfl := eq_of_returns_settle hs
    have hmap₁ := hmap.frame hx.size (hx.frame id hid hout.1)
    have hbelow : ∀ i ∈ [id], i ∉ (rest.map Prod.snd).flatMap ids :=
      List.forall_mem_singleton.mpr hout.2
    have hgone : id ∉ l'.ids := fun hm ↦ (hx.fresh id hm).elim hout.1 fun hn ↦ hn hid
    have hx' : Exchange I T ([id] ++ l.ids) ([id] ++ l'.ids) st
        (st₁.modifyShape id (Shape.settle key l'.root?)) :=
      hx.then_modifyShape hI hid hout.1 _
    obtain ⟨rest', hfst, ht, hcell⟩ := ih (hu.tail_of_above hx' hbelow) (.inr List.mem_cons_self)
      hout.2 (hmap₁.settle l') hk
    refine ⟨(key, l') :: rest', by rw [List.map_cons, hfst, List.map_cons], ?_, ?_⟩
    · exact .cons_of_above hI hu hbelow ⟨hl'.holds.modifyShape hgone _, hl'.unshared⟩ hx' hp
        (List.forall_mem_singleton.mpr hgone) ht
    · rw [hcell, List.append_assoc, ← kept_cons]

/-! ### Nodes above their new children -/

/-- What becomes of a layout in use is missing or well-formed. -/
def Mends (I : WalkState σ → Set NodeId → Prop) (T : Set NodeId) (l : Layout) (st : WalkState σ)
    (r : Option NodeId) (st' : WalkState σ) : Prop :=
  ∃ l', l'.root? = r ∧ st'.store.Stands l' ∧ Exchange I T l.ids l'.ids st st' ∧ Sound l'

/-- Whenever the visitor returns from a well-formed layout in use, what becomes of it is missing or
well-formed. -/
structure Finishes (I : WalkState σ → Set NodeId → Prop) (post : Visitor σ) : Prop where
  returns : ∀ {st T l r st'}, InUse I T [l] st → l.tree.WellFormed →
    (post l.root?).Returns st r st' → Mends I T l st r st'

/-- A node above well-formed children is visited as a well-formed one. -/
theorem Finishes.mends (hI : Custody I) (hpost : Finishes I post) {st₁ : WalkState σ}
    {shape' : Shape Layout} (hl' : st₁.store.Stands (.node id info shape'))
    (hx : Exchange I T (Layout.node id info shape).ids (Layout.node id info shape').ids st st₁)
    (hroot : shape'.isTraversable = true) (hkeys : shape'.keys.Nodup)
    (hwf : ∀ l ∈ shape'.children, l.tree.WellFormed)
    (hexprs : shape'.isExpr = true → ∀ l ∈ shape'.children, l.tree.isExpr = true)
    (hr : (post (some id)).Returns st₁ r st') :
    Mends I T (.node id info shape) st r st' := by
  have hw : (Layout.node id info shape').tree.WellFormed := by
    rw [tree_node]
    refine .node ⟨by simpa using hroot, by simpa using hkeys, fun he ↦ ?_⟩ ?_
    · rw [Shape.forall_mem_mapChildren]
      exact hexprs (by simpa using he)
    · rw [Shape.forall_mem_mapChildren]
      exact hwf
  obtain ⟨l'', hroot, hl'', hx', hs⟩ := hpost.returns (.of_stands hx hl') hw hr
  exact ⟨l'', hroot, hl'', hx.comp hI hx', hs⟩

/-- A list-bearing node becomes well-formed when what is left of its children is. -/
theorem Gives.listNode (hI : Custody I) (h : Gives I P visit) (hpost : Finishes I post)
    (c : Shape.ListClass) {ls : List Layout} (hP : ∀ l, P l → Sound l)
    (hexprs : c.isExpr = true → ∀ l, P l → SoundExpr l)
    (hu : InUse I T [.node id info (c.shape ls)] st)
    (hr : (listNode visit post id (ls.map root?) c.shape).Returns st r st') :
    Mends I T (.node id info (c.shape ls)) st r st' := by
  obtain ⟨hchildren, hid, hout⟩ := hu.children
  rw [Shape.ListClass.children_shape] at hchildren hout
  obtain ⟨left, st₁, hs, hk⟩ := Walk.returns_bind_iff.mp hr
  obtain ⟨ls', ht, rfl⟩ := h.survivors hI hchildren hs
  split at hk
  · obtain ⟨rfl, rfl⟩ := Walk.returns_pure_iff.mp hk
    refine ⟨.missing, rfl, .missing _, ht.exchange.widen hI ?_ (List.forall_mem_nil _), .inl rfl⟩
    intro i hi
    rw [ids_node, Shape.ListClass.children_shape]
    exact List.mem_cons_of_mem _ hi
  · obtain ⟨_, st₂, hm, hp⟩ := Walk.returns_bind_iff.mp hk
    cases hm
    have hmem : ∀ l ∈ ls'.filter (fun l ↦ !l.isMissing), P l ∧ l ≠ .missing := by
      intro l hl
      obtain ⟨hl, hn⟩ := List.mem_filter.mp hl
      exact ⟨ht.good l hl, fun hm ↦ by simp [hm, isMissing] at hn⟩
    rw [← Shape.ListClass.mapChildren_shape] at hp
    rw [← c.children_shape ls] at ht
    obtain ⟨hl', hx⟩ := ht.stands_modifyShape hI hu (c.shape (ls'.filter fun l ↦ !l.isMissing))
      (by simp) (by simp)
    refine hpost.mends hI hl' hx (by simp) (by simp) (fun l hl ↦ ?_) (fun he l hl ↦ ?_) hp
    · obtain ⟨hp, hn⟩ := hmem l (by simpa using hl)
      exact (hP l hp).resolve_left hn
    · obtain ⟨hp, hn⟩ := hmem l (by simpa using hl)
      exact ((hexprs (by simpa using he) l hp).resolve_left hn).2

/-- What is returned from a slot is a well-formed expression. -/
theorem SoundExpr.of_root (h : SoundExpr l) (hroot : l.root? = some child) :
    l.tree.WellFormed ∧ l.tree.isExpr = true :=
  h.resolve_left fun hm ↦ by rw [hm] at hroot; cases hroot

/-- A conditional becomes well-formed when its slots hold well-formed expressions. -/
theorem Gives.conditional (hI : Custody I) (h : Gives I Sound visit) (hpost : Finishes I post)
    {type : Option Annotation} {c t f : Layout} {c₀ t₀ f₀ : Option NodeId}
    (hu : InUse I T [.node id info (.conditional type c t f)] st)
    (hr : (descend visit post id (.conditional type c₀ t₀ f₀)).Returns st r st') :
    Mends I T (.node id info (.conditional type c t f)) st r st' := by
  obtain ⟨hchildren, hid, hout⟩ := hu.children
  have hcell : (st.store.cell id).shape = .conditional type c.root? t.root? f.root? :=
    congrArg Cell.shape hu.cell_eq
  rw [descend] at hr
  obtain ⟨cId, st₁, hc, hk⟩ := Walk.returns_bind_iff.mp hr
  obtain ⟨tId, st₂, ht, hk⟩ := Walk.returns_bind_iff.mp hk
  obtain ⟨fId, st₃, hf, hk⟩ := Walk.returns_bind_iff.mp hk
  obtain ⟨_, st₄, hm, hp⟩ := Walk.returns_bind_iff.mp hk
  cases hm
  obtain ⟨c', hcr, hcl, hcx, hcs, hu₁, hid₁, hout₁, hcell₁⟩ :=
    h.exprOnly.slot hchildren hid hout (by rw [hcell]; rfl) hc
  obtain ⟨t', htr, htl, htx, hts, hu₂, hid₂, hout₂, hcell₂⟩ :=
    h.exprOnly.slot hu₁ hid₁ hout₁ (by rw [hcell₁, hcell]; rfl) ht
  obtain ⟨f', hfr, hfl, hfx, hfs, hu₃, -, -, -⟩ :=
    h.exprOnly.slot hu₂ hid₂ hout₂ (by rw [hcell₂, hcell₁, hcell]; rfl) hf
  have hall : Traded I SoundExpr T [] [c, t, f] [c', t', f'] st st₃ :=
    .cons hI hchildren hcl hcx hcs (.cons hI hu₁ htl htx hts
      (.cons hI hu₂ hfl hfx hfs (.nil hI hu₃.custody nofun)))
  obtain ⟨hl', hx⟩ :=
    hall.stands_modifyShape hI hu (.conditional type c' t' f') (.refl _) List.nodup_nil
  have hgood : ∀ l ∈ [c', t', f'], l.tree.WellFormed ∧ l.tree.isExpr = true := by
    simp [hcs.of_root hcr, hts.of_root htr, hfs.of_root hfr]
  rw [← hcr, ← htr, ← hfr] at hp
  exact hpost.mends hI hl' hx rfl List.nodup_nil (fun l hl ↦ (hgood l hl).1)
    (fun _ l hl ↦ (hgood l hl).2) hp

/-- An index becomes well-formed when its slots hold well-formed expressions. -/
theorem Gives.index (hI : Custody I) (h : Gives I Sound visit) (hpost : Finishes I post)
    {type : Option Annotation} {t k : Layout} {t₀ k₀ : Option NodeId}
    (hu : InUse I T [.node id info (.index type t k)] st)
    (hr : (descend visit post id (.index type t₀ k₀)).Returns st r st') :
    Mends I T (.node id info (.index type t k)) st r st' := by
  obtain ⟨hchildren, hid, hout⟩ := hu.children
  have hcell : (st.store.cell id).shape = .index type t.root? k.root? :=
    congrArg Cell.shape hu.cell_eq
  rw [descend] at hr
  obtain ⟨tId, st₁, ht, hk⟩ := Walk.returns_bind_iff.mp hr
  obtain ⟨kId, st₂, hkey, hk⟩ := Walk.returns_bind_iff.mp hk
  obtain ⟨_, st₃, hm, hp⟩ := Walk.returns_bind_iff.mp hk
  cases hm
  obtain ⟨t', htr, htl, htx, hts, hu₁, hid₁, hout₁, hcell₁⟩ :=
    h.exprOnly.slot hchildren hid hout (by rw [hcell]; rfl) ht
  obtain ⟨k', hkr, hkl, hkx, hks, hu₂, -, -, -⟩ :=
    h.exprOnly.slot hu₁ hid₁ hout₁ (by rw [hcell₁, hcell]; rfl) hkey
  have hall : Traded I SoundExpr T [] [t, k] [t', k'] st st₂ :=
    .cons hI hchildren htl htx hts (.cons hI hu₁ hkl hkx hks (.nil hI hu₂.custody nofun))
  obtain ⟨hl', hx⟩ := hall.stands_modifyShape hI hu (.index type t' k') (.refl _) List.nodup_nil
  have hgood : ∀ l ∈ [t', k'], l.tree.WellFormed ∧ l.tree.isExpr = true := by
    simp [hts.of_root htr, hks.of_root hkr]
  rw [← htr, ← hkr] at hp
  exact hpost.mends hI hl' hx rfl List.nodup_nil (fun l hl ↦ (hgood l hl).1)
    (fun _ l hl ↦ (hgood l hl).2) hp

/-- A map becomes well-formed when the values that are left are. -/
theorem Gives.map (hI : Custody I) (h : Gives I Sound visit) (hpost : Finishes I post)
    {entries : List (Str × Layout)} (hu : InUse I T [.node id info (.map entries)] st)
    (hr : (descend visit post id ((Shape.map entries).mapChildren root?)).Returns st r st') :
    Mends I T (.node id info (.map entries)) st r st' := by
  obtain ⟨hchildren, hid, hout⟩ := hu.children
  cases hu.stands.holds with
  | node bound cell distinct below =>
    rw [Shape.mapChildren, descend] at hr
    obtain ⟨_, st₁, hm, hp⟩ := Walk.returns_bind_iff.mp hr
    have hmap : st.store.MapAt id info [] entries := ⟨bound, cell, distinct⟩
    obtain ⟨entries', hkeys, ht, hcell⟩ :=
      h.mapValues hI hchildren hid hout hmap hm
    have hleft : ∀ l ∈ (entries'.filter fun e ↦ !e.2.isMissing).map Prod.snd,
        l.tree.WellFormed := by
      intro l hl
      obtain ⟨e, he, rfl⟩ := List.mem_map.mp hl
      obtain ⟨he, hn⟩ := List.mem_filter.mp he
      refine (ht.good e.2 (List.mem_map_of_mem he)).resolve_left fun hm ↦ ?_
      simp [hm, isMissing] at hn
    have hdistinct : ((entries'.filter fun e ↦ !e.2.isMissing).map Prod.fst).Nodup := by
      refine List.Nodup.sublist (List.filter_sublist.map _) ?_
      rw [hkeys]
      exact distinct
    obtain ⟨hl', hx⟩ := ht.stands hI hu (.map (entries'.filter fun e ↦ !e.2.isMissing)) hcell
      (List.filter_sublist.map _) hdistinct
    exact hpost.mends hI hl' hx rfl hdistinct hleft
      (fun he ↦ absurd he Bool.false_ne_true) hp

/-- A node without children is visited as it is. -/
theorem Finishes.leaf (hpost : Finishes I post)
    (hu : InUse I T [.node id info shape] st) (hroot : shape.isTraversable = true)
    (hleaf : shape.children = []) (hr : (post (some id)).Returns st r st') :
    Mends I T (.node id info shape) st r st' := by
  refine hpost.returns hu ?_ hr
  cases hu.stands.holds with
  | node _ _ distinct _ =>
    rw [tree_node]
    refine .node ⟨by simpa using hroot, by simpa using distinct, fun _ ↦ ?_⟩ ?_ <;>
      simp [hleaf]

/-! ### Walks -/

/-- A node in use becomes missing or well-formed when its children do. -/
theorem Gives.descend (hI : Custody I) (h : Gives I Sound visit) (hpost : Finishes I post)
    (hu : InUse I T [.node id info shape] st)
    (hr : (descend visit post id (shape.mapChildren root?)).Returns st r st') :
    Mends I T (.node id info shape) st r st' := by
  have hlist (c : Shape.ListClass) (ls : List Layout)
      (hu : InUse I T [.node id info (c.shape ls)] st)
      (hr : (Visitor.listNode (Visitor.exprOnly visit) post id (ls.map root?) c.shape).Returns st r
        st') : Mends I T (.node id info (c.shape ls)) st r st' :=
    h.exprOnly.listNode hI hpost c (fun _ hs ↦ hs.imp_right And.left) (fun _ _ hs ↦ hs) hu hr
  cases shape with
  | arithmetic type exprs => exact hlist (.arithmetic type) exprs hu hr
  | call func type args => exact hlist (.call func type) args hu hr
  | conditional type c t f => exact h.conditional hI hpost hu hr
  | index type t k => exact h.index hI hpost hu hr
  | literal type value => exact hpost.leaf hu rfl rfl hr
  | output type exprs => exact hlist (.output type) exprs hu hr
  | access type resolved => exact hpost.leaf hu rfl rfl hr
  | list elements => exact h.listNode hI hpost .list (fun _ hs ↦ hs) nofun hu hr
  | map entries => exact h.map hI hpost hu hr
  | foreign className content => cases hr

/-- A walk down to any depth makes a well-formed tree of what the first visitor returns. -/
theorem Tidy.visitTo (hI : Custody I) (hpre : Tidy I pre) (hpost : Finishes I post) (n : Nat) :
    Gives I Sound (visitTo pre post n) := by
  induction n with
  | zero => exact ⟨fun _ hr ↦ by cases hr⟩
  | succ n ih =>
    constructor
    intro st T l r st' hu hr
    obtain ⟨r', st₁, hp, hk⟩ := Walk.returns_bind_iff.mp hr
    obtain ⟨l₁, rfl, hl₁, hx, -⟩ := hpre.returns hu hp
    cases l₁ with
    | missing =>
      obtain ⟨rfl, rfl⟩ := Walk.returns_pure_iff.mp hk
      exact ⟨.missing, rfl, hl₁, hx, .inl rfl⟩
    | node id info shape =>
      obtain ⟨cell, st₂, hc, hk⟩ := Walk.returns_bind_iff.mp hk
      cases hc
      have hcell : (st₁.store.cell id).shape = shape.mapChildren root? := by
        cases hl₁.holds with
        | node _ cell _ _ => rw [cell]
      rw [hcell] at hk
      obtain ⟨l', hroot, hl', hx', hs⟩ := ih.descend hI hpost (.of_stands hx hl₁) hk
      exact ⟨l', hroot, hl', hx.comp hI hx', hs⟩

/-- A tidy visitor that keeps trees well-formed finishes well-formed layouts. -/
theorem Tidy.finishes (h : Tidy I post)
    (hwf : ∀ st id r st', (st.store.tree (some id)).WellFormed →
      (post (some id)).Returns st r st' → r = none ∨ (st'.store.tree r).WellFormed) :
    Finishes I post := by
  constructor
  intro st T l r st' hu hw hr
  obtain ⟨l', rfl, hl', hx, -⟩ := h.returns hu hr
  refine ⟨l', rfl, hl', hx, ?_⟩
  have hl : st.store.Stands l := hu.stands
  cases l with
  | missing => cases hw
  | node id info shape =>
    rw [← hl.tree_eq] at hw
    rcases hwf st id _ st' hw hr with hnone | hw'
    · exact .inl (root?_eq_none_iff.mp hnone)
    · exact .inr (hl'.tree_eq ▸ hw')

/-- Whatever two visitors do that introduce no sharing, and of which the second keeps well-formed
trees well-formed: a walk of an unshared layout that returns has made a well-formed tree of it, and
one of an expression has made a well-formed expression. -/
theorem visit_wellFormed {I : WalkState σ → Set NodeId → Prop} {pre post : Visitor σ}
    {st : WalkState σ} {l : Layout} (hI : Custody I) (hpre : Tidy I pre) (hpost : Tidy I post)
    (hwf : ∀ st id r st', (st.store.tree (some id)).WellFormed →
      (post (some id)).Returns st r st' → r = none ∨ (st'.store.tree r).WellFormed)
    (hl : st.store.Stands l) (hst : I st {id | id ∈ l.ids}) :
    (∀ r st', (visitNode pre post l.root?).Returns st r st' →
      r = none ∨ (st'.store.tree r).WellFormed) ∧
    ∀ r st', (visitExpr pre post l.root?).Returns st r st' →
      r = none ∨ (st'.store.tree r).WellFormed ∧ (st'.store.tree r).isExpr = true := by
  have hnode : Gives I Sound (visitNode pre post) := by
    constructor
    intro st T l r st' hu hr
    obtain ⟨_, st₁, hg, hk⟩ := Walk.returns_bind_iff.mp hr
    cases hg
    exact (hpre.visitTo hI (hpost.finishes hwf) _).returns hu hk
  have hu : InUse I {id | id ∈ l.ids} [l] st := .alone hst hl
  constructor
  · intro r st' hr
    obtain ⟨l', rfl, hl', -, hs⟩ := hnode.returns hu hr
    rw [hl'.tree_eq, root?_eq_none_iff]
    exact hs
  · intro r st' hr
    obtain ⟨l', rfl, hl', -, hs⟩ := hnode.exprOnly.returns hu hr
    rw [hl'.tree_eq, root?_eq_none_iff]
    exact hs

/-- The visitor that puts new literals in the place of literals of other classes. -/
def plainLiterals : Visitor σ
  | none => return none
  | some id => do
    match (← Walk.cell id).shape with
    | .foreign _ (.literal type value) => return some (← Walk.add ⟨{}, .literal type value⟩)
    | _ => return some id

/-- New literals are not shared with anything in use. -/
theorem tidy_plainLiterals : Tidy (@Occupied σ) plainLiterals := by
  constructor
  intro st T l r st' hu hr
  cases l with
  | missing => exact (tidy_keep custody_occupied).returns hu hr
  | node id info shape =>
    obtain ⟨cell, st₁, hc, hk⟩ := Walk.returns_bind_iff.mp hr
    cases hc
    split at hk
    · next type value _ =>
      obtain ⟨new, st₂, hadd, hk⟩ := Walk.returns_bind_iff.mp hk
      obtain ⟨rfl, rfl⟩ := Walk.returns_pure_iff.mp hk
      cases hadd
      obtain ⟨hl', hx⟩ := Occupied.add hu.custody (Layout.node id info shape).ids {}
        (.literal type value) rfl
      exact ⟨_, rfl, hl', hx, trivial⟩
    · exact (tidy_keep custody_occupied).returns hu hk

/-- The walk makes an expression of a text that is below an output and of another class. -/
theorem visit_wellFormed_heredoc :
    let s : Store := ⟨#[⟨{}, .foreign "BoundHeredoc" (.literal none (.str "x"))⟩,
      ⟨{}, .output none [some ⟨0⟩]⟩], .empty⟩
    ¬ (s.tree (some ⟨1⟩)).WellFormed ∧
      ∃ s' : Store, (visitExpr plainLiterals keep (some ⟨1⟩)).Returns ⟨s, ()⟩ (some ⟨1⟩) ⟨s', ()⟩ ∧
        (s'.tree (some ⟨1⟩)).WellFormed ∧ (s'.tree (some ⟨1⟩)).isExpr = true := by
  intro s
  let l : Layout := .node ⟨1⟩ {}
    (.output none [.node ⟨0⟩ {} (.foreign "BoundHeredoc" (.literal none (.str "x")))])
  have hl : s.Stands l := by
    refine ⟨.node (by decide) rfl List.nodup_nil (List.forall_mem_singleton.mpr ?_), by decide⟩
    exact .node (by decide) rfl List.nodup_nil (List.forall_mem_nil _)
  let s' : Store := ⟨#[⟨{}, .foreign "BoundHeredoc" (.literal none (.str "x"))⟩,
    ⟨{}, .output none [some ⟨2⟩]⟩, ⟨{}, .literal none (.str "x")⟩], .empty⟩
  have hret : (visitExpr plainLiterals keep (some ⟨1⟩)).Returns ⟨s, ()⟩ (some ⟨1⟩) ⟨s', ()⟩ := rfl
  refine ⟨by decide, s', hret, ?_⟩
  have hst : Occupied (⟨s, ()⟩ : WalkState Unit) {id | id ∈ l.ids} := hl.holds.lt_size
  have hall := visit_wellFormed custody_occupied tidy_plainLiterals (tidy_keep custody_occupied)
    (fun st id r st' hw hr ↦ by
      obtain ⟨rfl, rfl⟩ := Walk.returns_pure_iff.mp hr
      exact .inr hw) hl hst
  exact (hall.2 _ _ hret).resolve_left nofun

end Hil.Visitor
