import Hil.Proofs.Store.Layout
import Hil.Proofs.Walk.Returns
import Mathlib.Data.List.Flatten
import Mathlib.Data.Set.Basic

/-!
# Nodes in the custody of a walk

A walk of a tree in which no node is shared has a set of nodes in use. A step is given some of them
and gives back others, of which each was given to it or was not in use; it leaves the rest of what
is in use as it is. Steps of this kind go together, and what they give back is not shared either.
What visitors have to know of the nodes that are not in use, so as to return none that is, is an
invariant of states and sets of nodes.
-/

namespace Hil.Visitor

open Layout

variable {σ : Type} {I : WalkState σ → Set NodeId → Prop} {st st' st₁ st₂ : WalkState σ}
  {T T' : Set NodeId} {A B C D E F : List NodeId} {id : NodeId} {info : NodeInfo}
  {shape : Shape Layout} {l l' : Layout}
  {ls ls' : List Layout} {P Q : Layout → Prop} {visit : Visitor σ}

/-- An invariant of states and the nodes in use that survives when nodes go out of use and when the
shape of one in use is changed. -/
structure Custody (I : WalkState σ → Set NodeId → Prop) : Prop where
  shrink : ∀ {st T T'}, I st T → T' ⊆ T → I st T'
  modifyShape : ∀ {st T id} (f : Shape (Option NodeId) → Shape (Option NodeId)), I st T → id ∈ T →
    I (st.modifyShape id f) T

/-- The nodes in use after some have been given away and others have been returned. -/
def traded (T : Set NodeId) (given returned : List NodeId) : Set NodeId :=
  fun id ↦ id ∈ T ∧ id ∉ given ∨ id ∈ returned

/-- What is in use after a trade was in use and not given away, or has been returned. -/
@[simp] theorem mem_traded {given returned : List NodeId} :
    id ∈ traded T given returned ↔ id ∈ T ∧ id ∉ given ∨ id ∈ returned := Iff.rfl

/-- What a step does that is given some of the nodes in use. The nodes that it returns were given to
it or were not in use, and the other nodes in use are as they were. -/
structure Exchange (I : WalkState σ → Set NodeId → Prop) (T : Set NodeId)
    (given returned : List NodeId) (st st' : WalkState σ) : Prop where
  size : st.store.size ≤ st'.store.size
  frame : ∀ id ∈ T, id ∉ given → st'.store.cell id = st.store.cell id
  fresh : ∀ id ∈ returned, id ∈ given ∨ id ∉ T
  custody : I st' (traded T given returned)

namespace Exchange

/-- A step that does nothing returns what it is given. -/
theorem refl (hI : Custody I) (h : I st T) (hA : ∀ id ∈ A, id ∈ T) : Exchange I T A A st st where
  size := Nat.le_refl _
  frame _ _ _ := rfl
  fresh _ h := .inl h
  custody := hI.shrink h fun id hid ↦ by
    rcases hid with hid | hid
    · exact hid.1
    · exact hA id hid

/-- More can be given than is used and less returned than there is, and what is given and not used
can be returned. -/
theorem widen (hI : Custody I) (h : Exchange I T A B st st') (hE : ∀ id ∈ A, id ∈ E)
    (hF : ∀ id ∈ F, id ∈ B ∨ id ∈ E ∧ id ∈ T ∧ id ∉ A) : Exchange I T E F st st' where
  size := h.size
  frame id ht he := h.frame id ht fun ha ↦ he (hE id ha)
  fresh id hf := by
    rcases hF id hf with hb | he
    · exact (h.fresh id hb).imp_left (hE id)
    · exact .inl he.1
  custody := hI.shrink h.custody fun id hid ↦ by
    rw [mem_traded] at hid ⊢
    rcases hid with ⟨ht, he⟩ | hf
    · exact .inl ⟨ht, fun ha ↦ he (hE id ha)⟩
    · exact (hF id hf).symm.imp_left And.right

/-- Two steps in a row are given what the first is given and what the second is given besides, and
return what the second returns and what the first has returned besides. -/
theorem trans (hI : Custody I) (h : Exchange I T A B st st₁)
    (h' : Exchange I (traded T A B) C D st₁ st₂)
    (hE : ∀ id, id ∈ A ∨ id ∈ C ∧ id ∉ B → id ∈ E)
    (hF : ∀ id ∈ F, id ∈ D ∨ id ∈ B ∧ id ∉ C) : Exchange I T E F st st₂ := by
  -- what neither step is given is not among what the first returns
  have outside {id : NodeId} (ht : id ∈ T) (he : id ∉ E) : id ∉ A ∧ id ∉ C := by
    have ha : id ∉ A := fun ha ↦ he (hE id (.inl ha))
    refine ⟨ha, fun hc ↦ he (hE id (.inr ⟨hc, fun hb ↦ ?_⟩))⟩
    exact (h.fresh id hb).elim ha fun hn ↦ hn ht
  constructor
  · exact Nat.le_trans h.size h'.size
  · intro id ht he
    obtain ⟨ha, hc⟩ := outside ht he
    exact (h'.frame id (.inl ⟨ht, ha⟩) hc).trans (h.frame id ht ha)
  · intro id hf
    by_cases ht : id ∈ T
    · left
      by_contra he
      obtain ⟨ha, hc⟩ := outside ht he
      rcases hF id hf with hd | ⟨hb, -⟩
      · exact (h'.fresh id hd).elim hc fun hn ↦ hn (.inl ⟨ht, ha⟩)
      · exact (h.fresh id hb).elim ha fun hn ↦ hn ht
    · exact .inr ht
  · refine hI.shrink h'.custody fun id hid ↦ ?_
    rw [mem_traded] at hid ⊢
    rcases hid with ⟨ht, he⟩ | hf
    · obtain ⟨ha, hc⟩ := outside ht he
      exact .inl ⟨.inl ⟨ht, ha⟩, hc⟩
    · rcases hF id hf with hd | ⟨hb, hc⟩
      · exact .inr hd
      · exact .inl ⟨.inr hb, hc⟩

/-- A second step that is given what the first has returned. -/
theorem comp (hI : Custody I) (h : Exchange I T A B st st₁)
    (h' : Exchange I (traded T A B) B C st₁ st₂) : Exchange I T A C st st₂ :=
  h.trans hI h' (fun _ hid ↦ hid.elim (fun ha ↦ ha) fun hb ↦ absurd hb.1 hb.2) fun _ hid ↦ .inl hid

/-- The shape of a node in use can be changed. -/
theorem modifyShape (hI : Custody I) (h : I st T) (hid : id ∈ T)
    (f : Shape (Option NodeId) → Shape (Option NodeId)) :
    Exchange I T [id] [id] st (st.modifyShape id f) where
  size := Nat.le_of_eq (Store.size_modifyShape ..).symm
  frame other _ hne := Store.cell_modifyShape_of_ne fun he ↦ hne (he ▸ List.mem_singleton_self _)
  fresh _ h := .inl h
  custody := hI.shrink (hI.modifyShape f h hid) fun other hother ↦ by
    rcases hother with hother | hother
    · exact hother.1
    · exact List.mem_singleton.mp hother ▸ hid

/-- After a step, the shape of a node can be changed that was not given to the step. -/
theorem then_modifyShape (hI : Custody I) (h : Exchange I T A B st st') (hid : id ∈ T)
    (hA : id ∉ A) (f : Shape (Option NodeId) → Shape (Option NodeId)) :
    Exchange I T (id :: A) (id :: B) st (st'.modifyShape id f) := by
  have hx : Exchange I T (id :: A) (id :: B) st st' :=
    h.widen hI (fun _ h ↦ List.mem_cons_of_mem _ h) fun other hother ↦ by
      rcases List.mem_cons.mp hother with rfl | hother
      · exact .inr ⟨List.mem_cons_self, hid, hA⟩
      · exact .inl hother
  refine hx.trans hI (.modifyShape hI hx.custody (.inr List.mem_cons_self) f) ?_ ?_
  · rintro other (hother | ⟨hother, hn⟩)
    · exact hother
    · exact absurd (List.mem_singleton.mp hother ▸ List.mem_cons_self) hn
  · intro other hother
    by_cases he : other = id
    · exact .inl (List.mem_singleton.mpr he)
    · exact .inr ⟨hother, fun h ↦ he (List.mem_singleton.mp h)⟩

/-- A layout in use of which nothing is given stays where it is. -/
theorem holds (h : Exchange I T A B st st') (hl : st.store.Holds l)
    (hT : ∀ id ∈ l.ids, id ∈ T) (hA : ∀ id ∈ l.ids, id ∉ A) : st'.store.Holds l :=
  hl.frame h.size fun id hid ↦ h.frame id (hT id hid) (hA id hid)

end Exchange

/-! ### Layouts in use -/

/-- The layouts are in use, and share no nodes. -/
structure InUse (I : WalkState σ → Set NodeId → Prop) (T : Set NodeId) (ls : List Layout)
    (st : WalkState σ) : Prop where
  custody : I st T
  holds : ∀ l ∈ ls, st.store.Holds l
  unshared : (ls.flatMap ids).Nodup
  mem : ∀ id ∈ ls.flatMap ids, id ∈ T

/-- Whenever the visitor returns from a layout in use, it has exchanged its nodes for those of a
layout of the kind. -/
structure Gives (I : WalkState σ → Set NodeId → Prop) (P : Layout → Prop) (visit : Visitor σ) :
    Prop where
  returns : ∀ {st T l r st'}, InUse I T [l] st → (visit l.root?).Returns st r st' →
    ∃ l', l'.root? = r ∧ st'.store.Stands l' ∧ Exchange I T l.ids l'.ids st st' ∧ P l'

/-- Layouts in use have been exchanged one by one for layouts of the kind. The nodes that they are
below may have been changed on the way. -/
structure Traded (I : WalkState σ → Set NodeId → Prop) (P : Layout → Prop) (T : Set NodeId)
    (above : List NodeId) (ls ls' : List Layout) (st st' : WalkState σ) : Prop where
  holds : ∀ l ∈ ls', st'.store.Holds l
  unshared : (ls'.flatMap ids).Nodup
  apart : ∀ id ∈ above, id ∉ ls'.flatMap ids
  exchange : Exchange I T (above ++ ls.flatMap ids) (above ++ ls'.flatMap ids) st st'
  good : ∀ l ∈ ls', P l

namespace InUse

variable {above : List NodeId}

/-- The first of some layouts in use is in use. -/
theorem head (h : InUse I T (l :: ls) st) : InUse I T [l] st where
  custody := h.custody
  holds := List.forall_mem_singleton.mpr (List.forall_mem_cons.mp h.holds).1
  unshared := by
    have hu := h.unshared
    rw [List.flatMap_cons, List.nodup_append] at hu
    simpa using hu.1
  mem id hid := h.mem id (by simp_all)

/-- The nodes of the other layouts in use are no nodes of the first. -/
theorem apart (h : InUse I T (l :: ls) st) :
    ∀ id ∈ ls.flatMap ids, id ∈ T ∧ id ∉ l.ids := by
  intro id hid
  have hu := h.unshared
  rw [List.flatMap_cons, List.nodup_append] at hu
  refine ⟨h.mem id ?_, fun hl ↦ hu.2.2 id hl id hid rfl⟩
  rw [List.flatMap_cons]
  exact List.mem_append_right _ hid

/-- The other layouts are still in use when one has been exchanged and nodes above them have been
changed. -/
theorem tail_of_above (h : InUse I T (l :: ls) st)
    (hx : Exchange I T (above ++ l.ids) (above ++ l'.ids) st st')
    (habove : ∀ id ∈ above, id ∉ ls.flatMap ids) :
    InUse I (traded T (above ++ l.ids) (above ++ l'.ids)) ls st' := by
  have hmem (id : NodeId) (hid : id ∈ ls.flatMap ids) : id ∈ T ∧ id ∉ above ++ l.ids := by
    rw [List.mem_append, not_or]
    exact ⟨(h.apart id hid).1, fun ha ↦ habove id ha hid, (h.apart id hid).2⟩
  have hu := h.unshared
  rw [List.flatMap_cons, List.nodup_append] at hu
  refine ⟨hx.custody, fun m hm ↦ ?_, hu.2.1, fun id hid ↦ .inl (hmem id hid)⟩
  have hin (id : NodeId) (hid : id ∈ m.ids) := hmem id (List.mem_flatMap.mpr ⟨m, hm, hid⟩)
  exact hx.holds ((List.forall_mem_cons.mp h.holds).2 m hm) (fun id hid ↦ (hin id hid).1)
    fun id hid ↦ (hin id hid).2

/-- The other layouts are still in use when one has been exchanged. -/
theorem tail (h : InUse I T (l :: ls) st) (hx : Exchange I T l.ids l'.ids st st') :
    InUse I (traded T l.ids l'.ids) ls st' :=
  @tail_of_above _ _ _ _ _ _ _ _ [] h hx nofun

/-- The children of a node in use are in use, and the node is none of their nodes. -/
theorem children (h : InUse I T [.node id info shape] st) :
    InUse I T shape.children st ∧ id ∈ T ∧ id ∉ shape.children.flatMap ids := by
  have hu := h.unshared
  have hmem := h.mem
  rw [List.flatMap_singleton, ids_node] at hu hmem
  rw [List.nodup_cons] at hu
  rw [List.forall_mem_cons] at hmem
  cases List.forall_mem_singleton.mp h.holds with
  | node _ _ _ below => exact ⟨⟨h.custody, below, hu.2, hmem.2⟩, hmem.1, hu.1⟩

/-- A layout that stands in what has been returned is in use. -/
theorem of_stands (hx : Exchange I T l.ids l'.ids st st') (hl' : st'.store.Stands l') :
    InUse I (traded T l.ids l'.ids) [l'] st' where
  custody := hx.custody
  holds := List.forall_mem_singleton.mpr hl'.holds
  unshared := by simpa using hl'.unshared
  mem id hid := .inr (by simpa using hid)

/-- A layout in use stands in the store. -/
theorem stands (h : InUse I T [l] st) : st.store.Stands l :=
  ⟨List.forall_mem_singleton.mp h.holds, by simpa using h.unshared⟩

/-- A layout that stands in the store is in use where its nodes are all that is. -/
theorem alone (h : I st {id | id ∈ l.ids}) (hl : st.store.Stands l) :
    InUse I {id | id ∈ l.ids} [l] st :=
  ⟨h, List.forall_mem_singleton.mpr hl.holds, by simpa using hl.unshared, by simp⟩

/-- A layout in use can be returned as it is. -/
theorem exchange (hI : Custody I) (h : InUse I T [l] st) : Exchange I T l.ids l.ids st st :=
  .refl hI h.custody (by simpa using h.mem)

/-- The node of a layout in use is in the store as the layout has it. -/
theorem cell_eq (h : InUse I T [.node id info shape] st) :
    st.store.cell id = ⟨info, shape.mapChildren root?⟩ := by
  cases h.stands.holds with
  | node _ cell _ _ => exact cell

end InUse

namespace Traded

variable {above : List NodeId}

/-- No layouts are exchanged for none. -/
theorem nil (hI : Custody I) (h : I st T) (habove : ∀ id ∈ above, id ∈ T) :
    Traded I P T above [] [] st st where
  holds := List.forall_mem_nil _
  unshared := List.nodup_nil
  apart _ _ := List.not_mem_nil
  exchange := by simpa using Exchange.refl hI h habove
  good := List.forall_mem_nil _

/-- Layouts are exchanged one after the other, and after each the nodes above them can be changed.
-/
theorem cons_of_above (hI : Custody I) (h : InUse I T (l :: ls) st)
    (habove : ∀ id ∈ above, id ∉ ls.flatMap ids) (hl' : st₁.store.Stands l')
    (hx : Exchange I T (above ++ l.ids) (above ++ l'.ids) st st₁) (hp : P l')
    (hout : ∀ id ∈ above, id ∉ l'.ids)
    (hrest : Traded I P (traded T (above ++ l.ids) (above ++ l'.ids)) above ls ls' st₁ st₂) :
    Traded I P T above (l :: ls) (l' :: ls') st st₂ := by
  -- what has been returned for the first layout is not given to the later steps
  have hapart (id : NodeId) (hid : id ∈ l'.ids) : id ∉ above ++ ls.flatMap ids := by
    rw [List.mem_append, not_or]
    refine ⟨fun ha ↦ hout id ha hid, fun hls ↦ ?_⟩
    obtain ⟨ht, hl⟩ := h.apart id hls
    rcases hx.fresh id (List.mem_append_right _ hid) with hg | hn
    · exact (List.mem_append.mp hg).elim (fun ha ↦ habove id ha hls) hl
    · exact hn ht
  constructor
  · rw [List.forall_mem_cons]
    exact ⟨hrest.exchange.holds hl'.holds (fun id hid ↦ .inr (List.mem_append_right _ hid)) hapart,
      hrest.holds⟩
  · rw [List.flatMap_cons, List.nodup_append]
    refine ⟨hl'.unshared, hrest.unshared, fun id hid other hother heq ↦ ?_⟩
    subst heq
    rcases hrest.exchange.fresh id (List.mem_append_right _ hother) with hg | hn
    · exact hapart id hid hg
    · exact hn (.inr (List.mem_append_right _ hid))
  · intro id ha hid
    rw [List.flatMap_cons] at hid
    exact (List.mem_append.mp hid).elim (hout id ha) (hrest.apart id ha)
  · rw [List.flatMap_cons, List.flatMap_cons]
    refine hx.trans hI hrest.exchange (fun id hid ↦ ?_) fun id hid ↦ ?_
    · rw [List.mem_append, List.mem_append]
      rcases hid with hg | ⟨hg, -⟩
      · exact (List.mem_append.mp hg).imp_right .inl
      · exact (List.mem_append.mp hg).imp_right .inr
    · rcases List.mem_append.mp hid with ha | hid
      · exact .inl (List.mem_append_left _ ha)
      · rcases List.mem_append.mp hid with hl | hls
        · exact .inr ⟨List.mem_append_right _ hl, hapart id hl⟩
        · exact .inl (List.mem_append_right _ hls)
  · exact List.forall_mem_cons.mpr ⟨hp, hrest.good⟩

/-- Layouts are exchanged one after the other. -/
theorem cons (hI : Custody I) (h : InUse I T (l :: ls) st) (hl' : st₁.store.Stands l')
    (hx : Exchange I T l.ids l'.ids st st₁) (hp : P l')
    (hrest : Traded I P (traded T l.ids l'.ids) [] ls ls' st₁ st₂) :
    Traded I P T [] (l :: ls) (l' :: ls') st st₂ :=
  cons_of_above hI h nofun hl' hx hp nofun hrest

/-- The node that layouts are below can be changed once they have been exchanged. -/
theorem then_modifyShape (hI : Custody I) (h : Traded I P T [] ls ls' st st') (hid : id ∈ T)
    (hout : id ∉ ls.flatMap ids) (f : Shape (Option NodeId) → Shape (Option NodeId)) :
    Traded I P T [id] ls ls' st (st'.modifyShape id f) := by
  have hnew : id ∉ ls'.flatMap ids := fun hm ↦
    (h.exchange.fresh id hm).elim hout fun hn ↦ hn hid
  refine ⟨fun l hl ↦ ?_, h.unshared, List.forall_mem_singleton.mpr hnew,
    h.exchange.then_modifyShape hI hid hout f, h.good⟩
  exact (h.holds l hl).modifyShape (fun hi ↦ hnew (List.mem_flatMap.mpr ⟨l, hl, hi⟩)) f

/-- A node stands above some of the layouts that its children have been exchanged for. -/
theorem stands (hI : Custody I) (hu : InUse I T [.node id info shape] st)
    (h : Traded I P T [id] shape.children ls' st st') (shape' : Shape Layout)
    (hcell : st'.store.cell id = ⟨info, shape'.mapChildren root?⟩)
    (hsub : shape'.children.Sublist ls') (hkeys : shape'.keys.Nodup) :
    st'.store.Stands (.node id info shape') ∧
      Exchange I T (Layout.node id info shape).ids (Layout.node id info shape').ids st st' := by
  have hflat : (shape'.children.flatMap ids).Sublist (ls'.flatMap ids) := hsub.flatMap ids
  have hnew : id ∉ ls'.flatMap ids := h.apart id List.mem_cons_self
  constructor
  · refine ⟨.node ?_ hcell hkeys fun l hl ↦ h.holds l (hsub.subset hl), ?_⟩
    · cases hu.stands.holds with
      | node bound _ _ _ => exact Nat.lt_of_lt_of_le bound h.exchange.size
    · rw [ids_node, List.nodup_cons]
      exact ⟨fun hm ↦ hnew (hflat.subset hm), h.unshared.sublist hflat⟩
  · rw [ids_node, ids_node]
    refine h.exchange.widen hI (fun _ hi ↦ hi) fun i hi ↦ .inl ?_
    rcases List.mem_cons.mp hi with rfl | hi
    · exact List.mem_cons_self
    · exact List.mem_cons_of_mem _ (hflat.subset hi)

/-- A node can be put above some of the layouts that its children have been exchanged for. -/
theorem stands_modifyShape (hI : Custody I) (hu : InUse I T [.node id info shape] st)
    (h : Traded I P T [] shape.children ls' st st') (shape' : Shape Layout)
    (hsub : shape'.children.Sublist ls') (hkeys : shape'.keys.Nodup) :
    let after := st'.modifyShape id fun _ ↦ shape'.mapChildren root?
    after.store.Stands (.node id info shape') ∧
      Exchange I T (Layout.node id info shape).ids (Layout.node id info shape').ids st after := by
  obtain ⟨-, hid, hout⟩ := hu.children
  refine (h.then_modifyShape hI hid hout _).stands hI hu shape' ?_ hsub hkeys
  cases hu.stands.holds with
  | node bound cell _ _ =>
    have hinfo : st'.store.cell id = st.store.cell id := h.exchange.frame id hid hout
    refine (Store.cell_modifyShape_self _ (Nat.lt_of_lt_of_le bound h.exchange.size)).trans ?_
    rw [hinfo, cell]

end Traded

/-! ### Visitors -/

/-- A visitor that introduces no sharing: whenever it returns from a layout in use, it has exchanged
its nodes for those of another layout, and has left the other nodes in use as they are. -/
def Tidy (I : WalkState σ → Set NodeId → Prop) (visit : Visitor σ) : Prop :=
  Gives I (fun _ ↦ True) visit

/-- The visitor that keeps nodes introduces no sharing. -/
theorem tidy_keep (hI : Custody I) : Tidy I keep := by
  constructor
  intro st T l r st' hu hr
  obtain ⟨rfl, rfl⟩ := Walk.returns_pure_iff.mp hr
  exact ⟨l, rfl, hu.stands, hu.exchange hI, trivial⟩

/-- The nodes in use are nodes of the store, so that added nodes are not in use. -/
def Occupied (st : WalkState σ) (T : Set NodeId) : Prop := ∀ id ∈ T, id.index < st.store.size

/-- That the nodes in use are nodes of the store is an invariant of custody. -/
theorem custody_occupied : Custody (@Occupied σ) where
  shrink h hT id hid := h id (hT hid)
  modifyShape _ h _ id hid := Nat.lt_of_lt_of_eq (h id hid) (Store.size_modifyShape ..).symm

/-- An added node without children stands in the store, and can be returned for any nodes. -/
theorem Occupied.add (h : Occupied st T) (A : List NodeId) (info : NodeInfo)
    (shape : Shape Layout) (hleaf : shape.children = []) :
    let new := Layout.node ⟨st.store.size⟩ info shape
    let st' : WalkState σ :=
      { st with store := (st.store.add ⟨info, shape.mapChildren root?⟩).2 }
    st'.store.Stands new ∧ Exchange Occupied T A new.ids st st' := by
  intro new st'
  have hids : new.ids = [⟨st.store.size⟩] := by rw [ids_node, hleaf]; rfl
  have hbound : st.store.size < st'.store.size := by simp [st', Store.add, Store.size]
  have hext : st.store.Extends st'.store := .add st.store _
  have hkeys : shape.keys = [] := by cases shape <;> simp_all [Shape.keys, Shape.children]
  refine ⟨⟨.node hbound (Store.cell_add ..) (by simp [hkeys]) (by simp [hleaf]), by simp [hids]⟩,
    hext.size, fun i hi _ ↦ hext.cell i (h i hi), fun i hi ↦ .inr fun ht ↦ ?_, fun i hi ↦ ?_⟩
  · rw [hids, List.mem_singleton] at hi
    exact Nat.lt_irrefl _ (hi ▸ h i ht)
  · rw [mem_traded, hids, List.mem_singleton] at hi
    rcases hi with hi | rfl
    · exact Nat.lt_of_lt_of_le (h i hi.1) hext.size
    · exact hbound

end Hil.Visitor
