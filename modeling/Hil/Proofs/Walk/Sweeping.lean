import Hil.Proofs.Store.Gone
import Hil.Proofs.Walk.Entries
import Hil.Proofs.Walk.Observing

/-!
# Walks that only look

A visitor that returns every child as it is, missing ones too, changes nothing itself. The walk
drops the missing children that it is given back, and with them all that are gone. Whenever it
returns, the nodes that it has come to are swept, and no other node has changed. That holds of every
store, however its nodes are shared.
-/

namespace Hil.Visitor

open Store

variable {σ : Type} {s₀ : Store} {st st' : WalkState σ} {visit pre : Visitor σ}
  {node r : Option NodeId} {id child : NodeId} {children left : List (Option NodeId)} {n : Nat}

/-- The visitor returns whatever it is given, and leaves the store as it is. -/
def Looks (pre : Visitor σ) : Prop :=
  ∀ {st node r st'}, (pre node).Returns st r st' → r = node ∧ st'.store = st.store

/-- Whenever the visitor returns, it returns what it is given unless that is gone, and it has swept
what is live there. -/
structure Sweeping (s₀ : Store) (visit : Visitor σ) : Prop where
  sweeps : ∀ {st node r st'}, s₀.Thinned st.store → (visit node).Returns st r st' →
    r = (if s₀.isGone node then none else node) ∧
      s₀.Sweeps (s₀.live node) st.store st'.store

private theorem exists_settled {gone : Option NodeId → Bool} {key : Str} {value : Option NodeId}
    {all es rest : List (Str × Option NodeId)} (hkeys : (all.map Prod.fst).Nodup)
    (hmem : (key, value) ∈ all) (hnone : gone none = true) (hsub : es.Sublist all)
    (hfilter : (es.filter fun e ↦ !gone e.2) = all.filter fun e ↦ !gone e.2)
    (hgone : ∀ e ∈ es, gone e.2 = true → e ∈ (key, value) :: rest) :
    ∃ es', Shape.settle key (if gone value then none else value) (.map es) = .map es' ∧
      es'.Sublist all ∧ ((es'.filter fun e ↦ !gone e.2) = all.filter fun e ↦ !gone e.2) ∧
      ∀ e ∈ es', gone e.2 = true → e ∈ rest := by
  -- under distinct keys, the entry of the key is the one that is settled
  have hunique : ∀ e ∈ all, e.1 = key → e = (key, value) := fun e he hkey ↦
    List.inj_on_of_nodup_map hkeys he hmem hkey
  cases hvalue : gone value with
  | true =>
    refine ⟨Table.eraseEntry key es, rfl, List.filter_sublist.trans hsub, ?_, fun e he hdead ↦ ?_⟩
    · rw [← hfilter, Table.eraseEntry, List.filter_filter]
      refine List.filter_congr fun e he ↦ ?_
      by_cases hkey : e.1 = key
      · rw [hunique e (hsub.mem he) hkey, hvalue]
        rfl
      · simp [hkey]
    · rw [Table.eraseEntry, List.mem_filter, bne_iff_ne] at he
      rcases List.mem_cons.mp (hgone e he.1 hdead) with rfl | hrest
      · exact absurd rfl he.2
      · exact hrest
  | false =>
    cases value with
    | none =>
      rw [hnone] at hvalue
      cases hvalue
    | some value =>
      have hthere : (key, some value) ∈ es := by
        have hkept : (key, some value) ∈ all.filter fun e ↦ !gone e.2 := by simp [hmem, hvalue]
        exact List.mem_of_mem_filter (hfilter ▸ hkept)
      have hlookup := Table.lookupEntry_of_mem (hkeys.sublist (hsub.map Prod.fst)) hthere
      refine ⟨es, ?_, hsub, hfilter, fun e he hdead ↦ ?_⟩
      · exact congrArg Shape.map (Table.insertEntry_eq_self hlookup)
      · rcases List.mem_cons.mp (hgone e he hdead) with rfl | hrest
        · rw [hdead] at hvalue
          cases hvalue
        · exact hrest

namespace Sweeping

/-- The same is so where expressions have to stay expressions. -/
theorem exprOnly (h : Sweeping s₀ visit) : Sweeping s₀ (exprOnly visit) := by
  constructor
  intro st node r st' ht hr
  obtain ⟨r', st₁, hvisit, hr⟩ := Walk.returns_bind_iff.mp hr
  obtain ⟨hr', hsweeps⟩ := h.sweeps ht hvisit
  cases r' with
  | none =>
    obtain ⟨rfl, rfl⟩ := Walk.returns_pure_iff.mp hr
    exact ⟨hr', hsweeps⟩
  | some id =>
    obtain ⟨cell, st₂, hcell, hr⟩ := Walk.returns_bind_iff.mp hr
    cases hcell
    split at hr
    · obtain ⟨rfl, rfl⟩ := Walk.returns_pure_iff.mp hr
      exact ⟨hr', hsweeps⟩
    · cases hr

/-- Of children, those are left that are not gone. -/
theorem survivors (h : Sweeping s₀ visit) (ht : s₀.Thinned st.store)
    (hr : (survivors visit children).Returns st left st') :
    (left = children.filter fun child ↦ !s₀.isGone child) ∧
      s₀.Sweeps (s₀.liveAt children) st.store st'.store := by
  induction children generalizing st left with
  | nil =>
    obtain ⟨rfl, rfl⟩ := Walk.returns_pure_iff.mp hr
    rw [liveAt_nil]
    exact ⟨rfl, .empty _ _⟩
  | cons child children ih =>
    obtain ⟨r, st₁, hvisit, hr⟩ := Walk.returns_bind_iff.mp hr
    obtain ⟨rfl, hsweeps⟩ := h.sweeps ht hvisit
    rw [liveAt_cons, List.filter_cons]
    cases hgone : s₀.isGone child with
    | true =>
      rw [hgone] at hr
      obtain ⟨hleft, hrest⟩ := ih (ht.sweeps hsweeps) hr
      exact ⟨hleft, hsweeps.trans hrest⟩
    | false =>
      cases child with
      | none => cases isGone_eq_false_iff.mp hgone .missing
      | some id =>
        rw [hgone] at hr
        obtain ⟨left', st₂, hothers, hr⟩ := Walk.returns_bind_iff.mp hr
        obtain ⟨rfl, rfl⟩ := Walk.returns_pure_iff.mp hr
        obtain ⟨rfl, hrest⟩ := ih (ht.sweeps hsweeps) hothers
        exact ⟨rfl, hsweeps.trans hrest⟩

/-- A child in a slot is not gone, and its slot keeps it. -/
theorem slot (h : Sweeping s₀ visit) {which : Slot} (ht : s₀.Thinned st.store)
    (hslot : (st.store.cell id).shape.slot? which = some node)
    (hr : (slot visit id which).Returns st child st') :
    node = some child ∧ s₀.Sweeps (s₀.live node) st.store st'.store := by
  obtain ⟨cell, st₁, hcell, hr⟩ := Walk.returns_bind_iff.mp hr
  cases hcell
  rw [hslot] at hr
  obtain ⟨r, st₁, hvisit, hr⟩ := Walk.returns_bind_iff.mp hr
  obtain ⟨rfl, hsweeps⟩ := h.sweeps ht hvisit
  split at hr
  · next hnode =>
    obtain ⟨rfl, rfl⟩ := Walk.returns_pure_iff.mp hr
    rw [Option.join_some] at hsweeps hnode
    split at hnode
    · cases hnode
    · exact ⟨hnode, hsweeps⟩
  · cases hr

/-- A list-bearing node keeps the children that are not gone, unless it is gone itself. -/
theorem listNode (h : Sweeping s₀ visit) {c : Shape.ListClass} (ht : s₀.Thinned st.store)
    (hcell : (st.store.cell id).shape = c.shape children)
    (hr : (listNode visit keep id children c.shape).Returns st r st') :
    r = (if s₀.isGone (some id) then none else some id) ∧
      s₀.Sweeps (s₀.live (some id)) st.store st'.store := by
  obtain ⟨all, hall, hsub, hfilter⟩ := (hcell ▸ ht.shape id).exists_list
  have hchildren : (s₀.cell id).shape.children = all := by
    rw [hall, Shape.ListClass.children_shape]
  obtain ⟨left, st₁, hsurvivors, hr⟩ := Walk.returns_bind_iff.mp hr
  obtain ⟨rfl, hsweeps⟩ := h.survivors ht hsurvivors
  rw [liveAt_eq_of_filter hsub hfilter] at hsweeps
  have hemptied := ht.emptied_iff hcell
  rw [Shape.ListClass.emptied_shape_eq] at hemptied
  by_cases hgone : s₀.Gone (some id)
  · rw [if_pos (hemptied.mpr hgone)] at hr
    obtain ⟨rfl, rfl⟩ := Walk.returns_pure_iff.mp hr
    rw [← hchildren, liveAt_of_gone (gone_some_iff.mp hgone).2.2] at hsweeps
    rw [live_of_gone hgone, if_pos (isGone_iff.mpr hgone)]
    exact ⟨rfl, hsweeps⟩
  · rw [if_neg (hemptied.not.mpr hgone)] at hr
    obtain ⟨_, st₂, hmodify, hr⟩ := Walk.returns_bind_iff.mp hr
    cases hmodify
    obtain ⟨rfl, rfl⟩ := Walk.returns_pure_iff.mp hr
    have hbound : id.index < st₁.store.size := by
      rw [hsweeps.size]
      refine lt_size_of_isTraversable ?_
      rw [hcell, Shape.ListClass.isTraversable_shape]
    let kept := children.filter fun child ↦ !s₀.isGone child
    have hswept : c.shape kept = (s₀.swept id).shape := by
      rw [swept, hall, Shape.ListClass.compact_shape, ← hfilter]
    have ht₁ : s₀.Thinned (st₁.store.modifyShape id fun _ ↦ c.shape kept) := by
      refine (ht.sweeps hsweeps).modifyShape hgone hbound ?_
      rw [hswept]
      exact Shape.thinned_compact _ _
    have hroot : s₀.Sweeps {id} (st₁.store.modifyShape id fun _ ↦ c.shape kept)
        (st₁.store.modifyShape id fun _ ↦ c.shape kept) := by
      refine .singleton ht₁ hgone ?_
      rw [cell_modifyShape_self _ hbound, hswept]
    rw [if_neg (isGone_iff.not.mpr hgone), live_some hgone, hchildren]
    exact ⟨rfl, hsweeps.trans_modifyShape hroot rfl⟩

/-- The values of a map are visited in order. At each time the values that are gone and still there
are among those to be visited yet. -/
theorem mapValues (h : Sweeping s₀ visit) {all rest : List (Str × Option NodeId)}
    (hall : (s₀.cell id).shape = .map all) (hkeys : (all.map Prod.fst).Nodup)
    (hrest : ∀ e ∈ rest, e ∈ all) (ht : s₀.Thinned st.store)
    (hgone : ∀ e ∈ (st.store.cell id).shape.entries, s₀.isGone e.2 = true → e ∈ rest)
    (hr : (mapValues visit id rest).Returns st () st') :
    s₀.Sweeps (s₀.liveAt (rest.map Prod.snd) ∪ {id}) st.store st'.store := by
  have hlive : ¬s₀.Gone (some id) := not_gone_of_isListBearing (by rw [hall]; rfl)
  have hswept : (s₀.swept id).shape = .map (all.filter fun e ↦ !s₀.isGone e.2) := by
    rw [swept, hall]
    rfl
  induction rest generalizing st with
  | nil =>
    obtain ⟨-, rfl⟩ := Walk.returns_pure_iff.mp hr
    obtain ⟨es, hes, -, hfilter⟩ := (hall ▸ ht.shape id).map_left
    rw [hes] at hgone
    have hnone : (es.filter fun e ↦ !s₀.isGone e.2) = es := by
      rw [List.filter_eq_self]
      intro e he
      cases hgone' : s₀.isGone e.2 with
      | false => rfl
      | true => exact absurd (hgone e he hgone') List.not_mem_nil
    rw [List.map_nil, liveAt_nil, Set.empty_union]
    refine .singleton ht hlive ?_
    rw [hes, hswept, ← hfilter, hnone]
  | cons e rest ih =>
    obtain ⟨key, child⟩ := e
    rw [List.forall_mem_cons] at hrest
    rw [mapValues_cons] at hr
    obtain ⟨r, st₁, hvisit, hr⟩ := Walk.returns_bind_iff.mp hr
    obtain ⟨_, st₂, hsettle, hr⟩ := Walk.returns_bind_iff.mp hr
    obtain ⟨rfl, hsweeps⟩ := h.sweeps ht hvisit
    obtain rfl := eq_of_returns_settle hsettle
    have ht₁ := ht.sweeps hsweeps
    obtain ⟨es, hes, hsub, hfilter⟩ := (hall ▸ ht₁.shape id).map_left
    have hgone₁ : ∀ e ∈ es, s₀.isGone e.2 = true → e ∈ (key, child) :: rest := by
      intro e he hdead
      by_cases hid : id ∈ s₀.live child
      · rw [hsweeps.inside id hid, hswept, Shape.map.injEq] at hes
        rw [← hes, List.mem_filter, hdead] at he
        cases he.2
      · rw [hsweeps.outside id hid] at hes
        exact hgone e (by rwa [hes]) hdead
    obtain ⟨es', hes', hsub', hfilter', hgone'⟩ :=
      exists_settled hkeys hrest.1 (isGone_iff.mpr .missing) hsub hfilter hgone₁
    have hbound : id.index < st₁.store.size := by
      rw [ht₁.size]
      exact lt_size_of_isTraversable (by rw [hall]; rfl)
    rw [← hes] at hes'
    have hcell : ((st₁.modifyShape id (Shape.settle key
        (if s₀.isGone child then none else child))).store.cell id).shape = .map es' := by
      rw [WalkState.modifyShape, cell_modifyShape_self _ hbound, hes']
    have ht₂ := ht₁.modifyShape hlive hbound (f := Shape.settle key _) <| by
      rw [hall, hes']
      exact ⟨congrArg Shape.map hfilter', hsub'.map Prod.snd, hsub'⟩
    have hothers := ih hrest.2 ht₂ (by rwa [hcell]) hr
    rw [List.map_cons, liveAt_cons, Set.union_assoc]
    exact hsweeps.trans_modifyShape hothers (.inr rfl)

/-- A map keeps the values that are not gone. -/
theorem map (h : Sweeping s₀ visit) (hkeys : (s₀.cell id).shape.keys.Nodup)
    {entries : List (Str × Option NodeId)} (ht : s₀.Thinned st.store)
    (hcell : (st.store.cell id).shape = .map entries)
    (hr : (descend visit keep id (.map entries)).Returns st r st') :
    r = (if s₀.isGone (some id) then none else some id) ∧
      s₀.Sweeps (s₀.live (some id)) st.store st'.store := by
  obtain ⟨all, hall, hsub, hfilter⟩ := (hcell ▸ ht.shape id).exists_map
  obtain ⟨_, st₁, hvalues, hr⟩ := Walk.returns_bind_iff.mp hr
  obtain ⟨rfl, rfl⟩ := Walk.returns_pure_iff.mp hr
  rw [hall, Shape.keys] at hkeys
  have hsweeps := h.mapValues hall hkeys (fun e he ↦ hsub.mem he) ht
    (fun e he _ ↦ by rwa [hcell] at he) hvalues
  have hlive : ¬s₀.Gone (some id) := not_gone_of_isListBearing (by rw [hall]; rfl)
  have hchildren : s₀.liveAt (entries.map Prod.snd) = s₀.liveAt (s₀.cell id).shape.children := by
    rw [hall]
    refine liveAt_eq_of_filter (hsub.map Prod.snd) ?_
    rw [Shape.children, List.filter_map, List.filter_map]
    exact congrArg _ hfilter
  rw [if_neg (isGone_iff.not.mpr hlive), live_some hlive, ← hchildren]
  exact ⟨rfl, hsweeps⟩

private theorem stays {s : Store} {shape : Shape (Option NodeId)} (ht : s₀.Thinned s)
    (h₀ : (s₀.cell id).shape = shape) (hs : shape.isSlotted = true) : (s.cell id).shape = shape :=
  ((ht.shape id).eq_of_isSlotted (.inl (by rwa [h₀]))).trans h₀

private theorem finish {s s' : Store} {shape : Shape (Option NodeId)} (ht' : s₀.Thinned s')
    (h₀ : (s₀.cell id).shape = shape) (hs : shape.isSlotted = true)
    (hbelow : s₀.Sweeps (s₀.liveAt shape.children) s s') :
    some id = (if s₀.isGone (some id) then none else some id) ∧
      s₀.Sweeps (s₀.live (some id)) s s' := by
  subst h₀
  have hlive := not_gone_of_isListBearing (Shape.isListBearing_of_isSlotted hs)
  rw [if_neg (isGone_iff.not.mpr hlive), live_some hlive]
  exact ⟨rfl, hbelow.trans (.of_isSlotted ht' hs)⟩

/-- A conditional keeps its condition and its branches. -/
theorem conditional (h : Sweeping s₀ visit) (ht : s₀.Thinned st.store) {type : Option Annotation}
    {c t f : Option NodeId} (h₀ : (s₀.cell id).shape = .conditional type c t f)
    (hr : (descend visit keep id (.conditional type c t f)).Returns st r st') :
    r = (if s₀.isGone (some id) then none else some id) ∧
      s₀.Sweeps (s₀.live (some id)) st.store st'.store := by
  obtain ⟨_, st₁, hc, hr⟩ := Walk.returns_bind_iff.mp hr
  obtain ⟨_, st₂, ht', hr⟩ := Walk.returns_bind_iff.mp hr
  obtain ⟨_, st₃, hf, hr⟩ := Walk.returns_bind_iff.mp hr
  obtain ⟨_, st₄, hmodify, hr⟩ := Walk.returns_bind_iff.mp hr
  obtain ⟨rfl, rfl⟩ := Walk.returns_pure_iff.mp hr
  obtain ⟨rfl, sweepsC⟩ := h.exprOnly.slot ht (by rw [stays ht h₀ rfl]; rfl) hc
  have ht₁ := ht.sweeps sweepsC
  obtain ⟨rfl, sweepsT⟩ := h.exprOnly.slot ht₁ (by rw [stays ht₁ h₀ rfl]; rfl) ht'
  have ht₂ := ht₁.sweeps sweepsT
  obtain ⟨rfl, sweepsF⟩ := h.exprOnly.slot ht₂ (by rw [stays ht₂ h₀ rfl]; rfl) hf
  have ht₃ := ht₂.sweeps sweepsF
  cases hmodify.symm.trans (Walk.returns_modifyShape_self (stays ht₃ h₀ rfl).symm)
  refine finish ht₃ h₀ rfl ?_
  simp only [Shape.children, liveAt_cons, liveAt_nil, Set.union_empty, ← Set.union_assoc]
  exact (sweepsC.trans sweepsT).trans sweepsF

/-- An index keeps its target and its key. -/
theorem index (h : Sweeping s₀ visit) (ht : s₀.Thinned st.store) {type : Option Annotation}
    {t k : Option NodeId} (h₀ : (s₀.cell id).shape = .index type t k)
    (hr : (descend visit keep id (.index type t k)).Returns st r st') :
    r = (if s₀.isGone (some id) then none else some id) ∧
      s₀.Sweeps (s₀.live (some id)) st.store st'.store := by
  obtain ⟨_, st₁, ht', hr⟩ := Walk.returns_bind_iff.mp hr
  obtain ⟨_, st₂, hk, hr⟩ := Walk.returns_bind_iff.mp hr
  obtain ⟨_, st₃, hmodify, hr⟩ := Walk.returns_bind_iff.mp hr
  obtain ⟨rfl, rfl⟩ := Walk.returns_pure_iff.mp hr
  obtain ⟨rfl, sweepsT⟩ := h.exprOnly.slot ht (by rw [stays ht h₀ rfl]; rfl) ht'
  have ht₁ := ht.sweeps sweepsT
  obtain ⟨rfl, sweepsK⟩ := h.exprOnly.slot ht₁ (by rw [stays ht₁ h₀ rfl]; rfl) hk
  have ht₂ := ht₁.sweeps sweepsK
  cases hmodify.symm.trans (Walk.returns_modifyShape_self (stays ht₂ h₀ rfl).symm)
  refine finish ht₂ h₀ rfl ?_
  simp only [Shape.children, liveAt_cons, liveAt_nil, Set.union_empty]
  exact sweepsT.trans sweepsK

/-- What a walk comes to below a node is swept, and the node with it. -/
theorem descend (h : Sweeping s₀ visit) (hkeys : ∀ id, (s₀.cell id).shape.keys.Nodup)
    (ht : s₀.Thinned st.store)
    (hr : (descend visit keep id (st.store.cell id).shape).Returns st r st') :
    r = (if s₀.isGone (some id) then none else some id) ∧
      s₀.Sweeps (s₀.live (some id)) st.store st'.store := by
  generalize hcell : (st.store.cell id).shape = shape at hr
  have hsame (hs : shape.isSlotted = true) : (s₀.cell id).shape = shape :=
    ((ht.shape id).eq_of_isSlotted (.inr (by rwa [hcell]))).symm.trans hcell
  cases shape with
  | arithmetic type exprs => exact h.exprOnly.listNode (c := .arithmetic type) ht hcell hr
  | call func type args => exact h.exprOnly.listNode (c := .call func type) ht hcell hr
  | conditional type c t f => exact h.conditional ht (hsame rfl) hr
  | index type t k => exact h.index ht (hsame rfl) hr
  | literal | access =>
    obtain ⟨rfl, rfl⟩ := Walk.returns_pure_iff.mp hr
    exact finish ht (hsame rfl) rfl (by simpa [Shape.children] using .empty _ _)
  | output type exprs => exact h.exprOnly.listNode (c := .output type) ht hcell hr
  | list elements => exact h.listNode (c := .list) ht hcell hr
  | map entries => exact h.map (hkeys id) ht hcell hr
  | foreign className content => cases hr

end Sweeping

/-- A walk with a visitor that looks sweeps as deep as it may go. -/
theorem Looks.visitTo (h : Looks pre) (hkeys : ∀ id, (s₀.cell id).shape.keys.Nodup) (n : Nat) :
    Sweeping s₀ (visitTo pre keep n) := by
  induction n with
  | zero => exact ⟨fun _ hr ↦ by cases hr⟩
  | succ n ih =>
    constructor
    intro st _ r st' ht hr
    obtain ⟨node, st₁, hpre, hvisit⟩ := Walk.returns_bind_iff.mp hr
    obtain ⟨rfl, hstore⟩ := h hpre
    rw [← hstore] at ht ⊢
    cases node with
    | none =>
      obtain ⟨rfl, rfl⟩ := Walk.returns_pure_iff.mp hvisit
      rw [live_of_gone .missing, if_pos (isGone_iff.mpr .missing)]
      exact ⟨rfl, .empty _ _⟩
    | some id =>
      obtain ⟨cell, st₂, hcell, hdescend⟩ := Walk.returns_bind_iff.mp hvisit
      cases hcell
      exact ih.descend hkeys ht hdescend

/-- A walk with a visitor that looks sweeps the nodes that it comes to, whenever it returns. -/
theorem Looks.sweeps_visitNode (h : Looks pre)
    (hkeys : ∀ id, (st.store.cell id).shape.keys.Nodup)
    (hr : (visitNode pre keep node).Returns st r st') :
    st.store.Sweeps (st.store.live node) st.store st'.store := by
  obtain ⟨_, st₁, hget, hr⟩ := Walk.returns_bind_iff.mp hr
  cases hget
  exact (((h.visitTo hkeys _).sweeps (.refl _) hr)).2

end Hil.Visitor
