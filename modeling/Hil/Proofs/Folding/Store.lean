import Hil.Proofs.Folding.Tree
import Hil.Proofs.Store.Reading

/-!
# Folding in a store

While a tree is folded in place, every tree of the store is one with some of its folds done: nodes
keep their class and what they show, and their children reduce. This holds of trees that share
nodes as well, since it is said of every node that a tree can be read at.
-/

namespace Hil.Store

open Hil.Tree

variable {s s' s'' : Store} {node : Option NodeId} {id : NodeId} {t : Tree} {info : NodeInfo}
  {shape shape' : Shape Tree}

/-- In the second store every node stands above the children it had in the first, or above what
these reduce to. -/
structure Refolds (s s' : Store) : Prop where
  size : s.size ≤ s'.size
  reads : ∀ {node info shape}, s.Reads node (.node info shape) → (Tree.node info shape).WellFormed →
    ∃ shape', shape.Rel Reduces shape' ∧ s'.Reads node (.node info shape')

/-- Children that are settled are not reduced further. -/
theorem rel_reduces_settled (h : shape.Rel Reduces shape')
    (hs : ∀ t ∈ shape.children, t.folded = t) : shape' = shape := by
  apply Eq.symm
  apply Shape.rel_eq_iff.mp
  exact h.imp_mem fun t ht t' _ hr ↦ (hr.settled (hs t ht)).symm

namespace Refolds

/-- A store in which nothing has been folded. -/
theorem refl (s : Store) : s.Refolds s where
  size := Nat.le_refl _
  reads {_ _ shape} h hw := ⟨shape, Shape.rel_self fun _ ht ↦ .refl (hw.child ht), h⟩

/-- Folding goes on from what has been folded. -/
theorem trans (h : s.Refolds s') (h' : s'.Refolds s'') : s.Refolds s'' where
  size := Nat.le_trans h.size h'.size
  reads hr hw := by
    obtain ⟨shape', hred, hr'⟩ := h.reads hr hw
    have hw' := (Reduces.node hw hred).wellFormed
    obtain ⟨shape'', hred', hr''⟩ := h'.reads hr' hw'
    exact ⟨shape'', hred.trans hred' fun _ _ _ ↦ Reduces.trans, hr''⟩

/-- Added nodes are no folds. -/
theorem of_extends (h : s.Extends s') : s.Refolds s' where
  size := h.size
  reads {_ _ shape} hr hw :=
    ⟨shape, Shape.rel_self fun _ ht ↦ .refl (hw.child ht), h.reads hr hw⟩

/-- A well-formed tree is still read, or one that it reduces to. -/
theorem reduces (h : s.Refolds s') (hr : s.Reads node t) (hw : t.WellFormed) :
    ∃ t', t.Reduces t' ∧ s'.Reads node t' := by
  obtain ⟨_, info, shape, _, rfl⟩ := hr.exists_node
  obtain ⟨shape', hred, hr'⟩ := h.reads hr hw
  exact ⟨.node info shape', .node hw hred, hr'⟩

/-- A folded tree is read as it is. -/
theorem settled (h : s.Refolds s') (hr : s.Reads node t) (hw : t.WellFormed)
    (hs : t.folded = t) : s'.Reads node t := by
  obtain ⟨t', hred, hr'⟩ := h.reduces hr hw
  rwa [hred.settled hs] at hr'

end Refolds

/-- A node whose children are replaced by what they reduce to refolds the store. The induction is
on the height of what is read, since the new children are not below the old ones. -/
theorem reads_modifyShape {g : Shape (Option NodeId) → Shape (Option NodeId)}
    (hid : id.index < s.size) (hr : s.Reads (some id) (.node info shape))
    (hg : Shape.Rel s.Reads (g (s.cell id).shape) shape') (hred : shape.Rel Reduces shape')
    {node : Option NodeId} {info' : NodeInfo} {shape₀ : Shape Tree}
    (h : s.Reads node (.node info' shape₀)) (hw : (Tree.node info' shape₀).WellFormed) :
    ∃ shape₁, shape₀.Rel Reduces shape₁ ∧
      (s.modifyShape id g).Reads node (.node info' shape₁) := by
  obtain ⟨n, hn⟩ : ∃ n, (Tree.node info' shape₀).height = n := ⟨_, rfl⟩
  induction n using Nat.strongRecOn generalizing node info' shape₀ with
  | ind n ih =>
    -- what is below is refolded by induction, and so is anything that is as low
    have below (child : Option NodeId) (u : Tree) (hc : s.Reads child u) (hwu : u.WellFormed)
        (hlow : u.height < n) : ∃ u', (s.modifyShape id g).Reads child u' ∧ u.Reduces u' := by
      obtain ⟨_, i, sh, _, rfl⟩ := hc.exists_node
      obtain ⟨sh', hsh, hc'⟩ := ih _ hlow hc hwu rfl
      exact ⟨_, hc', .node hwu hsh⟩
    have lower (u : Tree) (hu : u ∈ shape₀.children) : u.height < n := hn ▸ height_lt_of_mem hu
    obtain ⟨j, _, _, rfl, _⟩ := h.exists_node
    have hj := h.lt_size hw
    have hcell := cell_modifyShape s id j g hj
    by_cases hij : j = id
    · subst hij
      cases hr.unique h
      have hnew : Shape.Rel
          (fun child (t : Tree) ↦ ∃ u, (s.modifyShape j g).Reads child u ∧ t.Reduces u)
          (g (s.cell j).shape) shape := by
        refine hg.trans (hred.imp_mem (S := fun t u ↦ t.Reduces u ∧ t.height < n) ?_).flip ?_
        · exact fun t ht u _ hr ↦ ⟨hr, lower t ht⟩
        · rintro child u t hc ⟨hu, hlow⟩
          have hlower : u.height < n := Nat.lt_of_le_of_lt hu.height hlow
          obtain ⟨u', hu', hr'⟩ := below child u hc hu.wellFormed hlower
          exact ⟨u', hu', hu.trans hr'⟩
      obtain ⟨shape₁, h₁, h₂⟩ := hnew.exists_between
      refine ⟨shape₁, h₂.flip, reads_node_iff.mpr ?_⟩
      rw [hcell, if_pos rfl]
      exact ⟨(reads_node_iff.mp hr).1, h₁⟩
    · have hnew : Shape.Rel
          (fun child (t : Tree) ↦ ∃ u, (s.modifyShape id g).Reads child u ∧ t.Reduces u)
          (s.cell j).shape shape₀ :=
        (reads_node_iff.mp h).2.imp_mem fun child _ t ht hc ↦
          below child t hc (hw.child ht) (lower t ht)
      obtain ⟨shape₁, h₁, h₂⟩ := hnew.exists_between
      refine ⟨shape₁, h₂.flip, reads_node_iff.mpr ?_⟩
      rw [hcell, if_neg hij]
      exact ⟨(reads_node_iff.mp h).1, h₁⟩

/-- Replacing the children of a node by what they reduce to refolds the store. -/
theorem Refolds.modifyShape {g : Shape (Option NodeId) → Shape (Option NodeId)}
    (hr : s.Reads (some id) (.node info shape)) (hw : (Tree.node info shape).WellFormed)
    (hg : Shape.Rel s.Reads (g (s.cell id).shape) shape') (hred : shape.Rel Reduces shape') :
    s.Refolds (s.modifyShape id g) where
  size := Nat.le_of_eq (size_modifyShape s id g).symm
  reads h hw' := reads_modifyShape (hr.lt_size hw) hr hg hred h hw'

/-- After its children have been replaced, a node is read above what the new ones reduce to. -/
theorem reads_modifyShape_self {g : Shape (Option NodeId) → Shape (Option NodeId)}
    (hr : s.Reads (some id) (.node info shape)) (hw : (Tree.node info shape).WellFormed)
    (hg : Shape.Rel s.Reads (g (s.cell id).shape) shape') (hred : shape.Rel Reduces shape') :
    ∃ shape'', shape'.Rel Reduces shape'' ∧
      (s.modifyShape id g).Reads (some id) (.node info shape'') := by
  have hs := Refolds.modifyShape hr hw hg hred
  have hnew : Shape.Rel
      (fun child (t : Tree) ↦ ∃ u, (s.modifyShape id g).Reads child u ∧ t.Reduces u)
      (g (s.cell id).shape) shape' := by
    refine hg.imp_mem fun child _ t ht hc ↦ ?_
    obtain ⟨_, _, hred⟩ := hred.exists_left ht
    obtain ⟨u, hu, hcu⟩ := hs.reduces hc hred.wellFormed
    exact ⟨u, hcu, hu⟩
  obtain ⟨shape'', h₁, h₂⟩ := hnew.exists_between
  refine ⟨shape'', h₂.flip, reads_node_iff.mpr ?_⟩
  rw [cell_modifyShape s id id g (hr.lt_size hw), if_pos rfl]
  exact ⟨(reads_node_iff.mp hr).1, h₁⟩

end Hil.Store
