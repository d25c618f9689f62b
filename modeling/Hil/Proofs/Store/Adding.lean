import Hil.Proofs.Store.Reading

/-!
# Adding trees to a store

A tree that is added node by node, children first, is read at the node that was added last. The
nodes that were there before stay as they are, and the store has room for the height of the tree.
-/

namespace Hil.Store

variable {s s₀ s' : Store} {t : Tree} {node : Option NodeId} {shape : Shape Tree}

/-- The tree is read at the node, in a store that has grown by its height at least. -/
private structure Placed (s₀ s : Store) (t : Tree) (node : Option NodeId) : Prop where
  reads : s.Reads node t
  room : s₀.size + t.height ≤ s.size

private theorem Placed.extends (h : Placed s₀ s t node) (he : s.Extends s') (hw : t.WellFormed) :
    Placed s₀ s' t node :=
  ⟨he.reads h.reads hw, Nat.le_trans h.room he.size⟩

private theorem run_mapM {α β : Type} (f : α → StateM Store β) (R : Store → α → β → Prop)
    {as : List α}
    (hf : ∀ a ∈ as, ∀ s, s₀.Extends s → s.Extends ((f a).run s).2 ∧
      R ((f a).run s).2 a ((f a).run s).1)
    (hR : ∀ a ∈ as, ∀ b s s', s.Extends s' → R s a b → R s' a b) (hs : s₀.Extends s) :
    s.Extends ((as.mapM f).run s).2 ∧
      List.Forall₂ (R ((as.mapM f).run s).2) as ((as.mapM f).run s).1 := by
  induction as generalizing s with
  | nil => exact ⟨.refl s, .nil⟩
  | cons a as ih =>
    rw [List.forall_mem_cons] at hf hR
    obtain ⟨he, hr⟩ := hf.1 s hs
    obtain ⟨hes, hrs⟩ := ih hf.2 hR.2 (hs.trans he)
    rw [List.mapM_cons]
    exact ⟨he.trans hes, .cons (hR.1 _ _ _ hes hr) hrs⟩

/-- A step that adds the tree to any store that has grown from the first. -/
private def Adds (s₀ : Store) (t : Tree) (f : StateM Store (Option NodeId)) : Prop :=
  ∀ s, s₀.Extends s → s.Extends (f.run s).2 ∧ Placed s₀ (f.run s).2 t (f.run s).1

private theorem run_sequence {f : Tree → StateM Store (Option NodeId)}
    (hf : ∀ t ∈ shape.children, Adds s₀ t (f t)) (hw : ∀ t ∈ shape.children, t.WellFormed)
    (hs : s₀.Extends s) :
    s.Extends ((shape.mapChildren f).sequence.run s).2 ∧
      Shape.Rel (fun child t ↦ Placed s₀ ((shape.mapChildren f).sequence.run s).2 t child)
        ((shape.mapChildren f).sequence.run s).1 shape := by
  have list {ts : List Tree} (hts : ∀ t ∈ ts, t ∈ shape.children) :
      s.Extends (((ts.map f).mapM id).run s).2 ∧
        List.Forall₂ (fun child t ↦ Placed s₀ (((ts.map f).mapM id).run s).2 t child)
          (((ts.map f).mapM id).run s).1 ts := by
    rw [List.mapM_map]
    obtain ⟨he, hr⟩ := run_mapM f (Placed s₀) (fun t ht ↦ hf t (hts t ht))
      (fun t ht _ _ _ he hp ↦ hp.extends he (hw t (hts t ht))) hs
    exact ⟨he, hr.flip⟩
  cases shape with
  | arithmetic type exprs => exact (list fun _ h ↦ h).imp_right (.arithmetic type)
  | call func type args => exact (list fun _ h ↦ h).imp_right (.call func type)
  | output type exprs => exact (list fun _ h ↦ h).imp_right (.output type)
  | list elements => exact (list fun _ h ↦ h).imp_right .list
  | map entries =>
    have hmem (e : Str × Tree) (he : e ∈ entries) : e.2 ∈ (Shape.map entries).children :=
      List.mem_map_of_mem he
    rw [Shape.mapChildren, Shape.sequence, List.mapM_map]
    obtain ⟨he, hr⟩ := run_mapM (fun e : Str × Tree ↦ do return (e.1, ← f e.2))
      (fun s e b ↦ e.1 = b.1 ∧ Placed s₀ s e.2 b.2)
      (fun e he s hs ↦ (hf e.2 (hmem e he) s hs).imp_right fun h ↦ ⟨rfl, h⟩)
      (fun e he _ _ _ hext h ↦ ⟨h.1, h.2.extends hext (hw e.2 (hmem e he))⟩) hs
    exact ⟨he, .map (hr.flip.imp fun _ _ h ↦ ⟨h.1.symm, h.2⟩)⟩
  | conditional type c t f' =>
    obtain ⟨hec, hc⟩ := hf c (by simp [Shape.children]) s hs
    obtain ⟨het, ht⟩ := hf t (by simp [Shape.children]) _ (hs.trans hec)
    obtain ⟨hef, hf'⟩ := hf f' (by simp [Shape.children]) _ ((hs.trans hec).trans het)
    have hwc := hw c (by simp [Shape.children])
    have hwt := hw t (by simp [Shape.children])
    exact ⟨(hec.trans het).trans hef,
      .conditional type (hc.extends (het.trans hef) hwc) (ht.extends hef hwt) hf'⟩
  | index type t k =>
    obtain ⟨het, ht⟩ := hf t (by simp [Shape.children]) s hs
    obtain ⟨hek, hk⟩ := hf k (by simp [Shape.children]) _ (hs.trans het)
    exact ⟨het.trans hek,
      .index type (ht.extends hek (hw t (by simp [Shape.children]))) hk⟩
  | literal type value => exact ⟨.refl s, .literal type value⟩
  | access type resolved => exact ⟨.refl s, .access type resolved⟩
  | foreign className content => exact ⟨.refl s, .foreign className content⟩

/-- A node is added after what is below it. -/
theorem adds_node {info : NodeInfo} {f : Tree → StateM Store (Option NodeId)}
    (hf : ∀ t ∈ shape.children, Adds s₀ t (f t)) (hw : ∀ t ∈ shape.children, t.WellFormed) :
    Adds s₀ (.node info shape) (do
      let shape ← (shape.mapChildren f).sequence
      return some (← modifyGet fun store => store.add ⟨info, shape⟩)) := by
  intro s hs
  obtain ⟨he, hr⟩ := run_sequence hf hw hs
  rw [StateT.run_bind]
  generalize (shape.mapChildren f).sequence.run s = r at he hr
  obtain ⟨shape', s'⟩ := r
  have hadd := Extends.add s' ⟨info, shape'⟩
  change s.Extends (s'.add ⟨info, shape'⟩).2 ∧
    Placed s₀ (s'.add ⟨info, shape'⟩).2 (.node info shape) (some (s'.add ⟨info, shape'⟩).1)
  refine ⟨he.trans hadd, ?_, ?_⟩
  · rw [reads_node_iff, cell_add]
    exact ⟨rfl, hr.imp_mem fun _ _ t ht h ↦ hadd.reads h.reads (hw t ht)⟩
  · have hsize : (s'.add ⟨info, shape'⟩).2.size = s'.size + 1 := by simp [Store.add, Store.size]
    have hgrown : s₀.size ≤ s'.size := (hs.trans he).size
    have hheight : (Tree.node info shape).height ≤ s'.size - s₀.size + 1 := by
      rw [Tree.height_node_le_iff]
      intro t ht
      obtain ⟨_, _, h⟩ := hr.exists_left ht
      have hroom : s₀.size + t.height ≤ s'.size := h.room
      omega
    omega

private theorem adds_fold (hw : t.WellFormed) :
    Adds s₀ t (Tree.fold (pure none) (fun info shape ↦ do
      let shape ← shape.sequence
      return some (← modifyGet fun store => store.add ⟨info, shape⟩)) t) := by
  induction hw with
  | @node info shape _ below ih =>
    rw [Tree.fold_node]
    exact adds_node ih below

/-- A tree that is added is read at the node that it is added at, in an extension of the store. -/
theorem addTree_reads (s : Store) (hw : t.WellFormed) :
    s.Extends (s.addTree t).2 ∧ (s.addTree t).2.Reads (s.addTree t).1 t ∧
      s.size + t.height ≤ (s.addTree t).2.size := by
  obtain ⟨he, hp⟩ := adds_fold hw s (.refl s)
  exact ⟨he, hp.reads, hp.room⟩

/-- A tree that is added is the tree at the node that it is added at. -/
theorem tree_addTree (s : Store) (hw : t.WellFormed) :
    ∃ id, (s.addTree t).1 = some id ∧ (s.addTree t).2.tree (some id) = t := by
  obtain ⟨_, hr, hroom⟩ := addTree_reads s hw
  obtain ⟨id, _, _, hid, _⟩ := hr.exists_node
  rw [hid] at hr
  exact ⟨id, hid, hr.tree_eq (by omega)⟩

end Hil.Store
