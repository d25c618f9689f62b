import Hil.Proofs.Shape.Positions
import Hil.Proofs.Store.Layout
import Hil.Proofs.Store.Reading

/-!
# Children that are gone

A child is gone if it is missing, or is a node with a list of children of which there is one at
least and all are gone. A store is swept where nodes that are not gone have lost the children that
are. While that is going on nodes are thinned: they may have lost some of these children.
-/

namespace Hil

namespace Shape

variable {α : Type} {gone : α → Bool} {s s' : Shape α}

/-- The second shape is the first without some of the children that are gone. -/
structure Thinned (gone : α → Bool) (s s' : Shape α) : Prop where
  compact : s'.compact gone = s.compact gone
  children : s'.children.Sublist s.children
  entries : s'.entries.Sublist s.entries

/-- Nothing need be lost. -/
theorem Thinned.refl (gone : α → Bool) (s : Shape α) : s.Thinned gone s := ⟨rfl, .refl _, .refl _⟩

/-- All that are gone can be lost. -/
theorem thinned_compact (gone : α → Bool) (s : Shape α) : s.Thinned gone (s.compact gone) where
  compact := by cases s <;> simp [Shape.compact]
  children := children_compact_sublist gone s
  entries := by cases s <;> simp [Shape.compact, Shape.entries]

/-- Where no child is gone, nothing is lost. -/
theorem compact_eq_self (h : ∀ child ∈ s.children, gone child = false) : s.compact gone = s := by
  cases s with
  | map entries =>
    simp only [Shape.children, List.forall_mem_map] at h
    simpa [Shape.compact] using h
  | arithmetic | call | output | list => simpa [Shape.compact, Shape.children] using h
  | _ => rfl

/-- A thinned list-bearing node was of the same class. -/
theorem Thinned.exists_list {c : ListClass} {ys : List α} (h : s.Thinned gone (c.shape ys)) :
    ∃ xs, s = c.shape xs ∧ ys.Sublist xs ∧
      (ys.filter fun child ↦ !gone child) = xs.filter fun child ↦ !gone child := by
  obtain ⟨hcompact, hchildren, -⟩ := h
  cases c <;> cases s <;> simp_all [Shape.compact, ListClass.shape, Shape.children]

/-- A thinned map was a map. -/
theorem Thinned.exists_map {ys : List (Str × α)} (h : s.Thinned gone (.map ys)) :
    ∃ xs, s = .map xs ∧ ys.Sublist xs ∧
      (ys.filter fun entry ↦ !gone entry.2) = xs.filter fun entry ↦ !gone entry.2 := by
  obtain ⟨hcompact, -, hentries⟩ := h
  cases s <;> simp_all [Shape.compact, Shape.entries]

/-- A map stays one when it is thinned. -/
theorem Thinned.map_left {xs : List (Str × α)} (h : (map xs).Thinned gone s') :
    ∃ ys, s' = .map ys ∧ ys.Sublist xs ∧
      (ys.filter fun entry ↦ !gone entry.2) = xs.filter fun entry ↦ !gone entry.2 := by
  obtain ⟨hcompact, -, hentries⟩ := h
  cases s' <;> simp_all [Shape.compact, Shape.entries]

/-- Whether the children of a node are in slots, if it has any. -/
def isSlotted : Shape α → Bool
  | conditional .. | index .. | literal .. | access .. | foreign .. => true
  | _ => false

/-- A shape with slots is not list-bearing. -/
theorem isListBearing_of_isSlotted (h : s.isSlotted = true) : s.isListBearing = false := by
  cases s <;> first | rfl | cases h

private theorem compact_of_isSlotted (h : s.isSlotted = true) : s.compact gone = s := by
  cases s <;> first | rfl | cases h

private theorem isSlotted_compact (s : Shape α) : (s.compact gone).isSlotted = s.isSlotted := by
  cases s <;> rfl

/-- A node keeps its slots. -/
theorem Thinned.eq_of_isSlotted (h : s.Thinned gone s')
    (hs : s.isSlotted = true ∨ s'.isSlotted = true) : s' = s := by
  have hsame : s'.isSlotted = s.isSlotted := by
    rw [← isSlotted_compact, h.compact, isSlotted_compact]
  rw [hsame, or_self] at hs
  rw [← compact_of_isSlotted (hsame.trans hs), h.compact, compact_of_isSlotted hs]

end Shape

namespace Store

variable {s₀ s s' s'' : Store} {node : Option NodeId} {id : NodeId} {T T' : Set NodeId}
  {children left : List (Option NodeId)}

/-! ### What is gone -/

/-- The child is missing, or has lost all the children of its list. -/
inductive Gone (s : Store) : Option NodeId → Prop
  | missing : Gone s none
  | emptied {id : NodeId} (list : (s.cell id).shape.isListBearing = true)
      (nonempty : (s.cell id).shape.children ≠ [])
      (all : ∀ child ∈ (s.cell id).shape.children, Gone s child) : Gone s (some id)

/-- A node is gone if it is list-bearing and has children, which are all gone. -/
theorem gone_some_iff : s.Gone (some id) ↔ (s.cell id).shape.isListBearing = true ∧
    (s.cell id).shape.children ≠ [] ∧ ∀ child ∈ (s.cell id).shape.children, s.Gone child :=
  ⟨fun h ↦ by cases h with | emptied list nonempty all => exact ⟨list, nonempty, all⟩,
    fun h ↦ .emptied h.1 h.2.1 h.2.2⟩

/-- Only list-bearing nodes can be gone. -/
theorem not_gone_of_isListBearing (h : (s.cell id).shape.isListBearing = false) :
    ¬s.Gone (some id) := fun hgone ↦ by
  rw [(gone_some_iff.mp hgone).1] at h
  cases h

open Classical in
/-- Whether a child is gone. -/
noncomputable def isGone (s : Store) (child : Option NodeId) : Bool := decide (s.Gone child)

/-- It is decided whether a node is gone. -/
theorem isGone_iff : s.isGone node = true ↔ s.Gone node := by
  simp [isGone]

/-- It is decided whether a node is left. -/
theorem isGone_eq_false_iff : s.isGone node = false ↔ ¬s.Gone node := by
  rw [← isGone_iff, Bool.not_eq_true]

/-- All that occurs in what is gone is gone. -/
theorem Gone.of_occurs (h : s.Gone node) (ho : s.Occurs node id) : s.Gone (some id) := by
  induction ho with
  | root id => exact h
  | child mem _ ih => exact ih ((gone_some_iff.mp h).2.2 _ mem)

/-- What is gone has missing children, unless it is missing. -/
theorem Gone.exists_missing (h : s.Gone (some id)) :
    ∃ other, s.Occurs (some id) other ∧ none ∈ (s.cell other).shape.children := by
  generalize hnode : some id = node at h
  induction h generalizing id with
  | missing => cases hnode
  | @emptied other list nonempty all ih =>
    obtain rfl := Option.some.inj hnode
    obtain ⟨child, hchild⟩ := List.exists_mem_of_ne_nil _ nonempty
    cases child with
    | none => exact ⟨id, .root id, hchild⟩
    | some child =>
      obtain ⟨other, hother, hnone⟩ := ih _ hchild rfl
      exact ⟨other, .child hchild hother, hnone⟩

/-- The nodes that occur at a child and are not gone. -/
def live (s : Store) (node : Option NodeId) : Set NodeId :=
  {id | s.Occurs node id ∧ ¬s.Gone (some id)}

/-- The nodes that occur at one of the children and are not gone. -/
def liveAt (s : Store) (children : List (Option NodeId)) : Set NodeId :=
  {id | ∃ child ∈ children, id ∈ s.live child}

/-- Nothing that is gone is live. -/
theorem live_of_gone (h : s.Gone node) : s.live node = ∅ :=
  Set.eq_empty_of_forall_notMem fun _ hid ↦ hid.2 (h.of_occurs hid.1)

/-- What is live below children is live below the first or below the others. -/
theorem liveAt_cons (child : Option NodeId) (children : List (Option NodeId)) :
    s.liveAt (child :: children) = s.live child ∪ s.liveAt children := by
  ext id
  simp [liveAt]

/-- Nothing is live below no children. -/
@[simp] theorem liveAt_nil : s.liveAt [] = ∅ := by
  simp [liveAt]

/-- Nothing is live below children that are gone. -/
theorem liveAt_of_gone (h : ∀ child ∈ children, s.Gone child) : s.liveAt children = ∅ := by
  refine Set.eq_empty_of_forall_notMem ?_
  rintro id ⟨child, hchild, hid⟩
  rw [live_of_gone (h child hchild)] at hid
  exact hid

/-- A node that is not gone is live, as are the live nodes below it. -/
theorem live_some (h : ¬s.Gone (some id)) :
    s.live (some id) = s.liveAt (s.cell id).shape.children ∪ {id} := by
  ext other
  constructor
  · rintro ⟨hoccurs, hother⟩
    cases hoccurs with
    | root => exact .inr rfl
    | child mem occurs => exact .inl ⟨_, mem, occurs, hother⟩
  · rintro (⟨child, mem, occurs, hother⟩ | rfl)
    · exact ⟨.child mem occurs, hother⟩
    · exact ⟨.root _, h⟩

/-- Nothing live is lost with children that are gone. -/
theorem liveAt_eq_of_filter (hsub : left.Sublist children)
    (h : (left.filter fun child ↦ !s.isGone child) = children.filter fun child ↦ !s.isGone child) :
    s.liveAt left = s.liveAt children := by
  ext id
  constructor
  · rintro ⟨child, hchild, hid⟩
    exact ⟨child, hsub.mem hchild, hid⟩
  · rintro ⟨child, hchild, hid⟩
    have hlive : s.isGone child = false := isGone_eq_false_iff.mpr fun hgone ↦
      hid.2 (hgone.of_occurs hid.1)
    have hmem : child ∈ children.filter fun child ↦ !s.isGone child := by simp [hchild, hlive]
    rw [← h] at hmem
    exact ⟨child, List.mem_of_mem_filter hmem, hid⟩

/-! ### Sweeping -/

/-- The node without the children that are gone. -/
noncomputable def swept (s : Store) (id : NodeId) : Cell :=
  { s.cell id with shape := (s.cell id).shape.compact s.isGone }

/-- Nodes of the second store are those of the first, but may have lost children that are gone if
they are not gone themselves. -/
structure Thinned (s₀ s : Store) : Prop where
  size : s.size = s₀.size
  labels : s.labels = s₀.labels
  info : ∀ id, (s.cell id).info = (s₀.cell id).info
  shape : ∀ id, (s₀.cell id).shape.Thinned s₀.isGone (s.cell id).shape
  gone : ∀ id, s₀.Gone (some id) → s.cell id = s₀.cell id

/-- In the second of two stores, nodes have become what they are in a store that is swept, and all
other nodes are as in the first. -/
structure Sweeps (s₀ : Store) (T : Set NodeId) (s s' : Store) : Prop where
  size : s'.size = s.size
  labels : s'.labels = s.labels
  live : ∀ id ∈ T, ¬s₀.Gone (some id)
  inside : ∀ id ∈ T, s'.cell id = s₀.swept id
  outside : ∀ id ∉ T, s'.cell id = s.cell id

/-- A store is thinned to itself. -/
theorem Thinned.refl (s : Store) : s.Thinned s := ⟨rfl, rfl, fun _ ↦ rfl, fun _ ↦ .refl _ _,
  fun _ _ ↦ rfl⟩

/-- Sweeping thins a store. -/
theorem Thinned.sweeps (h : s₀.Thinned s) (hs : s₀.Sweeps T s s') : s₀.Thinned s' where
  size := hs.size.trans h.size
  labels := hs.labels.trans h.labels
  info id := by
    by_cases hid : id ∈ T
    · rw [hs.inside id hid, swept]
    · rw [hs.outside id hid, h.info]
  shape id := by
    by_cases hid : id ∈ T
    · rw [hs.inside id hid]
      exact Shape.thinned_compact _ _
    · rw [hs.outside id hid]
      exact h.shape id
  gone id hgone := by
    rw [hs.outside id fun hid ↦ hs.live id hid hgone, h.gone id hgone]

/-- A thinned node is emptied exactly if it is gone. -/
theorem Thinned.emptied_iff (h : s₀.Thinned s) {c : Shape.ListClass}
    (hcell : (s.cell id).shape = c.shape children) :
    (c.shape children).emptied s₀.isGone = true ↔ s₀.Gone (some id) := by
  obtain ⟨all, hall, hsub, hfilter⟩ := (hcell ▸ h.shape id).exists_list
  rw [gone_some_iff, hall, Shape.ListClass.isListBearing_shape, Shape.ListClass.children_shape]
  constructor
  · intro hemptied
    rw [Shape.ListClass.emptied_shape_eq, hfilter, Bool.and_eq_true, List.isEmpty_iff,
      List.filter_eq_nil_iff] at hemptied
    refine ⟨rfl, ?_, fun child hchild ↦ ?_⟩
    · rintro rfl
      simp [List.sublist_nil.mp hsub] at hemptied
    · simpa [isGone_iff] using hemptied.2 child hchild
  · rintro ⟨-, hnonempty, hgone⟩
    have hsame : c.shape children = c.shape all := by
      rw [← hcell, ← hall]
      refine congrArg Cell.shape (h.gone id (gone_some_iff.mpr ?_))
      rw [hall, Shape.ListClass.isListBearing_shape, Shape.ListClass.children_shape]
      exact ⟨rfl, hnonempty, hgone⟩
    rw [hsame, Shape.ListClass.emptied_shape, Bool.and_eq_true, List.all_eq_true]
    exact ⟨by simpa using hnonempty, fun child hchild ↦ isGone_iff.mpr (hgone child hchild)⟩

/-- A node that is not gone can lose children that are. -/
theorem Thinned.modifyShape (h : s₀.Thinned s) (hid : ¬s₀.Gone (some id))
    (hbound : id.index < s.size) {f : Shape (Option NodeId) → Shape (Option NodeId)}
    (hf : (s₀.cell id).shape.Thinned s₀.isGone (f (s.cell id).shape)) :
    s₀.Thinned (s.modifyShape id f) where
  size := (size_modifyShape s id f).trans h.size
  labels := h.labels
  info other := by
    by_cases hne : other = id
    · rw [hne, cell_modifyShape_self f hbound, h.info]
    · rw [cell_modifyShape_of_ne hne, h.info]
  shape other := by
    by_cases hne : other = id
    · rw [hne, cell_modifyShape_self f hbound]
      exact hf
    · rw [cell_modifyShape_of_ne hne]
      exact h.shape other
  gone other hgone := by
    have hne : other ≠ id := fun he ↦ hid (he ▸ hgone)
    rw [cell_modifyShape_of_ne hne, h.gone other hgone]

namespace Sweeps

/-- Where nothing is to be swept, nothing changes. -/
theorem empty (s₀ s : Store) : s₀.Sweeps ∅ s s :=
  ⟨rfl, rfl, fun _ h ↦ h.elim, fun _ h ↦ h.elim, fun _ _ ↦ rfl⟩

/-- What is swept stays so. -/
theorem trans (h : s₀.Sweeps T s s') (h' : s₀.Sweeps T' s' s'') : s₀.Sweeps (T ∪ T') s s'' where
  size := h'.size.trans h.size
  labels := h'.labels.trans h.labels
  live id hid := hid.elim (h.live id) (h'.live id)
  inside id hid := by
    by_cases hid' : id ∈ T'
    · exact h'.inside id hid'
    · rw [h'.outside id hid', h.inside id (hid.resolve_right hid')]
  outside id hid := by
    rw [Set.mem_union, not_or] at hid
    rw [h'.outside id hid.2, h.outside id hid.1]

/-- A node that has the shape that it has in a swept store is swept. -/
theorem singleton (ht : s₀.Thinned s) (hid : ¬s₀.Gone (some id))
    (hshape : (s.cell id).shape = (s₀.swept id).shape) : s₀.Sweeps {id} s s where
  size := rfl
  labels := rfl
  live := by
    rintro other rfl
    exact hid
  inside := by
    rintro other rfl
    calc s.cell other = ⟨(s.cell other).info, (s.cell other).shape⟩ := rfl
      _ = s₀.swept other := by rw [ht.info, hshape]; rfl
  outside _ _ := rfl

/-- A node that has its children in slots is always swept. -/
theorem of_isSlotted (ht : s₀.Thinned s) (hs : (s₀.cell id).shape.isSlotted = true) :
    s₀.Sweeps {id} s s := by
  refine .singleton ht (not_gone_of_isListBearing (Shape.isListBearing_of_isSlotted hs)) ?_
  rw [(ht.shape id).eq_of_isSlotted (.inl hs), swept, Shape.compact_of_isSlotted hs]

/-- A node may change in between if it is swept after that. -/
theorem trans_modifyShape (h : s₀.Sweeps T s s')
    {f : Shape (Option NodeId) → Shape (Option NodeId)}
    (h' : s₀.Sweeps T' (s'.modifyShape id f) s'') (hid : id ∈ T') :
    s₀.Sweeps (T ∪ T') s s'' where
  size := h'.size.trans ((size_modifyShape s' id f).trans h.size)
  labels := h'.labels.trans h.labels
  live other hother := hother.elim (h.live other) (h'.live other)
  inside other hother := by
    by_cases hother' : other ∈ T'
    · exact h'.inside other hother'
    · have hne : other ≠ id := fun he ↦ hother' (he ▸ hid)
      rw [h'.outside other hother', cell_modifyShape_of_ne hne,
        h.inside other (hother.resolve_right hother')]
  outside other hother := by
    rw [Set.mem_union, not_or] at hother
    have hne : other ≠ id := fun he ↦ hother.2 (he ▸ hid)
    rw [h'.outside other hother.2, cell_modifyShape_of_ne hne, h.outside other hother.1]

end Sweeps

/-- In a tree without missing children nothing is gone. -/
theorem swept_eq_self (h : ∀ id, s.Occurs node id → none ∉ (s.cell id).shape.children)
    (hid : s.Occurs node id) : s.swept id = s.cell id := by
  rw [swept, Shape.compact_eq_self]
  intro child hchild
  rw [isGone_eq_false_iff]
  intro hgone
  cases child with
  | none => exact h id hid hchild
  | some child =>
    obtain ⟨other, hother, hnone⟩ := hgone.exists_missing
    exact h other (hid.trans (.child hchild hother)) hnone

end Store

end Hil
