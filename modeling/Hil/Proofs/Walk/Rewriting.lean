import Hil.Proofs.Shape.Positions
import Hil.Proofs.Tree.Everywhere
import Hil.Walk

/-!
# Rewritings of trees

A rewriting gives the tree that takes the place of a tree, which is missing if the tree is deleted,
or it fails. Two of them make a rewriting of whole trees as a walk does: one is applied before the
children are rewritten, and the other after them. To rewrite by both at once comes to the same as to
rewrite by the first and then by the second, also where a list loses some of its children to the one
and the rest to the other.
-/

namespace Hil

/-- Whether there is no tree. -/
def Tree.isMissing : Tree → Bool
  | missing => true
  | node .. => false

private theorem Tree.eq_missing_of_isMissing {t : Tree} (h : t.isMissing = true) :
    t = .missing := by
  cases t with
  | missing => rfl
  | node => cases h

/-- A tree for each tree, or a failure. -/
abbrev Rewriting := Tree → Except Failure Tree

namespace Rewriting

variable {f g F G : Rewriting} {info : NodeInfo} {shape : Shape Tree} {t t' : Tree} {m n : Nat}

/-- The rewriting that leaves every tree as it is. -/
def keep : Rewriting := .ok

/-- Lets only expressions pass. -/
def checkExpr : Rewriting
  | .missing => .ok .missing
  | .node info shape =>
    if shape.isExpr then .ok (.node info shape)
    else .error (.violation (.notAnExpression shape.className))

/-- Lets pass what is put into a slot. -/
def checkSlot (which : Slot) : Rewriting
  | .missing => .error (.violation (.deletedSlot which))
  | .node info shape => .ok (.node info shape)

/-- The same rewriting for expressions, which have to stay expressions. -/
def exprOnly (f : Rewriting) : Rewriting := fun t ↦ f t >>= checkExpr

/-- The same rewriting for the child in a slot. -/
def slot (f : Rewriting) (which : Slot) : Rewriting := fun t ↦ f t >>= checkSlot which

/-- Rewrites the items of a list in order and collects those that are not gone. -/
def survivors {α : Type} (gone : α → Bool) (f : α → Except Failure α) :
    List α → Except Failure (List α)
  | [] => pure []
  | item :: items => do
    let item ← f item
    let items ← survivors gone f items
    return if gone item then items else item :: items

/-- Rewrites the children of a list-bearing node, and the node after them unless it lost them
all. -/
def listNode (f g : Rewriting) (info : NodeInfo) (c : Shape.ListClass) (children : List Tree) :
    Except Failure Tree := do
  let left ← survivors Tree.isMissing f children
  if !children.isEmpty && left.isEmpty then return .missing
  g (.node info (c.shape left))

/-- Rewrites the value of an entry. -/
def entry (f : Rewriting) (e : Str × Tree) : Except Failure (Str × Tree) :=
  return (e.1, ← f e.2)

/-- Rewrites the children of a node, and the node after them. -/
def descend (f g : Rewriting) (info : NodeInfo) : Shape Tree → Except Failure Tree
  | .arithmetic type exprs => listNode (exprOnly f) g info (.arithmetic type) exprs
  | .call func type args => listNode (exprOnly f) g info (.call func type) args
  | .output type exprs => listNode (exprOnly f) g info (.output type) exprs
  | .list elements => listNode f g info .list elements
  | .map entries => do
    let left ← survivors (·.2.isMissing) (entry f) entries
    g (.node info (.map left))
  | .conditional type condition whenTrue whenFalse => do
    let c ← slot (exprOnly f) .condition condition
    let t ← slot (exprOnly f) .whenTrue whenTrue
    let e ← slot (exprOnly f) .whenFalse whenFalse
    g (.node info (.conditional type c t e))
  | .index type target key => do
    let t ← slot (exprOnly f) .target target
    let k ← slot (exprOnly f) .key key
    g (.node info (.index type t k))
  | .literal type value => g (.node info (.literal type value))
  | .access type resolved => g (.node info (.access type resolved))
  | .foreign className _ =>
    .error (.violation (.unknownClass className))

/-- Rewrites a whole tree by two rewritings, down to a depth. -/
def rewrite (p q : Rewriting) : Nat → Rewriting
  | 0, _ => .error .tooDeep
  | depth + 1, t => do
    match ← p t with
    | .missing => return .missing
    | .node info shape => descend (rewrite p q depth) q info shape

/-- A computation gives a result exactly if both its parts do. -/
theorem bind_eq_ok_iff {α β : Type} {x : Except Failure α} {k : α → Except Failure β} {b : β} :
    (x >>= k) = .ok b ↔ ∃ a, x = .ok a ∧ k a = .ok b := by
  cases x <;> simp [bind, Except.bind]

/-! ### Checks -/

/-- What passes for an expression is what is there. -/
theorem eq_of_checkExpr (h : checkExpr t = .ok t') : t' = t := by
  cases t with
  | missing => exact (Except.ok.inj h).symm
  | node info shape =>
    rw [checkExpr] at h
    split at h
    · exact (Except.ok.inj h).symm
    · cases h

/-- What passes into a slot is what is there. -/
theorem eq_of_checkSlot {which : Slot} (h : checkSlot which t = .ok t') : t' = t := by
  cases t with
  | missing => cases h
  | node info shape => exact (Except.ok.inj h).symm

/-! ### Two rewritings at once -/

/-- Where the first rewriting gives a tree below a height, the second gives what the third makes of
that tree. -/
def Fuses (m : Nat) (f F G : Rewriting) : Prop :=
  ∀ t t', f t = .ok t' → t'.height < m → F t = G t'

namespace Fuses

/-- Rewritings that fuse do so when they are checked alike. -/
theorem checked {check : Rewriting} (hcheck : ∀ {t t'}, check t = .ok t' → t' = t)
    (h : Fuses m f F G) :
    Fuses m (fun t ↦ f t >>= check) (fun t ↦ F t >>= check) fun t ↦ G t >>= check := by
  intro t t' hf hm
  obtain ⟨t₁, hf, hc⟩ := bind_eq_ok_iff.mp hf
  obtain rfl := hcheck hc
  exact congrArg (· >>= check) (h t t' hf hm)

private theorem exprOnly (h : Fuses m f F G) :
    Fuses m (exprOnly f) (Rewriting.exprOnly F) (Rewriting.exprOnly G) :=
  h.checked eq_of_checkExpr

private theorem slot (h : Fuses m f F G) (which : Slot) :
    Fuses m (slot f which) (Rewriting.slot F which) (Rewriting.slot G which) :=
  h.checked eq_of_checkSlot

end Fuses

/-- What is left of a list and is rewritten again is what both rewritings leave at once, since what
is gone stays gone. -/
theorem survivors_fuse {α : Type} {gone : α → Bool} {f F G : α → Except Failure α}
    {items left : List α} (hleft : survivors gone f items = .ok left)
    (hgone : ∀ item, gone item = true → G item = .ok item)
    (hfuse : ∀ item item', f item = .ok item' → gone item' = true ∨ item' ∈ left →
      F item = G item') :
    survivors gone F items = survivors gone G left := by
  induction items generalizing left with
  | nil =>
    obtain rfl := Except.ok.inj hleft
    rfl
  | cons item items ih =>
    obtain ⟨item', hitem, hrest⟩ := bind_eq_ok_iff.mp hleft
    obtain ⟨left', hleft', hlast⟩ := bind_eq_ok_iff.mp hrest
    rw [survivors]
    by_cases hg : gone item' = true
    · rw [if_pos hg] at hlast
      obtain rfl := Except.ok.inj hlast
      rw [hfuse item item' hitem (.inl hg), hgone item' hg, ih hleft' hfuse]
      change (survivors gone G left' >>= fun items ↦ pure (if gone item' then items else
        item' :: items)) = survivors gone G left'
      simp only [if_pos hg, bind_pure]
    · rw [if_neg hg] at hlast
      obtain rfl := Except.ok.inj hlast
      rw [hfuse item item' hitem (.inr List.mem_cons_self), survivors,
        ih hleft' fun x y hx hy ↦ hfuse x y hx (hy.imp_right (List.mem_cons_of_mem _))]

/-- Below a node that is no higher than a bound, what is left and what is missing is less high. -/
theorem height_lt_of_survives {shape : Shape Tree} (hm : (Tree.node info shape).height < m + 1)
    (h : t.isMissing = true ∨ t ∈ shape.children) : t.height < m := by
  have hle : (Tree.node info shape).height ≤ m := Nat.le_of_lt_succ hm
  rcases h with h | h
  · rw [Tree.eq_missing_of_isMissing h]
    exact Nat.lt_of_lt_of_le (Tree.height_node_pos info shape) hle
  · exact Nat.lt_of_lt_of_le (Tree.height_lt_of_mem h) hle

/-- What is missing stays so. -/
theorem rewrite_missing (q : Rewriting) (hpos : 0 < m) :
    rewrite keep q m .missing = .ok .missing := by
  obtain ⟨m, rfl⟩ := Nat.exists_eq_add_one.mpr hpos
  rfl

/-- The children of a list-bearing node can be rewritten by both rewritings at once. -/
theorem listNode_fuse {c : Shape.ListClass} {children : List Tree} {q : Rewriting}
    {G : Nat → Rewriting} (hf : ∀ m, Fuses m f F (G m))
    (hmissing : ∀ m, 0 < m → G m .missing = .ok .missing)
    (hG : ∀ m left, rewrite keep q (m + 1) (.node info (c.shape left)) =
      listNode (G m) q info c left)
    (h : listNode f keep info c children = .ok t') (hm : t'.height < m + 1) :
    listNode F q info c children = rewrite keep q (m + 1) t' := by
  have hgone (m : Nat) (hpos : 0 < m) (t : Tree) (ht : t.isMissing = true) : G m t = .ok t := by
    rw [Tree.eq_missing_of_isMissing ht]
    exact hmissing m hpos
  obtain ⟨left, hleft, hlast⟩ := bind_eq_ok_iff.mp h
  rw [listNode]
  split at hlast
  · -- the first rewriting has emptied the list, and nothing is left for the second
    next hempty =>
    obtain rfl := Except.ok.inj hlast
    have hnil : left = [] := by simp_all
    subst hnil
    rw [survivors_fuse hleft (hgone 1 Nat.one_pos) fun t t' ht hn ↦ hf 1 t t' ht ?_]
    · change (if (!children.isEmpty && true) = true then _ else _) = _
      rw [if_pos (by simpa using hempty)]
      rfl
    · rw [Tree.eq_missing_of_isMissing (hn.resolve_right List.not_mem_nil)]
      exact Nat.one_pos
  · next hkept =>
    obtain rfl := Except.ok.inj hlast
    have hsame : children.isEmpty = left.isEmpty := by
      cases children with
      | nil => rw [← Except.ok.inj hleft]
      | cons => cases left <;> simp_all
    have hpos : 0 < m := Nat.lt_of_lt_of_le (Tree.height_node_pos _ _) (Nat.le_of_lt_succ hm)
    rw [survivors_fuse hleft (hgone m hpos) fun t t' ht hn ↦ hf m t t' ht ?_, hG, listNode, hsame]
    exact height_lt_of_survives hm (by simpa using hn)

/-- The values of a map can be rewritten by both rewritings at once. -/
theorem map_fuse {entries : List (Str × Tree)} {q : Rewriting}
    (hf : ∀ m, Fuses m f F (rewrite keep q m))
    (h : descend f keep info (.map entries) = .ok t') (hm : t'.height < m + 1) :
    descend F q info (.map entries) = rewrite keep q (m + 1) t' := by
  obtain ⟨left, hleft, hlast⟩ := bind_eq_ok_iff.mp h
  obtain rfl := Except.ok.inj hlast
  have hpos : 0 < m := Nat.lt_of_lt_of_le (Tree.height_node_pos _ _) (Nat.le_of_lt_succ hm)
  rw [descend, survivors_fuse (G := entry (rewrite keep q m)) hleft ?_ ?_]
  · rfl
  · rintro ⟨key, t⟩ ht
    obtain rfl := Tree.eq_missing_of_isMissing (t := t) ht
    rw [entry, rewrite_missing q hpos]
    rfl
  · rintro ⟨key, t⟩ e he hn
    obtain ⟨t', ht, hlast⟩ := bind_eq_ok_iff.mp he
    obtain rfl := Except.ok.inj hlast
    have hlt : t'.height < m := by
      refine height_lt_of_survives hm (hn.imp_right fun hmem ↦ ?_)
      exact List.mem_map_of_mem hmem
    rw [entry, hf m t t' ht hlt]
    rfl

/-- The children of a node can be rewritten by both rewritings at once. -/
theorem descend_fuse {q : Rewriting} (hf : ∀ m, Fuses m f F (rewrite keep q m))
    (h : descend f keep info shape = .ok t') (hm : t'.height < m + 1) :
    descend F q info shape = rewrite keep q (m + 1) t' := by
  have hmissing (m : Nat) (hpos : 0 < m) :
      exprOnly (rewrite keep q m) .missing = .ok .missing := by
    rw [exprOnly, rewrite_missing q hpos]
    rfl
  cases shape with
  | arithmetic type exprs =>
    exact listNode_fuse (fun m ↦ (hf m).exprOnly) hmissing (fun _ _ ↦ rfl) h hm
  | call func type args =>
    exact listNode_fuse (fun m ↦ (hf m).exprOnly) hmissing (fun _ _ ↦ rfl) h hm
  | output type exprs =>
    exact listNode_fuse (fun m ↦ (hf m).exprOnly) hmissing (fun _ _ ↦ rfl) h hm
  | list elements => exact listNode_fuse hf (fun _ ↦ rewrite_missing q) (fun _ _ ↦ rfl) h hm
  | map entries => exact map_fuse hf h hm
  | conditional type condition whenTrue whenFalse =>
    obtain ⟨c, hc, h⟩ := bind_eq_ok_iff.mp h
    obtain ⟨t, ht, h⟩ := bind_eq_ok_iff.mp h
    obtain ⟨e, he, h⟩ := bind_eq_ok_iff.mp h
    obtain rfl := Except.ok.inj h
    have hlt : ∀ t' ∈ [c, t, e], t'.height < m := fun t' ht' ↦ height_lt_of_survives hm (.inr ht')
    rw [descend, (hf m).exprOnly.slot .condition condition c hc (hlt c (by simp)),
      (hf m).exprOnly.slot .whenTrue whenTrue t ht (hlt t (by simp)),
      (hf m).exprOnly.slot .whenFalse whenFalse e he (hlt e (by simp))]
    rfl
  | index type target key =>
    obtain ⟨t, ht, h⟩ := bind_eq_ok_iff.mp h
    obtain ⟨k, hk, h⟩ := bind_eq_ok_iff.mp h
    obtain rfl := Except.ok.inj h
    have hlt : ∀ t' ∈ [t, k], t'.height < m := fun t' ht' ↦ height_lt_of_survives hm (.inr ht')
    rw [descend, (hf m).exprOnly.slot .target target t ht (hlt t (by simp)),
      (hf m).exprOnly.slot .key key k hk (hlt k (by simp))]
    rfl
  | literal | access =>
    obtain rfl := Except.ok.inj h
    rfl
  | foreign => cases h

/-- To rewrite a tree by two rewritings at once comes to the same as to rewrite it by the first, and
what that gives by the second. -/
theorem rewrite_fuse (p q : Rewriting) (m n : Nat) :
    Fuses m (rewrite p keep n) (rewrite p q n) (rewrite keep q m) := by
  induction n generalizing m with
  | zero => exact fun t t' h ↦ nomatch h
  | succ n ih =>
    intro t t' h hm
    obtain ⟨m, rfl⟩ := Nat.exists_eq_add_one.mpr (Nat.lt_of_le_of_lt (Nat.zero_le _) hm)
    obtain ⟨t₁, hp, hlast⟩ := bind_eq_ok_iff.mp h
    rw [rewrite, hp]
    cases t₁ with
    | missing =>
      obtain rfl := Except.ok.inj hlast
      rfl
    | node info shape => exact descend_fuse ih hlast hm

end Rewriting

end Hil
