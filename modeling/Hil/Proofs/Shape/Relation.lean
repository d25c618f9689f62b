import Hil.Proofs.List.Related
import Hil.Shape

/-!
# Related shapes

Two shapes are related when they are of one class, hold the same things besides their children, and
have as many children, related in order. A shape is determined by its outline and its children.
-/

namespace Hil.Shape

variable {α β γ : Type}

/-- Shapes that differ only in their children, of which those in the same position are related. -/
inductive Rel (R : α → β → Prop) : Shape α → Shape β → Prop
  | arithmetic (type : Option Annotation) {xs : List α} {ys : List β}
      (exprs : List.Forall₂ R xs ys) : Rel R (.arithmetic type xs) (.arithmetic type ys)
  | call (func : String) (type : Option Annotation) {xs : List α} {ys : List β}
      (args : List.Forall₂ R xs ys) : Rel R (.call func type xs) (.call func type ys)
  | conditional (type : Option Annotation) {c t f : α} {c' t' f' : β}
      (condition : R c c') (whenTrue : R t t') (whenFalse : R f f') :
      Rel R (.conditional type c t f) (.conditional type c' t' f')
  | index (type : Option Annotation) {t k : α} {t' k' : β} (target : R t t') (key : R k k') :
      Rel R (.index type t k) (.index type t' k')
  | literal (type : Option Annotation) (value : Literal) :
      Rel R (.literal type value) (.literal type value)
  | output (type : Option Annotation) {xs : List α} {ys : List β}
      (exprs : List.Forall₂ R xs ys) : Rel R (.output type xs) (.output type ys)
  | access (type : Option Annotation) (resolved : Access) :
      Rel R (.access type resolved) (.access type resolved)
  | list {xs : List α} {ys : List β} (elements : List.Forall₂ R xs ys) :
      Rel R (.list xs) (.list ys)
  | map {xs : List (Str × α)} {ys : List (Str × β)}
      (entries : List.Forall₂ (fun x y ↦ x.1 = y.1 ∧ R x.2 y.2) xs ys) :
      Rel R (.map xs) (.map ys)
  | foreign (className : String) (content : Foreign) :
      Rel R (.foreign className content) (.foreign className content)

/-- A shape without what is in it. -/
def outline (s : Shape α) : Shape Unit := s.mapChildren fun _ ↦ ()

/-- The keys of a map, in their order. -/
def keys : Shape α → List Str
  | map entries => entries.map Prod.fst
  | _ => []

namespace Rel

variable {R : α → β → Prop} {s : Shape α} {s' : Shape β}

/-- Related shapes have related children. -/
theorem children (h : Rel R s s') : List.Forall₂ R s.children s'.children := by
  cases h with
  | map entries =>
    simp only [Shape.children, List.forall₂_map_left_iff, List.forall₂_map_right_iff]
    exact entries.imp fun _ _ h ↦ h.2
  | _ => simp_all [Shape.children]

/-- Each child of the second shape is related to one of the first. -/
theorem exists_left (h : Rel R s s') {b : β} (hb : b ∈ s'.children) : ∃ a ∈ s.children, R a b :=
  forall₂_exists_left h.children hb

/-- Related shapes have the same outline. -/
theorem outline_eq (h : Rel R s s') : s.outline = s'.outline := by
  cases h with
  | arithmetic type exprs => simp [outline, mapChildren, exprs.length_eq]
  | call func type args => simp [outline, mapChildren, args.length_eq]
  | output type exprs => simp [outline, mapChildren, exprs.length_eq]
  | list elements => simp [outline, mapChildren, elements.length_eq]
  | map entries =>
    exact congrArg Shape.map (forall₂_map_eq entries fun _ _ h ↦ by rw [h.1])
  | _ => rfl

/-- Related shapes have the same type. -/
theorem type?_eq (h : Rel R s s') : s.type? = s'.type? := by
  cases h <;> rfl

/-- Related shapes are both expressions, or neither is. -/
theorem isExpr_eq (h : Rel R s s') : s.isExpr = s'.isExpr := by
  rw [isExpr, isExpr, h.type?_eq]

/-- Related shapes are both known to traversals, or neither is. -/
theorem isTraversable_eq (h : Rel R s s') : s.isTraversable = s'.isTraversable := by
  cases h <;> rfl

/-- Related shapes have the same literal value. -/
theorem literal?_eq (h : Rel R s s') : s.literal? = s'.literal? := by
  cases h <;> rfl

/-- Related maps have the same keys. -/
theorem keys_eq (h : Rel R s s') : s.keys = s'.keys := by
  cases h with
  | map entries => exact forall₂_map_eq entries fun _ _ h ↦ h.1
  | _ => rfl

end Rel

private theorem forall₂_entries {R : α → β → Prop} {xs : List (Str × α)}
    {ys : List (Str × β)} (hk : xs.map (fun e ↦ (e.1, ())) = ys.map fun e ↦ (e.1, ()))
    (hv : List.Forall₂ R (xs.map Prod.snd) (ys.map Prod.snd)) :
    List.Forall₂ (fun x y ↦ x.1 = y.1 ∧ R x.2 y.2) xs ys := by
  induction xs generalizing ys with
  | nil => cases ys with
    | nil => exact .nil
    | cons y ys => simp at hk
  | cons x xs ih =>
    cases ys with
    | nil => simp at hk
    | cons y ys =>
      simp only [List.map_cons, List.cons.injEq, Prod.mk.injEq] at hk
      rw [List.map_cons, List.map_cons, List.forall₂_cons] at hv
      exact .cons ⟨hk.1.1, hv.1⟩ (ih hk.2 hv.2)

/-- Shapes are related when they have the same outline, and related children in order. -/
theorem rel_iff {R : α → β → Prop} {s : Shape α} {s' : Shape β} :
    Rel R s s' ↔ s.outline = s'.outline ∧ List.Forall₂ R s.children s'.children := by
  constructor
  · exact fun h ↦ ⟨h.outline_eq, h.children⟩
  · rintro ⟨ho, hc⟩
    cases s <;> cases s' <;> simp only [outline, mapChildren, reduceCtorEq] at ho
    case map.map xs ys => exact .map (forall₂_entries (by simpa using ho) hc)
    all_goals simp_all [children]
    all_goals constructor <;> simp_all

/-- A relation can be weakened at the children that are there. -/
theorem Rel.imp_mem {R S : α → β → Prop} {s : Shape α} {s' : Shape β} (h : Rel R s s')
    (hs : ∀ a ∈ s.children, ∀ b ∈ s'.children, R a b → S a b) : Rel S s s' := by
  exact rel_iff.mpr ⟨h.outline_eq, forall₂_imp_mem h.children hs⟩

/-- A relation can be weakened at every child. -/
theorem Rel.imp {R S : α → β → Prop} {s : Shape α} {s' : Shape β} (h : Rel R s s')
    (hs : ∀ a b, R a b → S a b) : Rel S s s' :=
  h.imp_mem fun a _ b _ ↦ hs a b

/-- A relation between shapes can be read from right to left. -/
theorem Rel.flip {R : α → β → Prop} {s : Shape α} {s' : Shape β} (h : Rel R s s') :
    Rel (fun b a ↦ R a b) s' s :=
  rel_iff.mpr ⟨h.outline_eq.symm, h.children.flip⟩

/-- A shape is related to itself when its children are. -/
theorem rel_self {R : α → α → Prop} {s : Shape α} (h : ∀ a ∈ s.children, R a a) : Rel R s s :=
  rel_iff.mpr ⟨rfl, List.forall₂_same.mpr h⟩

/-- Replacing children relates as the replaced children are related. -/
theorem rel_map_left_iff {R : γ → β → Prop} {f : α → γ} {s : Shape α} {s' : Shape β} :
    Rel R (s.mapChildren f) s' ↔ Rel (fun a b ↦ R (f a) b) s s' := by
  constructor
  · intro h
    cases s <;> cases h <;> constructor <;> simp_all [List.forall₂_map_left_iff]
  · intro h
    cases h <;> constructor <;> simp_all [List.forall₂_map_left_iff]

/-- Replacing children on the right relates as the replaced children are related. -/
theorem rel_map_right_iff {R : α → γ → Prop} {f : β → γ} {s : Shape α} {s' : Shape β} :
    Rel R s (s'.mapChildren f) ↔ Rel (fun a b ↦ R a (f b)) s s' := by
  constructor
  · intro h
    cases s' <;> cases h <;> constructor <;> simp_all [List.forall₂_map_right_iff]
  · intro h
    cases h <;> constructor <;> simp_all [List.forall₂_map_right_iff]

/-- Shapes with equal children in the same positions are equal. -/
theorem rel_eq_iff {s s' : Shape α} : Rel (· = ·) s s' ↔ s = s' := by
  constructor
  · intro h
    cases h with
    | map entries =>
      congr 1
      simpa using forall₂_map_eq (f := id) (g := id) entries fun _ _ h ↦ Prod.ext h.1 h.2
    | _ => simp_all
  · rintro rfl
    exact rel_self fun _ _ ↦ rfl

/-- A shape is related to the shape of what its children are mapped to. -/
theorem rel_mapChildren {R : α → β → Prop} {f : α → β} {s : Shape α}
    (h : ∀ a ∈ s.children, R a (f a)) : Rel R s (s.mapChildren f) :=
  rel_map_right_iff.mpr (rel_self h)

/-- Mapping related children to the same results gives the same shape. -/
theorem Rel.mapChildren_eq {R : α → β → Prop} {f : α → γ} {g : β → γ} {s : Shape α} {s' : Shape β}
    (h : Rel R s s') (hfg : ∀ a ∈ s.children, ∀ b ∈ s'.children, R a b → f a = g b) :
    s.mapChildren f = s'.mapChildren g :=
  rel_eq_iff.mp (rel_map_left_iff.mpr (rel_map_right_iff.mpr (h.imp_mem hfg)))

/-- Related shapes of which the second is related further, by way of the middle. -/
theorem Rel.trans {R : α → β → Prop} {S : β → γ → Prop} {T : α → γ → Prop} {s : Shape α}
    {s' : Shape β} {s'' : Shape γ} (h : Rel R s s') (h' : Rel S s' s'')
    (ht : ∀ a b c, R a b → S b c → T a c) : Rel T s s'' := by
  have list_trans {xs : List α} {ys : List β} {zs : List γ} (h : List.Forall₂ R xs ys)
      (h' : List.Forall₂ S ys zs) : List.Forall₂ T xs zs := by
    induction h generalizing zs with
    | nil => cases h'; exact .nil
    | cons head _ ih =>
      cases h' with
      | cons head' tail' => exact .cons (ht _ _ _ head head') (ih tail')
  exact rel_iff.mpr ⟨h.outline_eq.trans h'.outline_eq, list_trans h.children h'.children⟩

/-- Children that are related by way of something are children of a shape in the middle. -/
theorem Rel.exists_between {R : α → β → Prop} {S : β → γ → Prop} {s : Shape α} {s'' : Shape γ}
    (h : Rel (fun a c ↦ ∃ b, R a b ∧ S b c) s s'') : ∃ s', Rel R s s' ∧ Rel S s' s'' := by
  cases h with
  | arithmetic type exprs =>
    obtain ⟨ys, hr, hs⟩ := forall₂_exists_between exprs
    exact ⟨_, .arithmetic type hr, .arithmetic type hs⟩
  | call func type args =>
    obtain ⟨ys, hr, hs⟩ := forall₂_exists_between args
    exact ⟨_, .call func type hr, .call func type hs⟩
  | conditional type c t f =>
    obtain ⟨c', hc, hc'⟩ := c
    obtain ⟨t', ht, ht'⟩ := t
    obtain ⟨f', hf, hf'⟩ := f
    exact ⟨_, .conditional type hc ht hf, .conditional type hc' ht' hf'⟩
  | index type t k =>
    obtain ⟨t', ht, ht'⟩ := t
    obtain ⟨k', hk, hk'⟩ := k
    exact ⟨_, .index type ht hk, .index type ht' hk'⟩
  | literal type value => exact ⟨_, .literal type value, .literal type value⟩
  | output type exprs =>
    obtain ⟨ys, hr, hs⟩ := forall₂_exists_between exprs
    exact ⟨_, .output type hr, .output type hs⟩
  | access type resolved => exact ⟨_, .access type resolved, .access type resolved⟩
  | list elements =>
    obtain ⟨ys, hr, hs⟩ := forall₂_exists_between elements
    exact ⟨_, .list hr, .list hs⟩
  | @map xs zs entries =>
    have between : ∃ ys : List (Str × β),
        List.Forall₂ (fun x y ↦ x.1 = y.1 ∧ R x.2 y.2) xs ys ∧
          List.Forall₂ (fun y z ↦ y.1 = z.1 ∧ S y.2 z.2) ys zs := by
      induction entries with
      | nil => exact ⟨[], .nil, .nil⟩
      | @cons x z _ _ head _ ih =>
        obtain ⟨hk, b, hr, hs⟩ := head
        obtain ⟨ys, hrs, hss⟩ := ih
        exact ⟨(x.1, b) :: ys, .cons ⟨rfl, hr⟩ hrs, .cons ⟨hk, hs⟩ hss⟩
    obtain ⟨ys, hr, hs⟩ := between
    exact ⟨_, .map hr, .map hs⟩
  | foreign className content =>
    exact ⟨_, .foreign className content, .foreign className content⟩

end Hil.Shape
