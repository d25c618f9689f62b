import Mathlib.Data.List.Forall2

/-!
# Lists related one by one

What follows for the items of two lists that are related in order.
-/

namespace Hil

variable {α β γ : Type} {R : α → β → Prop} {S : β → γ → Prop} {xs xs' : List α} {ys : List β}

/-- Each item of the first list is related to one of the second. -/
theorem forall₂_exists_right (h : List.Forall₂ R xs ys) {a : α} (ha : a ∈ xs) :
    ∃ b ∈ ys, R a b := by
  induction h with
  | nil => simp at ha
  | cons head _ ih =>
    rcases List.mem_cons.mp ha with rfl | ha
    · exact ⟨_, List.mem_cons_self, head⟩
    · obtain ⟨b, hb, hr⟩ := ih ha
      exact ⟨b, List.mem_cons_of_mem _ hb, hr⟩

/-- Each item of the second list is related to one of the first. -/
theorem forall₂_exists_left (h : List.Forall₂ R xs ys) {b : β} (hb : b ∈ ys) :
    ∃ a ∈ xs, R a b := forall₂_exists_right h.flip hb

/-- A list that is related to two lists in a row consists of two as well. -/
theorem forall₂_append_left (h : List.Forall₂ R (xs ++ xs') ys) :
    ∃ zs zs', ys = zs ++ zs' ∧ List.Forall₂ R xs zs ∧ List.Forall₂ R xs' zs' := by
  induction xs generalizing ys with
  | nil => exact ⟨[], ys, rfl, .nil, h⟩
  | cons x xs ih =>
    cases h with
    | @cons _ y _ ys head tail =>
      obtain ⟨zs, zs', rfl, h₁, h₂⟩ := ih tail
      exact ⟨y :: zs, zs', rfl, .cons head h₁, h₂⟩

/-- Items that are related by way of something are related by way of a list. -/
theorem forall₂_exists_between {zs : List γ}
    (h : List.Forall₂ (fun a c ↦ ∃ b, R a b ∧ S b c) xs zs) :
    ∃ ys, List.Forall₂ R xs ys ∧ List.Forall₂ S ys zs := by
  induction h with
  | nil => exact ⟨[], .nil, .nil⟩
  | cons head _ ih =>
    obtain ⟨b, hr, hs⟩ := head
    obtain ⟨ys, hrs, hss⟩ := ih
    exact ⟨b :: ys, .cons hr hrs, .cons hs hss⟩

/-- Related items that are mapped to the same are mapped to the same list. -/
theorem forall₂_map_eq {f : α → γ} {g : β → γ} (h : List.Forall₂ R xs ys)
    (hfg : ∀ a b, R a b → f a = g b) : xs.map f = ys.map g := by
  induction h with
  | nil => rfl
  | cons head _ ih => rw [List.map_cons, List.map_cons, hfg _ _ head, ih]

/-- A relation can be weakened at the items that are there. -/
theorem forall₂_imp_mem {R' : α → β → Prop} (h : List.Forall₂ R xs ys)
    (hs : ∀ a ∈ xs, ∀ b ∈ ys, R a b → R' a b) : List.Forall₂ R' xs ys := by
  induction h with
  | nil => exact .nil
  | cons head _ ih =>
    refine .cons (hs _ (by simp) _ (by simp) head) (ih ?_)
    intro a ha b hb
    exact hs a (List.mem_cons_of_mem _ ha) b (List.mem_cons_of_mem _ hb)

end Hil
