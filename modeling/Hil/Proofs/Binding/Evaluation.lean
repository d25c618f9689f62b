import Hil.Proofs.Binding.Running

/-!
# The first failing part

A value cannot be bound exactly if one of its parts fails, and the error of a value is that of the
first part that does. It is told from the parts, the original graph and the count scope, whatever
has been resolved on the way.
-/

namespace Hil.Bind

variable {α : Type} {hasCount : Bool} {g : Graph} {x : Bind α} {a : α} {parts : List Part}

/-- What a step gives from the graph reports on parts in order: success says that none of them
fails, and an error is that of the first which does. -/
private def Reports (hasCount : Bool) (g : Graph) (parts : List Part) (x : Bind α) : Prop :=
  match outcome g x with
  | .ok _ => ∀ part ∈ parts, part.Sound hasCount g
  | .error e => FirstError hasCount g parts e

/-- A step that evaluates parts reports on them. -/
theorem Evaluates.reports (h : Evaluates hasCount g parts x a) :
    Reports hasCount g parts x := by
  rw [Reports, outcome]
  cases h with
  | done sound run =>
    rw [run g (.refl g)]
    exact sound
  | failed split sound fails place run =>
    rw [run g (.refl g)]
    exact ⟨_, _, _, split, sound, fails, place⟩

private theorem reports_both (g : Graph) (hasCount : Bool) (value : Value) :
    Reports hasCount g value.evaluation (bindValue hasCount value) ∧
      Reports hasCount g value.operandEvaluation (bindOperand hasCount value) :=
  (evaluates_both g hasCount value).imp Evaluates.reports Evaluates.reports

/-- A value cannot be bound exactly if one of its parts fails on its own. The error is then that of
the first part that does, and the problem is reported at the place of that part. -/
theorem bindValue_firstError (hasCount : Bool) (g : Graph) (value : Value) :
    ((∃ e, outcome g (bindValue hasCount value) = .error e) ↔
      ∃ part ∈ value.evaluation, ∃ fault, part.Fails hasCount g fault) ∧
    ∀ e, (outcome g (bindValue hasCount value) = .error e ↔
        FirstError hasCount g value.evaluation e) ∧
      e.problem.location = e.place := by
  have hreports := (reports_both g hasCount value).1
  rw [Reports] at hreports
  cases h : outcome g (bindValue hasCount value) with
  | ok tree =>
    rw [h] at hreports
    refine ⟨⟨nofun, ?_⟩, fun e ↦ ⟨⟨nofun, ?_⟩, e.location_problem⟩⟩
    · rintro ⟨part, hpart, fault, fails⟩
      exact absurd fails (hreports part hpart fault)
    · rintro ⟨before, part, after, heq, -, fails, -⟩
      exact absurd fails (hreports part (by simp [heq]) e.fault)
  | error e =>
    rw [h] at hreports
    refine ⟨⟨fun _ ↦ ?_, fun _ ↦ ⟨e, rfl⟩⟩, fun e' ↦ ⟨⟨?_, ?_⟩, e'.location_problem⟩⟩
    · obtain ⟨before, part, after, heq, -, fails, -⟩ := hreports
      exact ⟨part, by simp [heq], e.fault, fails⟩
    · rintro ⟨⟩
      exact hreports
    · intro h'
      rw [hreports.unique h']

end Hil.Bind
