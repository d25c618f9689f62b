import Hil.Pass.Scripted
import Hil.Proofs.Compile.Defaults
import Hil.Proofs.Pass.Running

/-!
# Problems that escape

A problem of binding is always reported. A problem of a pass is not: it is the outcome of the
compilation, and the reporter is left as the passes before have left it.
-/

namespace Hil

variable {g : Graph} {value : Value} {tree : Tree} {options : CompileOptions} {store : Store}

/-- A value that can be bound is compiled by running the passes on its tree. -/
theorem compile_of_ok (h : Bind.outcome g (bindValue options.hasCount value) = .ok tree) :
    let ended := Pipeline.run ⟨options.passes⟩ options.dump (store.addTree tree).1
      (store.addTree tree).2 (.ofFiles options.files)
    (compile options value g store).outcome =
        ended.1.map (⟨·, !ended.2.context.reporter.hasErrors⟩) ∧
      (compile options value g store).ran = ended.2 := by
  obtain ⟨g', hrun⟩ : ∃ g', (bindValue options.hasCount value).run.run g = (.ok tree, g') :=
    ⟨_, Prod.ext h rfl⟩
  rw [compile, hrun]
  exact ⟨rfl, rfl⟩

private theorem map_eq_error_iff {α β : Type} {outcome : Except Failure α} {f : α → β}
    {failure : Failure} : outcome.map f = .error failure ↔ outcome = .error failure := by
  cases outcome <;> simp [Except.map]

/-- A compilation fails with a problem exactly if the value can be bound and a beginning of the
order of the passes, run on its tree, ends with that problem. -/
theorem compile_eq_problem_iff {problem : Problem} :
    (compile options value g store).outcome = .error (.problem problem) ↔
      ∃ tree executed rest, Bind.outcome g (bindValue options.hasCount value) = .ok tree ∧
        Pipeline.order? ⟨options.passes⟩ = some (executed ++ rest) ∧
        Pipeline.Executed options.dump executed (store.addTree tree).1
          ⟨(store.addTree tree).2, .ofFiles options.files, []⟩ (.error (.problem problem))
          (compile options value g store).ran := by
  cases h : Bind.outcome g (bindValue options.hasCount value) with
  | error e =>
    rw [(compile_of_error h).1]
    simp
  | ok tree =>
    obtain ⟨houtcome, hran⟩ := @compile_of_ok g value tree options store h
    rw [houtcome, hran, map_eq_error_iff]
    constructor
    · intro hfails
      obtain ⟨executed, rest, ho, hexec⟩ := Pipeline.run_eq_problem_iff.mp (Prod.ext hfails rfl)
      exact ⟨tree, executed, rest, rfl, ho, hexec⟩
    · rintro ⟨_, executed, rest, ⟨⟩, ho, hexec⟩
      exact congrArg Prod.fst (Pipeline.run_eq_problem_iff.mpr ⟨executed, rest, ho, hexec⟩)

/-- A problem of binding is reported and ends the compilation without a failure. The compilation
fails with a problem exactly if the value can be bound and a beginning of the order of the passes
ends with that problem, which then is that of one of the passes. -/
theorem compile_escapes_iff (options : CompileOptions) (value : Value) (g : Graph) (store : Store) :
    let bound := Bind.outcome g (bindValue options.hasCount value)
    let c := compile options value g store
    (∀ e, bound = .error e → c.outcome = .ok ⟨none, false⟩ ∧
      c.ran.context.reporter = ⟨options.files, [e.problem.diagnostic]⟩) ∧
    ∀ problem,
      (c.outcome = .error (.problem problem) ↔ ∃ tree executed rest, bound = .ok tree ∧
        Pipeline.order? ⟨options.passes⟩ = some (executed ++ rest) ∧
        Pipeline.Executed options.dump executed (store.addTree tree).1
          ⟨(store.addTree tree).2, .ofFiles options.files, []⟩ (.error (.problem problem)) c.ran) ∧
      (c.outcome = .error (.problem problem) → ∃ pass ∈ options.passes, ∃ id st st',
        (pass.run (some id)).run.run st = (.error (.problem problem), st')) := by
  intro bound c
  constructor
  · intro e h
    obtain ⟨houtcome, hran⟩ := @compile_of_error g value e options store h
    exact ⟨houtcome, congrArg (·.context.reporter) hran⟩
  · intro problem
    refine ⟨compile_eq_problem_iff, fun hfails ↦ ?_⟩
    obtain ⟨tree, executed, rest, -, ho, hexec⟩ := compile_eq_problem_iff.mp hfails
    rcases hexec.exists_fails with ⟨-, hwritten⟩ | ⟨pass, hp, hpass⟩
    · cases hwritten
    · exact ⟨pass, Pipeline.mem_registered_of_order? ho (List.mem_append_left _ hp), hpass⟩

/-- A compilation whose only pass refuses every tree. -/
private def refusing : CompileOptions where
  passes := [.scripted "refusing" [] (.refuse ⟨.malformed, "boom", none, none, none⟩)]
  hasCount := false
  files := []
  dump := false

/-- A problem of a pass is neither reported nor turned into a result without success. -/
theorem problem_not_reported :
    (compile refusing (.str "a") .empty .empty).outcome =
        .error (.problem ⟨.malformed, "boom", none, none, none⟩) ∧
      (compile refusing (.str "a") .empty .empty).ran.context.reporter.diagnostics =
        [] :=
  ⟨rfl, rfl⟩

end Hil
