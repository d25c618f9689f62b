import Hil.Problem

/-!
# Diagnostics

A diagnostic is one reported error. A reporter collects diagnostics in the order in which they are
reported, together with the texts of the files that they point into.
-/

namespace Hil

/-- A reported error (`Error`). -/
structure Diagnostic where
  message : String
  location : Option Location := none
  code : Option String := none
  help : Option String := none
  note : Option String := none
  label : Option String := none
  deriving DecidableEq, Repr, Inhabited

/-- A problem as a diagnostic, under the code of its category
(`FirewalkerSourceError.to_error`). -/
def Problem.diagnostic (p : Problem) : Diagnostic where
  message := p.message
  location := p.location
  code := some p.category.code
  help := p.help
  note := p.note

/-- Collected diagnostics, and the texts of files by name (`ErrorReporter`). -/
structure Reporter where
  files : List (String × String)
  diagnostics : List Diagnostic
  deriving Inhabited

namespace Reporter

/-- A reporter that nothing has been reported to. -/
def ofFiles (files : List (String × String)) : Reporter := ⟨files, []⟩

/-- Adds a diagnostic after all others (`ErrorReporter.report_error`). -/
def report (r : Reporter) (d : Diagnostic) : Reporter :=
  { r with diagnostics := r.diagnostics ++ [d] }

/-- Adds a diagnostic of what is told of a problem (`ErrorReporter.report_exception`). -/
def reportProblem (r : Reporter) (p : Problem) : Reporter :=
  r.report
    { message := p.message
      location := p.location
      code := some p.category.code
      help := p.help
      note := p.note }

/-- Whether anything has been reported (`ErrorReporter.has_errors`). -/
def hasErrors (r : Reporter) : Bool := !r.diagnostics.isEmpty

/-- A problem is reported as the diagnostic that it is. -/
theorem reportProblem_eq (r : Reporter) (p : Problem) :
    r.reportProblem p = ⟨r.files, r.diagnostics ++ [p.diagnostic]⟩ :=
  rfl

end Reporter

end Hil
