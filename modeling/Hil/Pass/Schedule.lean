/-!
# Schedules

An order of tasks in which each comes after the tasks it requires. Tasks without open requirements
wait in a queue, at first in the order in which they were registered; a task that runs lowers the
count of open requirements of those that require it, and whose count becomes zero joins the queue. A
requirement that is not registered counts for nothing. There is no order if a requirement is
circular.
-/

namespace Hil

namespace Schedule

variable {α : Type} [DecidableEq α]

/-- How many registered tasks a task requires, counting each once. -/
def openRequirements (requires : α → List α) (tasks : List α) (task : α) : Int :=
  (tasks.eraseDups.filter fun other => (requires task).contains other).length

/-- Lowers the counts of the tasks that require the finished one, and lists those that become free.
A task that is registered twice is lowered twice. -/
def release (requires : α → List α) (finished : α) (counts : α → Int) :
    List α → (α → Int) × List α
  | [] => (counts, [])
  | task :: tasks =>
    if (requires task).contains finished then
      let count := counts task - 1
      let lowered := fun other => if other = task then count else counts other
      let (final, freed) := release requires finished lowered tasks
      (final, if count = 0 then task :: freed else freed)
    else release requires finished counts tasks

/-- Runs the queue, for at most the given number of tasks. -/
def run (requires : α → List α) (tasks : List α) : Nat → List α → (α → Int) → List α
  | 0, _, _ => []
  | _ + 1, [], _ => []
  | n + 1, task :: queue, counts =>
    let (counts, freed) := release requires task counts tasks
    task :: run requires tasks n (queue ++ freed) counts

/-- An order of all registered tasks (`PassManager._topological_sort`). A task joins the queue at
most once for each registration, so the number of registrations bounds the run. -/
def order? (requires : α → List α) (tasks : List α) : Option (List α) :=
  let counts := openRequirements requires tasks
  let order := run requires tasks tasks.length (tasks.filter fun task => counts task = 0) counts
  if order.length = tasks.length then some order else none

end Schedule

end Hil
