import Hil.Pass.Schedule
import Mathlib.Data.List.Nodup
import Mathlib.Data.List.Perm.Subperm

/-!
# The progress of a schedule

While a queue of tasks runs, the open requirements of a task are those that it has at first, less
one for each registration of the task and each run of a task that it requires. This accounts for
every task that has run or waits: a task that requires nothing registered is there once for each of
its registrations, and any other is there once as soon as its count is not positive any more.
-/

namespace Hil.Schedule

variable {α : Type} [DecidableEq α] {requires : α → List α} {tasks done queue : List α}
  {counts : α → Int} {task : α}

/-- The registered tasks that a task requires, each once. -/
def requirements (requires : α → List α) (tasks : List α) (task : α) : List α :=
  tasks.eraseDups.filter fun other ↦ other ∈ requires task

/-- How often a task has run that the task requires. -/
def met (requires : α → List α) (done : List α) (task : α) : Nat :=
  done.countP fun other ↦ other ∈ requires task

/-- How often the count of a task has been lowered: for each run of a task that it requires, once
for each of its registrations. -/
def lowered (requires : α → List α) (tasks done : List α) (task : α) : Nat :=
  tasks.count task * met requires done task

/-- The count of open requirements is the number of tasks that are required. -/
theorem openRequirements_eq_length (requires : α → List α) (tasks : List α) (task : α) :
    openRequirements requires tasks task = (requirements requires tasks task).length := by
  simp only [openRequirements, requirements, List.contains_eq_mem]

private theorem openRequirements_nonneg (requires : α → List α) (tasks : List α) (task : α) :
    0 ≤ openRequirements requires tasks task := by
  rw [openRequirements_eq_length]
  omega

/-- The requirements of a task are those tasks that it requires. -/
theorem mem_requirements_iff {other : α} :
    other ∈ requirements requires tasks task ↔ other ∈ tasks ∧ other ∈ requires task := by
  simp [requirements, List.mem_eraseDups]

private theorem nodup_eraseDups (tasks : List α) : tasks.eraseDups.Nodup := by
  induction hn : tasks.length using Nat.strongRecOn generalizing tasks with
  | _ n ih =>
    cases tasks with
    | nil => exact List.nodup_nil
    | cons task tasks =>
      have hlt : (tasks.filter fun other ↦ !other == task).length < n := by
        rw [← hn, List.length_cons]
        exact Nat.lt_succ_of_le (List.length_filter_le _ _)
      rw [List.eraseDups_cons, List.nodup_cons, List.mem_eraseDups]
      exact ⟨by simp, ih _ hlt _ rfl⟩

/-- The requirements of a task are listed once each. -/
theorem nodup_requirements (requires : α → List α) (tasks : List α) (task : α) :
    (requirements requires tasks task).Nodup :=
  (nodup_eraseDups tasks).filter _

/-- No count is lowered where nothing has finished. -/
@[simp] theorem lowered_nil (requires : α → List α) (tasks : List α) (task : α) :
    lowered requires tasks [] task = 0 := by
  simp [lowered, met]

/-- What tasks that run one after the other lower adds up. -/
theorem lowered_append (requires : α → List α) (tasks before after : List α) (task : α) :
    lowered requires tasks (before ++ after) task =
      lowered requires tasks before task + lowered requires tasks after task := by
  simp only [lowered, met, List.countP_append, Nat.mul_add]

private theorem lowered_cons (requires : α → List α) (finished other : α) (tasks : List α)
    (task : α) : lowered requires (other :: tasks) [finished] task =
      lowered requires tasks [finished] task +
        if task = other ∧ finished ∈ requires other then 1 else 0 := by
  by_cases he : task = other
  · subst he
    by_cases hr : finished ∈ requires task <;> simp [lowered, met, hr]
  · simp [lowered, he, List.count_cons_of_ne (Ne.symm he)]

/-! ### Releasing tasks -/

/-- A finished task lowers the counts of the tasks that require it. -/
theorem release_counts (requires : α → List α) (finished : α) (counts : α → Int) (tasks : List α)
    (task : α) : (release requires finished counts tasks).1 task =
      counts task - lowered requires tasks [finished] task := by
  induction tasks generalizing counts with
  | nil => simp [release, lowered]
  | cons other tasks ih =>
    rw [lowered_cons]
    simp only [release, List.contains_eq_mem, decide_eq_true_eq]
    by_cases hr : finished ∈ requires other
    · rw [if_pos hr]
      refine (ih _).trans ?_
      by_cases he : task = other
      · subst he
        simp only [hr, and_self, if_true]
        omega
      · simp [he]
    · simp [hr, ih]

/-- A task becomes free when its count comes down to zero, and then once only. -/
theorem release_freed (requires : α → List α) (finished : α) (counts : α → Int) (tasks : List α)
    (task : α) : (release requires finished counts tasks).2.count task =
      if 0 < counts task ∧ counts task ≤ lowered requires tasks [finished] task then 1 else 0 := by
  induction tasks generalizing counts with
  | nil =>
    simp only [release, lowered, List.count_nil, Nat.zero_mul]
    split <;> omega
  | cons other tasks ih =>
    rw [lowered_cons]
    simp only [release, List.contains_eq_mem, decide_eq_true_eq]
    by_cases hr : finished ∈ requires other
    · rw [if_pos hr]
      have hrest := ih fun t ↦ if t = other then counts other - 1 else counts t
      by_cases he : task = other
      · subst he
        simp only [hr, and_self, if_true] at hrest ⊢
        split
        · rw [List.count_cons_self, hrest]
          split <;> split <;> omega
        · rw [hrest]
          split <;> split <;> omega
      · simp only [he, if_false, false_and, Nat.add_zero] at hrest ⊢
        split
        · rw [List.count_cons_of_ne (Ne.symm he), hrest]
        · exact hrest
    · simp [hr, ih]

/-! ### Running the queue -/

/-- The tasks of the first list have run, in order, and those of the second wait in the queue, with
these counts of open requirements. -/
structure Progress (requires : α → List α) (tasks done queue : List α) (counts : α → Int) :
    Prop where
  counted : ∀ task, counts task =
    openRequirements requires tasks task - lowered requires tasks done task
  joined : ∀ task, (done ++ queue).count task =
    if openRequirements requires tasks task = 0 then tasks.count task
    else if counts task ≤ 0 then 1 else 0
  inOrder : ∀ before task after, done = before ++ task :: after →
    openRequirements requires tasks task ≤ lowered requires tasks before task

namespace Progress

/-- At first nothing has run, and the tasks that require nothing registered wait. -/
theorem start (requires : α → List α) (tasks : List α) :
    Progress requires tasks []
      (tasks.filter fun task ↦ openRequirements requires tasks task = 0)
      (openRequirements requires tasks) where
  counted task := by simp
  joined task := by
    have hpos := openRequirements_nonneg requires tasks task
    rw [List.nil_append]
    by_cases h : openRequirements requires tasks task = 0
    · rw [if_pos h, List.count_filter (by simpa using h)]
    · rw [if_neg h, if_neg (by omega), List.count_eq_zero]
      simp [h]
  inOrder before task after h := by simp at h

/-- A task that waits has no open requirement. -/
theorem due (h : Progress requires tasks done queue counts) (ht : task ∈ queue) :
    openRequirements requires tasks task ≤ lowered requires tasks done task := by
  have hc := h.counted task
  have hj := h.joined task
  have hmem : 0 < (done ++ queue).count task :=
    List.count_pos_iff.mpr (List.mem_append_right _ ht)
  by_cases ho : openRequirements requires tasks task = 0
  · omega
  · rw [if_neg ho] at hj
    split at hj <;> omega

/-- The first task of the queue runs, and those that become free join the queue. -/
theorem step (h : Progress requires tasks done (task :: queue) counts) :
    Progress requires tasks (done ++ [task])
      (queue ++ (release requires task counts tasks).2) (release requires task counts tasks).1 where
  counted other := by
    rw [release_counts, h.counted, lowered_append]
    omega
  joined other := by
    have hj := h.joined other
    have hc := h.counted other
    have hpos := openRequirements_nonneg requires tasks other
    have hsplit : done ++ [task] ++ (queue ++ (release requires task counts tasks).2) =
        (done ++ task :: queue) ++ (release requires task counts tasks).2 := by simp
    rw [hsplit, List.count_append, hj, release_freed, release_counts]
    -- a task that has joined before has no positive count, so it is not freed again
    by_cases ho : openRequirements requires tasks other = 0
    · rw [if_pos ho, if_pos ho, if_neg (by omega), Nat.add_zero]
    · rw [if_neg ho, if_neg ho]
      split <;> split <;> split <;> omega
  inOrder before other after hsplit := by
    rcases List.eq_nil_or_concat after with rfl | ⟨after, last, rfl⟩
    · obtain ⟨rfl, hlast⟩ := List.append_inj' hsplit rfl
      cases hlast
      exact h.due List.mem_cons_self
    · have hlonger : done ++ [task] = (before ++ other :: after) ++ [last] := by simpa using hsplit
      exact h.inOrder before other after (List.append_inj' hlonger rfl).1

/-- No task has run or waits more often than it is registered. -/
theorem subperm (h : Progress requires tasks done queue counts) :
    (done ++ queue).Subperm tasks := by
  rw [List.subperm_ext_iff]
  intro task _
  have hc := h.counted task
  rw [h.joined]
  split
  · exact Nat.le_refl _
  · next ho =>
    split
    · -- its count has come down, which it does for registered tasks only
      by_contra hnone
      have hcount : tasks.count task = 0 := by omega
      have hpos := openRequirements_nonneg requires tasks task
      rw [lowered, hcount, Nat.zero_mul] at hc
      omega
    · exact Nat.zero_le _

/-- A queue that may run as many tasks as are registered runs until nothing waits. What each step
keeps holds then. -/
theorem run {n : Nat} {P : List α → List α → Prop}
    (hstep : ∀ {done task queue counts}, Progress requires tasks done (task :: queue) counts →
      P done (task :: queue) →
      P (done ++ [task]) (queue ++ (release requires task counts tasks).2))
    (h : Progress requires tasks done queue counts) (hp : P done queue)
    (hn : tasks.length ≤ done.length + n) :
    ∃ counts', Progress requires tasks (done ++ run requires tasks n queue counts) [] counts' ∧
      P (done ++ Schedule.run requires tasks n queue counts) [] := by
  induction n generalizing done queue counts with
  | zero =>
    have hlength := h.subperm.length_le
    rw [List.length_append] at hlength
    have hqueue : queue = [] := List.eq_nil_of_length_eq_zero (by omega)
    subst hqueue
    exact ⟨counts, by simpa [Schedule.run] using h, by simpa [Schedule.run] using hp⟩
  | succ n ih =>
    cases queue with
    | nil => exact ⟨counts, by simpa [Schedule.run] using h, by simpa [Schedule.run] using hp⟩
    | cons task queue =>
      obtain ⟨counts', hrun⟩ := ih h.step (hstep h hp)
        (by rw [List.length_append, List.length_singleton]; omega)
      rw [List.append_assoc] at hrun
      exact ⟨counts', hrun⟩

end Progress

/-- An order is what has run when nothing waits any more, with all that the steps have kept. It is
given if every registration has run. -/
theorem exists_progress_of_step (requires : α → List α) (tasks : List α)
    {P : List α → List α → Prop}
    (hstart : P [] (tasks.filter fun task ↦ openRequirements requires tasks task = 0))
    (hstep : ∀ {done task queue counts}, Progress requires tasks done (task :: queue) counts →
      P done (task :: queue) →
      P (done ++ [task]) (queue ++ (release requires task counts tasks).2)) :
    ∃ order counts, Progress requires tasks order [] counts ∧ P order [] ∧
      order? requires tasks = if order.length = tasks.length then some order else none := by
  obtain ⟨counts, h, hp⟩ := (Progress.start requires tasks).run hstep hstart (n := tasks.length)
    (by simp)
  exact ⟨_, counts, h, hp, rfl⟩

/-- An order is what has run when nothing waits any more. It is given if every registration has
run. -/
theorem exists_progress (requires : α → List α) (tasks : List α) :
    ∃ order counts, Progress requires tasks order [] counts ∧
      order? requires tasks = if order.length = tasks.length then some order else none := by
  obtain ⟨order, counts, h, -, horder⟩ :=
    exists_progress_of_step requires tasks (P := fun _ _ ↦ True) trivial fun _ _ ↦ trivial
  exact ⟨order, counts, h, horder⟩

end Hil.Schedule
