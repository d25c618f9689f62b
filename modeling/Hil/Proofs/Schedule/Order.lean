import Hil.Proofs.Schedule.Progress
import Mathlib.Data.Fintype.Sets
import Mathlib.Data.Fintype.EquivFin
import Mathlib.Logic.Relation
import Mathlib.Order.WellFounded

/-!
# Orders of tasks

Distinct tasks have an order exactly if no requirement among them is circular, and every task then
comes after all that it requires. Tasks that are registered repeatedly keep these laws only where
nothing depends on how often: a task that is registered more than once has to require nothing that
is registered, and a task is sure to come after all that it requires only if none of that, or no
more than that, is registered more than once.
-/

namespace Hil.Schedule

variable {α : Type} [DecidableEq α] {requires : α → List α} {tasks order before after : List α}
  {counts : α → Int} {task other : α}

/-- A registered task requires another one directly. -/
def Needs (requires : α → List α) (tasks : List α) (task other : α) : Prop :=
  task ∈ tasks ∧ other ∈ requirements requires tasks task

/-- A registered task requires itself, directly or by way of other registered tasks. -/
def Circular (requires : α → List α) (tasks : List α) : Prop :=
  ∃ task, Relation.TransGen (Needs requires tasks) task task

/-- All that a task requires and that is registered is among the other tasks. -/
def Satisfied (requires : α → List α) (tasks : List α) (task : α) (others : List α) : Prop :=
  ∀ other ∈ requirements requires tasks task, other ∈ others

/-! ### Requirements that are met -/

/-- As many runs of required tasks as there are requirements satisfy them, if no run of a required
task counts twice. -/
theorem satisfied_of_nodup (hlength : (requirements requires tasks task).length ≤
      met requires before task) (hsub : before ⊆ tasks)
    (hn : (before.filter fun other ↦ other ∈ requires task).Nodup) :
    Satisfied requires tasks task before := by
  have hsubset : before.filter (fun other ↦ other ∈ requires task) ⊆
      requirements requires tasks task := by
    intro other ho
    obtain ⟨hmem, hr⟩ := List.mem_filter.mp ho
    exact mem_requirements_iff.mpr ⟨hsub hmem, by simpa using hr⟩
  rw [met, List.countP_eq_length_filter] at hlength
  have hperm := (hn.subperm hsubset).perm_of_length_le hlength
  intro other ho
  exact (List.mem_filter.mp (hperm.mem_iff.mpr ho)).1

/-- One run satisfies a single requirement. -/
theorem satisfied_of_single (hlength : (requirements requires tasks task).length ≤
      met requires before task) (hsub : before ⊆ tasks)
    (hone : (requirements requires tasks task).length ≤ 1) :
    Satisfied requires tasks task before := by
  intro other ho
  have hpos : 0 < (requirements requires tasks task).length := List.length_pos_of_mem ho
  obtain ⟨single, hsingle⟩ := List.length_eq_one_iff.mp (Nat.le_antisymm hone hpos)
  obtain ⟨run, hrun, hr⟩ := List.countP_pos_iff.mp (Nat.lt_of_lt_of_le hpos hlength)
  have hmem : run ∈ requirements requires tasks task :=
    mem_requirements_iff.mpr ⟨hsub hrun, by simpa using hr⟩
  rw [hsingle, List.mem_singleton] at hmem ho
  rw [ho, ← hmem]
  exact hrun

/-- Satisfied requirements have been met as often as there are requirements. -/
theorem length_le_met_of_satisfied (h : Satisfied requires tasks task before) :
    (requirements requires tasks task).length ≤ met requires before task := by
  rw [met, List.countP_eq_length_filter]
  refine ((nodup_requirements requires tasks task).subperm fun other ho ↦ ?_).length_le
  exact List.mem_filter.mpr ⟨h other ho, by simpa using (mem_requirements_iff.mp ho).2⟩

namespace Progress

/-- Of a task that requires anything registered there is no second run. -/
theorem count_le_one (h : Progress requires tasks order [] counts)
    (ho : other ∈ requirements requires tasks task) : order.count task ≤ 1 := by
  have hj := h.joined task
  have hpos : 0 < (requirements requires tasks task).length := List.length_pos_of_mem ho
  rw [List.append_nil, if_neg (by rw [openRequirements_eq_length]; omega)] at hj
  split at hj <;> omega

/-- A task has run if all that it requires has. -/
theorem mem_of_satisfied (h : Progress requires tasks order [] counts) (ht : task ∈ tasks)
    (hs : Satisfied requires tasks task order) : task ∈ order := by
  have hc := h.counted task
  have hj := h.joined task
  have hregistered : 0 < tasks.count task := List.count_pos_iff.mpr ht
  have hmet := length_le_met_of_satisfied hs
  have hlowered : met requires order task ≤ lowered requires tasks order task :=
    Nat.le_mul_of_pos_left _ hregistered
  rw [openRequirements_eq_length] at hc hj
  rw [List.append_nil] at hj
  apply List.count_pos_iff.mp
  split at hj
  · omega
  · rw [if_pos (by omega)] at hj
    omega

/-- When no requirement is circular, every registered task runs. -/
theorem mem_of_not_circular (h : Progress requires tasks order [] counts)
    (ha : ¬Circular requires tasks) (ht : task ∈ tasks) : task ∈ order := by
  let Below (a b : {task // task ∈ tasks}) : Prop :=
    Relation.TransGen (Needs requires tasks) b.1 a.1
  have : IsTrans _ Below := ⟨fun _ _ _ hab hbc ↦ hbc.trans hab⟩
  have : Std.Irrefl Below := ⟨fun task hself ↦ ha ⟨task, hself⟩⟩
  -- the requirements of finitely many tasks lead to a task that requires nothing registered
  have hwf : WellFounded Below := Finite.wellFounded_of_trans_of_irrefl Below
  suffices hall : ∀ task : {task // task ∈ tasks}, task.1 ∈ order from hall ⟨task, ht⟩
  intro task
  induction task using hwf.induction with
  | _ task ih =>
    apply h.mem_of_satisfied task.2
    intro other ho
    have hother : other ∈ tasks := (mem_requirements_iff.mp ho).1
    exact ih ⟨other, hother⟩ (.single ⟨task.2, ho⟩)

end Progress

/-! ### Orders -/

/-- An order runs every registration. -/
theorem perm_of_order? (h : order? requires tasks = some order) :
    order.Perm tasks ∧ ∃ counts, Progress requires tasks order [] counts := by
  obtain ⟨ran, counts, hp, heq⟩ := exists_progress requires tasks
  rw [heq] at h
  split at h
  · next hlength =>
    have hsub : ran.Subperm tasks := by simpa using hp.subperm
    rw [← Option.some.inj h]
    exact ⟨hsub.perm_of_length_le (Nat.le_of_eq hlength.symm), counts, hp⟩
  · cases h

/-- In an order, a task comes after all that it requires if none of that is registered more than
once, or if it requires one registered task at most. -/
theorem satisfied_of_order? (h : order? requires tasks = some order)
    (hsplit : order = before ++ task :: after)
    (hone : (requirements requires tasks task).length ≤ 1 ∨
      ∀ other ∈ requirements requires tasks task, tasks.count other ≤ 1) :
    Satisfied requires tasks task before := by
  obtain ⟨hperm, counts, hp⟩ := perm_of_order? h
  have hsub : before ⊆ tasks := by
    intro other ho
    exact hperm.subset (hsplit ▸ List.mem_append_left _ ho)
  intro other ho
  have hcount : tasks.count task ≤ 1 := hperm.count_eq task ▸ hp.count_le_one ho
  have hlength : (requirements requires tasks task).length ≤ met requires before task := by
    have hmet := hp.inOrder before task after hsplit
    have hlowered : lowered requires tasks before task ≤ met requires before task :=
      (Nat.mul_le_mul_right _ hcount).trans (Nat.le_of_eq (Nat.one_mul _))
    rw [openRequirements_eq_length] at hmet
    omega
  rcases hone with hsingle | hdistinct
  · exact satisfied_of_single hlength hsub hsingle other ho
  · refine satisfied_of_nodup hlength hsub ?_ other ho
    rw [List.nodup_iff_count_le_one]
    intro other'
    by_cases hr : other' ∈ requirements requires tasks task
    · have hbefore : before.count other' ≤ tasks.count other' := by
        rw [← hperm.count_eq, hsplit, List.count_append]
        exact Nat.le_add_right _ _
      exact (List.filter_sublist.count_le _).trans (hbefore.trans (hdistinct other' hr))
    · have hnone : other' ∉ before.filter fun other ↦ other ∈ requires task := by
        intro hmem
        obtain ⟨hb, hreq⟩ := List.mem_filter.mp hmem
        exact hr (mem_requirements_iff.mpr ⟨hsub hb, by simpa using hreq⟩)
      rw [List.count_eq_zero.mpr hnone]
      exact Nat.zero_le _

/-- When no requirement is circular, there is no order exactly if a task that requires anything
registered is registered more than once. -/
theorem order?_eq_none_iff_of_not_circular (ha : ¬Circular requires tasks) :
    order? requires tasks = none ↔
      ∃ task ∈ tasks, 1 < tasks.count task ∧ requirements requires tasks task ≠ [] := by
  constructor
  · intro hnone
    by_contra hrepeated
    obtain ⟨order, counts, hp, heq⟩ := exists_progress requires tasks
    have hsub : order.Subperm tasks := by simpa using hp.subperm
    have hperm : order.Perm tasks := by
      rw [List.perm_iff_count]
      intro task
      have hle : order.count task ≤ tasks.count task := hsub.count_le task
      have hj := hp.joined task
      rw [List.append_nil] at hj
      split at hj
      · exact hj
      · next ho =>
        have hrequires : requirements requires tasks task ≠ [] := by
          intro he
          rw [openRequirements_eq_length, he] at ho
          exact ho rfl
        by_cases ht : task ∈ tasks
        · have hran : 0 < order.count task := List.count_pos_iff.mpr (hp.mem_of_not_circular ha ht)
          have honce : ¬1 < tasks.count task := fun hc ↦ hrepeated ⟨task, ht, hc, hrequires⟩
          omega
        · rw [List.count_eq_zero.mpr ht] at hle ⊢
          omega
    rw [heq, if_pos hperm.length_eq] at hnone
    cases hnone
  · rintro ⟨task, ht, hcount, hrequires⟩
    obtain ⟨other, ho⟩ := List.exists_mem_of_ne_nil _ hrequires
    cases horder : order? requires tasks with
    | none => rfl
    | some order =>
      obtain ⟨hperm, counts, hp⟩ := perm_of_order? horder
      have hle := hp.count_le_one ho
      rw [hperm.count_eq] at hle
      omega

/-- Steps along which a rank falls never lead back. -/
theorem not_transGen_self {β : Type} {r : β → β → Prop} (rank : β → Nat)
    (hfalls : ∀ a b, r a b → rank b < rank a) (a : β) : ¬Relation.TransGen r a a := by
  have hless : ∀ b, Relation.TransGen r a b → rank b < rank a := by
    intro b hpath
    induction hpath with
    | single hr => exact hfalls _ _ hr
    | tail _ hr ih => exact (hfalls _ _ hr).trans ih
  exact fun hself ↦ Nat.lt_irrefl _ (hless a hself)

/-- Requirements among tasks in an order that satisfies them are not circular. -/
theorem not_circular_of_satisfied (hperm : order.Perm tasks)
    (h : ∀ before task after, order = before ++ task :: after →
      Satisfied requires tasks task before) : ¬Circular requires tasks := by
  have hstep (task other : α) (hn : Needs requires tasks task other) :
      order.idxOf other < order.idxOf task := by
    obtain ⟨before, after, hsplit, hfirst⟩ := List.eq_append_cons_of_mem (hperm.mem_iff.mpr hn.1)
    have hmem := h before task after hsplit other hn.2
    rw [hsplit, List.idxOf_append_of_mem hmem, List.idxOf_append_of_notMem hfirst,
      List.idxOf_cons_self]
    exact List.idxOf_lt_length_of_mem hmem
  rintro ⟨task, hself⟩
  exact not_transGen_self order.idxOf hstep task hself

/-- In an order of distinct tasks each comes after all that it requires. -/
theorem satisfied_of_distinct (hn : tasks.Nodup) (h : order? requires tasks = some order)
    (hsplit : order = before ++ task :: after) : Satisfied requires tasks task before :=
  satisfied_of_order? h hsplit (.inr fun other _ ↦ List.nodup_iff_count_le_one.mp hn other)

/-- Distinct tasks have no order exactly if a requirement is circular. -/
theorem order?_eq_none_iff_circular (hn : tasks.Nodup) :
    order? requires tasks = none ↔ Circular requires tasks := by
  constructor
  · intro hnone
    by_contra ha
    obtain ⟨task, -, hcount, -⟩ := (order?_eq_none_iff_of_not_circular ha).mp hnone
    exact Nat.not_lt.mpr (List.nodup_iff_count_le_one.mp hn task) hcount
  · intro hc
    cases horder : order? requires tasks with
    | none => rfl
    | some order =>
      exact absurd hc (not_circular_of_satisfied (perm_of_order? horder).1 fun _ _ _ hsplit ↦
        satisfied_of_distinct hn horder hsplit)

end Hil.Schedule
