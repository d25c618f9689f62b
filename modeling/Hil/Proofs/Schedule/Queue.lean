import Hil.Proofs.Schedule.Order

/-!
# First in, first out

Of distinct tasks the queue runs that one next which has had all that it requires for the longest
time; of those that became free at once, the one that was registered first. A task that is
registered early but becomes free late therefore waits behind tasks that are registered after it.
There is one order of this kind at most, and the schedule finds it.
-/

namespace Hil.Schedule

variable {α : Type} [DecidableEq α] {requires : α → List α} {tasks done queue order order' : List α}
  {counts : α → Int} {task other : α}

/-- After tasks have run, the one task comes before the other: it had all that it requires at a time
when the other had not, or both have had it at the same times and the one is registered first. -/
def ComesBefore (requires : α → List α) (tasks done : List α) (task other : α) : Prop :=
  (∃ early, early <+: done ∧ Satisfied requires tasks task early ∧
      ¬Satisfied requires tasks other early) ∨
    (∀ early, early <+: done →
      (Satisfied requires tasks task early ↔ Satisfied requires tasks other early)) ∧
      [task, other].Sublist tasks

/-- Each task has all that it requires when it runs, and comes before all that are left then. -/
def Queued (requires : α → List α) (tasks order : List α) : Prop :=
  ∀ before task after, order = before ++ task :: after →
    Satisfied requires tasks task before ∧
      ∀ other ∈ tasks, other ∉ before → other ≠ task →
        ComesBefore requires tasks before task other

/-! ### Orders of this kind -/

/-- What has been satisfied stays so. -/
theorem Satisfied.mono {before after : List α} (h : Satisfied requires tasks task before)
    (hsub : before ⊆ after) : Satisfied requires tasks task after :=
  fun other ho ↦ hsub (h other ho)

omit [DecidableEq α] in
/-- Of distinct tasks, not each of two is registered before the other. -/
theorem not_sublist_swap (hn : tasks.Nodup) (h : [task, other].Sublist tasks) :
    ¬[other, task].Sublist tasks := by
  induction tasks with
  | nil => cases h
  | cons first tasks ih =>
    rw [List.nodup_cons] at hn
    intro h'
    cases h with
    | cons _ h =>
      cases h' with
      | cons _ h' => exact ih hn.2 h h'
      | cons_cons _ _ => exact hn.1 (h.subset (by simp))
    | cons_cons _ h =>
      cases h' with
      | cons _ h' => exact hn.1 (h'.subset (by simp))
      | cons_cons _ _ => exact hn.1 (h.subset (by simp))

/-- Not each of two tasks comes before the other. -/
theorem ComesBefore.asymm (hn : tasks.Nodup) (h : ComesBefore requires tasks done task other) :
    ¬ComesBefore requires tasks done other task := by
  rintro (⟨early', he', hs', hn'⟩ | ⟨hsame', hfirst'⟩)
  · rcases h with ⟨early, he, hs, hn⟩ | ⟨hsame, -⟩
    · rcases List.prefix_or_prefix_of_prefix he he' with hle | hle
      · exact hn' (hs.mono hle.subset)
      · exact hn (hs'.mono hle.subset)
    · exact hn' ((hsame early' he').mpr hs')
  · rcases h with ⟨early, he, hs, hn⟩ | ⟨-, hfirst⟩
    · exact hn ((hsame' early he).mpr hs)
    · exact not_sublist_swap hn hfirst hfirst'

omit [DecidableEq α] in
private theorem notMem_before (hn : tasks.Nodup) (hperm : order.Perm tasks)
    {before after : List α} (hsplit : order = before ++ task :: after) :
    task ∈ tasks ∧ task ∉ before := by
  have hnodup := hperm.nodup_iff.mpr hn
  rw [hsplit, List.nodup_append] at hnodup
  exact ⟨hperm.subset (hsplit ▸ by simp),
    fun hb ↦ hnodup.2.2 task hb task List.mem_cons_self rfl⟩

/-- Distinct tasks can be queued in one order only. -/
theorem Queued.unique (hn : tasks.Nodup) (hperm : order.Perm tasks) (hperm' : order'.Perm tasks)
    (h : Queued requires tasks order) (h' : Queued requires tasks order') : order = order' := by
  suffices hall : ∀ before rest rest', rest.Perm rest' → order = before ++ rest →
      order' = before ++ rest' → rest = rest' from
    hall [] order order' (hperm.trans hperm'.symm) rfl rfl
  intro before rest
  induction rest generalizing before with
  | nil => exact fun rest' hrest _ _ ↦ (List.nil_perm.mp hrest).symm
  | cons task rest ih =>
    intro rest' hrest horder horder'
    cases rest' with
    | nil => cases List.perm_nil.mp hrest
    | cons task' rest' =>
      have hsame : task = task' := by
        obtain ⟨hmem, hnew⟩ := notMem_before hn hperm horder
        obtain ⟨hmem', hnew'⟩ := notMem_before hn hperm' horder'
        by_contra hne
        have hbefore := (h before task rest horder).2 task' hmem' hnew' (Ne.symm hne)
        exact hbefore.asymm hn ((h' before task' rest' horder').2 task hmem hnew hne)
      subst hsame
      rw [ih (before ++ [task]) rest' hrest.cons_inv (by simpa using horder)
        (by simpa using horder')]

/-! ### The queue -/

/-- The tasks that become free are registered in the order in which they join the queue. -/
theorem release_sublist (requires : α → List α) (finished : α) (counts : α → Int)
    (tasks : List α) : (release requires finished counts tasks).2.Sublist tasks := by
  induction tasks generalizing counts with
  | nil => exact .slnil
  | cons task tasks ih =>
    rw [release]
    split
    · dsimp only
      split
      · exact (ih _).cons_cons task
      · exact (ih _).cons task
    · exact (ih _).cons task

namespace Progress

/-- Of distinct tasks, none has run or waits twice. -/
theorem nodup (hn : tasks.Nodup) (h : Progress requires tasks done queue counts) :
    (done ++ queue).Nodup := by
  rw [List.nodup_iff_count_le_one] at hn ⊢
  exact fun task ↦ (h.subperm.count_le task).trans (hn task)

/-- Of distinct tasks, those have run or wait that have all that they require. -/
theorem mem_iff (hn : tasks.Nodup) (h : Progress requires tasks done queue counts) :
    task ∈ done ++ queue ↔ task ∈ tasks ∧ Satisfied requires tasks task done := by
  have hsub : done ++ queue ⊆ tasks := h.subperm.subset
  have hnodup := h.nodup hn
  have hc := h.counted task
  have hj := h.joined task
  rw [← List.count_pos_iff]
  by_cases ht : task ∈ tasks
  · have honce : tasks.count task = 1 := List.count_eq_one_of_mem hn ht
    have hsat : Satisfied requires tasks task done ↔
        (requirements requires tasks task).length ≤ met requires done task := by
      refine ⟨length_le_met_of_satisfied, fun hlength ↦ satisfied_of_nodup hlength ?_ ?_⟩
      · exact fun other ho ↦ hsub (List.mem_append_left _ ho)
      · exact (List.nodup_append.mp hnodup).1.filter _
    rw [openRequirements_eq_length] at hc hj
    rw [lowered, honce, Nat.one_mul] at hc
    rw [hsat, hj, honce]
    simp only [ht, true_and]
    split
    · omega
    · split <;> omega
  · have hnone : (done ++ queue).count task = 0 :=
      List.count_eq_zero.mpr fun hmem ↦ ht (hsub hmem)
    simp [hnone, ht]

/-- A task that waits has all that it requires. -/
theorem satisfied_of_mem (hn : tasks.Nodup) (h : Progress requires tasks done queue counts)
    (ht : task ∈ queue) : Satisfied requires tasks task done :=
  ((h.mem_iff hn).mp (List.mem_append_right done ht)).2

/-- A task becomes free with the run that satisfies the last of its requirements. -/
theorem freed (hn : tasks.Nodup) (h : Progress requires tasks done (task :: queue) counts)
    (ho : other ∈ (release requires task counts tasks).2) :
    Satisfied requires tasks other (done ++ [task]) ∧ ¬Satisfied requires tasks other done := by
  have hmem := (h.step.mem_iff hn).mp
    (List.mem_append_right (done ++ [task]) (List.mem_append_right queue ho))
  refine ⟨hmem.2, fun hs ↦ ?_⟩
  have hold := (h.mem_iff hn).mpr ⟨hmem.1, hs⟩
  have hnodup := h.step.nodup hn
  rw [← List.append_assoc, List.nodup_append] at hnodup
  exact hnodup.2.2 other (by simpa using hold) other ho rfl

end Progress

/-- A task that comes before all others in the queue can run next. -/
theorem Queued.concat (hn : tasks.Nodup) (h : Queued requires tasks done)
    (hp : Progress requires tasks done (task :: queue) counts)
    (hfirst : ∀ other ∈ queue, ComesBefore requires tasks done task other) :
    Queued requires tasks (done ++ [task]) := by
  intro before last after hsplit
  rcases List.eq_nil_or_concat after with rfl | ⟨after, final, rfl⟩
  · obtain ⟨rfl, heq⟩ := List.append_inj' hsplit rfl
    obtain rfl := List.singleton_inj.mp heq
    have hs := hp.satisfied_of_mem hn List.mem_cons_self
    refine ⟨hs, fun other ho hnot hne ↦ ?_⟩
    by_cases hs' : Satisfied requires tasks other done
    · have hmem := (hp.mem_iff hn).mpr ⟨ho, hs'⟩
      exact hfirst other (by simpa [hnot, hne] using hmem)
    · exact .inl ⟨done, List.prefix_rfl, hs, hs'⟩
  · have hlonger : done ++ [task] = (before ++ last :: after) ++ [final] := by simpa using hsplit
    exact h before last after (List.append_inj' hlonger rfl).1

/-- What has run was queued, and what waits stands in the order in which it will come. -/
structure Lined (requires : α → List α) (tasks done queue : List α) : Prop where
  queued : Queued requires tasks done
  waits : queue.Pairwise (ComesBefore requires tasks done)

/-- Of two tasks that have become free together, the one comes first that is registered first. -/
theorem comesBefore_of_together (hfirst : [task, other].Sublist tasks)
    (h : ∀ early, early <+: done → early ≠ done →
      ¬Satisfied requires tasks task early ∧ ¬Satisfied requires tasks other early)
    (hs : Satisfied requires tasks task done) (hs' : Satisfied requires tasks other done) :
    ComesBefore requires tasks done task other := by
  refine .inr ⟨fun early he ↦ ?_, hfirst⟩
  by_cases hd : early = done
  · subst hd
    exact iff_of_true hs hs'
  · exact iff_of_false (h early he hd).1 (h early he hd).2

/-- A task that waits comes before another one also after a further run. -/
theorem ComesBefore.later (h : ComesBefore requires tasks done task other) (ran : α)
    (hs : Satisfied requires tasks task done) (hs' : Satisfied requires tasks other done) :
    ComesBefore requires tasks (done ++ [ran]) task other := by
  rcases h with ⟨early, he, hfree⟩ | ⟨hsame, hfirst⟩
  · exact .inl ⟨early, he.trans (List.prefix_append done [ran]), hfree⟩
  · refine .inr ⟨fun early he ↦ ?_, hfirst⟩
    rcases List.prefix_concat_iff.mp he with rfl | he
    · exact iff_of_true (hs.mono (List.subset_append_left _ _))
        (hs'.mono (List.subset_append_left _ _))
    · exact hsame early he

namespace Lined

/-- At first the tasks wait that require nothing registered. -/
theorem start (requires : α → List α) (tasks : List α) :
    Lined requires tasks []
      (tasks.filter fun task ↦ openRequirements requires tasks task = 0) where
  queued before task after h := by simp at h
  waits := by
    have hfree (task : α) (ht : task ∈ tasks.filter fun task ↦
        openRequirements requires tasks task = 0) : Satisfied requires tasks task [] := by
      have hzero := (List.mem_filter.mp ht).2
      rw [decide_eq_true_iff, openRequirements_eq_length] at hzero
      intro other ho
      have hpos := List.length_pos_of_mem ho
      omega
    rw [List.pairwise_iff_forall_sublist]
    intro task other hsub
    refine comesBefore_of_together (hsub.trans List.filter_sublist) (fun early he hne ↦ ?_)
      (hfree task (hsub.subset (by simp))) (hfree other (hsub.subset (by simp)))
    exact absurd (List.prefix_nil.mp he) hne

/-- The first task of the queue runs, and those that become free line up behind the others. -/
theorem step (hn : tasks.Nodup) (hp : Progress requires tasks done (task :: queue) counts)
    (h : Lined requires tasks done (task :: queue)) :
    Lined requires tasks (done ++ [task])
      (queue ++ (release requires task counts tasks).2) := by
  obtain ⟨hfirst, hrest⟩ := List.pairwise_cons.mp h.waits
  have hwaits {other : α} (ho : other ∈ queue) : Satisfied requires tasks other done :=
    hp.satisfied_of_mem hn (List.mem_cons_of_mem task ho)
  refine ⟨h.queued.concat hn hp hfirst, List.pairwise_append.mpr ⟨?_, ?_, ?_⟩⟩
  · exact hrest.imp_of_mem fun ha hb hab ↦ hab.later task (hwaits ha) (hwaits hb)
  · rw [List.pairwise_iff_forall_sublist]
    intro a b hsub
    have ha := hp.freed hn (hsub.subset (by simp) : a ∈ _)
    have hb := hp.freed hn (hsub.subset (by simp) : b ∈ _)
    refine comesBefore_of_together (hsub.trans (release_sublist requires task counts tasks))
      (fun early he hne ↦ ?_) ha.1 hb.1
    have hsubset := ((List.prefix_concat_iff.mp he).resolve_left hne).subset
    exact ⟨fun hs ↦ ha.2 (hs.mono hsubset), fun hs ↦ hb.2 (hs.mono hsubset)⟩
  · intro a ha b hb
    exact .inl ⟨done, List.prefix_append done [task], hwaits ha, (hp.freed hn hb).2⟩

end Lined

/-! ### Orders of distinct tasks -/

/-- Distinct tasks run in the order in which they are queued, if there is any such order. -/
theorem order?_eq_some_iff (hn : tasks.Nodup) :
    order? requires tasks = some order ↔ order.Perm tasks ∧ Queued requires tasks order := by
  have hqueued {order : List α} (h : order? requires tasks = some order) :
      Queued requires tasks order := by
    obtain ⟨ran, counts, -, hlined, heq⟩ :=
      exists_progress_of_step requires tasks (P := Lined requires tasks)
        (Lined.start requires tasks)
        (Lined.step hn)
    rw [heq] at h
    split at h
    · exact Option.some.inj h ▸ hlined.queued
    · cases h
  constructor
  · exact fun h ↦ ⟨(perm_of_order? h).1, hqueued h⟩
  · rintro ⟨hperm, h⟩
    have ha : ¬Circular requires tasks :=
      not_circular_of_satisfied hperm fun before task after hsplit ↦ (h before task after hsplit).1
    cases horder : order? requires tasks with
    | none => exact absurd ((order?_eq_none_iff_circular hn).mp horder) ha
    | some order' =>
      exact congrArg some ((hqueued horder).unique hn (perm_of_order? horder).1 hperm h)

end Hil.Schedule
