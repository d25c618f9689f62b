import Hil.Proofs.Pass.Running
import Hil.Proofs.Schedule.Queue

/-!
# Waiting passes

Distinct passes wait in a queue until all that they require has run. Next comes the pass that has
waited longest, and of those that became free at once the one that was registered first. So a pass
that becomes free late runs after passes that are registered after it, also where the order of
registration meets all requirements.
-/

namespace Hil

/-- The pass returns a tree for every tree. -/
def Pass.Keeps (pass : Pass) : Prop :=
  ∀ id st, ∃ id' st', (pass.run (some id)).Returns st (some id') st'

namespace Pipeline

variable {p : Pipeline} {pass other : Pass} {order done others executed : List Pass}

/-- All registered passes that a pass requires are among the others. -/
def Ready (p : Pipeline) (pass : Pass) (others : List Pass) : Prop :=
  ∀ other, p.Needs pass other → other ∈ others

/-- After passes have run, the one pass comes before the other: it was ready at a time when the
other was not, or both were ready at the same times and the one is registered first. -/
def ComesBefore (p : Pipeline) (done : List Pass) (pass other : Pass) : Prop :=
  (∃ early, early <+: done ∧ p.Ready pass early ∧ ¬p.Ready other early) ∨
    (∀ early, early <+: done → (p.Ready pass early ↔ p.Ready other early)) ∧
      [pass, other].Sublist p.registered

/-- Each pass is ready when it runs, and comes before all that have not run then. -/
def Queued (p : Pipeline) (order : List Pass) : Prop :=
  ∀ before pass after, order = before ++ pass :: after →
    p.Ready pass before ∧
      ∀ other ∈ p.registered, other ∉ before → other ≠ pass → p.ComesBefore before pass other

/-! ### Passes and their names -/

section Prefixes

variable {α β : Type} {f : α → β} {xs : List α} {P : List β → Prop}

private theorem exists_prefix_map_iff :
    (∃ ys, ys <+: xs.map f ∧ P ys) ↔ ∃ early, early <+: xs ∧ P (early.map f) := by
  simp [List.prefix_map_iff]

private theorem forall_prefix_map_iff :
    (∀ ys, ys <+: xs.map f → P ys) ↔ ∀ early, early <+: xs → P (early.map f) := by
  refine ⟨fun h early he ↦ h _ (he.map f), fun h ys hys ↦ ?_⟩
  obtain ⟨early, he, rfl⟩ := List.prefix_map_iff.mp hys
  exact h early he

end Prefixes

namespace Named

/-- A pass is ready exactly if all that its name requires is named. -/
theorem ready_iff (h : p.Named) (hp : pass ∈ p.registered) (hsub : others ⊆ p.registered) :
    p.Ready pass others ↔
      Schedule.Satisfied p.requires (p.registered.map Pass.name) pass.name
        (others.map Pass.name) := by
  constructor
  · intro hready name hname
    obtain ⟨other, hneeds, rfl⟩ := (h.mem_requirements_iff hp).mp hname
    exact List.mem_map_of_mem (hready other hneeds)
  · exact fun hs other hneeds ↦ h.mem_of_satisfied hsub hs hneeds

/-- One pass is registered before another exactly if its name is. -/
theorem sublist_iff (h : p.Named) (hp : pass ∈ p.registered) (ho : other ∈ p.registered) :
    [pass, other].Sublist p.registered ↔
      [pass.name, other.name].Sublist (p.registered.map Pass.name) := by
  constructor
  · exact fun hsub ↦ hsub.map Pass.name
  · intro hsub
    obtain ⟨passes, hpasses, hnames⟩ := List.sublist_map_iff.mp hsub
    obtain ⟨first, rest, rfl, hfirst, hrest⟩ := List.map_eq_cons_iff.mp hnames.symm
    obtain ⟨second, last, rfl, hsecond, hlast⟩ := List.map_eq_cons_iff.mp hrest
    obtain rfl := List.map_eq_nil_iff.mp hlast
    obtain rfl := h first (hpasses.subset (by simp)) pass hp hfirst
    obtain rfl := h second (hpasses.subset (by simp)) other ho hsecond
    exact hpasses

/-- One pass comes before another exactly if its name does. -/
theorem comesBefore_iff (h : p.Named) (hp : pass ∈ p.registered) (ho : other ∈ p.registered)
    (hsub : done ⊆ p.registered) :
    p.ComesBefore done pass other ↔
      Schedule.ComesBefore p.requires (p.registered.map Pass.name) (done.map Pass.name) pass.name
        other.name := by
  have hearly {early : List Pass} (he : early <+: done) : early ⊆ p.registered :=
    fun _ hm ↦ hsub (he.subset hm)
  rw [ComesBefore, Schedule.ComesBefore, h.sublist_iff hp ho, exists_prefix_map_iff,
    forall_prefix_map_iff]
  refine or_congr (exists_congr fun early ↦ and_congr_right fun he ↦ ?_)
    (and_congr_left' (forall₂_congr fun early he ↦ ?_))
  · rw [h.ready_iff hp (hearly he), h.ready_iff ho (hearly he)]
  · rw [h.ready_iff hp (hearly he), h.ready_iff ho (hearly he)]

/-- Passes are queued exactly if their names are. -/
theorem queued_iff (h : p.Named) (hsub : order ⊆ p.registered) :
    p.Queued order ↔
      Schedule.Queued p.requires (p.registered.map Pass.name) (order.map Pass.name) := by
  constructor
  · intro hq names name rest hsplit
    obtain ⟨before, tail, rfl, rfl, htail⟩ := List.map_eq_append_iff.mp hsplit
    obtain ⟨pass, after, rfl, rfl, rfl⟩ := List.map_eq_cons_iff.mp htail
    have hp : pass ∈ p.registered := hsub (by simp)
    have hbefore : before ⊆ p.registered := fun _ hm ↦ hsub (List.mem_append_left _ hm)
    obtain ⟨hready, hfirst⟩ := hq before pass after rfl
    refine ⟨(h.ready_iff hp hbefore).mp hready, fun other hother hnot hne ↦ ?_⟩
    obtain ⟨other, ho, rfl⟩ := List.mem_map.mp hother
    refine (h.comesBefore_iff hp ho hbefore).mp (hfirst other ho (fun hm ↦ ?_) fun he ↦ ?_)
    · exact hnot (List.mem_map_of_mem hm)
    · exact hne (congrArg Pass.name he)
  · intro hq before pass after hsplit
    subst hsplit
    have hp : pass ∈ p.registered := hsub (by simp)
    have hbefore : before ⊆ p.registered := fun _ hm ↦ hsub (List.mem_append_left _ hm)
    obtain ⟨hs, hfirst⟩ := hq _ _ _ (map_name_of_split rfl)
    refine ⟨(h.ready_iff hp hbefore).mpr hs, fun other ho hnot hne ↦ ?_⟩
    refine (h.comesBefore_iff hp ho hbefore).mpr
      (hfirst other.name (List.mem_map_of_mem ho) (fun hm ↦ ?_) fun he ↦ ?_)
    · obtain ⟨found, hf, hname⟩ := List.mem_map.mp hm
      exact hnot (h found (hbefore hf) other ho hname ▸ hf)
    · exact hne (h other ho pass hp he)

end Named

/-! ### Runs -/

/-- Distinct passes run in the order in which they are queued, if there is any such order. -/
theorem order?_eq_some_iff (hn : (p.registered.map Pass.name).Nodup) :
    p.order? = some order ↔ order.Perm p.registered ∧ p.Queued order := by
  have hnamed : p.Named := named_of_nodup hn
  constructor
  · intro ho
    obtain ⟨hperm, hnames⟩ := hnamed.perm_of_order? ho
    exact ⟨hperm, (hnamed.queued_iff hperm.subset).mpr
      ((Schedule.order?_eq_some_iff hn).mp hnames).2⟩
  · rintro ⟨hperm, hq⟩
    rw [order?, (Schedule.order?_eq_some_iff hn).mpr
      ⟨hperm.map Pass.name, (hnamed.queued_iff hperm.subset).mp hq⟩]
    exact congrArg some (hnamed.filterMap_names hperm.subset)

/-- Passes that all return trees run to the end, if nothing has to be written. -/
theorem Executed.exists_ok {dump : Bool} {node : Option NodeId} {ran ran' : Ran}
    {outcome : Except Failure (Option NodeId)} (h : Executed dump executed node ran outcome ran')
    (hd : dump = false) (hnode : node.isSome) (hk : ∀ pass ∈ executed, pass.Keeps) :
    ∃ id, outcome = .ok (some id) := by
  induction h with
  | nil node ran => exact (Option.isSome_iff_exists.mp hnode).imp fun id hid ↦ by rw [hid]
  | cons returns _ _ ih =>
    rw [List.forall_mem_cons] at hk
    obtain ⟨id', st', hkeeps⟩ := hk.1 _ _
    cases returns.symm.trans hkeeps
    exact ih rfl hk.2
  | failed fails =>
    obtain ⟨id', st', hkeeps⟩ := hk _ List.mem_cons_self _ _
    cases fails.symm.trans hkeeps
  | unwritten _ logs =>
    subst hd
    cases logs

/-- Distinct passes of which no requirement is circular run in the order in which they are queued,
up to one that deletes the tree or fails. That is the order of their registration exactly if they
are queued in it. -/
theorem run_queued (hn : (p.registered.map Pass.name).Nodup) (ha : ¬p.Circular) (dump : Bool)
    (node : Option NodeId) (store : Store) (context : Context) :
    ∃ order, p.order? = some order ∧ order.Perm p.registered ∧ p.Queued order ∧
      (order = p.registered ↔ p.Queued p.registered) ∧
      ∃ executed rest, order = executed ++ rest ∧
        Executed dump executed node ⟨store, context, []⟩ (p.run dump node store context).1
          (p.run dump node store context).2 ∧
        Ended (p.run dump node store context).1 rest ∧
        (dump = false → node.isSome → (∀ pass ∈ p.registered, pass.Keeps) → rest = []) := by
  cases ho : p.order? with
  | none => exact absurd ((order?_eq_none_iff_of_nodup hn).mp ho) ha
  | some order =>
    obtain ⟨hperm, hq⟩ := (order?_eq_some_iff hn).mp ho
    obtain ⟨executed, rest, rfl, hexec, hend⟩ :=
      exists_executed_of_order? ho dump node store context
    refine ⟨_, rfl, hperm, hq, ⟨fun h ↦ h ▸ hq, fun h ↦ ?_⟩, executed, rest, rfl, hexec, hend,
      fun hd hnode hk ↦ ?_⟩
    · have hregistered := (order?_eq_some_iff hn).mpr ⟨.refl _, h⟩
      exact Option.some.inj (ho.symm.trans hregistered)
    · obtain ⟨id, hok⟩ := hexec.exists_ok hd hnode fun pass hp ↦
        hk pass (hperm.subset (List.mem_append_left _ hp))
      rcases hend with hrest | hdeleted | ⟨failure, hfailed⟩
      · exact hrest
      · cases hok.symm.trans hdeleted
      · cases hok.symm.trans hfailed

/-- The second pass becomes free when the third one waits already. -/
private def overtaking : Pipeline where
  registered := [.scripted "first" [] .keep, .scripted "second" ["first"] .keep,
    .scripted "third" [] .keep]

private theorem overtaking_nodup : (overtaking.registered.map Pass.name).Nodup := by decide

private theorem overtaking_not_circular : ¬overtaking.Circular :=
  not_circular_of_lt (fun pass ↦ pass.requires.length) (by decide)

private theorem keeps_scripted (name : String) (requires : List String) :
    (Pass.scripted name requires .keep).Keeps := by
  intro id st
  exact ⟨id, _, .bind (Walk.returns_modifyMemo _ st) (Walk.returns_pure _ _)⟩

/-- A pass without requirements overtakes one that waits. -/
theorem run_queued_overtaking :
    (overtaking.registered.map Pass.name).Nodup ∧ ¬overtaking.Circular ∧
      ∃ order, overtaking.order? = some order ∧ overtaking.Queued order ∧
        order.map Pass.name = ["first", "third", "second"] ∧
        Executed false order (some ⟨0⟩) ⟨.empty, .ofFiles [], []⟩ (.ok (some ⟨0⟩))
          (overtaking.run false (some ⟨0⟩) .empty (.ofFiles [])).2 := by
  obtain ⟨order, ho, -, hq, -, executed, rest, rfl, hexec, -, hall⟩ :=
    run_queued overtaking_nodup overtaking_not_circular false (some ⟨0⟩) .empty (.ofFiles [])
  have hnames : overtaking.order?.map (·.map Pass.name) = some ["first", "third", "second"] := rfl
  obtain rfl := hall rfl rfl (by simp [overtaking, keeps_scripted])
  rw [ho, List.append_nil] at hnames
  refine ⟨overtaking_nodup, overtaking_not_circular, _, ho, hq, ?_, ?_⟩
  · rw [List.append_nil]
    exact Option.some.inj hnames
  · rwa [List.append_nil]

/-- Passes that are registered after all that they require can run in another order: the third one
runs next although the second one, which is registered before it, is ready. -/
theorem ready_pass_overtaken :
    (overtaking.registered.map Pass.name).Nodup ∧ ¬overtaking.Circular ∧
      overtaking.InOrder overtaking.registered ∧
      overtaking.registered.map Pass.name = ["first", "second", "third"] ∧
      overtaking.Ready (.scripted "second" ["first"] .keep) [.scripted "first" [] .keep] ∧
      (overtaking.run false (some ⟨0⟩) .empty (.ofFiles [])).2.context.journal =
        [.ran "first", .ran "third", .ran "second"] := by
  have hneeds (pass other : Pass) (h : overtaking.Needs pass other) :
      pass = .scripted "second" ["first"] .keep ∧ other = .scripted "first" [] .keep := by
    obtain ⟨hp, ho, hr⟩ := h
    simp only [overtaking, List.mem_cons, List.not_mem_nil, or_false] at hp ho
    rcases hp with rfl | rfl | rfl <;> rcases ho with rfl | rfl | rfl <;>
      simp_all [Pass.scripted]
  refine ⟨overtaking_nodup, overtaking_not_circular, ?_, rfl, ?_, rfl⟩
  · intro before pass after hsplit other h
    obtain ⟨rfl, rfl⟩ := hneeds pass other h
    cases before with
    | nil => simp [overtaking, Pass.scripted] at hsplit
    | cons first before =>
      obtain ⟨rfl, -⟩ := List.cons_eq_cons.mp hsplit
      exact List.mem_cons_self
  · intro other h
    rw [(hneeds _ other h).2]
    exact List.mem_cons_self

end Pipeline

end Hil
