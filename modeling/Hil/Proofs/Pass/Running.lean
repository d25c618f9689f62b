import Hil.Pass.Pipeline
import Hil.Pass.Scripted
import Hil.Proofs.Schedule.Order
import Hil.Proofs.Walk.Returns

/-!
# Runs of passes

Passes run one after the other as long as there is a tree and nothing fails. So what runs of an
order is its beginning, up to a pass that deletes the tree or fails. Registered passes that are
pairwise distinct run in an order that respects their requirements, unless a requirement is
circular. Where passes are registered repeatedly, no pass runs if a repeated one requires another,
and a pass can run before one that it requires.
-/

namespace Hil.Pipeline

variable {p : Pipeline} {pass other : Pass} {passes order executed before after : List Pass}
  {dump : Bool} {node : Option NodeId} {ran ran' : Ran} {failure : Failure}
  {outcome : Except Failure (Option NodeId)}

/-! ### What runs -/

/-- The passes run one after the other, each on the tree that the one before has returned, and end
with the outcome. A failure is that of the last pass, or there is no text of the tree that is to be
logged after it. -/
inductive Executed (dump : Bool) :
    List Pass → Option NodeId → Ran → Except Failure (Option NodeId) → Ran → Prop
  | nil (node : Option NodeId) (ran : Ran) : Executed dump [] node ran (.ok node) ran
  | cons {pass : Pass} {passes : List Pass} {id : NodeId} {node : Option NodeId} {ran ran' : Ran}
      {st : WalkState Context} {lines : List String} {outcome : Except Failure (Option NodeId)}
      (returns : (pass.run (some id)).Returns ⟨ran.store, ran.context⟩ node st)
      (logs : dumpLines? dump pass st.store node = some lines)
      (rest : Executed dump passes node ⟨st.store, st.memo, ran.log ++ lines⟩ outcome ran') :
      Executed dump (pass :: passes) (some id) ran outcome ran'
  | failed {pass : Pass} {id : NodeId} {ran : Ran} {st : WalkState Context} {failure : Failure}
      (fails : (pass.run (some id)).run.run ⟨ran.store, ran.context⟩ = (.error failure, st)) :
      Executed dump [pass] (some id) ran (.error failure) ⟨st.store, st.memo, ran.log⟩
  | unwritten {pass : Pass} {id : NodeId} {node : Option NodeId} {ran : Ran}
      {st : WalkState Context}
      (returns : (pass.run (some id)).Returns ⟨ran.store, ran.context⟩ node st)
      (logs : dumpLines? dump pass st.store node = none) :
      Executed dump [pass] (some id) ran (.error .notJson) ⟨st.store, st.memo, ran.log⟩

/-- After an end there is nothing more to run: no pass is left, the tree is deleted, or there is a
failure. -/
def Ended (outcome : Except Failure (Option NodeId)) (rest : List Pass) : Prop :=
  rest = [] ∨ outcome = .ok none ∨ ∃ failure, outcome = .error failure

/-- Of an order there runs a beginning. -/
theorem exists_executed (dump : Bool) (order : List Pass) (node : Option NodeId) (ran : Ran) :
    ∃ executed rest, order = executed ++ rest ∧
      Executed dump executed node ran (runOrder dump order node ran).1
        (runOrder dump order node ran).2 ∧
      Ended (runOrder dump order node ran).1 rest := by
  induction order generalizing node ran with
  | nil => exact ⟨[], [], rfl, .nil node ran, .inl rfl⟩
  | cons pass order ih =>
    cases node with
    | none => exact ⟨[], pass :: order, rfl, .nil none ran, .inr (.inl rfl)⟩
    | some id =>
      rw [runOrder]
      rcases hrun : (pass.run (some id)).runFrom ran.store ran.context with ⟨failure | node, st⟩
      · exact ⟨[pass], order, rfl, .failed hrun, .inr (.inr ⟨failure, rfl⟩)⟩
      · cases hlog : dumpLines? dump pass st.store node with
        | none =>
          simp only [hlog]
          exact ⟨[pass], order, rfl, .unwritten hrun hlog, .inr (.inr ⟨.notJson, rfl⟩)⟩
        | some lines =>
          simp only [hlog]
          obtain ⟨executed, rest, rfl, hexec, hend⟩ :=
            ih node ⟨st.store, st.memo, ran.log ++ lines⟩
          exact ⟨pass :: executed, rest, rfl, .cons hrun hlog hexec, hend⟩

/-- What runs and fails makes any order fail that begins with it. -/
theorem Executed.runOrder_eq (h : Executed dump executed node ran (.error failure) ran')
    (rest : List Pass) : runOrder dump (executed ++ rest) node ran = (.error failure, ran') := by
  generalize houtcome : Except.error failure = outcome at h
  induction h with
  | nil => cases houtcome
  | cons returns logs _ ih =>
    cases houtcome
    have hrun : _ = _ := returns
    rw [List.cons_append, runOrder, Walk.runFrom, hrun]
    simp only [logs]
    exact ih rfl
  | failed fails =>
    cases houtcome
    rw [List.cons_append, runOrder, Walk.runFrom, fails]
  | unwritten returns logs =>
    cases houtcome
    have hrun : _ = _ := returns
    rw [List.cons_append, runOrder, Walk.runFrom, hrun]
    simp only [logs]

/-- A failure is that of a pass that runs, or comes of logging. -/
theorem Executed.exists_fails (h : Executed dump executed node ran (.error failure) ran') :
    (dump = true ∧ failure = .notJson) ∨ ∃ pass ∈ executed, ∃ id st st',
      (pass.run (some id)).run.run st = (.error failure, st') := by
  generalize houtcome : Except.error failure = outcome at h
  induction h with
  | nil => cases houtcome
  | cons _ _ _ ih =>
    refine (ih houtcome).imp_right ?_
    rintro ⟨pass, hpass, hfails⟩
    exact ⟨pass, List.mem_cons_of_mem _ hpass, hfails⟩
  | failed fails =>
    cases houtcome
    exact .inr ⟨_, List.mem_cons_self, _, _, _, fails⟩
  | unwritten _ logs =>
    cases houtcome
    cases dump with
    | false => cases logs
    | true => exact .inl ⟨rfl, rfl⟩

/-! ### Requirements -/

/-- A registered pass requires another one directly. -/
def Needs (p : Pipeline) (pass other : Pass) : Prop :=
  pass ∈ p.registered ∧ other ∈ p.registered ∧ other.name ∈ pass.requires

/-- A registered pass requires itself, directly or by way of other registered passes. -/
def Circular (p : Pipeline) : Prop := ∃ pass, Relation.TransGen p.Needs pass pass

/-- Requirements along which a rank falls are not circular. -/
theorem not_circular_of_lt (rank : Pass → Nat)
    (hfalls : ∀ pass ∈ p.registered, ∀ other ∈ p.registered, other.name ∈ pass.requires →
      rank other < rank pass) : ¬p.Circular := by
  rintro ⟨pass, hself⟩
  refine Schedule.not_transGen_self rank ?_ pass hself
  exact fun pass other hneeds ↦ hfalls pass hneeds.1 other hneeds.2.1 hneeds.2.2

/-- Each pass comes after all registered passes that it requires. -/
def InOrder (p : Pipeline) (order : List Pass) : Prop :=
  ∀ before pass after, order = before ++ pass :: after →
    ∀ other, p.Needs pass other → other ∈ before

/-- A pass is registered more than once. -/
def Repeated (p : Pipeline) (pass : Pass) : Prop :=
  1 < (p.registered.map Pass.name).count pass.name

/-- Registered passes of one name are one pass. -/
def Named (p : Pipeline) : Prop :=
  ∀ pass ∈ p.registered, ∀ other ∈ p.registered, pass.name = other.name → pass = other

/-- Distinct passes have distinct names. -/
theorem named_of_nodup (hn : (p.registered.map Pass.name).Nodup) : p.Named :=
  fun _ hp _ ho he ↦ List.inj_on_of_nodup_map hn hp ho he

namespace Named

/-- A registered pass is found under its name. -/
theorem ofName?_eq (h : p.Named) (hp : pass ∈ p.registered) :
    Pass.ofName? p.registered pass.name = some pass := by
  unfold Pass.ofName?
  cases hfind : p.registered.find? (·.name == pass.name) with
  | none => simp [List.find?_eq_none] at hfind; exact absurd rfl (hfind pass hp)
  | some found =>
    have hname : found.name = pass.name := by simpa using List.find?_some hfind
    rw [h found (List.mem_of_find?_eq_some hfind) pass hp hname]

/-- The requirements of a registered pass are its own. -/
theorem requires_eq (h : p.Named) (hp : pass ∈ p.registered) :
    p.requires pass.name = pass.requires := by
  rw [requires, h.ofName?_eq hp]
  rfl

/-- What a registered pass requires is named in what the task of its name requires. -/
theorem mem_requirements_iff (h : p.Named) (hp : pass ∈ p.registered) {name : String} :
    name ∈ Schedule.requirements p.requires (p.registered.map Pass.name) pass.name ↔
      ∃ other, p.Needs pass other ∧ other.name = name := by
  rw [Schedule.mem_requirements_iff, h.requires_eq hp, List.mem_map]
  constructor
  · rintro ⟨⟨other, ho, rfl⟩, hr⟩
    exact ⟨other, ⟨hp, ho, hr⟩, rfl⟩
  · rintro ⟨other, ⟨-, ho, hr⟩, rfl⟩
    exact ⟨⟨other, ho, rfl⟩, hr⟩

/-- A requirement is circular among passes exactly if it is among their names. -/
theorem circular_iff (h : p.Named) :
    p.Circular ↔ Schedule.Circular p.requires (p.registered.map Pass.name) := by
  constructor
  · rintro ⟨pass, hself⟩
    refine ⟨pass.name, hself.lift Pass.name fun a b hn ↦ ⟨List.mem_map_of_mem hn.1, ?_⟩⟩
    exact (h.mem_requirements_iff hn.1).mpr ⟨b, hn, rfl⟩
  · rintro ⟨name, hself⟩
    have hlift : ∀ other, Relation.TransGen
        (Schedule.Needs p.requires (p.registered.map Pass.name)) name other →
        ∀ pass ∈ p.registered, pass.name = name →
          ∃ found ∈ p.registered, found.name = other ∧ Relation.TransGen p.Needs pass found := by
      intro other hpath
      induction hpath with
      | single hn =>
        rintro pass hp rfl
        obtain ⟨found, hneeds, hname⟩ := (h.mem_requirements_iff hp).mp hn.2
        exact ⟨found, hneeds.2.1, hname, .single hneeds⟩
      | tail _ hn ih =>
        intro pass hp hname
        obtain ⟨middle, hm, rfl, hpath⟩ := ih pass hp hname
        obtain ⟨found, hneeds, hfound⟩ := (h.mem_requirements_iff hm).mp hn.2
        exact ⟨found, hneeds.2.1, hfound, hpath.tail hneeds⟩
    obtain ⟨pass, hp, rfl⟩ : ∃ pass ∈ p.registered, pass.name = name := by
      obtain ⟨_, hneeds, _⟩ := Relation.TransGen.head'_iff.mp hself
      exact List.mem_map.mp hneeds.1
    obtain ⟨found, hf, hname, hpath⟩ := hlift pass.name hself pass hp rfl
    exact ⟨pass, h found hf pass hp hname ▸ hpath⟩

/-- Registered passes are found under their names. -/
theorem filterMap_names (h : p.Named) (hsub : order ⊆ p.registered) :
    (order.map Pass.name).filterMap (Pass.ofName? p.registered) = order := by
  have hfound (pass : Pass) (hp : pass ∈ order) :
      (Pass.ofName? p.registered ∘ Pass.name) pass = some pass := h.ofName?_eq (hsub hp)
  rw [List.filterMap_map, List.filterMap_congr hfound]
  exact List.filterMap_some

/-- An order of the names of registered passes orders the passes. -/
theorem perm_of_names (h : p.Named) {names : List String}
    (hperm : names.Perm (p.registered.map Pass.name)) :
    (names.filterMap (Pass.ofName? p.registered)).Perm p.registered ∧
      (names.filterMap (Pass.ofName? p.registered)).map Pass.name = names := by
  constructor
  · exact (hperm.filterMap _).trans (.of_eq (h.filterMap_names fun _ hp ↦ hp))
  · rw [List.map_filterMap]
    have hsame (name : String) (hn : name ∈ names) :
        (Pass.ofName? p.registered name).map Pass.name = some name := by
      obtain ⟨pass, hp, rfl⟩ := List.mem_map.mp (hperm.mem_iff.mp hn)
      rw [h.ofName?_eq hp]
      rfl
    rw [List.filterMap_congr hsame]
    exact List.filterMap_some

/-- An order of passes runs every registration, in an order of their names. -/
theorem perm_of_order? (h : p.Named) (ho : p.order? = some order) :
    order.Perm p.registered ∧
      Schedule.order? p.requires (p.registered.map Pass.name) = some (order.map Pass.name) := by
  obtain ⟨names, hnames, rfl⟩ := Option.map_eq_some_iff.mp ho
  obtain ⟨hperm, hsame⟩ := h.perm_of_names (Schedule.perm_of_order? hnames).1
  exact ⟨hperm, hsame.symm ▸ hnames⟩

/-- A pass comes after another that it requires if its name comes after what that name requires. -/
theorem mem_of_satisfied (h : p.Named) (hsub : before ⊆ p.registered)
    (hs : Schedule.Satisfied p.requires (p.registered.map Pass.name) pass.name
      (before.map Pass.name)) (hneeds : p.Needs pass other) : other ∈ before := by
  have hname : other.name ∈ before.map Pass.name :=
    hs other.name ((h.mem_requirements_iff hneeds.1).mpr ⟨other, hneeds, rfl⟩)
  obtain ⟨found, hf, hsame⟩ := List.mem_map.mp hname
  rw [← h found (hsub hf) other hneeds.2.1 hsame]
  exact hf

end Named

/-- A place in an order of passes is one in the order of their names. -/
theorem map_name_of_split (hsplit : order = before ++ pass :: after) :
    order.map Pass.name = before.map Pass.name ++ pass.name :: after.map Pass.name := by
  rw [hsplit, List.map_append, List.map_cons]

/-- Without an order nothing runs. -/
theorem run_of_order?_eq_none (ho : p.order? = none) (store : Store) (context : Context) :
    p.run dump node store context = (.error .circularPasses, ⟨store, context, []⟩) := by
  rw [run, ho]

/-- With an order, a beginning of it runs. -/
theorem exists_executed_of_order? (ho : p.order? = some order) (dump : Bool)
    (node : Option NodeId) (store : Store) (context : Context) :
    ∃ executed rest, order = executed ++ rest ∧
      Executed dump executed node ⟨store, context, []⟩ (p.run dump node store context).1
        (p.run dump node store context).2 ∧
      Ended (p.run dump node store context).1 rest := by
  rw [run, ho]
  exact exists_executed dump order node ⟨store, context, []⟩

/-- The passes of an order are registered. -/
theorem mem_registered_of_order? (ho : p.order? = some order) (hp : pass ∈ order) :
    pass ∈ p.registered := by
  obtain ⟨names, -, rfl⟩ := Option.map_eq_some_iff.mp ho
  obtain ⟨name, -, hname⟩ := List.mem_filterMap.mp hp
  exact List.mem_of_find?_eq_some hname

/-- A run ends with a problem exactly if a beginning of the order does. -/
theorem run_eq_problem_iff {store : Store} {context : Context} {problem : Problem} :
    p.run dump node store context = (.error (.problem problem), ran) ↔
      ∃ executed rest, p.order? = some (executed ++ rest) ∧
        Executed dump executed node ⟨store, context, []⟩ (.error (.problem problem)) ran := by
  constructor
  · intro hrun
    cases ho : p.order? with
    | none =>
      rw [run_of_order?_eq_none ho] at hrun
      cases hrun
    | some order =>
      obtain ⟨executed, rest, rfl, hexec, -⟩ :=
        exists_executed_of_order? ho dump node store context
      rw [hrun] at hexec
      exact ⟨executed, rest, rfl, hexec⟩
  · rintro ⟨executed, rest, ho, hexec⟩
    rw [run, ho]
    exact hexec.runOrder_eq rest

/-! ### Distinct passes -/

/-- Distinct passes have no order exactly if a requirement is circular. -/
theorem order?_eq_none_iff_of_nodup (hn : (p.registered.map Pass.name).Nodup) :
    p.order? = none ↔ p.Circular := by
  rw [order?, Option.map_eq_none_iff, Schedule.order?_eq_none_iff_circular hn]
  exact (named_of_nodup hn).circular_iff.symm

/-- In an order of distinct passes, each comes after all that it requires. -/
theorem inOrder_of_order? (hn : (p.registered.map Pass.name).Nodup)
    (ho : p.order? = some order) : p.InOrder order := by
  have hnamed : p.Named := named_of_nodup hn
  obtain ⟨hperm, hnames⟩ := hnamed.perm_of_order? ho
  intro before pass after hsplit other hneeds
  apply hnamed.mem_of_satisfied ?_ ?_ hneeds
  · exact fun _ hb ↦ hperm.subset (hsplit ▸ List.mem_append_left _ hb)
  · exact Schedule.satisfied_of_distinct hn hnames (map_name_of_split hsplit)

/-- Distinct passes fail before any of them runs if a requirement is circular. If none is, they run
in an order in which each comes after all that it requires, up to one that deletes the tree or
fails. -/
theorem run_distinct (hn : (p.registered.map Pass.name).Nodup) (dump : Bool)
    (node : Option NodeId) (store : Store) (context : Context) :
    (p.order? = none ↔ p.Circular) ∧
    (p.Circular →
      p.run dump node store context = (.error .circularPasses, ⟨store, context, []⟩)) ∧
    (¬p.Circular → ∃ executed rest, (executed ++ rest).Perm p.registered ∧
      p.InOrder (executed ++ rest) ∧
      Executed dump executed node ⟨store, context, []⟩ (p.run dump node store context).1
        (p.run dump node store context).2 ∧
      Ended (p.run dump node store context).1 rest) := by
  have hnone : p.order? = none ↔ p.Circular := order?_eq_none_iff_of_nodup hn
  refine ⟨hnone, fun hc ↦ run_of_order?_eq_none (hnone.mpr hc) store context, fun ha ↦ ?_⟩
  cases ho : p.order? with
  | none => exact absurd (hnone.mp ho) ha
  | some order =>
    obtain ⟨executed, rest, rfl, hexec, hend⟩ :=
      exists_executed_of_order? ho dump node store context
    exact ⟨executed, rest, ((named_of_nodup hn).perm_of_order? ho).1, inOrder_of_order? hn ho,
      hexec, hend⟩

/-- Three passes, registered against their requirements, of which the second one deletes the
tree. -/
private def chained : Pipeline where
  registered := [.scripted "last" ["middle", "middle", "absent"] .keep,
    .scripted "middle" ["first"] .delete, .scripted "first" [] .keep]

/-- Passes that are registered against a chain of requirements run in the order of the chain. -/
theorem run_distinct_chained :
    (chained.registered.map Pass.name).Nodup ∧ ¬chained.Circular ∧
      ∃ executed rest, (executed ++ rest).Perm chained.registered ∧
        chained.InOrder (executed ++ rest) ∧
        Executed false executed (some ⟨0⟩) ⟨.empty, .ofFiles [], []⟩ (.ok none)
          (chained.run false (some ⟨0⟩) .empty (.ofFiles [])).2 := by
  have hn : (chained.registered.map Pass.name).Nodup := by decide
  obtain ⟨hnone, -, hruns⟩ := run_distinct hn false (some ⟨0⟩) .empty (.ofFiles [])
  have ha : ¬chained.Circular := by
    intro hc
    have ho : chained.order?.isNone = true := by rw [hnone.mpr hc]; rfl
    revert ho
    decide
  obtain ⟨executed, rest, hperm, horder, hexec, -⟩ := hruns ha
  exact ⟨hn, ha, executed, rest, hperm, horder, hexec⟩

/-! ### Repeated passes -/

namespace Named

/-- The name of a registered pass requires nothing registered exactly if the pass does not. -/
theorem requirements_ne_nil_iff (h : p.Named) (hp : pass ∈ p.registered) :
    Schedule.requirements p.requires (p.registered.map Pass.name) pass.name ≠ [] ↔
      ∃ other, p.Needs pass other := by
  constructor
  · intro hne
    obtain ⟨name, hname⟩ := List.exists_mem_of_ne_nil _ hne
    obtain ⟨other, hneeds, -⟩ := (h.mem_requirements_iff hp).mp hname
    exact ⟨other, hneeds⟩
  · rintro ⟨other, hneeds⟩
    exact List.ne_nil_of_mem ((h.mem_requirements_iff hp).mpr ⟨other, hneeds, rfl⟩)

/-- The name of a pass that requires one registered pass at most requires one name at most. -/
theorem length_requirements_le_one (h : p.Named) (hp : pass ∈ p.registered)
    (hone : ∀ other other', p.Needs pass other → p.Needs pass other' → other = other') :
    (Schedule.requirements p.requires (p.registered.map Pass.name) pass.name).length ≤ 1 := by
  have hn := Schedule.nodup_requirements p.requires (p.registered.map Pass.name) pass.name
  have hmem : ∀ name, name ∈ Schedule.requirements p.requires (p.registered.map Pass.name)
      pass.name ↔ ∃ other, p.Needs pass other ∧ other.name = name :=
    fun _ ↦ h.mem_requirements_iff hp
  match Schedule.requirements p.requires (p.registered.map Pass.name) pass.name, hn, hmem with
  | [], _, _ => exact Nat.zero_le 1
  | [_], _, _ => exact Nat.le_refl 1
  | a :: b :: _, hn, hmem =>
    obtain ⟨other, ho, rfl⟩ := (hmem a).mp List.mem_cons_self
    obtain ⟨other', ho', rfl⟩ := (hmem b).mp (List.mem_cons_of_mem _ List.mem_cons_self)
    rw [hone other other' ho ho'] at hn
    exact absurd List.mem_cons_self (List.nodup_cons.mp hn).1

/-- When no requirement is circular, there is no order exactly if a pass that requires another one
is registered more than once. -/
theorem order?_eq_none_iff_repeated (h : p.Named) (ha : ¬p.Circular) :
    p.order? = none ↔ ∃ pass other, p.Repeated pass ∧ p.Needs pass other := by
  rw [order?, Option.map_eq_none_iff,
    Schedule.order?_eq_none_iff_of_not_circular fun hc ↦ ha (h.circular_iff.mpr hc)]
  constructor
  · rintro ⟨name, hmem, hcount, hrequires⟩
    obtain ⟨pass, hp, rfl⟩ := List.mem_map.mp hmem
    obtain ⟨other, hneeds⟩ := (h.requirements_ne_nil_iff hp).mp hrequires
    exact ⟨pass, other, hcount, hneeds⟩
  · rintro ⟨pass, other, hcount, hneeds⟩
    exact ⟨pass.name, List.mem_map_of_mem hneeds.1, hcount,
      (h.requirements_ne_nil_iff hneeds.1).mpr ⟨other, hneeds⟩⟩

/-- In an order, a pass comes after all that it requires if none of that is registered more than
once, or if it requires one registered pass at most. -/
theorem mem_of_order? (h : p.Named) (ho : p.order? = some order)
    (hsplit : order = before ++ pass :: after)
    (hone : (∀ other, p.Needs pass other → ¬p.Repeated other) ∨
      ∀ other other', p.Needs pass other → p.Needs pass other' → other = other')
    (hneeds : p.Needs pass other) : other ∈ before := by
  obtain ⟨hperm, hnames⟩ := h.perm_of_order? ho
  apply h.mem_of_satisfied ?_ ?_ hneeds
  · exact fun _ hb ↦ hperm.subset (hsplit ▸ List.mem_append_left _ hb)
  · apply Schedule.satisfied_of_order? hnames (map_name_of_split hsplit)
    refine hone.symm.imp (h.length_requirements_le_one hneeds.1) fun hdistinct name hname ↦ ?_
    obtain ⟨other, ho, rfl⟩ := (h.mem_requirements_iff hneeds.1).mp hname
    exact Nat.not_lt.mp (hdistinct other ho)

end Named

/-- Passes without a circular requirement fail before any of them runs if one that requires another
is registered more than once. If none is, every registration has its place in an order, and a pass
comes after all that it requires if none of that is registered more than once, or if it requires one
registered pass at most. -/
theorem run_repeated (h : p.Named) (ha : ¬p.Circular) (dump : Bool) (node : Option NodeId)
    (store : Store) (context : Context) :
    (p.order? = none ↔ ∃ pass other, p.Repeated pass ∧ p.Needs pass other) ∧
    (p.order? = none →
      p.run dump node store context = (.error .circularPasses, ⟨store, context, []⟩)) ∧
    ∀ order, p.order? = some order →
      order.Perm p.registered ∧
      (∀ before pass after, order = before ++ pass :: after →
        (∀ other, p.Needs pass other → ¬p.Repeated other) ∨
          (∀ other other', p.Needs pass other → p.Needs pass other' → other = other') →
        ∀ other, p.Needs pass other → other ∈ before) ∧
      ∃ executed rest, order = executed ++ rest ∧
        Executed dump executed node ⟨store, context, []⟩ (p.run dump node store context).1
          (p.run dump node store context).2 ∧
        Ended (p.run dump node store context).1 rest := by
  refine ⟨h.order?_eq_none_iff_repeated ha, fun ho ↦ run_of_order?_eq_none ho store context,
    fun order ho ↦ ⟨(h.perm_of_order? ho).1, ?_, exists_executed_of_order? ho dump node store
      context⟩⟩
  intro before pass after hsplit hone other hneeds
  exact h.mem_of_order? ho hsplit hone hneeds

/-- A pass that requires another one, and is registered twice. -/
private def twice : Pipeline where
  registered := [.scripted "first" [] .keep, .scripted "last" ["first"] .keep,
    .scripted "last" ["first"] .keep]

/-- Two runs of one pass count as the runs of the two passes that the last one requires. -/
private def overtaken : Pipeline where
  registered := [.scripted "first" [] .keep, .scripted "first" [] .keep,
    .scripted "second" [] .keep, .scripted "third" ["second"] .keep,
    .scripted "last" ["first", "third"] .keep]

private theorem twice_named : twice.Named := by
  simp [Named, twice, Pass.scripted]

private theorem overtaken_named : overtaken.Named := by
  simp [Named, overtaken, Pass.scripted]

private theorem twice_not_circular : ¬twice.Circular :=
  not_circular_of_lt (fun pass ↦ pass.requires.length) (by decide)

private theorem overtaken_not_circular : ¬overtaken.Circular :=
  not_circular_of_lt (fun pass ↦ pass.requires.length) (by decide)

/-- A pass runs after the one that it requires, although another is registered twice. -/
theorem run_repeated_overtaken :
    overtaken.Named ∧ ¬overtaken.Circular ∧ ∃ order, overtaken.order? = some order ∧
      order.Perm overtaken.registered ∧
      ∀ before after, order = before ++ .scripted "third" ["second"] .keep :: after →
        .scripted "second" [] .keep ∈ before := by
  obtain ⟨-, -, hruns⟩ :=
    run_repeated overtaken_named overtaken_not_circular false (some ⟨0⟩) .empty (.ofFiles [])
  cases ho : overtaken.order? with
  | none =>
    have hsome : overtaken.order?.isSome = true := by rfl
    rw [ho] at hsome
    cases hsome
  | some order =>
    obtain ⟨hperm, hbefore, -⟩ := hruns order ho
    refine ⟨overtaken_named, overtaken_not_circular, order, rfl, hperm, ?_⟩
    intro before after hsplit
    refine hbefore before _ after hsplit (.inl ?_) _ (by simp [Needs, overtaken, Pass.scripted])
    simp [Needs, Repeated, overtaken, Pass.scripted]

/-- Passes of which no requirement is circular can fail as if one were, and can run before a pass
that they require. -/
theorem repeated_not_in_order :
    (twice.Named ∧ ¬twice.Circular ∧
      twice.run false (some ⟨0⟩) .empty (.ofFiles []) =
        (.error .circularPasses, ⟨.empty, .ofFiles [], []⟩)) ∧
    overtaken.Named ∧ ¬overtaken.Circular ∧
      overtaken.order?.map (·.map Pass.name) = some ["first", "first", "second", "last", "third"] ∧
      overtaken.requires "last" = ["first", "third"] :=
  ⟨⟨twice_named, twice_not_circular, rfl⟩, overtaken_named, overtaken_not_circular, rfl, rfl⟩

end Hil.Pipeline
