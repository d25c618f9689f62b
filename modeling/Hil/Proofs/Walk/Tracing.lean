import Hil.Proofs.Store.Layout
import Hil.Proofs.Walk.Returns

/-!
# Traced walks

A trail tells how far a walk has come: which nodes it has gone below, what they were before, and of
which of them the children are being visited. A traced walk keeps a trail beside the memo of its
visitors, which do not see it. Without the trail it is the walk; so the trail at the end of a traced
walk tells where the walk has ended, also where that is a failure.
-/

namespace Hil

/-! ### Steps of related walks -/

namespace Walk

variable {σ τ : Type}

/-- A relation between walks that single steps at a node are in, and that is kept when walks go on.
-/
structure Related (id : NodeId) (R : (α : Type) → Walk σ α → Walk τ α → Prop) : Prop where
  pure : ∀ {α : Type} (a : α), R α (Pure.pure a) (Pure.pure a)
  throw : ∀ {α : Type} (failure : Failure), R α (MonadExcept.throw failure)
    (MonadExcept.throw failure)
  bind : ∀ {α β : Type} {w : Walk σ α} {w' : Walk τ α} {k : α → Walk σ β} {k' : α → Walk τ β},
    R α w w' → (∀ a, R β (k a) (k' a)) → R β (w >>= k) (w' >>= k')
  cell : ∀ other, R Cell (Walk.cell other) (Walk.cell other)
  modifyShape : ∀ f, R Unit (Walk.modifyShape id f) (Walk.modifyShape id f)

namespace Related

open Visitor

variable {id : NodeId} {R : (α : Type) → Walk σ α → Walk τ α → Prop} {visit post : Visitor σ}
  {visit' post' : Visitor τ}

private theorem exprOnly (hR : Related id R) (h : ∀ node, R _ (visit node) (visit' node))
    (node : Option NodeId) : R _ (exprOnly visit node) (Visitor.exprOnly visit' node) := by
  refine hR.bind (h node) fun r ↦ ?_
  cases r with
  | none => exact hR.pure none
  | some child =>
    refine hR.bind (hR.cell child) fun cell ↦ ?_
    split
    · exact hR.pure (some child)
    · exact hR.throw _

private theorem survivors (hR : Related id R) (h : ∀ node, R _ (visit node) (visit' node))
    (children : List (Option NodeId)) :
    R _ (survivors visit children) (Visitor.survivors visit' children) := by
  induction children with
  | nil => exact hR.pure []
  | cons child children ih =>
    refine hR.bind (h child) fun r ↦ ?_
    cases r with
    | none => exact ih
    | some kept => exact hR.bind ih fun rest ↦ hR.pure (some kept :: rest)

private theorem listNode (hR : Related id R) (h : ∀ node, R _ (visit node) (visit' node))
    (hpost : ∀ node, R _ (post node) (post' node)) (children : List (Option NodeId))
    (shape : List (Option NodeId) → Shape (Option NodeId)) :
    R _ (listNode visit post id children shape)
      (Visitor.listNode visit' post' id children shape) := by
  refine hR.bind (hR.survivors h children) fun left ↦ ?_
  split
  · exact hR.pure none
  · exact hR.bind (hR.modifyShape _) fun _ ↦ hpost (some id)

private theorem mapValues (hR : Related id R) (h : ∀ node, R _ (visit node) (visit' node))
    (entries : List (Str × Option NodeId)) :
    R _ (mapValues visit id entries) (Visitor.mapValues visit' id entries) := by
  induction entries with
  | nil => exact hR.pure ()
  | cons entry entries ih =>
    refine hR.bind (h entry.2) fun r ↦ ?_
    cases r with
    | some value => exact hR.bind (hR.modifyShape _) fun _ ↦ ih
    | none =>
      refine hR.bind (hR.bind (hR.cell id) fun cell ↦ ?_) fun _ ↦ ih
      split
      · exact hR.modifyShape _
      · exact hR.throw _

private theorem slot (hR : Related id R) (h : ∀ node, R _ (visit node) (visit' node))
    (which : Slot) :
    R _ (slot visit id which) (Visitor.slot visit' id which) := by
  refine hR.bind (hR.cell id) fun cell ↦ hR.bind (h _) fun r ↦ ?_
  cases r with
  | some child => exact hR.pure child
  | none => exact hR.throw _

/-- What happens below a node is related when its steps at the node are, the visits of the children
and what follows them. -/
theorem descend (hR : Related id R) (h : ∀ node, R _ (visit node) (visit' node))
    (hpost : ∀ node, R _ (post node) (post' node)) (shape : Shape (Option NodeId)) :
    R _ (descend visit post id shape) (Visitor.descend visit' post' id shape) := by
  have hexpr := hR.exprOnly h
  cases shape with
  | arithmetic type exprs => exact hR.listNode hexpr hpost exprs _
  | call func type args => exact hR.listNode hexpr hpost args _
  | conditional type _ _ _ =>
    refine hR.bind (hR.slot hexpr .condition) fun c ↦ hR.bind (hR.slot hexpr .whenTrue) fun t ↦ ?_
    refine hR.bind (hR.slot hexpr .whenFalse) fun f ↦ hR.bind (hR.modifyShape _) fun _ ↦ ?_
    exact hpost (some id)
  | index type _ _ =>
    refine hR.bind (hR.slot hexpr .target) fun t ↦ hR.bind (hR.slot hexpr .key) fun k ↦ ?_
    exact hR.bind (hR.modifyShape _) fun _ ↦ hpost (some id)
  | literal | access => exact hpost (some id)
  | output type exprs => exact hR.listNode hexpr hpost exprs _
  | list elements => exact hR.listNode h hpost elements _
  | map entries => exact hR.bind (hR.mapValues h entries) fun _ ↦ hpost (some id)
  | foreign className => exact hR.throw _

end Related

end Walk

/-! ### Trails -/

/-- A node whose children are being visited, as it was when that began, with what the visits of the
first of them have returned. -/
structure Stage where
  id : NodeId
  cell : Cell
  results : List (Option NodeId)

/-- What is recorded of a walk: every node as it was when the walk began or when a visitor added it,
the nodes whose children have begun to be visited, the last first, and those whose children are
being visited, the innermost first. -/
structure Trail where
  first : NodeId → Cell
  begun : List NodeId
  stages : List Stage

namespace Trail

/-- The trail before a walk. -/
def ofStore (s : Store) : Trail := ⟨s.cell, [], []⟩

/-- The visit of the children of a node begins. -/
def enter (id : NodeId) (cell : Cell) (trail : Trail) : Trail :=
  { trail with begun := id :: trail.begun, stages := ⟨id, cell, []⟩ :: trail.stages }

/-- The visit of the children of a node is over, and that of the nodes above it goes on. -/
def back (above : List Stage) (trail : Trail) : Trail := { trail with stages := above }

/-- The stages after visits have returned to the innermost of them. -/
def noteAll (results : List (Option NodeId)) (stages : List Stage) : List Stage :=
  stages.modifyHead fun stage ↦ { stage with results := stage.results ++ results }

/-- The visit of a child has returned. -/
def note (result : Option NodeId) (trail : Trail) : Trail :=
  { trail with stages := noteAll [result] trail.stages }

/-- Records the nodes that have been added to a store. What is recorded of a node that has been
begun stays. -/
def extend (s s' : Store) (trail : Trail) : Trail :=
  { trail with first := fun id ↦
      if id.index < s.size ∨ id ∈ trail.begun then trail.first id else s'.cell id }

/-- No results leave the stages as they are. -/
@[simp] theorem noteAll_nil (stages : List Stage) : noteAll [] stages = stages := by
  cases stages <;> simp [noteAll]

/-- Results are noted in order. -/
theorem noteAll_noteAll (xs ys : List (Option NodeId)) (stages : List Stage) :
    noteAll ys (noteAll xs stages) = noteAll (xs ++ ys) stages := by
  cases stages <;> simp [noteAll]

/-- Results are noted at the innermost stage. -/
theorem noteAll_cons (results : List (Option NodeId)) (stage : Stage) (stages : List Stage) :
    noteAll results (stage :: stages) =
      { stage with results := stage.results ++ results } :: stages := rfl

end Trail

namespace WalkState

variable {σ : Type}

/-- The trail of a traced walk. -/
def trail (st : WalkState (σ × Trail)) : Trail := st.memo.2

/-- The state without the trail. -/
def bare (st : WalkState (σ × Trail)) : WalkState σ := ⟨st.store, st.memo.1⟩

/-- The state with a trail. -/
def traced (st : WalkState σ) (trail : Trail) : WalkState (σ × Trail) := ⟨st.store, st.memo, trail⟩

/-- The state with its trail changed. -/
def modifyTrail (st : WalkState (σ × Trail)) (f : Trail → Trail) : WalkState (σ × Trail) :=
  ⟨st.store, st.memo.1, f st.memo.2⟩

/-- The trail after it has been changed. -/
@[simp] theorem trail_modifyTrail (st : WalkState (σ × Trail)) (f : Trail → Trail) :
    (st.modifyTrail f).trail = f st.trail := rfl

/-- The trail of a state with a trail. -/
@[simp] theorem trail_traced (st : WalkState σ) (trail : Trail) :
    (st.traced trail).trail = trail := rfl

/-- A trail leaves the store as it is. -/
@[simp] theorem store_traced (st : WalkState σ) (trail : Trail) :
    (st.traced trail).store = st.store := rfl

end WalkState

namespace Walk

variable {σ α : Type}

/-- Runs a walk that does not see the trail, on which the nodes are recorded that it adds. -/
def aside (w : Walk σ α) : Walk (σ × Trail) α :=
  ExceptT.mk (modifyGet fun st ↦
    let (outcome, st') := w.run.run st.bare
    (outcome, st'.traced (st.trail.extend st.store st'.store)))

/-- Changes the trail. -/
def modifyTrail (f : Trail → Trail) : Walk (σ × Trail) Unit := modifyMemo (Prod.map id f)

/-- The trail. -/
def trail : Walk (σ × Trail) Trail := return (← get).trail

/-- What runs aside ends as it does alone, and the nodes it has added are recorded. -/
theorem run_aside (w : Walk σ α) (st : WalkState (σ × Trail)) :
    w.aside.run.run st = ((w.run.run st.bare).1,
      (w.run.run st.bare).2.traced
        (st.trail.extend st.store (w.run.run st.bare).2.store)) := rfl

/-- A change of the trail returns. -/
theorem returns_modifyTrail (f : Trail → Trail) (st : WalkState (σ × Trail)) :
    (modifyTrail f).Returns st () (st.modifyTrail f) := rfl

private theorem returns_trail (st : WalkState (σ × Trail)) : trail.Returns st st.trail st := rfl

end Walk

namespace Visitor

variable {σ : Type}

/-- The same visitor, of which it is noted what it returns. -/
def noted (visit : Visitor (σ × Trail)) : Visitor (σ × Trail) := fun node ↦ do
  let result ← visit node
  Walk.modifyTrail (Trail.note result)
  return result

/-- The same visitor, which is run when the children of a node have been visited and the stages
above it are left. -/
def after (above : List Stage) (post : Visitor σ) : Visitor (σ × Trail) := fun node ↦ do
  Walk.modifyTrail (Trail.back above)
  (post node).aside

/-- Visits the children of a node as a stage of the trail, and the node after them. -/
def within (visit : Visitor (σ × Trail)) (post : Visitor σ) (id : NodeId) :
    Walk (σ × Trail) (Option NodeId) := do
  let cell ← Walk.cell id
  let trail ← Walk.trail
  Walk.modifyTrail (Trail.enter id cell)
  let result ← descend (noted visit) (after trail.stages post) id cell.shape
  -- a node that has lost all its children is left here
  Walk.modifyTrail (Trail.back trail.stages)
  return result

/-- The traced walk of two visitors, down to a depth. -/
def tracedTo (pre post : Visitor σ) : Nat → Visitor (σ × Trail)
  | 0, _ => throw .tooDeep
  | depth + 1, node => do
    match ← (pre node).aside with
    | none => return none
    | some id => within (tracedTo pre post depth) post id

/-- The traced walk of two visitors. -/
def tracedNode (pre post : Visitor σ) : Visitor (σ × Trail) := fun node ↦ do
  tracedTo pre post ((← get).store.size + depthAllowance) node

end Visitor

/-- What happens below a node begins with its stage on the trail. -/
theorem Visitor.run_within {σ : Type} (visit : Visitor (σ × Trail)) (post : Visitor σ)
    (id : NodeId) (st : WalkState (σ × Trail)) :
    (within visit post id).run.run st =
      (do
        let result ← descend (noted visit) (after st.trail.stages post) id (st.store.cell id).shape
        Walk.modifyTrail (Trail.back st.trail.stages)
        return result : Walk (σ × Trail) (Option NodeId)).run.run
      (st.modifyTrail (Trail.enter id (st.store.cell id))) := rfl

/-! ### Traced walks without their trails -/

namespace Walk

variable {σ α β : Type} {w : Walk (σ × Trail) α} {w' : Walk σ α}

/-- The second walk is the first without its trail. -/
def Erases (w : Walk (σ × Trail) α) (w' : Walk σ α) : Prop :=
  ∀ st, w'.run.run st.bare = ((w.run.run st).1, (w.run.run st).2.bare)

private theorem erases_aside (w : Walk σ α) : w.aside.Erases w := fun st ↦ by rw [run_aside]; rfl

/-- What runs aside returns as it does without the trail. -/
theorem Returns.of_aside {w : Walk σ α} {st st' : WalkState (σ × Trail)} {a : α}
    (h : w.aside.Returns st a st') : w.Returns st.bare a st'.bare := by
  have herase := erases_aside w st
  rwa [h] at herase

private theorem Erases.bind {k : α → Walk (σ × Trail) β} {k' : α → Walk σ β} (h : w.Erases w')
    (hk : ∀ a, (k a).Erases (k' a)) : (w >>= k).Erases (w' >>= k') := by
  intro st
  rw [run_bind, run_bind, h st]
  rcases w.run.run st with ⟨_ | a, st'⟩
  · rfl
  · exact hk a st'

/-- A step that returns in the same state without its trail can be left out. -/
theorem Erases.skip {k : α → Walk (σ × Trail) β} {w'' : Walk σ β}
    (h : ∀ st, ∃ a st', w.Returns st a st' ∧ st'.bare = st.bare) (hk : ∀ a, (k a).Erases w'') :
    (w >>= k).Erases w'' := by
  intro st
  obtain ⟨a, st', hw, hbare⟩ := h st
  rw [run_bind, hw, ← hbare]
  exact hk a st'

private theorem Erases.skip_modifyTrail (f : Trail → Trail) {k : Unit → Walk (σ × Trail) β}
    {w'' : Walk σ β} (hk : (k ()).Erases w'') : (modifyTrail f >>= k).Erases w'' :=
  .skip (fun st ↦ ⟨(), _, returns_modifyTrail f st, rfl⟩) fun _ ↦ hk

/-- What holds where a walk ends, and after whatever it goes on with when it returns, holds where
all of it ends. -/
theorem holds_after_bind {P : WalkState σ → Prop} {w : Walk σ α} {k : α → Walk σ β}
    {st : WalkState σ} (hw : P (w.run.run st).2)
    (hk : ∀ a st', w.Returns st a st' → P st' → P ((k a).run.run st').2) :
    P ((w >>= k).run.run st).2 := by
  rw [run_bind]
  cases hrun : w.run.run st with
  | mk outcome st' =>
    rw [hrun] at hw
    cases outcome with
    | error failure => exact hw
    | ok a => exact hk a st' hrun hw

/-- To leave out trails is a relation that walks keep. -/
theorem related_erases (id : NodeId) : Related id (fun α ↦ @Erases σ α) where
  pure _ _ := rfl
  throw _ _ := rfl
  bind := .bind
  cell _ _ := rfl
  modifyShape _ _ := rfl

end Walk

namespace Visitor

open Walk

variable {σ : Type} (pre post : Visitor σ)

/-- A traced walk down to a depth is the walk when its trail is left out. -/
theorem erases_tracedTo (depth : Nat) (node : Option NodeId) :
    (tracedTo pre post depth node).Erases (visitTo pre post depth node) := by
  induction depth generalizing node with
  | zero => exact fun _ ↦ rfl
  | succ depth ih =>
    refine (erases_aside _).bind fun r ↦ ?_
    cases r with
    | none => exact fun _ ↦ rfl
    | some id =>
      refine .bind (fun _ ↦ rfl) fun cell ↦ ?_
      refine .skip (fun st ↦ ⟨_, _, returns_trail st, rfl⟩) fun trail ↦ .skip_modifyTrail _ ?_
      have hnoted (node : Option NodeId) :
          (noted (tracedTo pre post depth) node).Erases (visitTo pre post depth node) := by
        rw [← bind_pure (visitTo pre post depth node)]
        exact (ih node).bind fun r ↦ .skip_modifyTrail _ fun _ ↦ rfl
      have hafter (node : Option NodeId) :
          (after trail.stages post node).Erases (post node) := .skip_modifyTrail _ (erases_aside _)
      rw [← bind_pure (descend (visitTo pre post depth) post id cell.shape)]
      exact ((related_erases id).descend hnoted hafter cell.shape).bind fun r ↦
        .skip_modifyTrail _ fun _ ↦ rfl

/-- The traced walk is the one down to a depth that the store allows. -/
theorem run_tracedNode (node : Option NodeId) (st : WalkState (σ × Trail)) :
    (tracedNode pre post node).run.run st =
      (tracedTo pre post (st.store.size + depthAllowance) node).run.run st := by
  rw [tracedNode, run_bind]
  rfl

/-- A traced walk is the walk when its trail is left out. -/
theorem erases_tracedNode (node : Option NodeId) :
    (tracedNode pre post node).Erases (visitNode pre post node) := by
  intro st
  rw [run_visitNode, run_tracedNode]
  exact erases_tracedTo pre post _ node st

end Visitor

/-! ### What trails tell of nodes -/

/-- The visitor changes no nodes, though it may add some, also where it fails. -/
def Visitor.OnlyAdds {σ : Type} (visit : Visitor σ) : Prop :=
  ∀ node (st : WalkState σ), st.store.Extends ((visit node).run.run st).2.store

/-- The visitor that keeps nodes adds none. -/
theorem Visitor.onlyAdds_keep {σ : Type} : (keep : Visitor σ).OnlyAdds := fun _ st ↦ .refl st.store

namespace WalkState

variable {σ : Type} {s : Store} {st : WalkState (σ × Trail)} {held held' stages : List Stage}
  {id : NodeId}

/-- The trail is right about the nodes: those of the store from which the walk has started were at
first as they were there, those that have not been begun are as they were at first, and so were
those at the stages that are held and at those of the trail when they had not been begun before. -/
structure Accurate (s : Store) (held : List Stage) (st : WalkState (σ × Trail)) : Prop where
  size : s.size ≤ st.store.size
  start : ∀ id : NodeId, id.index < s.size → st.trail.first id = s.cell id
  unbegun : ∀ id, id ∉ st.trail.begun → st.store.cell id = st.trail.first id
  stages : ∀ stage ∈ held ++ st.trail.stages, stage.id ∈ st.trail.begun ∧
    (st.trail.begun.count stage.id = 1 → stage.cell = st.trail.first stage.id)

namespace Accurate

/-- The trail of a walk that has not begun is right. -/
theorem ofStore (st : WalkState σ) : Accurate st.store [] (st.traced (.ofStore st.store)) :=
  ⟨Nat.le_refl _, fun _ _ ↦ rfl, fun _ _ ↦ rfl, fun _ h ↦ absurd h List.not_mem_nil⟩

/-- Stages can be forgotten. -/
theorem back (h : Accurate s held st)
    (hs : ∀ stage ∈ held' ++ stages, stage ∈ held ++ st.trail.stages) :
    Accurate s held' (st.modifyTrail (Trail.back stages)) :=
  ⟨h.size, h.start, h.unbegun, fun stage hstage ↦ h.stages stage (hs stage hstage)⟩

/-- Stages that are held can be let go. -/
theorem of_subset (h : Accurate s held st) (hs : held' ⊆ held) : Accurate s held' st := by
  refine ⟨h.size, h.start, h.unbegun, fun stage hstage ↦ h.stages stage ?_⟩
  rw [List.mem_append] at hstage ⊢
  exact hstage.imp_left (@hs stage)

/-- What is noted of results is no matter. -/
theorem note (h : Accurate s held st) (r : Option NodeId) :
    Accurate s held (st.modifyTrail (Trail.note r)) := by
  refine ⟨h.size, h.start, h.unbegun, fun stage hstage ↦ ?_⟩
  obtain ⟨old, hold, hid, hcell⟩ : ∃ old ∈ held ++ st.trail.stages,
      old.id = stage.id ∧ old.cell = stage.cell := by
    change stage ∈ held ++ Trail.noteAll [r] st.trail.stages at hstage
    cases hstages : st.trail.stages with
    | nil => exact ⟨stage, by rwa [hstages] at hstage, rfl, rfl⟩
    | cons top above =>
      rw [hstages, Trail.noteAll_cons, List.mem_append, List.mem_cons] at hstage
      rcases hstage with hheld | rfl | habove
      · exact ⟨stage, List.mem_append_left _ hheld, rfl, rfl⟩
      · exact ⟨top, by simp, rfl, rfl⟩
      · exact ⟨stage, by simp [habove], rfl, rfl⟩
  rw [← hid, ← hcell]
  exact h.stages old hold

/-- A node whose children begin to be visited is as it was at first, unless it has been begun
before. -/
theorem enter (h : Accurate s held st) (id : NodeId) :
    Accurate s (⟨id, st.store.cell id, []⟩ :: st.trail.stages ++ held)
      (st.modifyTrail (Trail.enter id (st.store.cell id))) := by
  refine ⟨h.size, h.start, ?_, ?_⟩
  · intro other hother
    exact h.unbegun other fun hm ↦ hother (List.mem_cons_of_mem id hm)
  · intro stage hstage
    rw [WalkState.trail_modifyTrail, Trail.enter] at hstage ⊢
    have hmem : stage = ⟨id, st.store.cell id, []⟩ ∨ stage ∈ held ++ st.trail.stages := by
      simp only [List.mem_append, List.mem_cons] at hstage ⊢
      rcases hstage with ((h | h) | h) | h | h
      · exact .inl h
      · exact .inr (.inr h)
      · exact .inr (.inl h)
      · exact .inl h
      · exact .inr (.inr h)
    rcases hmem with rfl | hmem
    · refine ⟨List.mem_cons_self, fun hone ↦ h.unbegun id ?_⟩
      rw [List.count_cons_self, Nat.succ_inj] at hone
      exact List.count_eq_zero.mp hone
    · obtain ⟨hbegun, hfirst⟩ := h.stages stage hmem
      refine ⟨List.mem_cons_of_mem _ hbegun, fun hone ↦ hfirst ?_⟩
      -- a stage that has been begun once only is no other than the one that begins
      have hpos : 0 < st.trail.begun.count stage.id := List.count_pos_iff.mpr hbegun
      rw [List.count_cons] at hone
      omega

/-- A visitor that only adds nodes keeps the trail right. -/
theorem aside {visit : Visitor σ} (hadd : visit.OnlyAdds) (node : Option NodeId)
    (h : Accurate s held st) : Accurate s held ((visit node).aside.run.run st).2 := by
  have hext := hadd node st.bare
  rw [Walk.run_aside]
  generalize ((visit node).run.run st.bare).2 = after at hext
  refine ⟨Nat.le_trans h.size hext.size, ?_, ?_, ?_⟩
  · intro id hid
    exact (if_pos (.inl (Nat.lt_of_lt_of_le hid h.size))).trans (h.start id hid)
  · intro id hid
    simp only [WalkState.store_traced, WalkState.trail_traced, Trail.extend]
    by_cases hlt : id.index < st.store.size
    · rw [if_pos (.inl hlt), ← h.unbegun id hid]
      exact hext.cell id hlt
    · exact (if_neg (not_or.mpr ⟨hlt, hid⟩)).symm
  · intro stage hstage
    obtain ⟨hbegun, hfirst⟩ := h.stages stage hstage
    simp only [WalkState.trail_traced, Trail.extend]
    rw [if_pos (.inr hbegun)]
    exact ⟨hbegun, hfirst⟩

/-- A change of a node at a stage keeps the trail right. -/
theorem modifyShape (h : Accurate s held st) (hid : id ∈ held.map Stage.id)
    (f : Shape (Option NodeId) → Shape (Option NodeId)) :
    Accurate s held (st.modifyShape id f) := by
  have hsize := h.size.trans_eq (Store.size_modifyShape st.store id f).symm
  refine ⟨hsize, h.start, fun other hother ↦ ?_, h.stages⟩
  obtain ⟨stage, hstage, rfl⟩ := List.mem_map.mp hid
  have hbegun := (h.stages stage (List.mem_append_left _ hstage)).1
  have hne : other ≠ stage.id := fun he ↦ hother (he ▸ hbegun)
  exact (Store.cell_modifyShape_of_ne hne).trans (h.unbegun other hother)

end Accurate

end WalkState

namespace Visitor

open Walk WalkState

variable {σ : Type} {s : Store} {pre post : Visitor σ} {held : List Stage}
  {st : WalkState (σ × Trail)}

/-- Steps at a node of a stage that is held keep trails right. -/
theorem related_accurate {id : NodeId} (hid : id ∈ held.map Stage.id) :
    Related id fun α (w : Walk (σ × Trail) α) (_ : Walk (σ × Trail) α) ↦
      ∀ st, Accurate s held st → Accurate s held (w.run.run st).2 where
  pure _ _ h := h
  throw _ _ h := h
  bind hw hk st h :=
    holds_after_bind (P := Accurate s held) (hw st h) fun a st' _ h' ↦ hk a st' h'
  cell _ _ h := h
  modifyShape f _ h := h.modifyShape hid f

/-- What happens below a node keeps trails right when the visits of its children do. -/
theorem accurate_within {visit : Visitor (σ × Trail)}
    (hvisit : ∀ {held st} node, Accurate s held st → Accurate s held ((visit node).run.run st).2)
    (hpost : post.OnlyAdds) (id : NodeId) (h : Accurate s held st) :
    Accurate s held ((within visit post id).run.run st).2 := by
  let above := st.trail.stages
  -- the stage of the node is held until the end, as are those above it, to which the trail goes
  -- back
  let inner := ⟨id, st.store.cell id, []⟩ :: above ++ held
  have hback {st : WalkState (σ × Trail)} (h : Accurate s inner st) :
      Accurate s inner (st.modifyTrail (Trail.back above)) := by
    refine h.back fun stage hstage ↦ ?_
    simp only [inner, List.mem_append, List.mem_cons] at hstage ⊢
    rcases hstage with hstage | habove
    · exact .inl hstage
    · exact .inl (.inl (.inr habove))
  have hnoted (node : Option NodeId) (st : WalkState (σ × Trail)) (h : Accurate s inner st) :
      Accurate s inner ((noted visit node).run.run st).2 :=
    holds_after_bind (P := Accurate s inner) (hvisit node h) fun r st' _ h' ↦ h'.note r
  have hafter (node : Option NodeId) (st : WalkState (σ × Trail)) (h : Accurate s inner st) :
      Accurate s inner ((after above post node).run.run st).2 := (hback h).aside hpost node
  have hid : id ∈ inner.map Stage.id := List.mem_map_of_mem List.mem_cons_self
  have hdescend := @Related.descend _ _ _ _ (noted visit) (after above post) (noted visit)
    (after above post) (related_accurate hid) hnoted hafter (st.store.cell id).shape _ (h.enter id)
  have hwithin : Accurate s inner ((within visit post id).run.run st).2 := by
    rw [run_within]
    exact holds_after_bind (P := Accurate s inner) hdescend fun r st' _ h' ↦ hback h'
  exact hwithin.of_subset (List.subset_append_right _ _)

/-- The trail of a walk of visitors that only add nodes is right wherever the walk ends. -/
theorem accurate_tracedTo (hpre : pre.OnlyAdds) (hpost : post.OnlyAdds) (depth : Nat)
    (node : Option NodeId) (h : Accurate s held st) :
    Accurate s held ((tracedTo pre post depth node).run.run st).2 := by
  induction depth generalizing node held st with
  | zero => exact h
  | succ depth ih =>
    refine holds_after_bind (P := Accurate s held) (h.aside hpre node) fun r st₁ _ h₁ ↦ ?_
    cases r with
    | none => exact h₁
    | some id => exact accurate_within ih hpost id h₁

end Visitor
end Hil
