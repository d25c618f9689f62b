import Hil.Proofs.Walk.Deletion
import Hil.Proofs.Walk.Entries

/-!
# Walks that delete

A walk of two visitors that keep or delete nodes, by decisions that depend on the identity of a node
only, calls the visitors in the order of a tour of the layout and leaves the pruned layout. It ends
where it first comes to a parent that has lost a child it cannot do without.
-/

namespace Hil

/-- What happens in a walk of visitors that keep or delete nodes: a call of one, or the deletion of
a child that its parent cannot do without. -/
inductive WalkEvent where
  | call (phase : Phase) (id : NodeId)
  | lost (slot : Slot)

/-- What a call of the visitor of a phase with a node may make of a memo. -/
abbrev Noting (σ : Type) := Phase → NodeId → σ → σ → Prop

/-- What calls may make of a memo, one after the other. -/
inductive Noted {σ : Type} (note : Noting σ) : List (Phase × NodeId) → σ → σ → Prop
  | nil (memo : σ) : Noted note [] memo memo
  | cons {phase : Phase} {id : NodeId} {calls : List (Phase × NodeId)} {memo memo' memo'' : σ}
      (first : note phase id memo memo') (rest : Noted note calls memo' memo'') :
      Noted note ((phase, id) :: calls) memo memo''

/-- How events end, and what they may make of a memo: each call changes it, and the first lost slot
is a failure. -/
inductive Played {σ : Type} (note : Noting σ) :
    List WalkEvent → σ → Except Failure Unit → σ → Prop
  | nil (memo : σ) : Played note [] memo (.ok ()) memo
  | call {phase : Phase} {id : NodeId} {events : List WalkEvent} {outcome : Except Failure Unit}
      {memo memo' memo'' : σ} (first : note phase id memo memo')
      (rest : Played note events memo' outcome memo'') :
      Played note (.call phase id :: events) memo outcome memo''
  | lost (slot : Slot) (events : List WalkEvent) (memo : σ) :
      Played note (.lost slot :: events) memo (.error (.violation (.deletedSlot slot))) memo

/-- The events at a visit of an occurrence. -/
def Occurrence.events (d : Deletions) (o : Occurrence) (phase : Phase) : List WalkEvent :=
  (if o.called d phase then [.call phase o.id] else []) ++ (o.lost? d phase).toList.map .lost

/-- The events at visits of occurrences, in their order. -/
def eventsAt (d : Deletions) (visits : List (Phase × Occurrence)) : List WalkEvent :=
  visits.flatMap fun v ↦ v.2.events d v.1

section Events

variable {σ : Type} {note : Noting σ} {d : Deletions} {memo memo' memo'' : σ}
  {events events' : List WalkEvent} {outcome : Except Failure Unit}
  {calls calls' : List (Phase × NodeId)} {visits before after : List (Phase × Occurrence)}
  {v : Phase × Occurrence} {slot : Slot}

private theorem Noted.append (h : Noted note calls memo memo')
    (h' : Noted note calls' memo' memo'') :
    Noted note (calls ++ calls') memo memo'' := by
  induction h with
  | nil memo => exact h'
  | cons first _ ih => exact .cons first (ih h')

/-- Events that follow others happen if those go on to the end. -/
theorem Played.append (h : Played note events memo (.ok ()) memo')
    (h' : Played note events' memo' outcome memo'') :
    Played note (events ++ events') memo outcome memo'' := by
  generalize hdone : Except.ok () = done at h
  induction h with
  | nil memo => exact h'
  | call first _ ih => exact .call first (ih h' hdone)
  | lost => cases hdone

/-- Events that follow a failure do not happen. -/
theorem Played.append_of_error {failure : Failure}
    (h : Played note events memo (.error failure) memo') (events' : List WalkEvent) :
    Played note (events ++ events') memo (.error failure) memo' := by
  generalize hdone : Except.error failure = done at h ⊢
  induction h with
  | nil => cases hdone
  | call first _ ih => exact .call first (ih hdone)
  | lost slot events memo => exact .lost slot (events ++ events') memo

private theorem callsAt_append :
    callsAt d (before ++ after) = callsAt d before ++ callsAt d after := by
  simp [callsAt]

private theorem eventsAt_append :
    eventsAt d (before ++ after) = eventsAt d before ++ eventsAt d after :=
  List.flatMap_append

/-- While no slot is lost, the visitors are called in order. -/
theorem Played.noted (h : ∀ v ∈ before, v.2.lost? d v.1 = none)
    (hp : Played note (eventsAt d (before ++ visits)) memo outcome memo') :
    ∃ memo₁, Noted note (callsAt d before) memo memo₁ ∧
      Played note (eventsAt d visits) memo₁ outcome memo' := by
  induction before generalizing memo with
  | nil => exact ⟨memo, .nil memo, hp⟩
  | cons v before ih =>
    rw [List.forall_mem_cons] at h
    rw [List.cons_append, eventsAt, List.flatMap_cons, ← eventsAt, Occurrence.events, h.1] at hp
    rw [callsAt, List.filter_cons]
    cases hcalled : v.2.called d v.1 with
    | false =>
      rw [hcalled] at hp
      exact ih h.2 hp
    | true =>
      rw [hcalled] at hp
      cases hp with
      | call first rest =>
        obtain ⟨memo₁, hnoted, hplayed⟩ := ih h.2 rest
        exact ⟨memo₁, .cons first hnoted, hplayed⟩

/-- Visits at which no slot is lost go on to the end. -/
theorem played_eventsAt (h : ∀ v ∈ visits, v.2.lost? d v.1 = none)
    (hp : Played note (eventsAt d visits) memo outcome memo') :
    outcome = .ok () ∧ Noted note (callsAt d visits) memo memo' := by
  rw [← List.append_nil visits] at hp
  obtain ⟨memo₁, hnoted, hplayed⟩ := hp.noted h
  cases hplayed with
  | nil => exact ⟨rfl, hnoted⟩

/-- The first slot that is lost is what the visits come to. -/
theorem played_eventsAt_of_lost (h : ∀ v ∈ before, v.2.lost? d v.1 = none)
    (hlost : v.2.lost? d v.1 = some slot)
    (hp : Played note (eventsAt d (before ++ v :: after)) memo outcome memo') :
    outcome = .error (.violation (.deletedSlot slot)) ∧
      Noted note (callsAt d (before ++ [v])) memo memo' := by
  obtain ⟨memo₁, hnoted, hplayed⟩ := hp.noted h
  rw [eventsAt, List.flatMap_cons, Occurrence.events, hlost] at hplayed
  rw [callsAt_append]
  have hlast : callsAt d [v] = if v.2.called d v.1 then [(v.1, v.2.id)] else [] := by
    cases hc : v.2.called d v.1 <;> simp [callsAt, hc]
  cases hc : v.2.called d v.1 with
  | false =>
    rw [hc] at hplayed hlast
    cases hplayed with
    | lost => exact ⟨rfl, hlast ▸ hnoted.append (.nil _)⟩
  | true =>
    rw [hc] at hplayed hlast
    cases hplayed with
    | call first rest =>
      cases rest with
      | lost => exact ⟨rfl, hlast ▸ hnoted.append (.cons first (.nil _))⟩

end Events

/-! ### Walks that perform events -/

namespace Walk

open WalkEvent

variable {σ α β : Type} {note : Noting σ} {w : Walk σ α} {st : WalkState σ} {a : α}
  {events events' : List WalkEvent} {ids ids' : List NodeId} {Q Q' : Store → Prop}

/-- The second store has as many nodes as the first, and only listed nodes are different there. -/
structure ChangesOnly (ids : List NodeId) (s s' : Store) : Prop where
  size : s'.size = s.size
  cell : ∀ id, id ∉ ids → s'.cell id = s.cell id

/-- From the state the walk performs the events and changes only the listed nodes. If the events go
on to the end, it returns the value and leaves a store of the kind; otherwise it fails as they do.
-/
structure Performs (note : Noting σ) (w : Walk σ α) (st : WalkState σ) (events : List WalkEvent)
    (ids : List NodeId) (a : α) (Q : Store → Prop) : Prop where
  run : ∃ outcome st', w.run.run st = (outcome.map fun _ ↦ a, st') ∧
    Played note events st.memo outcome st'.memo ∧ ChangesOnly ids st.store st'.store ∧
    (outcome = .ok () → Q st'.store)

namespace Performs

/-- A walk that returns and leaves memo and store as they are performs nothing. -/
theorem of_returns (h : w.Returns st a st) (hQ : Q st.store) : Performs note w st [] ids a Q :=
  ⟨.ok (), st, h, .nil _, ⟨rfl, fun _ _ ↦ rfl⟩, fun _ ↦ hQ⟩

/-- A walk that goes on performs what both its parts do. -/
theorem bind {k : α → Walk σ β} {b : β} (h : Performs note w st events ids a Q)
    (hk : ∀ st' : WalkState σ, Q st'.store → ChangesOnly ids st.store st'.store →
      Performs note (k a) st' events' ids' b Q') :
    Performs note (w >>= k) st (events ++ events') (ids ++ ids') b Q' := by
  obtain ⟨failure | ⟨⟩, st', hrun, hplayed, hc, hQ⟩ := h
  · refine ⟨.error failure, st', ?_, hplayed.append_of_error events', ⟨hc.size, fun id hid ↦ ?_⟩,
      nofun⟩
    · rw [run_bind, hrun]
      rfl
    · exact hc.cell id fun h ↦ hid (List.mem_append_left _ h)
  · obtain ⟨outcome, st'', hrun', hplayed', hc', hQ'⟩ := hk st' (hQ rfl) hc
    refine ⟨outcome, st'', ?_, hplayed.append hplayed', ⟨hc'.size.trans hc.size, fun id hid ↦ ?_⟩,
      hQ'⟩
    · rw [run_bind, hrun]
      exact hrun'
    · rw [List.mem_append, not_or] at hid
      exact (hc'.cell id hid.2).trans (hc.cell id hid.1)

/-- A walk may change more nodes than it does, and what is left of what it does not change can be
told besides. -/
theorem mono (h : Performs note w st events ids a Q) (hids : ∀ id ∈ ids, id ∈ ids')
    (hQ : ∀ s, Q s → ChangesOnly ids st.store s → Q' s) :
    Performs note w st events ids' a Q' := by
  obtain ⟨outcome, st', hrun, hplayed, hc, hq⟩ := h
  exact ⟨outcome, st', hrun, hplayed, ⟨hc.size, fun id hid ↦ hc.cell id fun hi ↦ hid (hids id hi)⟩,
    fun hp ↦ hQ _ (hq hp) hc⟩

/-- A walk that goes on changes only nodes that both its parts may change. -/
theorem bind_within {k : α → Walk σ β} {b : β} (h : Performs note w st events ids a Q)
    (hids : ∀ id ∈ ids, id ∈ ids') (hk : ∀ st' : WalkState σ, Q st'.store →
      ChangesOnly ids st.store st'.store → Performs note (k a) st' events' ids' b Q') :
    Performs note (w >>= k) st (events ++ events') ids' b Q' :=
  (h.bind hk).mono (fun id hid ↦ (List.mem_append.mp hid).elim (hids id) fun h ↦ h)
    fun _ hq _ ↦ hq

/-- What a walk goes on with after a step that performs nothing. -/
theorem after {k : α → Walk σ β} {b : β} (h : w.Returns st a st)
    (hk : Performs note (k a) st events ids b Q) : Performs note (w >>= k) st events ids b Q := by
  obtain ⟨outcome, st', hrun, hrest⟩ := hk
  refine ⟨outcome, st', ?_, hrest⟩
  rw [run_bind, h]
  exact hrun

end Performs

namespace ChangesOnly

variable {s s' : Store} {l : Layout}

/-- A layout none of whose nodes is listed is still held. -/
theorem holds (h : ChangesOnly ids s s') (hl : s.Holds l) (hids : ∀ id ∈ l.ids, id ∉ ids) :
    s'.Holds l :=
  hl.frame (Nat.le_of_eq h.size.symm) fun id hid ↦ h.cell id (hids id hid)

end ChangesOnly

end Walk

namespace Visitor

open Layout WalkEvent Walk

variable {σ : Type} {note : Noting σ} {d : Deletions} {st : WalkState σ}
  {visit pre post : Visitor σ} {id : NodeId} {info : NodeInfo} {shape : Shape Layout} {l : Layout}
  {ls : List Layout} {ancestors : List NodeId} {slot : Option Slot}

/-- The visitor deletes the nodes that the visitors of its phase delete, keeps all others as they
are, and notes its calls in its memo. -/
def Decides (d : Deletions) (note : Noting σ) (phase : Phase) (visit : Visitor σ) : Prop :=
  ∀ st id, ∃ memo, note phase id st.memo memo ∧
    (visit (some id)).Returns st (if d phase id then none else some id) { st with memo }

/-- The visitor leaves of the layout what is left of it after deletions, or ends where a slot is
lost. -/
structure Prunes (d : Deletions) (note : Noting σ) (visit : Visitor σ)
    (ancestors : List NodeId) (l : Layout) : Prop where
  performs : ∀ {st : WalkState σ}, st.store.Holds l →
    Performs note (visit l.root?) st (eventsAt d (l.tourFrom ancestors none)) l.ids
      (l.pruned d).root? fun s ↦ s.Holds (l.pruned d)

/-! ### Handlers -/

/-- An expression of which something is left is left as an expression. -/
theorem isExpr_pruned (hw : l.tree.isExpr = true) {id' : NodeId} {info' : NodeInfo}
    {shape' : Shape Layout} (hl : l.pruned d = .node id' info' shape') : shape'.isExpr = true := by
  cases l with
  | missing => cases hl
  | node id info shape =>
    rw [pruned_node] at hl
    split at hl
    · cases hl
    · cases hl
      rw [tree_node, Tree.isExpr, Shape.isExpr_mapChildren] at hw
      rw [Shape.isExpr_compact, Shape.isExpr_mapChildren, hw]

/-- An expression is pruned as an expression. -/
theorem Prunes.exprOnly (h : Prunes d note visit ancestors l) (hw : l.tree.isExpr = true) :
    Prunes d note (exprOnly visit) ancestors l := by
  constructor
  intro st hl
  rw [← List.append_nil (eventsAt d _), ← List.append_nil l.ids]
  refine (h.performs hl).bind fun st' hq _ ↦ ?_
  cases hp : l.pruned d with
  | missing => exact .of_returns (returns_pure _ _) (hp ▸ hq)
  | node id info shape =>
    have hcell : (st'.store.cell id).shape.isExpr = true := by
      rw [hp] at hq
      cases hq with
      | node _ cell _ _ => rw [cell, Shape.isExpr_mapChildren, isExpr_pruned hw hp]
    refine .after (returns_cell id st') ?_
    rw [if_pos hcell]
    exact .of_returns (returns_pure _ _) (hp ▸ hq)

/-- Children are pruned in order, and those that are left are collected. -/
theorem performs_survivors (h : ∀ l ∈ ls, Prunes d note visit ancestors l)
    (hn : (ls.flatMap ids).Nodup) (hl : ∀ l ∈ ls, st.store.Holds l) :
    Performs note (survivors visit (ls.map root?)) st
      (eventsAt d (ls.flatMap fun l ↦ l.tourFrom ancestors none)) (ls.flatMap ids)
      (((ls.map (pruned d)).filter fun l ↦ !l.isMissing).map root?)
      fun s ↦ ∀ l ∈ ls, s.Holds (l.pruned d) := by
  induction ls generalizing st with
  | nil => exact .of_returns (returns_survivors_nil st) (List.forall_mem_nil _)
  | cons l ls ih =>
    rw [List.forall_mem_cons] at h hl
    rw [List.flatMap_cons, List.nodup_append] at hn
    rw [List.flatMap_cons, eventsAt_append, List.flatMap_cons]
    refine (h.1.performs hl.1).bind fun st' hq hc ↦ ?_
    have hrest := ih h.2 hn.2.1 fun m hm ↦ hc.holds (hl.2 m hm) fun i hi hil ↦
      hn.2.2 i hil i (List.mem_flatMap.mpr ⟨m, hm, hi⟩) rfl
    -- what is left of the first child is not touched by the visits of the others
    have hboth (s : Store) (hs : ∀ m ∈ ls, s.Holds (m.pruned d))
        (hcs : ChangesOnly (ls.flatMap ids) st'.store s) : ∀ m ∈ l :: ls, s.Holds (m.pruned d) := by
      rw [List.forall_mem_cons]
      exact ⟨hcs.holds hq fun i hi his ↦
        hn.2.2 i ((ids_pruned_sublist d l).subset hi) i his rfl, hs⟩
    cases hp : l.pruned d with
    | missing =>
      rw [List.map_cons, hp]
      exact hrest.mono (fun _ hi ↦ hi) hboth
    | node id info shape =>
      rw [List.map_cons, hp, ← List.append_nil (eventsAt d _), ← List.append_nil (ls.flatMap ids)]
      refine (hrest.mono (fun _ hi ↦ hi) hboth).bind fun st'' hq' _ ↦ ?_
      exact .of_returns (returns_pure _ _) hq'

/-- The second visitor finishes a node that holds what is left of its children. -/
theorem performs_post (hpost : Decides d note .post post) {left : Shape Layout}
    (hl : st.store.Holds (.node id info left)) :
    Performs note (post (some id)) st [.call .post id] [] (if d .post id then none else some id)
      fun s ↦ s.Holds (if d .post id then .missing else .node id info left) := by
  obtain ⟨memo, hnote, hret⟩ := hpost st id
  refine ⟨.ok (), { st with memo }, hret, .call hnote (.nil memo), ⟨rfl, fun _ _ ↦ rfl⟩, fun _ ↦ ?_⟩
  split
  · exact .missing
  · exact hl

/-- What is expected of the visit of a node that the first visitor has kept. -/
def Descends (d : Deletions) (note : Noting σ) (ancestors : List NodeId)
    (id : NodeId) (info : NodeInfo) (shape : Shape Layout) (w : Walk σ (Option NodeId))
    (st : WalkState σ) : Prop :=
  Performs note w st
    (eventsAt d (shape.slotted.flatMap fun child ↦ child.2.tourFrom ancestors child.1) ++
      if (node id info shape).emptied d then [] else [.call .post id])
    (node id info shape).ids
    (if (node id info shape).emptied d || d .post id then none else some id)
    fun s ↦ s.Holds (if (node id info shape).emptied d || d .post id then .missing
      else .node id info ((shape.mapChildren (pruned d)).compact isMissing))

/-- A node is put above what is left of its children, and finished. -/
theorem performs_commit (hpost : Decides d note .post post) {left : Shape Layout}
    (hbound : id.index < st.store.size) (hinfo : (st.store.cell id).info = info)
    (hkeys : left.keys.Nodup) (hbelow : ∀ l ∈ left.children, st.store.Holds l ∧ id ∉ l.ids) :
    Performs note (Walk.modifyShape id (fun _ ↦ left.mapChildren root?) >>= fun _ ↦ post (some id))
      st [.call .post id] [id] (if d .post id then none else some id)
      fun s ↦ s.Holds (if d .post id then .missing else .node id info left) := by
  have hmodify : Performs note (Walk.modifyShape id fun _ ↦ left.mapChildren root?) st [] [id] ()
      fun s ↦ s.Holds (.node id info left) := by
    refine ⟨.ok (), _, returns_modifyShape id _ st, .nil _,
      ⟨Store.size_modifyShape .., fun i hi ↦ ?_⟩,
      fun _ ↦ .node ?_ ?_ hkeys fun l hl ↦ ?_⟩
    · exact Store.cell_modifyShape_of_ne fun he ↦ hi (he ▸ List.mem_singleton_self _)
    · exact Nat.lt_of_lt_of_eq hbound (Store.size_modifyShape ..).symm
    · exact (Store.cell_modifyShape_self _ hbound).trans (by rw [hinfo])
    · exact (hbelow l hl).1.modifyShape (hbelow l hl).2 fun _ ↦ left.mapChildren root?
  exact hmodify.bind fun st' hq _ ↦ performs_post hpost hq

/-- A list-bearing node loses the children that are deleted, and is deleted when it loses all. -/
theorem performs_listNode (hpost : Decides d note .post post) (c : Shape.ListClass)
    (h : ∀ l ∈ ls, Prunes d note visit ancestors l)
    (hl : st.store.Holds (.node id info (c.shape ls)))
    (hn : (Layout.node id info (c.shape ls)).ids.Nodup) :
    Descends d note ancestors id info (c.shape ls)
      (listNode visit post id (ls.map root?) c.shape) st := by
  rw [ids_node, Shape.ListClass.children_shape, List.nodup_cons] at hn
  have hempty : (!(ls.map root?).isEmpty &&
      (((ls.map (pruned d)).filter fun l ↦ !l.isMissing).map root?).isEmpty) =
        (Layout.node id info (c.shape ls)).emptied d := by
    rw [emptied, Shape.ListClass.emptied_shape, Bool.eq_iff_iff]
    simp [List.filter_eq_nil_iff, deleted]
  cases hl with
  | node bound cell distinct below =>
    rw [Shape.ListClass.children_shape] at below
    rw [Descends, ids_node, Shape.ListClass.children_shape, Shape.ListClass.slotted_shape,
      List.flatMap_map, Shape.ListClass.mapChildren_shape, Shape.ListClass.compact_shape]
    refine (performs_survivors h hn.2 below).bind_within
      (fun _ hi ↦ List.mem_cons_of_mem _ hi) fun st' hq hc ↦ ?_
    rw [hempty]
    cases he : (Layout.node id info (c.shape ls)).emptied d with
    | true => exact .of_returns (returns_pure _ _) .missing
    | false =>
      have hcell : st'.store.cell id = st.store.cell id := hc.cell id hn.1
      have hleft : ∀ l ∈ (ls.map (pruned d)).filter (fun l ↦ !l.isMissing),
          st'.store.Holds l ∧ id ∉ l.ids := by
        intro l hl
        obtain ⟨m, hm, rfl⟩ := List.mem_map.mp (List.mem_filter.mp hl).1
        exact ⟨hq m hm, fun hi ↦ hn.1
          (List.mem_flatMap.mpr ⟨m, hm, (ids_pruned_sublist d m).subset hi⟩)⟩
      have hcommit := @performs_commit _ _ _ _ _ id info hpost
        (c.shape ((ls.map (pruned d)).filter fun l ↦ !l.isMissing))
        (Nat.lt_of_lt_of_eq bound hc.size.symm) (by rw [hcell, cell]) (by simp)
        (by simpa using hleft)
      rw [Shape.ListClass.mapChildren_shape] at hcommit
      exact hcommit.mono (fun _ hi ↦ List.mem_singleton.mp hi ▸ List.mem_cons_self)
        fun _ hq _ ↦ hq

/-- In a slot, a layout whose parent is reached is visited as elsewhere, and is lost if it is
deleted. -/
theorem eventsAt_slot (hanc : ∀ id ∈ ancestors, d .pre id = false) (hl : l ≠ .missing)
    (which : Slot) : eventsAt d (l.tourFrom ancestors (some which)) =
      eventsAt d (l.tourFrom ancestors none) ++ if l.deleted d then [.lost which] else [] := by
  have hentered : (ancestors.all fun id ↦ !d .pre id) = true := by simpa using hanc
  cases l with
  | missing => exact absurd rfl hl
  | node id info shape =>
    simp only [tourFrom_node, eventsAt, List.cons_append, List.flatMap_cons, List.flatMap_append,
      Occurrence.events, Occurrence.called, Occurrence.reached, Occurrence.entered,
      Occurrence.lost?,
      hentered, Bool.true_and, List.append_assoc]
    cases (node id info shape).deleted d <;> simp

/-- The child in a slot is pruned, and its parent cannot do without it. -/
theorem performs_slot (hanc : ∀ id ∈ ancestors, d .pre id = false)
    (h : Prunes d note visit ancestors l) (hl : st.store.Holds l) (hsome : l ≠ .missing)
    {which : Slot} (hslot : (st.store.cell id).shape.slot? which = some l.root?) :
    Performs note (Visitor.slot visit id which) st
      (eventsAt d (l.tourFrom ancestors (some which))) l.ids (((l.pruned d).root?).getD id)
      fun s ↦ s.Holds (l.pruned d) ∧ l.pruned d ≠ .missing := by
  rw [eventsAt_slot hanc hsome]
  refine .after (returns_cell id st) ?_
  rw [hslot]
  refine (h.performs hl).bind_within (fun _ hi ↦ hi) fun st' hq hc ↦ ?_
  rw [deleted]
  cases hp : l.pruned d with
  | missing =>
    exact ⟨.error (.violation (.deletedSlot which)), st', rfl, .lost which [] _,
      ⟨rfl, fun _ _ ↦ rfl⟩, fun hok ↦ by cases hok⟩
  | node child info shape =>
    refine ⟨.ok (), st', rfl, .nil _, ⟨rfl, fun _ _ ↦ rfl⟩, fun _ ↦ ⟨?_, fun hm ↦ by cases hm⟩⟩
    rw [← hp]
    exact hq

/-- Of the children of a node with slots, the first have been pruned and none of them is lost, and
the others are still to be visited. -/
structure SlotsRead (d : Deletions) (id : NodeId) (cell : Cell) (done rest : List Layout)
    (s : Store) : Prop where
  bound : id.index < s.size
  cell : s.cell id = cell
  done : ∀ l ∈ done, s.Holds (l.pruned d) ∧ l.pruned d ≠ .missing
  rest : ∀ l ∈ rest, s.Holds l

/-- After one slot has been read, the others are. -/
theorem performs_slot_bind (done rest : List Layout) {cell : Cell}
    (hanc : ∀ id ∈ ancestors, d .pre id = false)
    (hn : (id :: (done ++ l :: rest).flatMap ids).Nodup)
    (hr : SlotsRead d id cell done (l :: rest) st.store) (h : Prunes d note visit ancestors l)
    (hw : l.tree.isExpr = true) {which : Slot} (hslot : cell.shape.slot? which = some l.root?)
    {k : NodeId → Walk σ (Option NodeId)} {b : Option NodeId} {events : List WalkEvent}
    {Q : Store → Prop} (hk : ∀ st', SlotsRead d id cell (done ++ [l]) rest st'.store →
      Performs note (k (((l.pruned d).root?).getD id)) st' events
        (id :: (done ++ l :: rest).flatMap ids) b Q) :
    Performs note (Visitor.slot (Visitor.exprOnly visit) id which >>= k) st
      (eventsAt d (l.tourFrom ancestors (some which)) ++ events)
      (id :: (done ++ l :: rest).flatMap ids) b Q := by
  have hsome : l ≠ .missing := fun hm ↦ by rw [hm] at hw; cases hw
  rw [List.nodup_cons, List.flatMap_append, List.flatMap_cons, List.nodup_append,
    List.nodup_append] at hn
  obtain ⟨hid, -, ⟨-, -, hlr⟩, hdl⟩ := hn
  simp only [List.mem_append, not_or] at hid hdl
  obtain ⟨hhead, hrest⟩ := List.forall_mem_cons.mp hr.rest
  refine (performs_slot hanc (h.exprOnly hw) hhead hsome (hr.cell ▸ hslot)).bind_within
    (fun i hi ↦ ?_) fun st' hq hc ↦ hk st' ⟨?_, ?_, ?_, ?_⟩
  · rw [List.flatMap_append, List.flatMap_cons]
    exact List.mem_cons_of_mem _ (List.mem_append_right _ (List.mem_append_left _ hi))
  · exact Nat.lt_of_lt_of_eq hr.bound hc.size.symm
  · exact (hc.cell id hid.2.1).trans hr.cell
  · intro m hm
    rcases List.mem_append.mp hm with hm | hm
    · refine ⟨hc.holds (hr.done m hm).1 fun i hi hil ↦ ?_, (hr.done m hm).2⟩
      exact hdl i (List.mem_flatMap.mpr ⟨m, hm, (ids_pruned_sublist d m).subset hi⟩) i
        (.inl hil) rfl
    · exact List.mem_singleton.mp hm ▸ hq
  · intro m hm
    exact hc.holds (hrest m hm) fun i hi hil ↦
      hlr i hil i (List.mem_flatMap.mpr ⟨m, hm, hi⟩) rfl

/-- The node above slots that have all been read is finished. -/
theorem performs_commit_slots (hpost : Decides d note .post post) {cell : Cell}
    (left : Shape Layout) (hn : (id :: ls.flatMap ids).Nodup)
    (hr : SlotsRead d id cell ls [] st.store) (hkeys : left.keys = [])
    (hleft : left.children = ls.map (pruned d)) :
    Performs note (Walk.modifyShape id (fun _ ↦ left.mapChildren root?) >>= fun _ ↦ post (some id))
      st [.call .post id] (id :: ls.flatMap ids) (if d .post id then none else some id)
      fun s ↦ s.Holds (if d .post id then .missing else .node id cell.info left) := by
  rw [List.nodup_cons] at hn
  refine (performs_commit hpost hr.bound (by rw [hr.cell]) (by rw [hkeys]; exact List.nodup_nil)
    fun l hl ↦ ?_).mono (fun _ hi ↦ List.mem_singleton.mp hi ▸ List.mem_cons_self) fun _ hq _ ↦ hq
  rw [hleft] at hl
  obtain ⟨m, hm, rfl⟩ := List.mem_map.mp hl
  exact ⟨(hr.done m hm).1, fun hi ↦
    hn.1 (List.mem_flatMap.mpr ⟨m, hm, (ids_pruned_sublist d m).subset hi⟩)⟩

private theorem some_getD_root? (h : l.pruned d ≠ .missing) :
    some (((l.pruned d).root?).getD id) = (l.pruned d).root? := by
  cases hp : l.pruned d with
  | missing => exact absurd hp h
  | node => rfl

/-- A conditional keeps what is left of its slots, and is finished if each of them is. -/
theorem performs_conditional (hpost : Decides d note .post post)
    (hanc : ∀ id ∈ ancestors, d .pre id = false) {type : Option Annotation} {c t f : Layout}
    {c₀ t₀ f₀ : Option NodeId} (h : ∀ l ∈ [c, t, f], Prunes d note visit ancestors l)
    (hw : ∀ l ∈ [c, t, f], l.tree.isExpr = true)
    (hl : st.store.Holds (.node id info (.conditional type c t f)))
    (hn : (Layout.node id info (.conditional type c t f)).ids.Nodup) :
    Descends d note ancestors id info (.conditional type c t f)
      (descend visit post id (.conditional type c₀ t₀ f₀)) st := by
  rw [ids_node] at hn
  have hevents : eventsAt d ((Shape.conditional type c t f).slotted.flatMap fun child ↦
      child.2.tourFrom ancestors child.1) ++ [.call .post id] =
      eventsAt d (c.tourFrom ancestors (some .condition)) ++
        (eventsAt d (t.tourFrom ancestors (some .whenTrue)) ++
          (eventsAt d (f.tourFrom ancestors (some .whenFalse)) ++ [.call .post id])) := by
    simp [Shape.slotted, eventsAt]
  cases hl with
  | node bound cell distinct below =>
    simp only [List.forall_mem_cons] at h hw
    have hkept : (Layout.node id info (.conditional type c t f)).emptied d = false := rfl
    rw [Descends, ids_node, hkept, if_neg Bool.false_ne_true, hevents, Bool.false_or, descend]
    refine performs_slot_bind [] [t, f] hanc hn ⟨bound, cell, List.forall_mem_nil _, below⟩
      h.1 hw.1 rfl fun st₁ hr₁ ↦ ?_
    refine performs_slot_bind [c] [f] hanc hn hr₁ h.2.1 hw.2.1 rfl fun st₂ hr₂ ↦ ?_
    refine performs_slot_bind [c, t] [] hanc hn hr₂ h.2.2.1 hw.2.2.1 rfl fun st₃ hr₃ ↦ ?_
    have hdone : ∀ l ∈ [c, t, f], l.pruned d ≠ .missing := fun l hl ↦ (hr₃.done l hl).2
    simp only [List.forall_mem_cons] at hdone
    rw [some_getD_root? hdone.1, some_getD_root? hdone.2.1, some_getD_root? hdone.2.2.1]
    exact performs_commit_slots hpost (.conditional type (c.pruned d) (t.pruned d) (f.pruned d)) hn
      hr₃ rfl rfl

/-- An index keeps what is left of its slots, and is finished if each of them is. -/
theorem performs_index (hpost : Decides d note .post post)
    (hanc : ∀ id ∈ ancestors, d .pre id = false) {type : Option Annotation} {t k : Layout}
    {t₀ k₀ : Option NodeId} (h : ∀ l ∈ [t, k], Prunes d note visit ancestors l)
    (hw : ∀ l ∈ [t, k], l.tree.isExpr = true)
    (hl : st.store.Holds (.node id info (.index type t k)))
    (hn : (Layout.node id info (.index type t k)).ids.Nodup) :
    Descends d note ancestors id info (.index type t k)
      (descend visit post id (.index type t₀ k₀)) st := by
  rw [ids_node] at hn
  have hevents : eventsAt d ((Shape.index type t k).slotted.flatMap fun child ↦
      child.2.tourFrom ancestors child.1) ++ [.call .post id] =
      eventsAt d (t.tourFrom ancestors (some .target)) ++
        (eventsAt d (k.tourFrom ancestors (some .key)) ++ [.call .post id]) := by
    simp [Shape.slotted, eventsAt]
  cases hl with
  | node bound cell distinct below =>
    simp only [List.forall_mem_cons] at h hw
    have hkept : (Layout.node id info (.index type t k)).emptied d = false := rfl
    rw [Descends, ids_node, hkept, if_neg Bool.false_ne_true, hevents, Bool.false_or, descend]
    refine performs_slot_bind [] [k] hanc hn ⟨bound, cell, List.forall_mem_nil _, below⟩
      h.1 hw.1 rfl fun st₁ hr₁ ↦ ?_
    refine performs_slot_bind [t] [] hanc hn hr₁ h.2.1 hw.2.1 rfl fun st₂ hr₂ ↦ ?_
    have hdone : ∀ l ∈ [t, k], l.pruned d ≠ .missing := fun l hl ↦ (hr₂.done l hl).2
    simp only [List.forall_mem_cons] at hdone
    rw [some_getD_root? hdone.1, some_getD_root? hdone.2.1]
    exact performs_commit_slots hpost (.index type (t.pruned d) (k.pruned d)) hn hr₂ rfl rfl

/-- The values of a map are pruned in order, and those that are left stay under their keys after
whatever stands before them. -/
theorem performs_mapValues {rest : List (Str × Layout)} {done : List (Str × Option NodeId)}
    (h : ∀ e ∈ rest, Prunes d note visit ancestors e.2)
    (hn : (id :: (rest.map Prod.snd).flatMap ids).Nodup) (hmap : st.store.MapAt id info done rest)
    (hl : ∀ e ∈ rest, st.store.Holds e.2) :
    Performs note (mapValues visit id (rest.map fun e ↦ (e.1, e.2.root?))) st
      (eventsAt d ((rest.map Prod.snd).flatMap fun l ↦ l.tourFrom ancestors none))
      (id :: (rest.map Prod.snd).flatMap ids) () fun s ↦
        s.cell id = ⟨info, .map (done ++ kept (rest.map fun e ↦ (e.1, e.2.pruned d)))⟩ ∧
        ∀ e ∈ rest, s.Holds (e.2.pruned d) := by
  induction rest generalizing st done with
  | nil =>
    exact .mono (.of_returns (returns_mapValues_nil id st) ⟨hmap.cell, List.forall_mem_nil _⟩)
      (List.forall_mem_nil _) fun _ hq _ ↦ hq
  | cons entry rest ih =>
    obtain ⟨key, l⟩ := entry
    simp only [List.forall_mem_cons] at h hl
    simp only [List.map_cons, List.flatMap_cons] at hn ⊢
    rw [List.nodup_cons, List.nodup_append, List.mem_append, not_or] at hn
    obtain ⟨⟨hid, hout⟩, -, hnr, hlr⟩ := hn
    rw [eventsAt_append, mapValues_cons]
    refine (h.1.performs hl.1).bind_within
      (fun _ hi ↦ List.mem_cons_of_mem _ (List.mem_append_left _ hi)) fun st₁ hq hc ↦ ?_
    have hmap₁ := hmap.frame (Nat.le_of_eq hc.size.symm) (hc.cell id hid)
    have hsettled : Performs note (settle id key (l.pruned d).root?) st₁ [] [id] () fun s ↦
        s = (st₁.modifyShape id (Shape.settle key (l.pruned d).root?)).store :=
      ⟨.ok (), _, returns_settle hmap₁ _, .nil _, ⟨Store.size_modifyShape .., fun i hi ↦
        Store.cell_modifyShape_of_ne fun he ↦ hi (he ▸ List.mem_singleton_self _)⟩, fun _ ↦ rfl⟩
    refine hsettled.bind_within (fun _ hi ↦ List.mem_singleton.mp hi ▸ List.mem_cons_self)
      fun st₂ hst₂ hc₂ ↦ ?_
    have hmap₂ : st₂.store.MapAt id info (done ++ kept [(key, l.pruned d)]) rest := by
      rw [hst₂]
      exact hmap₁.settle (l.pruned d)
    -- neither the first value nor the map is among the nodes of the other values
    have hothers (e : Str × Layout) (he : e ∈ rest) (i : NodeId) (hi : i ∈ e.2.ids) :
        i ∉ l.ids ∧ i ∉ [id] := by
      have hmem := List.mem_flatMap.mpr ⟨e.2, List.mem_map_of_mem he, hi⟩
      exact ⟨fun hil ↦ hlr i hil i hmem rfl, fun hid ↦ hout (List.mem_singleton.mp hid ▸ hmem)⟩
    have hleft (i : NodeId) (hi : i ∈ (l.pruned d).ids) :
        i ∉ [id] ∧ i ∉ id :: (rest.map Prod.snd).flatMap ids := by
      have hil := (ids_pruned_sublist d l).subset hi
      have hne : i ≠ id := fun he ↦ hid (he ▸ hil)
      exact ⟨fun hm ↦ hne (List.mem_singleton.mp hm), fun hm ↦
        (List.mem_cons.mp hm).elim hne fun hm ↦ hlr i hil i hm rfl⟩
    have hwalk := ih h.2 (List.nodup_cons.mpr ⟨hout, hnr⟩) hmap₂ fun e he ↦
      hc₂.holds (hc.holds (hl.2 e he) fun i hi ↦ (hothers e he i hi).1) fun i hi ↦
        (hothers e he i hi).2
    refine hwalk.mono (fun i hi ↦ ?_) fun s hs hcs ↦ ⟨?_, List.forall_mem_cons.mpr ⟨?_, hs.2⟩⟩
    · exact (List.mem_cons.mp hi).elim (fun he ↦ he ▸ List.mem_cons_self) fun hi ↦
        List.mem_cons_of_mem _ (List.mem_append_right _ hi)
    · rw [hs.1, List.append_assoc, ← kept_cons]
    · exact hcs.holds (hc₂.holds hq fun i hi ↦ (hleft i hi).1) fun i hi ↦ (hleft i hi).2

/-- A map loses the values that are deleted with their keys, and stays when it loses all. -/
theorem performs_map (hpost : Decides d note .post post) {entries : List (Str × Layout)}
    (h : ∀ e ∈ entries, Prunes d note visit ancestors e.2)
    (hl : st.store.Holds (.node id info (.map entries)))
    (hn : (Layout.node id info (.map entries)).ids.Nodup) :
    Descends d note ancestors id info (.map entries)
      (descend visit post id ((Shape.map entries).mapChildren root?)) st := by
  rw [ids_node] at hn
  cases hl with
  | node bound cell distinct below =>
    have hkept : (Layout.node id info (.map entries)).emptied d = false := rfl
    have hbelow : ∀ e ∈ entries, st.store.Holds e.2 := fun e he ↦
      below e.2 (List.mem_map_of_mem he)
    have htour : ((Shape.map entries).slotted.flatMap fun child ↦
        child.2.tourFrom ancestors child.1) =
        (entries.map Prod.snd).flatMap fun l ↦ l.tourFrom ancestors none := List.flatMap_map ..
    rw [Descends, ids_node, hkept, if_neg Bool.false_ne_true, Bool.false_or, htour,
      Shape.mapChildren, descend]
    have hmap : st.store.MapAt id info [] entries := ⟨bound, cell, distinct⟩
    refine (performs_mapValues h hn hmap hbelow).bind_within (fun _ hi ↦ hi) fun st' hq hc ↦ ?_
    refine (performs_post hpost ?_).mono (List.forall_mem_nil _) fun _ hq _ ↦ hq
    have hkeys : (((entries.map fun e ↦ (e.1, e.2.pruned d)).filter
        fun e ↦ !e.2.isMissing).map Prod.fst).Nodup := by
      refine List.Nodup.sublist (List.filter_sublist.map _) ?_
      simpa [Shape.keys, Function.comp_def] using distinct
    refine .node (Nat.lt_of_lt_of_eq bound hc.size.symm) hq.1 hkeys fun l hl ↦ ?_
    obtain ⟨left, hleft, rfl⟩ := List.mem_map.mp hl
    obtain ⟨e, he, rfl⟩ := List.mem_map.mp (List.mem_filter.mp hleft).1
    exact hq.2 e he

/-- A node without children is finished as it is. -/
theorem performs_leaf (hpost : Decides d note .post post) (hleaf : shape.slotted = [])
    (hkept : (Layout.node id info shape).emptied d = false)
    (hsame : (shape.mapChildren (pruned d)).compact isMissing = shape)
    (hl : st.store.Holds (.node id info shape)) :
    Descends d note ancestors id info shape (post (some id)) st := by
  rw [Descends, hleaf, hkept, hsame, if_neg Bool.false_ne_true, Bool.false_or]
  exact (performs_post hpost hl).mono (List.forall_mem_nil _) fun _ hq _ ↦ hq

/-- A node that the first visitor has kept is visited once its children can be. -/
theorem performs_descend (hpost : Decides d note .post post)
    (hanc : ∀ id ∈ ancestors, d .pre id = false)
    (h : ∀ l ∈ shape.children, Prunes d note visit ancestors l)
    (hw : (Layout.node id info shape).tree.WellFormed)
    (hl : st.store.Holds (.node id info shape)) (hn : (Layout.node id info shape).ids.Nodup) :
    Descends d note ancestors id info shape
      (descend visit post id (shape.mapChildren root?)) st := by
  have hroot : Tree.Regular (shape.mapChildren tree) := by
    rw [tree_node] at hw
    exact hw.root
  have hexprs (he : shape.isExpr = true) : ∀ l ∈ shape.children, l.tree.isExpr = true := by
    have hall := hroot.exprs (by simpa using he)
    rwa [Shape.forall_mem_mapChildren] at hall
  have hknown := hroot.known
  rw [Shape.isTraversable_mapChildren] at hknown
  cases shape with
  | arithmetic type exprs =>
    exact performs_listNode hpost (.arithmetic type)
      (fun l hl ↦ (h l hl).exprOnly (hexprs rfl l hl)) hl hn
  | call func type args =>
    exact performs_listNode hpost (.call func type)
      (fun l hl ↦ (h l hl).exprOnly (hexprs rfl l hl)) hl hn
  | conditional type c t f => exact performs_conditional hpost hanc h (hexprs rfl) hl hn
  | index type t k => exact performs_index hpost hanc h (hexprs rfl) hl hn
  | literal type value => exact performs_leaf hpost rfl rfl rfl hl
  | output type exprs =>
    exact performs_listNode hpost (.output type)
      (fun l hl ↦ (h l hl).exprOnly (hexprs rfl l hl)) hl hn
  | access type resolved => exact performs_leaf hpost rfl rfl rfl hl
  | list elements => exact performs_listNode hpost .list h hl hn
  | map entries =>
    exact performs_map hpost (fun e he ↦ h e.2 (List.mem_map_of_mem he)) hl hn
  | foreign className content => cases hknown

/-! ### Walks -/

/-- At a node there is the call of the first visitor, what happens below the node, and what happens
when the node is left. -/
theorem eventsAt_tourFrom_node :
    eventsAt d ((node id info shape).tourFrom ancestors slot) =
      (Occurrence.events d ⟨ancestors, slot, id, node id info shape⟩ .pre ++
        eventsAt d (shape.slotted.flatMap fun child ↦
          child.2.tourFrom (ancestors ++ [id]) child.1)) ++
          Occurrence.events d ⟨ancestors, slot, id, node id info shape⟩ .post := by
  rw [tourFrom_node, eventsAt_append]
  simp [eventsAt]

/-- Nothing happens at the children of a node if nothing happens at each. -/
theorem eventsAt_children_eq_nil
    (h : ∀ l ∈ shape.children, ∀ slot, eventsAt d (l.tourFrom ancestors slot) = []) :
    eventsAt d (shape.slotted.flatMap fun child ↦ child.2.tourFrom ancestors child.1) = [] := by
  rw [eventsAt, List.flatMap_assoc, List.flatMap_eq_nil_iff]
  exact fun child hchild ↦ h child.2 (Shape.mem_children_of_mem_slotted hchild) child.1

/-- Nothing happens below a node that the first visitor deletes. -/
theorem eventsAt_of_deleted (h : ∃ id ∈ ancestors, d .pre id = true) (l : Layout)
    (slot : Option Slot) : eventsAt d (l.tourFrom ancestors slot) = [] := by
  induction l generalizing ancestors slot with
  | missing => rfl
  | node id info shape ih =>
    have hentered : (ancestors.all fun id ↦ !d .pre id) = false := by simpa using h
    obtain ⟨a, ha, hd⟩ := h
    rw [eventsAt_tourFrom_node, eventsAt_children_eq_nil fun l hl slot ↦
      ih l hl ⟨a, List.mem_append_left _ ha, hd⟩ slot]
    simp [Occurrence.events, Occurrence.called, Occurrence.reached, Occurrence.entered,
      Occurrence.lost?, hentered]

/-- A walk prunes unshared layouts as high as it may go deep. -/
theorem prunes_visitTo (hpre : Decides d note .pre pre) (hpost : Decides d note .post post)
    (l : Layout) {n : Nat} (hanc : ∀ id ∈ ancestors, d .pre id = false) (hn : l.tree.height ≤ n)
    (hw : l.tree.WellFormed) (hu : l.ids.Nodup) :
    Prunes d note (visitTo pre post n) ancestors l := by
  induction l generalizing n ancestors with
  | missing => cases hw
  | node id info shape ih =>
    have hentered : (ancestors.all fun id ↦ !d .pre id) = true := by simpa using hanc
    rw [tree_node] at hn
    obtain ⟨n, rfl⟩ := Nat.exists_eq_add_one.mpr
      (Nat.lt_of_lt_of_le (Tree.height_node_pos _ _) hn)
    rw [Tree.height_node_le_iff, Shape.forall_mem_mapChildren] at hn
    constructor
    intro st hl
    have hpreCall : Performs note (pre (some id)) st [.call .pre id] []
        (if d .pre id then none else some id) fun s ↦ s.Holds (.node id info shape) := by
      obtain ⟨memo, hnote, hret⟩ := hpre st id
      exact ⟨.ok (), { st with memo }, hret, .call hnote (.nil memo), ⟨rfl, fun _ _ ↦ rfl⟩,
        fun _ ↦ hl⟩
    have hcome : Occurrence.events d ⟨ancestors, none, id, node id info shape⟩ .pre =
        [.call .pre id] := by
      simp [Occurrence.events, Occurrence.called, Occurrence.entered, Occurrence.lost?, hentered]
    rw [eventsAt_tourFrom_node, hcome, List.append_assoc, pruned_node]
    refine hpreCall.bind_within (List.forall_mem_nil _) fun st' hq _ ↦ ?_
    cases hd : d .pre id with
    | true =>
      have hbelow : eventsAt d (shape.slotted.flatMap fun child ↦
          child.2.tourFrom (ancestors ++ [id]) child.1) = [] :=
        eventsAt_children_eq_nil fun l _ slot ↦ eventsAt_of_deleted ⟨id, by simp, hd⟩ l slot
      have hleave : Occurrence.events d ⟨ancestors, none, id, node id info shape⟩ .post = [] := by
        simp [Occurrence.events, Occurrence.called, Occurrence.reached, Occurrence.lost?, hd]
      rw [hbelow, hleave]
      exact (Performs.of_returns (returns_pure none st') .missing).mono (List.forall_mem_nil _)
        fun _ hq _ ↦ hq
    | false =>
      have hleave : Occurrence.events d ⟨ancestors, none, id, node id info shape⟩ .post =
          if (node id info shape).emptied d then [] else [.call .post id] := by
        cases he : (node id info shape).emptied d <;>
          simp [Occurrence.events, Occurrence.called, Occurrence.reached, Occurrence.entered,
            Occurrence.lost?, hentered, hd, he]
      have hanc' : ∀ i ∈ ancestors ++ [id], d .pre i = false := by
        simpa [or_imp, forall_and, hd] using hanc
      have hbelow : ∀ l ∈ shape.children,
          Prunes d note (visitTo pre post n) (ancestors ++ [id]) l :=
        fun l hl ↦ ih l hl hanc' (hn l hl) (wellFormed_child hw hl) (nodup_ids_child hu hl)
      have hshape : (st'.store.cell id).shape = shape.mapChildren root? := by
        cases hq with
        | node _ cell _ _ => rw [cell]
      rw [hleave, Bool.false_or, apply_ite root?]
      refine .after (returns_cell id st') ?_
      rw [hshape]
      exact performs_descend hpost hanc' hbelow hw hq hu

/-- Two visitors that keep or delete the nodes of an unshared tree by their identities are called
with each node once at most, in the order of the tour: the first with the nodes below those that it
keeps, and the second with the nodes that are reached and not emptied. If no parent that is reached
loses a slot, the walk leaves the pruned layout. Otherwise it fails with the first slot that is
lost. -/
theorem visitNode_deletes (hpre : Decides d note .pre pre) (hpost : Decides d note .post post)
    (hl : st.store.Stands l) (hw : l.tree.WellFormed) :
    (callsAt d l.tour).Nodup ∧
    (∀ v ∈ l.tour, v.2.here.deleted d = (d .pre v.2.id || v.2.here.emptied d || d .post v.2.id)) ∧
    ((∀ v ∈ l.tour, v.2.lost? d v.1 = none) →
      ∃ st', (visitNode pre post l.root?).Returns st (if l.deleted d then none else l.root?) st' ∧
        (l.pruned d).root? = (if l.deleted d then none else l.root?) ∧
        st'.store.Stands (l.pruned d) ∧ Noted note (callsAt d l.tour) st.memo st'.memo) ∧
    ((∃ v ∈ l.tour, v.2.lost? d v.1 ≠ none) →
      ∃ before v after slot st', l.tour = before ++ v :: after ∧
        (∀ u ∈ before, u.2.lost? d u.1 = none) ∧ v.2.lost? d v.1 = some slot ∧
        (visitNode pre post l.root?).run.run st = (.error (.violation (.deletedSlot slot)), st') ∧
        Noted note (callsAt d (before ++ [v])) st.memo st'.memo) := by
  have hdeep : l.tree.height ≤ st.store.size + depthAllowance :=
    Nat.le_trans (Nat.le_trans l.height_tree_le hl.length_ids_le) (Nat.le_add_right _ _)
  obtain ⟨outcome, st', hrun, hplayed, -, hleft⟩ :=
    ((prunes_visitTo hpre hpost l (List.forall_mem_nil _) hdeep hw hl.unshared).performs
        hl.holds).run
  rw [← run_visitNode] at hrun
  refine ⟨nodup_callsAt_tour d hl.unshared, fun v hv ↦ deleted_here hv, fun hkept ↦ ?_,
    fun hlost ↦ ?_⟩
  · obtain ⟨rfl, hnoted⟩ := played_eventsAt hkept hplayed
    exact ⟨st', root?_pruned (d := d) ▸ hrun, root?_pruned,
      ⟨hleft rfl, hl.unshared.sublist (ids_pruned_sublist d l)⟩, hnoted⟩
  · have hfirst : (l.tour.findSome? fun v ↦ v.2.lost? d v.1) ≠ none := by
      simpa [List.findSome?_eq_none_iff] using hlost
    obtain ⟨slot, hslot⟩ := Option.ne_none_iff_exists'.mp hfirst
    obtain ⟨before, v, after, htour, hv, hbefore⟩ := List.findSome?_eq_some_iff.mp hslot
    have hplayed' : Played note (eventsAt d (before ++ v :: after)) st.memo outcome st'.memo := by
      rw [← htour]
      exact hplayed
    obtain ⟨rfl, hnoted⟩ := played_eventsAt_of_lost hbefore hv hplayed'
    exact ⟨before, v, after, slot, st', htour, hbefore, hv, hrun, hnoted⟩

/-- The visitor that keeps or deletes nodes as it is decided for its phase, and lists its calls. -/
def listing (d : Deletions) (phase : Phase) : Visitor (List (Phase × NodeId)) := fun node ↦ do
  Walk.modifyMemo (· ++ node.toList.map fun id ↦ (phase, id))
  return node.filter fun id ↦ !d phase id

/-- How the visitors that list their calls change their lists. -/
abbrev Listed : Noting (List (Phase × NodeId)) := fun phase id calls calls' ↦
  calls' = calls ++ [(phase, id)]

private theorem decides_listing (d : Deletions) (phase : Phase) :
    Decides d Listed phase (listing d phase) := by
  intro st id
  refine ⟨_, rfl, .bind (returns_modifyMemo _ st) ?_⟩
  have hleft : ((some id).filter fun id ↦ !d phase id) = if d phase id then none else some id := by
    cases hd : d phase id <;> simp [hd]
  rw [hleft]
  exact returns_pure _ _

/-- What is listed in the end are the calls. -/
theorem eq_of_noted_listed {calls before after : List (Phase × NodeId)}
    (h : Noted Listed calls before after) : after = before ++ calls := by
  induction h with
  | nil calls => exact (List.append_nil calls).symm
  | cons first _ ih => rw [ih, first, List.append_assoc, List.singleton_append]

/-- Without its one argument a call goes from an output, and is not finished; a conditional stays
only with all its slots. -/
theorem visitNode_deletes_argument :
    let s : Store := ⟨#[⟨{}, .literal none (.str "x")⟩, ⟨{}, .call "f" none [some ⟨0⟩]⟩,
      ⟨{}, .literal none (.bool true)⟩, ⟨{}, .literal none (.str "a")⟩,
      ⟨{}, .literal none (.str "b")⟩, ⟨{}, .conditional none (some ⟨2⟩) (some ⟨3⟩) (some ⟨4⟩)⟩,
      ⟨{}, .output none [some ⟨1⟩, some ⟨5⟩]⟩], .empty⟩
    let only (id : NodeId) : Deletions := fun phase other ↦ phase = .post && other = id
    let walk (d : Deletions) : Walk _ _ := visitNode (listing d .pre) (listing d .post) (some ⟨6⟩)
    (∃ st', (walk (only ⟨0⟩)).Returns ⟨s, []⟩ (some ⟨6⟩) st' ∧
      st'.store.tree (some ⟨6⟩) = .node {} (.output none [s.tree (some ⟨5⟩)]) ∧
      (st'.memo.filter fun call ↦ call.1 = .post).map Prod.snd =
        [⟨0⟩, ⟨2⟩, ⟨3⟩, ⟨4⟩, ⟨5⟩, ⟨6⟩]) ∧
    ∃ st', (walk (only ⟨3⟩)).run.run ⟨s, []⟩ =
      (.error (.violation (.deletedSlot .whenTrue)), st') := by
  intro s only walk
  let text (id : NodeId) (value : Literal) : Layout := .node id {} (.literal none value)
  let branches : Layout := .node ⟨5⟩ {} (.conditional none (text ⟨2⟩ (.bool true))
    (text ⟨3⟩ (.str "a")) (text ⟨4⟩ (.str "b")))
  let l : Layout := .node ⟨6⟩ {}
    (.output none [.node ⟨1⟩ {} (.call "f" none [text ⟨0⟩ (.str "x")]), branches])
  have htext (id : NodeId) (value : Literal) (hbound : id.index < s.size)
      (hcell : s.cell id = ⟨{}, .literal none value⟩) : s.Holds (text id value) :=
    .node hbound hcell List.nodup_nil (List.forall_mem_nil _)
  have hl : s.Stands l := by
    refine ⟨.node (by decide) rfl List.nodup_nil ?_, by decide⟩
    refine List.forall_mem_cons.mpr ⟨.node (by decide) rfl List.nodup_nil ?_,
      List.forall_mem_singleton.mpr (.node (by decide) rfl List.nodup_nil ?_)⟩
    · exact List.forall_mem_singleton.mpr (htext _ _ (by decide) rfl)
    · exact List.forall_mem_cons.mpr ⟨htext _ _ (by decide) rfl,
        List.forall_mem_cons.mpr ⟨htext _ _ (by decide) rfl,
          List.forall_mem_singleton.mpr (htext _ _ (by decide) rfl)⟩⟩
  have hw : l.tree.WellFormed := by decide
  have hall (d : Deletions) := @visitNode_deletes _ Listed d ⟨s, []⟩ _ _ l
    (decides_listing d .pre) (decides_listing d .post) hl hw
  constructor
  · obtain ⟨st', hret, hroot, hleft, hnoted⟩ := (hall (only ⟨0⟩)).2.2.1 (by decide)
    refine ⟨st', hret, ?_, ?_⟩
    · have htree := hleft.tree_eq
      rw [hroot] at htree
      exact htree.trans rfl
    · rw [eq_of_noted_listed hnoted]
      decide
  · obtain ⟨before, v, after, slot, st', htour, hbefore, hv, hrun, -⟩ :=
      (hall (only ⟨3⟩)).2.2.2 (by decide)
    have hfirst : (l.tour.findSome? fun v ↦ v.2.lost? (only ⟨3⟩) v.1) = some slot :=
      List.findSome?_eq_some_iff.mpr ⟨before, v, after, htour, hv, hbefore⟩
    have hslot : slot = .whenTrue := Option.some.inj (hfirst.symm.trans rfl)
    rw [hslot] at hrun
    exact ⟨st', hrun⟩

end Visitor

end Hil
