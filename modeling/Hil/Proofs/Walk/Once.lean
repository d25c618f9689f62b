import Hil.Proofs.Walk.Interruption

/-!
# Walks that come to every node once

A visitor may return a node that has been visited and deleted before, and the walk then comes to the
node again. There is no such node among those that a visitor is given and those that it adds. So a
walk comes to every node once whose first visitor returns no others, whatever its second visitor
puts in the place of nodes: what a node was when its children began to be visited is what it was at
first.
-/

namespace Hil.Visitor

open Layout Walk WalkState

variable {σ : Type} {pre post : Visitor σ} {T : Set NodeId} {A C E : List NodeId}
  {I : WalkState (σ × Trail) → Set NodeId → Prop} {N : List (Option NodeId) → Prop}
  {visit : Visitor (σ × Trail)} {st st₁ st₂ : WalkState (σ × Trail)} {id : NodeId}
  {info : NodeInfo} {shape : Shape Layout} {l : Layout} {ls : List Layout}

/-- The visitor returns no nodes but those of the layout that it is given, and new ones. -/
def Modest (visit : Visitor σ) : Prop :=
  ∀ {st st' : WalkState σ} {l : Layout} {r : Option NodeId}, st.store.Stands l →
    (visit l.root?).Returns st r st' → ∃ l', l'.root? = r ∧ st'.store.Stands l' ∧
      ∀ id ∈ l'.ids, id ∈ l.ids ∨ st.store.size ≤ id.index

/-- The visitor that keeps nodes returns what it is given. -/
theorem modest_keep : (keep : Visitor σ).Modest := by
  intro st st' l r hl hr
  obtain ⟨rfl, rfl⟩ := returns_pure_iff.mp hr
  exact ⟨l, rfl, hl, fun id hid ↦ .inl hid⟩

/-- A visitor that changes no nodes and returns no others than it is given and new ones introduces
no sharing. -/
theorem Modest.tidy (h : pre.Modest) (hadd : pre.OnlyAdds) : Tidy Occupied pre := by
  constructor
  intro st T l r st' hu hr
  obtain ⟨l', hroot, hl', hids⟩ := h hu.stands hr
  have hext : st.store.Extends st'.store := by
    have hstore := hadd l.root? st
    rwa [hr] at hstore
  refine ⟨l', hroot, hl', ⟨hext.size, fun id hid _ ↦ hext.cell id (hu.custody id hid), ?_, ?_⟩,
    trivial⟩
  · intro id hid
    exact (hids id hid).imp_right fun hnew ht ↦ Nat.not_lt_of_le hnew (hu.custody id ht)
  · rintro id (⟨ht, -⟩ | hid)
    · exact Nat.lt_of_lt_of_le (hu.custody id ht) hext.size
    · exact hl'.holds.lt_size id hid

/-! ### Nodes that begin to be visited -/

/-- The nodes that have begun to be visited on the way are all different, and each is one of the
given or has been added on the way. -/
structure Begins (given : List NodeId) (st st' : WalkState (σ × Trail)) : Prop where
  size : st.store.size ≤ st'.store.size
  begun : ∃ new, st'.trail.begun = new ++ st.trail.begun ∧ new.Nodup ∧
    ∀ id ∈ new, (id ∈ given ∨ st.store.size ≤ id.index) ∧ id.index < st'.store.size

namespace Begins

/-- No node begins where the walk stays. -/
theorem refl (given : List NodeId) (st : WalkState (σ × Trail)) : Begins given st st :=
  ⟨Nat.le_refl _, [], rfl, List.nodup_nil, List.forall_mem_nil _⟩

/-- More nodes can be given. -/
theorem widen (h : Begins A st st₁) (hE : ∀ id ∈ A, id ∈ E) : Begins E st st₁ := by
  obtain ⟨new, hbegun, hnodup, hnew⟩ := h.begun
  exact ⟨h.size, new, hbegun, hnodup, fun id hid ↦ (hnew id hid).imp_left (Or.imp_left (hE id))⟩

/-- A step may follow in which no node begins. -/
theorem then_still (h : Begins A st st₁) (hsize : st₁.store.size ≤ st₂.store.size)
    (hbegun : st₂.trail.begun = st₁.trail.begun) : Begins A st st₂ := by
  obtain ⟨new, hnew, hnodup, hmem⟩ := h.begun
  exact ⟨Nat.le_trans h.size hsize, new, hbegun.trans hnew, hnodup,
    fun id hid ↦ (hmem id hid).imp_right fun hlt ↦ Nat.lt_of_lt_of_le hlt hsize⟩

/-- A step may precede in which no node begins, and that gives what it was given and new nodes. -/
theorem still_then (hsize : st.store.size ≤ st₁.store.size)
    (hbegun : st₁.trail.begun = st.trail.begun) (h : Begins C st₁ st₂)
    (hC : ∀ id ∈ C, id ∈ A ∨ st.store.size ≤ id.index) : Begins A st st₂ := by
  obtain ⟨new, hnew, hnodup, hmem⟩ := h.begun
  refine ⟨Nat.le_trans hsize h.size, new, hbegun ▸ hnew, hnodup, fun id hid ↦ ?_⟩
  refine (hmem id hid).imp_left fun hold ↦ ?_
  exact hold.elim (hC id) fun hle ↦ .inr (Nat.le_trans hsize hle)

/-- Steps follow each other that are given different nodes of those that there are. -/
theorem trans (h : Begins A st st₁) (h' : Begins C st₁ st₂)
    (hC : ∀ id ∈ C, id.index < st.store.size ∧ id ∉ A) : Begins (A ++ C) st st₂ := by
  obtain ⟨new, hbegun, hnodup, hnew⟩ := h.begun
  obtain ⟨new', hbegun', hnodup', hnew'⟩ := h'.begun
  refine ⟨Nat.le_trans h.size h'.size, new' ++ new, ?_, ?_, fun id hid ↦ ?_⟩
  · rw [hbegun', hbegun, List.append_assoc]
  · refine List.nodup_append.mpr ⟨hnodup', hnodup, fun id hid other hother heq ↦ ?_⟩
    subst heq
    -- what has begun first was given first or is new, but was there for the second step
    obtain ⟨hold, hlt⟩ := hnew id hother
    rcases (hnew' id hid).1 with hc | hle
    · obtain ⟨hsize, ha⟩ := hC id hc
      exact hold.elim ha (Nat.not_le_of_lt hsize)
    · exact Nat.not_lt_of_le hle hlt
  · rcases List.mem_append.mp hid with hid | hid
    · obtain ⟨hold, hlt⟩ := hnew' id hid
      exact ⟨hold.imp (List.mem_append_right A) (Nat.le_trans h.size), hlt⟩
    · obtain ⟨hold, hlt⟩ := hnew id hid
      exact ⟨hold.imp_left (List.mem_append_left C), Nat.lt_of_lt_of_le hlt h'.size⟩

end Begins

/-! ### Handlers -/

/-- In a visit of a layout in use, its nodes begin once, wherever the visit ends. -/
structure Once (I : WalkState (σ × Trail) → Set NodeId → Prop) (visit : Visitor (σ × Trail)) :
    Prop where
  begins : ∀ {st T l}, InUse I T [l] st → Begins l.ids st ((visit l.root?).run.run st).2

/-- The nodes of the layouts that are still to be visited are none that the first has begun. -/
theorem Begins.later (hu : InUse I T (l :: ls) st) (h : Begins l.ids st st₁)
    (h' : Begins (ls.flatMap ids) st₁ st₂) : Begins ((l :: ls).flatMap ids) st st₂ := by
  refine h.trans h' fun id hid ↦ ⟨?_, (hu.apart id hid).2⟩
  obtain ⟨l', hl', hid'⟩ := List.mem_flatMap.mp hid
  exact (hu.holds l' (List.mem_cons_of_mem l hl')).lt_size id hid'

/-- The first of some layouts is visited. -/
theorem Begins.of_head (h : Begins l.ids st st₁) : Begins ((l :: ls).flatMap ids) st st₁ :=
  h.widen fun _ hid ↦ List.mem_append_left _ hid

/-- Whether a node is an expression is looked up after its visit. -/
theorem Once.exprOnly (h : Once I visit) : Once I (exprOnly visit) := by
  constructor
  intro st T l hu
  refine holds_after_bind (h.begins hu) fun r st₁ _ hvisit ↦ ?_
  cases r with
  | none => exact hvisit
  | some id =>
    refine holds_after_bind hvisit fun cell st₂ _ hcell ↦ ?_
    split <;> exact hcell

/-- In visits of children in order, their nodes begin once. -/
theorem Once.survivors (h : Once I visit) (hn : Notes I N visit) (hu : InUse I T ls st) :
    Begins (ls.flatMap ids) st ((survivors visit (ls.map root?)).run.run st).2 := by
  induction ls generalizing st T with
  | nil => exact .refl _ _
  | cons l ls ih =>
    have hvisit := h.begins hu.head
    refine holds_after_bind hvisit.of_head fun r st₁ hr _ ↦ ?_
    obtain ⟨⟨l', -, -, hx⟩, -⟩ := (hn.ends hu.head).of_returns hr
    rw [hr.state_eq] at hvisit
    have hrest := hvisit.later hu (ih (hu.tail hx))
    cases r with
    | none => exact hrest
    | some id => exact holds_after_bind hrest fun rest st₂ _ hst₂ ↦ hst₂

/-- The nodes of a child in a slot begin once, and after it those of the children that are left. -/
theorem Once.slot_bind {β : Type} {k : NodeId → Walk (σ × Trail) β} (h : Once I visit)
    (hn : Notes I N visit) (hu : InUse I T (l :: ls) st) (hid : id ∈ T)
    (hout : id ∉ (l :: ls).flatMap ids) {which : Slot}
    (hs : (st.store.cell id).shape.slot? which = some l.root?)
    (hk : ∀ child st₁ T₁, InUse I T₁ ls st₁ → id ∈ T₁ → id ∉ ls.flatMap ids →
      st₁.store.cell id = st.store.cell id →
      Begins (ls.flatMap ids) st₁ ((k child).run.run st₁).2) :
    Begins ((l :: ls).flatMap ids) st ((slot visit id which >>= k).run.run st).2 := by
  have hslot : Begins l.ids st ((slot visit id which).run.run st).2 := by
    refine holds_after_bind (.refl _ _) fun cell st₁ hcell _ ↦ ?_
    cases hcell
    rw [hs, Option.join_some]
    refine holds_after_bind (h.begins hu.head) fun r st₁ _ hvisit ↦ ?_
    cases r <;> exact hvisit
  refine holds_after_bind hslot.of_head fun child st₁ hr _ ↦ ?_
  obtain ⟨l', -, -, -, hu₁, hid₁, hout₁, hcell₁, -⟩ := (hn.slot hu hid hout hs).of_returns hr
  rw [hr.state_eq] at hslot
  exact hslot.later hu (hk child st₁ _ hu₁ hid₁ hout₁ hcell₁)

/-- In visits of the values of a map in order, their nodes begin once. -/
theorem Once.mapValues (hI : Custody I) (h : Once I visit) (hn : Notes I N visit)
    {rest : List (Str × Layout)} {done : List (Str × Option NodeId)}
    (hu : InUse I T (rest.map Prod.snd) st) (hid : id ∈ T)
    (hout : id ∉ (rest.map Prod.snd).flatMap ids) (hmap : st.store.MapAt id info done rest) :
    Begins ((rest.map Prod.snd).flatMap ids) st
      ((mapValues visit id (rest.map fun e ↦ (e.1, e.2.root?))).run.run st).2 := by
  induction rest generalizing st T done with
  | nil => exact .refl _ _
  | cons entry rest ih =>
    obtain ⟨key, l⟩ := entry
    simp only [List.map_cons, List.flatMap_cons, List.mem_append, not_or] at hu hout
    simp only [List.map_cons, List.flatMap_cons, mapValues_cons]
    have hvisit := h.begins hu.head
    refine holds_after_bind hvisit.of_head fun r st₁ hr _ ↦ ?_
    obtain ⟨⟨l', rfl, -, hx⟩, -⟩ := (hn.ends hu.head).of_returns hr
    rw [hr.state_eq] at hvisit
    have hmap₁ := hmap.frame hx.size (hx.frame id hid hout.1)
    have hsettle := returns_settle hmap₁ l'.root?
    have hsettled : Begins l.ids st (st₁.modifyShape id (Shape.settle key l'.root?)) :=
      hvisit.then_still (Nat.le_of_eq (Store.size_modifyShape ..).symm) rfl
    refine holds_after_bind (hsettle.state_eq ▸ hsettled.of_head) fun _ st₂ hst₂ _ ↦ ?_
    cases hsettle.symm.trans hst₂
    have hx' : Exchange I T ([id] ++ l.ids) ([id] ++ l'.ids) st
        (st₁.modifyShape id (Shape.settle key l'.root?)) :=
      hx.then_modifyShape hI hid hout.1 _
    exact hsettled.later hu (ih (hu.tail_of_above hx' (List.forall_mem_singleton.mpr hout.2))
      (.inr List.mem_cons_self) hout.2 (hmap₁.settle l'))

/-! ### Nodes -/

section Below

/-- No node begins in what follows the visits of the children. -/
def Still (post : Visitor (σ × Trail)) : Prop :=
  ∀ node st, Begins [] st ((post node).run.run st).2

variable {after : Visitor (σ × Trail)}

private theorem Begins.then_visit (h : Begins A st st₁) (hafter : Still after)
    (node : Option NodeId) :
    Begins A st ((after node).run.run st₁).2 := by
  have hall := h.trans (hafter node st₁) (List.forall_mem_nil _)
  rwa [List.append_nil] at hall

/-- A node may be changed before what follows the visits of its children. -/
theorem Begins.then_change (h : Begins A st st₁) (hafter : Still after)
    (f : Shape (Option NodeId) → Shape (Option NodeId)) :
    Begins A st ((Walk.modifyShape id f >>= fun _ ↦ after (some id)).run.run st₁).2 := by
  have hchanged : Begins A st (st₁.modifyShape id f) :=
    h.then_still (Nat.le_of_eq (Store.size_modifyShape ..).symm) rfl
  exact hchanged.then_visit hafter (some id)

private theorem Once.listNode (h : Once I visit) (hn : Notes I N visit) (hafter : Still after)
    (hu : InUse I T ls st) (c : List (Option NodeId) → Shape (Option NodeId)) :
    Begins (ls.flatMap ids) st ((listNode visit after id (ls.map root?) c).run.run st).2 := by
  refine holds_after_bind (h.survivors hn hu) fun left st₁ _ hleft ↦ ?_
  split
  · exact hleft
  · exact hleft.then_change hafter _

/-- In what happens below a node, the nodes of its children begin once. -/
theorem Once.descend (hI : Custody I) (h : Once I visit) (hn : Notes I N visit)
    (hafter : Still after) (hu : InUse I T [.node id info shape] st) :
    Begins (shape.children.flatMap ids) st
      ((descend visit after id (shape.mapChildren root?)).run.run st).2 := by
  obtain ⟨hchildren, hid, hout⟩ := hu.children
  have hcell := hu.cell_eq
  have he := h.exprOnly
  have hne := hn.exprOnly
  cases shape with
  | arithmetic type exprs => exact he.listNode hne hafter hchildren _
  | call func type args => exact he.listNode hne hafter hchildren _
  | conditional type c t f =>
    refine he.slot_bind hne hchildren hid hout (by rw [hcell]; rfl) ?_
    intro cId st₁ T₁ hu₁ hid₁ hout₁ hcell₁
    refine he.slot_bind hne hu₁ hid₁ hout₁ (by rw [hcell₁, hcell]; rfl) ?_
    intro tId st₂ T₂ hu₂ hid₂ hout₂ hcell₂
    refine he.slot_bind hne hu₂ hid₂ hout₂ (by rw [hcell₂, hcell₁, hcell]; rfl) ?_
    intro fId st₃ T₃ hu₃ hid₃ hout₃ hcell₃
    exact Begins.then_change (.refl [] st₃) hafter _
  | index type t k =>
    refine he.slot_bind hne hchildren hid hout (by rw [hcell]; rfl) ?_
    intro tId st₁ T₁ hu₁ hid₁ hout₁ hcell₁
    refine he.slot_bind hne hu₁ hid₁ hout₁ (by rw [hcell₁, hcell]; rfl) ?_
    intro kId st₂ T₂ hu₂ hid₂ hout₂ hcell₂
    exact Begins.then_change (.refl [] st₂) hafter _
  | literal type value => exact hafter _ _
  | output type exprs => exact he.listNode hne hafter hchildren _
  | access type resolved => exact hafter _ _
  | list elements => exact h.listNode hn hafter hchildren _
  | map entries =>
    cases hu.stands.holds with
    | node bound _ distinct _ =>
      have hmap : st.store.MapAt id info [] entries := ⟨bound, hcell, distinct⟩
      refine holds_after_bind (h.mapValues hI hn hchildren hid hout hmap) fun _ st₁ _ hvalues ↦ ?_
      exact hvalues.then_visit hafter (some id)
  | foreign className content => exact .refl _ _

end Below

/-! ### Walks -/

/-- What follows the visits of the children begins no nodes. -/
theorem still_after (hpost : post.OnlyAdds) (above : List Stage) : Still (after above post) := by
  intro node st
  have hext := hpost node (st.modifyTrail (Trail.back above)).bare
  exact (Begins.refl [] st).then_still hext.size rfl

/-- What a visitor returns may be noted. -/
theorem Once.noted (h : Once I visit) : Once I (noted visit) :=
  ⟨fun hu ↦ holds_after_bind (h.begins hu) fun _ _ _ hr ↦ hr.then_still (Nat.le_refl _) rfl⟩

/-- A node begins, and then those below it. -/
theorem Once.within {J : WalkState σ → Set NodeId → Prop} (hJ : Custody J)
    (h : Once (Beside J) visit) (htracks : Tracks (Beside J) visit) (hpost : post.OnlyAdds)
    (hu : InUse (Beside J) T [.node id info shape] st) :
    Begins (Layout.node id info shape).ids st ((within visit post id).run.run st).2 := by
  let entered := st.modifyTrail (Trail.enter id (st.store.cell id))
  have hu' : InUse (Beside J) T [.node id info shape] entered :=
    ⟨hu.custody, hu.holds, hu.unshared, hu.mem⟩
  have hcell : (st.store.cell id).shape = shape.mapChildren root? := congrArg Cell.shape hu.cell_eq
  have hbelow := h.noted.descend (custody_beside hJ) htracks.noted
    (still_after hpost st.trail.stages) hu'
  rw [← hcell] at hbelow
  have hlt := hu.stands.holds.lt_size
  rw [ids_node, List.forall_mem_cons] at hlt
  have henter : Begins [id] st entered :=
    ⟨Nat.le_refl _, [id], rfl, List.nodup_singleton id,
      List.forall_mem_singleton.mpr ⟨.inl (List.mem_singleton_self id), hlt.1⟩⟩
  have hnode := henter.trans hbelow fun other hother ↦ ⟨hlt.2 other hother, fun hm ↦
    hu.children.2.2 (List.mem_singleton.mp hm ▸ hother)⟩
  rw [run_within, ids_node]
  exact holds_after_bind hnode fun _ _ _ hr ↦ hr.then_still (Nat.le_refl _) rfl

/-- A traced walk comes to every node once, down to any depth. -/
theorem once_tracedTo (hpre : pre.Modest) (hpost : Tidy Occupied post) (haddpre : pre.OnlyAdds)
    (haddpost : post.OnlyAdds) (depth : Nat) :
    Once (Beside Occupied) (tracedTo pre post depth) := by
  induction depth with
  | zero => exact ⟨fun _ ↦ .refl _ _⟩
  | succ depth ih =>
    constructor
    intro st T l hu
    have hext := haddpre l.root? st.bare
    have haside : Begins l.ids st ((pre l.root?).aside.run.run st).2 :=
      (Begins.refl _ st).then_still hext.size rfl
    refine holds_after_bind haside fun r st₁ hr hst₁ ↦ ?_
    obtain ⟨l₁, rfl, hl₁, hids⟩ := hpre hu.stands hr.of_aside
    cases l₁ with
    | missing => exact hst₁
    | node id info shape =>
      -- the walk goes on below the new layout as if no other nodes were in use
      have hu₁ := InUse.alone (I := Beside Occupied) hl₁.holds.lt_size hl₁
      have htracks := tracks_tracedTo custody_occupied ((hpre.tidy haddpre).tracks haddpre)
        (hpost.tracks haddpost) depth
      have hsize : st.store.size ≤ st₁.store.size := hr.state_eq ▸ hext.size
      have hbegun : st₁.trail.begun = st.trail.begun := hr.state_eq ▸ rfl
      exact .still_then hsize hbegun (ih.within custody_occupied htracks haddpost hu₁) hids

/-- Whatever two visitors do that change no nodes, and of which the first returns none but those it
is given and new ones and the second introduces no sharing: their walk of an unshared layout comes
to every node once, and wherever it ends, the nodes whose children are being visited were at first
what they were when that began. -/
theorem visited_once (hpre : pre.Modest) (hpost : Tidy Occupied post) (haddpre : pre.OnlyAdds)
    (haddpost : post.OnlyAdds) {st : WalkState σ} (hl : st.store.Stands l) :
    let trail := ((tracedNode pre post l.root?).run.run (st.traced (.ofStore st.store))).2.trail
    trail.begun.Nodup ∧ ∀ stage ∈ trail.stages,
      trail.begun.count stage.id = 1 ∧ stage.cell = trail.first stage.id := by
  intro trail
  let start := st.traced (.ofStore st.store)
  have hu : InUse (Beside Occupied) {id | id ∈ l.ids} [l] start := .alone hl.holds.lt_size hl
  let depth := start.store.size + depthAllowance
  have honce := (once_tracedTo hpre hpost haddpre haddpost depth).begins hu
  have haccurate := accurate_tracedTo haddpre haddpost depth l.root? (Accurate.ofStore st)
  rw [← run_tracedNode] at honce haccurate
  obtain ⟨new, hbegun, hnodup, -⟩ := honce.begun
  have hall : trail.begun = new := hbegun.trans (List.append_nil new)
  rw [hall]
  refine ⟨hnodup, fun stage hstage ↦ ?_⟩
  obtain ⟨hmem, hfirst⟩ := haccurate.stages stage hstage
  have hone : new.count stage.id = 1 := List.count_eq_one_of_mem hnodup (hall ▸ hmem)
  exact ⟨hone, hfirst (hbegun.trans (List.append_nil new) ▸ hone)⟩

end Hil.Visitor
