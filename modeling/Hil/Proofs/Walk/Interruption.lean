import Hil.Proofs.Walk.Custody
import Hil.Proofs.Walk.Entries
import Hil.Proofs.Walk.Tracing

/-!
# Walks that fail

A walk may fail anywhere: in a visitor, or when it finds that a child has become what its parent
cannot have. What it leaves of the nodes whose children were being visited is known all the same.
Lists and slots are put back after all the children have been visited, so that these nodes are as
they were; a map is changed after each of its values, so that its first keys hold what the visits
have returned. The nodes that the walk has not come to are as they were, provided that visitors
change none and introduce no sharing.
-/

namespace Hil

/-! ### Both ways to end -/

namespace Walk

variable {σ α β : Type} {w : Walk σ α} {k : α → Walk σ β} {st st' : WalkState σ} {a : α}
  {P P' : α → WalkState σ → Prop} {Q : β → WalkState σ → Prop} {F F' : WalkState σ → Prop}

/-- Where the walk returns, the first holds of its value and of the state that it leaves, and where
it fails, the second holds of the state. -/
def Ends (w : Walk σ α) (st : WalkState σ) (P : α → WalkState σ → Prop)
    (F : WalkState σ → Prop) : Prop :=
  match w.run.run st with
  | (.ok a, st') => P a st'
  | (.error _, st') => F st'

private theorem ends_pure (h : P a st) : (pure a : Walk σ α).Ends st P F := h

private theorem ends_throw (failure : Failure) (h : F st) :
    (throw failure : Walk σ α).Ends st P F := h

/-- What is known of the ends of a walk is known where it returns. -/
theorem Ends.of_returns (h : w.Ends st P F) (hr : w.Returns st a st') : P a st' := by
  rwa [Ends, hr] at h

/-- A part that returns can be passed over. -/
theorem Returns.ends_bind (h : w.Returns st a st') (hk : (k a).Ends st' Q F) :
    (w >>= k).Ends st Q F := by
  rw [Ends, run_bind, h]
  exact hk

/-- A walk ends where its first part fails, or as it goes on from there. -/
theorem Ends.bind (h : w.Ends st P F) (hk : ∀ a st', P a st' → (k a).Ends st' Q F')
    (hf : ∀ st', F st' → F' st') : (w >>= k).Ends st Q F' := by
  rw [Ends, run_bind]
  rw [Ends] at h
  cases hrun : w.run.run st with
  | mk outcome st' =>
    rw [hrun] at h
    cases outcome with
    | error failure => exact hf st' h
    | ok a => exact hk a st' h

/-- What is known of the ends of a walk can be put in other words. -/
theorem Ends.imp (h : w.Ends st P F) (hp : ∀ a st', P a st' → P' a st')
    (hf : ∀ st', F st' → F' st') : w.Ends st P' F' := by
  rw [Ends] at h ⊢
  split at h
  · exact hp _ _ h
  · exact hf _ h

end Walk

/-! ### What failures leave -/

/-- The entries of a map of which the first values have been visited. These are replaced by what the
visits have returned, or dropped with their keys. -/
def Stage.visited :
    List (Str × Option NodeId) → List (Option NodeId) → List (Str × Option NodeId)
  | entries, [] => entries
  | [], _ :: _ => []
  | _ :: entries, none :: results => visited entries results
  | (key, _) :: entries, some id :: results => (key, some id) :: visited entries results

/-- What a failure leaves of a node whose children are being visited. Of a map some values have not
been visited; any other node is as it was. -/
def Stage.Left (stage : Stage) (cell : Cell) : Prop :=
  match stage.cell.shape with
  | .map entries =>
    cell = ⟨stage.cell.info, .map (visited entries stage.results)⟩ ∧
      stage.results.length < entries.length
  | _ => cell = stage.cell

/-- What the trail of a failed walk tells of the nodes that the walk leaves. -/
structure Trail.Tells (trail : Trail) (s s' : Store) : Prop where
  /-- Nodes whose children were being visited are left as they were when that began, but for the
  first keys of maps. -/
  stages : ∀ stage ∈ trail.stages, stage.Left (s'.cell stage.id)
  /-- That is how they were at first, if they were visited once only. -/
  first : ∀ stage ∈ trail.stages, trail.begun.count stage.id = 1 →
    stage.cell = trail.first stage.id
  /-- Nodes whose children had not begun to be visited are as they were at first. -/
  unbegun : ∀ id, id ∉ trail.begun → s'.cell id = trail.first id
  /-- The nodes that there were before the walk were at first as they were then. -/
  start : ∀ id : NodeId, id.index < s.size → trail.first id = s.cell id

namespace Visitor

open Layout Walk Trail

variable {σ : Type} {T : Set NodeId} {A B C E : List NodeId} {stages above : List Stage}
  {id : NodeId} {info : NodeInfo} {shape : Shape Layout} {l l' : Layout} {ls : List Layout}

/-- What a failing walk leaves that is given some of the nodes in use: the others are as they were,
and so are all stages within those given, as far as a failure leaves them. -/
structure Halts (T : Set NodeId) (given : List NodeId) (stages : List Stage)
    (st st' : WalkState (σ × Trail)) : Prop where
  size : st.store.size ≤ st'.store.size
  frame : ∀ id ∈ T, id.index < st.store.size → id ∉ given → st'.store.cell id = st.store.cell id
  stages : ∃ inner, st'.trail.stages = inner ++ stages ∧
    ∀ stage ∈ inner, stage.Left (st'.store.cell stage.id)

section Traced

variable {I : WalkState (σ × Trail) → Set NodeId → Prop} {st st' st₁ st₂ : WalkState (σ × Trail)}
  {visit : Visitor (σ × Trail)} {N : List (Option NodeId) → Prop}

namespace Halts

/-- A walk that fails at once leaves everything. -/
theorem refl (T : Set NodeId) (A : List NodeId) (st : WalkState (σ × Trail)) :
    Halts T A st.trail.stages st st :=
  ⟨Nat.le_refl _, fun _ _ _ _ ↦ rfl, [], rfl, List.forall_mem_nil _⟩

/-- A failure after an exchange leaves what neither has been given. -/
theorem of_exchange (hx : Exchange I T A B st st₁) (h : Halts (traded T A B) C stages st₁ st₂)
    (hE : ∀ id, id ∈ A ∨ id ∈ C ∧ id ∉ B → id ∈ E) : Halts T E stages st st₂ := by
  refine ⟨Nat.le_trans hx.size h.size, fun id ht hlt he ↦ ?_, h.stages⟩
  have ha : id ∉ A := fun ha ↦ he (hE id (.inl ha))
  have hc : id ∉ C := fun hc ↦ he (hE id (.inr ⟨hc, fun hb ↦
    (hx.fresh id hb).elim ha fun hn ↦ hn ht⟩))
  exact (h.frame id (.inl ⟨ht, ha⟩) (Nat.lt_of_lt_of_le hlt hx.size) hc).trans (hx.frame id ht ha)

/-- More can be given than is used. -/
theorem widen (h : Halts T A stages st st') (hE : ∀ id ∈ A, id ∈ E) : Halts T E stages st st' :=
  ⟨h.size, fun id ht hlt he ↦ h.frame id ht hlt fun ha ↦ he (hE id ha), h.stages⟩

/-- A failure at a later child, after the first has been exchanged and its result been noted. -/
theorem later {results : List (Option NodeId)} (hx : Exchange I T l.ids l'.ids st st₁)
    (hstages : st₁.trail.stages = noteAll results st.trail.stages)
    (h : ∃ results, Halts (traded T l.ids l'.ids) (ls.flatMap ids)
      (noteAll results st₁.trail.stages) st₁ st₂) :
    ∃ results, Halts T ((l :: ls).flatMap ids) (noteAll results st.trail.stages) st st₂ := by
  obtain ⟨rest, hh⟩ := h
  rw [hstages, noteAll_noteAll] at hh
  refine ⟨_, hh.of_exchange hx fun i hi ↦ ?_⟩
  rw [List.flatMap_cons, List.mem_append]
  exact hi.imp_right And.left

/-- The innermost stage is left as well. -/
theorem leave {stage : Stage} (h : Halts T A (stage :: above) st st')
    (hstage : stage.Left (st'.store.cell stage.id)) : Halts T A above st st' := by
  obtain ⟨inner, hstages, hinner⟩ := h.stages
  refine ⟨h.size, h.frame, inner ++ [stage], by simp [hstages], fun other hother ↦ ?_⟩
  rcases List.mem_append.mp hother with hother | hother
  · exact hinner other hother
  · rw [List.mem_singleton.mp hother]
    exact hstage

end Halts

/-- A layout in use has been exchanged for one at the node that is returned. -/
def Swaps (I : WalkState (σ × Trail) → Set NodeId → Prop) (T : Set NodeId) (l : Layout)
    (st : WalkState (σ × Trail)) (r : Option NodeId) (st' : WalkState (σ × Trail)) : Prop :=
  ∃ l', l'.root? = r ∧ st'.store.Stands l' ∧ Exchange I T l.ids l'.ids st st'

/-- The visitor exchanges layouts in use, with the stages as they were, or it halts. -/
structure Tracks (I : WalkState (σ × Trail) → Set NodeId → Prop) (visit : Visitor (σ × Trail)) :
    Prop where
  ends : ∀ {st T l}, InUse I T [l] st → (visit l.root?).Ends st
    (fun r st' ↦ Swaps I T l st r st' ∧ st'.trail.stages = st.trail.stages)
    (Halts T l.ids st.trail.stages st)

/-- The visitor exchanges layouts in use and notes what it returns, or it halts after it has noted
some results of which something is known. -/
structure Notes (I : WalkState (σ × Trail) → Set NodeId → Prop) (N : List (Option NodeId) → Prop)
    (visit : Visitor (σ × Trail)) : Prop where
  ends : ∀ {st T l}, InUse I T [l] st → (visit l.root?).Ends st
    (fun r st' ↦ Swaps I T l st r st' ∧ st'.trail.stages = noteAll [r] st.trail.stages)
    (fun st' ↦ ∃ results, N results ∧ Halts T l.ids (noteAll results st.trail.stages) st st')

/-! ### Handlers -/

/-- What is to be an expression may turn out to be none after it has been noted. -/
theorem Notes.exprOnly (h : Notes I N visit) : Notes I (fun _ ↦ True) (exprOnly visit) := by
  constructor
  intro st T l hu
  refine (h.ends hu).bind (fun r st₁ hr ↦ ?_) fun st' ⟨results, _, hh⟩ ↦ ⟨results, trivial, hh⟩
  obtain ⟨⟨l', rfl, hl', hx⟩, hstages⟩ := hr
  cases l' with
  | missing => exact ends_pure ⟨⟨.missing, rfl, hl', hx⟩, hstages⟩
  | node id info shape =>
    refine (returns_cell id st₁).ends_bind ?_
    split
    · exact ends_pure ⟨⟨_, rfl, hl', hx⟩, hstages⟩
    · refine ends_throw _ ⟨[some id], trivial, ?_⟩
      rw [root?] at hstages
      rw [← hstages]
      exact .of_exchange hx (.refl _ [] st₁) fun i hi ↦
        hi.resolve_right fun hn ↦ List.not_mem_nil hn.1

/-- Children are visited in order, and stay where they are if a visit fails. -/
theorem Notes.survivors (hI : Custody I) (h : Notes I N visit) (hu : InUse I T ls st) :
    (survivors visit (ls.map root?)).Ends st
      (fun left st' ↦ ∃ ls', Traded I (fun _ ↦ True) T [] ls ls' st st' ∧
        left = (ls'.filter fun l ↦ !l.isMissing).map root?)
      (fun st' ↦ ∃ results, Halts T (ls.flatMap ids) (noteAll results st.trail.stages) st st') := by
  induction ls generalizing st T with
  | nil => exact ends_pure ⟨[], .nil hI hu.custody nofun, rfl⟩
  | cons l ls ih =>
    refine (h.ends hu.head).bind (fun r st₁ hr ↦ ?_) fun st' ⟨results, _, hh⟩ ↦
      ⟨results, hh.widen fun i hi ↦ List.mem_append_left _ hi⟩
    obtain ⟨⟨l', rfl, hl', hx⟩, hstages⟩ := hr
    cases l' with
    | missing =>
      refine (ih (hu.tail hx)).imp ?_ fun st' ↦ Halts.later hx hstages
      rintro left st₂ ⟨ls', ht, rfl⟩
      exact ⟨_, .cons hI hu hl' hx trivial ht, rfl⟩
    | node id info shape =>
      refine (ih (hu.tail hx)).bind ?_ fun st' ↦ Halts.later hx hstages
      rintro left st₂ ⟨ls', ht, rfl⟩
      exact ends_pure ⟨_, .cons hI hu hl' hx trivial ht, rfl⟩

/-- The child in a slot is exchanged for a node, and its parent and what is in use besides stay as
they are. -/
theorem Notes.slot (h : Notes I N visit) (hu : InUse I T (l :: ls) st) (hid : id ∈ T)
    (hout : id ∉ (l :: ls).flatMap ids) {which : Slot}
    (hs : (st.store.cell id).shape.slot? which = some l.root?) :
    (slot visit id which).Ends st
      (fun child st' ↦ ∃ l', l'.root? = some child ∧ st'.store.Stands l' ∧
        Exchange I T l.ids l'.ids st st' ∧ InUse I (traded T l.ids l'.ids) ls st' ∧
        id ∈ traded T l.ids l'.ids ∧ id ∉ ls.flatMap ids ∧
        st'.store.cell id = st.store.cell id ∧
        st'.trail.stages = noteAll [some child] st.trail.stages)
      (fun st' ↦ ∃ results,
        Halts T ((l :: ls).flatMap ids) (noteAll results st.trail.stages) st st') := by
  rw [List.flatMap_cons, List.mem_append, not_or] at hout
  refine (returns_cell id st).ends_bind ?_
  rw [hs]
  refine (h.ends hu.head).bind (fun r st₁ hr ↦ ?_) fun st' ⟨results, _, hh⟩ ↦
    ⟨results, hh.widen fun i hi ↦ List.mem_append_left _ hi⟩
  obtain ⟨⟨l', rfl, hl', hx⟩, hstages⟩ := hr
  cases l' with
  | missing =>
    exact ends_throw _ (Halts.later hx hstages
      ⟨[], (noteAll_nil st₁.trail.stages).symm ▸ .refl _ _ st₁⟩)
  | node id' info shape =>
    exact ends_pure ⟨_, rfl, hl', hx, hu.tail hx, .inl ⟨hid, hout.1⟩, hout.2,
      hx.frame id hid hout.1, hstages⟩

/-- The values of a map are visited in order. If a visit fails, the map has the results under the
keys before, and under the others what it had. -/
theorem Notes.mapValues (hI : Custody I) (h : Notes I (· = []) visit)
    {rest : List (Str × Layout)} {done : List (Str × Option NodeId)}
    (hu : InUse I T (rest.map Prod.snd) st) (hid : id ∈ T)
    (hout : id ∉ (rest.map Prod.snd).flatMap ids) (hmap : st.store.MapAt id info done rest) :
    (mapValues visit id (rest.map fun e ↦ (e.1, e.2.root?))).Ends st
      (fun _ st' ↦ ∃ rest' : List (Str × Layout), rest'.map Prod.fst = rest.map Prod.fst ∧
        Traded I (fun _ ↦ True) T [id] (rest.map Prod.snd) (rest'.map Prod.snd) st st' ∧
        st'.store.cell id = ⟨info, .map (done ++ kept rest')⟩)
      (fun st' ↦ ∃ results, results.length < rest.length ∧
        Halts T (id :: (rest.map Prod.snd).flatMap ids) (noteAll results st.trail.stages) st st' ∧
        st'.store.cell id =
          ⟨info, .map (done ++ Stage.visited (rest.map fun e ↦ (e.1, e.2.root?)) results)⟩) := by
  induction rest generalizing st T done with
  | nil =>
    exact ends_pure ⟨[], rfl, .nil hI hu.custody (List.forall_mem_singleton.mpr hid), hmap.cell⟩
  | cons entry rest ih =>
    obtain ⟨key, l⟩ := entry
    rw [List.map_cons, mapValues_cons]
    simp only [List.map_cons, List.flatMap_cons, List.mem_append, not_or] at hu hout
    refine (h.ends hu.head).bind (fun r st₁ hr ↦ ?_) ?_
    · obtain ⟨⟨l', rfl, hl', hx⟩, hstages⟩ := hr
      have hmap₁ := hmap.frame hx.size (hx.frame id hid hout.1)
      refine (returns_settle hmap₁ l'.root?).ends_bind ?_
      have hbelow : ∀ i ∈ [id], i ∉ (rest.map Prod.snd).flatMap ids :=
        List.forall_mem_singleton.mpr hout.2
      have hgone : id ∉ l'.ids := fun hm ↦ (hx.fresh id hm).elim hout.1 fun hn ↦ hn hid
      have hx' : Exchange I T ([id] ++ l.ids) ([id] ++ l'.ids) st
          (st₁.modifyShape id (Shape.settle key l'.root?)) :=
        hx.then_modifyShape hI hid hout.1 _
      refine (ih (hu.tail_of_above hx' hbelow) (.inr List.mem_cons_self) hout.2
        (hmap₁.settle l')).imp ?_ ?_
      · rintro _ st₂ ⟨rest', hfst, ht, hcell⟩
        refine ⟨(key, l') :: rest', by rw [List.map_cons, hfst, List.map_cons], ?_, ?_⟩
        · exact .cons_of_above hI hu hbelow ⟨hl'.holds.modifyShape hgone _, hl'.unshared⟩ hx'
            trivial (List.forall_mem_singleton.mpr hgone) ht
        · rw [hcell, List.append_assoc, ← kept_cons]
      · rintro st₂ ⟨results, hlength, hh, hcell⟩
        change Halts _ _ (noteAll results st₁.trail.stages) _ _ at hh
        rw [hstages, noteAll_noteAll] at hh
        refine ⟨l'.root? :: results, Nat.succ_lt_succ hlength, hh.of_exchange hx' fun i hi ↦ ?_, ?_⟩
        · rw [List.map_cons, List.flatMap_cons, ← List.singleton_append, ← List.append_assoc,
            List.mem_append]
          rcases hi with hi | ⟨hi, -⟩
          · exact .inl hi
          · rcases List.mem_cons.mp hi with rfl | hi
            · exact .inl List.mem_cons_self
            · exact .inr hi
        · rw [hcell, List.append_assoc]
          cases l' <;> rfl
    · rintro st' ⟨_, rfl, hh⟩
      refine ⟨[], Nat.zero_lt_succ _, hh.widen fun i hi ↦ ?_, ?_⟩
      · exact List.mem_cons_of_mem _ (List.mem_append_left _ hi)
      · exact (hh.frame id hid hmap.bound hout.1).trans hmap.cell

/-! ### Nodes -/

/-- What follows the visits of the children exchanges the nodes of a layout that stands at the end
of them, or it halts at the stages above. -/
structure Closes (I : WalkState (σ × Trail) → Set NodeId → Prop) (above : List Stage)
    (post : Visitor (σ × Trail)) : Prop where
  ends : ∀ {st st₁ T l l₁}, st₁.store.Stands l₁ → Exchange I T l.ids l₁.ids st st₁ →
    (post l₁.root?).Ends st₁ (Swaps I T l st) (Halts T l.ids above st)

/-- The innermost stage is that of the node, whose children are about to be visited. -/
def Entered (above : List Stage) (id : NodeId) (st : WalkState (σ × Trail)) : Prop :=
  st.trail.stages = ⟨id, st.store.cell id, []⟩ :: above

/-- A node that is as it was is left. -/
theorem left_of_eq {stage : Stage} {cell : Cell} (h : cell = stage.cell)
    (hmap : ∀ entries, stage.cell.shape ≠ .map entries) : stage.Left cell := by
  rw [Stage.Left]
  split
  · next entries he => exact absurd he (hmap entries)
  · exact h

/-- A failure below a node that is no map leaves it as it was. -/
theorem Halts.leave_node (hu : InUse I T [.node id info shape] st) (hs : Entered above id st)
    (hmap : ∀ entries, shape ≠ .map entries)
    (h : ∃ results,
      Halts T (shape.children.flatMap ids) (noteAll results st.trail.stages) st st') :
    Halts T (Layout.node id info shape).ids above st st' := by
  obtain ⟨results, hh⟩ := h
  obtain ⟨-, hid, hout⟩ := hu.children
  have hcell := hh.frame id hid (hu.stands.holds.lt_size id (by simp)) hout
  rw [hs, noteAll_cons] at hh
  refine (hh.widen fun i hi ↦ ?_).leave (left_of_eq hcell fun entries he ↦ ?_)
  · rw [ids_node]
    exact List.mem_cons_of_mem _ hi
  · rw [hu.cell_eq] at he
    cases shape <;> cases he
    exact hmap _ rfl

/-- A list-bearing node has its children visited, and is left if one of the visits fails. -/
theorem Notes.listNode (hI : Custody I) (h : Notes I N visit) {post : Visitor (σ × Trail)}
    (hpost : Closes I above post) (c : Shape.ListClass)
    (hu : InUse I T [.node id info (c.shape ls)] st) (hs : Entered above id st) :
    (listNode visit post id (ls.map root?) c.shape).Ends st
      (Swaps I T (.node id info (c.shape ls)) st)
      (Halts T (Layout.node id info (c.shape ls)).ids above st) := by
  have hchildren := hu.children.1
  rw [Shape.ListClass.children_shape] at hchildren
  refine (h.survivors hI hchildren).bind ?_ fun st' hh ↦
    .leave_node hu hs (by cases c <;> nofun) (by rwa [Shape.ListClass.children_shape])
  rintro left st₁ ⟨ls', ht, rfl⟩
  split
  · refine ends_pure ⟨.missing, rfl, .missing _, ht.exchange.widen hI ?_ (List.forall_mem_nil _)⟩
    intro i hi
    rw [ids_node, Shape.ListClass.children_shape]
    exact List.mem_cons_of_mem _ hi
  · refine (returns_modifyShape id _ st₁).ends_bind ?_
    rw [← Shape.ListClass.mapChildren_shape]
    rw [← c.children_shape ls] at ht
    obtain ⟨hl', hx⟩ := ht.stands_modifyShape hI hu (c.shape (ls'.filter fun l ↦ !l.isMissing))
      (by simp) (by simp)
    exact hpost.ends hl' hx

/-- A conditional has its slots visited, and is left if one of the visits fails. -/
theorem Notes.conditional (hI : Custody I) (h : Notes I N visit) {post : Visitor (σ × Trail)}
    (hpost : Closes I above post) {type : Option Annotation} {c t f : Layout}
    {c₀ t₀ f₀ : Option NodeId} (hu : InUse I T [.node id info (.conditional type c t f)] st)
    (hs : Entered above id st) :
    (descend visit post id (.conditional type c₀ t₀ f₀)).Ends st
      (Swaps I T (.node id info (.conditional type c t f)) st)
      (Halts T (Layout.node id info (.conditional type c t f)).ids above st) := by
  obtain ⟨hchildren, hid, hout⟩ := hu.children
  have hcell : (st.store.cell id).shape = .conditional type c.root? t.root? f.root? :=
    congrArg Cell.shape hu.cell_eq
  have hleave (st' : WalkState (σ × Trail)) : (∃ results,
      Halts T ([c, t, f].flatMap ids) (noteAll results st.trail.stages) st st') →
        Halts T (Layout.node id info (.conditional type c t f)).ids above st st' :=
    .leave_node hu hs nofun
  rw [descend]
  refine (h.exprOnly.slot hchildren hid hout (by rw [hcell]; rfl)).bind ?_ hleave
  rintro cId st₁ ⟨c', hcr, hcl, hcx, hu₁, hid₁, hout₁, hcell₁, hs₁⟩
  refine (h.exprOnly.slot hu₁ hid₁ hout₁ (by rw [hcell₁, hcell]; rfl)).bind ?_ fun st' hh ↦
    hleave st' (Halts.later hcx hs₁ hh)
  rintro tId st₂ ⟨t', htr, htl, htx, hu₂, hid₂, hout₂, hcell₂, hs₂⟩
  refine (h.exprOnly.slot hu₂ hid₂ hout₂ (by rw [hcell₂, hcell₁, hcell]; rfl)).bind ?_ fun st' hh ↦
    hleave st' (Halts.later hcx hs₁ (Halts.later htx hs₂ hh))
  rintro fId st₃ ⟨f', hfr, hfl, hfx, hu₃, -⟩
  have hall : Traded I (fun _ ↦ True) T [] [c, t, f] [c', t', f'] st st₃ :=
    .cons hI hchildren hcl hcx trivial (.cons hI hu₁ htl htx trivial
      (.cons hI hu₂ hfl hfx trivial (.nil hI hu₃.custody nofun)))
  obtain ⟨hl', hx⟩ :=
    hall.stands_modifyShape hI hu (.conditional type c' t' f') (.refl _) List.nodup_nil
  refine (returns_modifyShape id _ st₃).ends_bind ?_
  rw [← hcr, ← htr, ← hfr]
  exact hpost.ends hl' hx

/-- An index has its slots visited, and is left if one of the visits fails. -/
theorem Notes.index (hI : Custody I) (h : Notes I N visit) {post : Visitor (σ × Trail)}
    (hpost : Closes I above post) {type : Option Annotation} {t k : Layout}
    {t₀ k₀ : Option NodeId} (hu : InUse I T [.node id info (.index type t k)] st)
    (hs : Entered above id st) :
    (descend visit post id (.index type t₀ k₀)).Ends st
      (Swaps I T (.node id info (.index type t k)) st)
      (Halts T (Layout.node id info (.index type t k)).ids above st) := by
  obtain ⟨hchildren, hid, hout⟩ := hu.children
  have hcell : (st.store.cell id).shape = .index type t.root? k.root? :=
    congrArg Cell.shape hu.cell_eq
  have hleave (st' : WalkState (σ × Trail)) : (∃ results,
      Halts T ([t, k].flatMap ids) (noteAll results st.trail.stages) st st') →
        Halts T (Layout.node id info (.index type t k)).ids above st st' :=
    .leave_node hu hs nofun
  rw [descend]
  refine (h.exprOnly.slot hchildren hid hout (by rw [hcell]; rfl)).bind ?_ hleave
  rintro tId st₁ ⟨t', htr, htl, htx, hu₁, hid₁, hout₁, hcell₁, hs₁⟩
  refine (h.exprOnly.slot hu₁ hid₁ hout₁ (by rw [hcell₁, hcell]; rfl)).bind ?_ fun st' hh ↦
    hleave st' (Halts.later htx hs₁ hh)
  rintro kId st₂ ⟨k', hkr, hkl, hkx, hu₂, -⟩
  have hall : Traded I (fun _ ↦ True) T [] [t, k] [t', k'] st st₂ :=
    .cons hI hchildren htl htx trivial (.cons hI hu₁ hkl hkx trivial (.nil hI hu₂.custody nofun))
  obtain ⟨hl', hx⟩ := hall.stands_modifyShape hI hu (.index type t' k') (.refl _) List.nodup_nil
  refine (returns_modifyShape id _ st₂).ends_bind ?_
  rw [← htr, ← hkr]
  exact hpost.ends hl' hx

/-- A map has its values visited, and holds the results there are if one of the visits fails. -/
theorem Notes.map (hI : Custody I) (h : Notes I (· = []) visit) {post : Visitor (σ × Trail)}
    (hpost : Closes I above post) {entries : List (Str × Layout)}
    (hu : InUse I T [.node id info (.map entries)] st) (hs : Entered above id st) :
    (descend visit post id ((Shape.map entries).mapChildren root?)).Ends st
      (Swaps I T (.node id info (.map entries)) st)
      (Halts T (Layout.node id info (.map entries)).ids above st) := by
  obtain ⟨hchildren, hid, hout⟩ := hu.children
  have hcell := hu.cell_eq
  cases hu.stands.holds with
  | node bound _ distinct _ =>
    have hmap : st.store.MapAt id info [] entries := ⟨bound, hcell, distinct⟩
    rw [Shape.mapChildren, descend]
    refine (h.mapValues hI hchildren hid hout hmap).bind ?_ ?_
    · rintro _ st₁ ⟨entries', hkeys, ht, hcell₁⟩
      have hdistinct : ((entries'.filter fun e ↦ !e.2.isMissing).map Prod.fst).Nodup := by
        refine List.Nodup.sublist (List.filter_sublist.map _) ?_
        rw [hkeys]
        exact distinct
      obtain ⟨hl', hx⟩ := ht.stands hI hu (.map (entries'.filter fun e ↦ !e.2.isMissing)) hcell₁
        (List.filter_sublist.map _) hdistinct
      exact hpost.ends hl' hx
    · rintro st' ⟨results, hlength, hh, hcell'⟩
      rw [hs, noteAll_cons] at hh
      refine Halts.leave (by rwa [ids_node]) ?_
      rw [Stage.Left, hcell]
      exact ⟨hcell', by simpa using hlength⟩

/-- A node in use is exchanged when its children are, and left if that fails. -/
theorem Notes.descend (hI : Custody I) (h : Notes I (· = []) visit) {post : Visitor (σ × Trail)}
    (hpost : Closes I above post) (hu : InUse I T [.node id info shape] st)
    (hs : Entered above id st) :
    (descend visit post id (shape.mapChildren root?)).Ends st
      (Swaps I T (.node id info shape) st)
      (Halts T (Layout.node id info shape).ids above st) := by
  have hleaf : (post (some id)).Ends st (Swaps I T (.node id info shape) st)
      (Halts T (Layout.node id info shape).ids above st) :=
    hpost.ends hu.stands (hu.exchange hI)
  have hunknown (hmap : ∀ entries, shape ≠ .map entries) :
      Halts T (Layout.node id info shape).ids above st st :=
    .leave_node hu hs hmap ⟨[], (noteAll_nil st.trail.stages).symm ▸ .refl _ _ st⟩
  cases shape with
  | arithmetic type exprs => exact h.exprOnly.listNode hI hpost (.arithmetic type) hu hs
  | call func type args => exact h.exprOnly.listNode hI hpost (.call func type) hu hs
  | conditional type c t f => exact h.conditional hI hpost hu hs
  | index type t k => exact h.index hI hpost hu hs
  | literal type value => exact hleaf
  | output type exprs => exact h.exprOnly.listNode hI hpost (.output type) hu hs
  | access type resolved => exact hleaf
  | list elements => exact h.listNode hI hpost .list hu hs
  | map entries => exact h.map hI hpost hu hs
  | foreign className content => exact ends_throw _ (hunknown nofun)

end Traced

/-! ### Walks -/

section Walks

variable {I : WalkState σ → Set NodeId → Prop} {pre post visit : Visitor σ}
  {st st₁ : WalkState (σ × Trail)}

/-- What is invariant for walks is so for traced ones. -/
def Beside (I : WalkState σ → Set NodeId → Prop) (st : WalkState (σ × Trail)) (T : Set NodeId) :
    Prop :=
  I st.bare T

/-- What is an invariant of custody is so beside a trail. -/
theorem custody_beside (hI : Custody I) : Custody (Beside I) where
  shrink h hT := hI.shrink h hT
  modifyShape f h hid := hI.modifyShape f h hid

/-- A visitor that neither changes nodes nor introduces sharing leaves the stages as they are. -/
theorem Tidy.tracks (h : Tidy I visit) (hadd : visit.OnlyAdds) :
    Tracks (Beside I) fun node ↦ (visit node).aside := by
  constructor
  intro st T l hu
  have hext := hadd l.root? st.bare
  rw [Ends, run_aside]
  cases hrun : (visit l.root?).run.run st.bare with
  | mk outcome after =>
    rw [hrun] at hext
    cases outcome with
    | error failure =>
      exact ⟨hext.size, fun id _ hlt _ ↦ hext.cell id hlt, [], rfl, List.forall_mem_nil _⟩
    | ok r =>
      obtain ⟨l', hroot, hl', hx, -⟩ := h.returns ⟨hu.custody, hu.holds, hu.unshared, hu.mem⟩ hrun
      exact ⟨⟨l', hroot, hl', hx.size, hx.frame, hx.fresh, hx.custody⟩, rfl⟩

/-- After the children have been visited, the stages above are left as they are. -/
theorem closes_after (h : Tracks (Beside I) fun node ↦ (post node).aside) (hI : Custody I)
    (above : List Stage) : Closes (Beside I) above (after above post) := by
  constructor
  intro st st₁ T l l₁ hl₁ hx
  refine (returns_modifyTrail (Trail.back above) st₁).ends_bind ?_
  have hx₁ : Exchange (Beside I) T l.ids l₁.ids st (st₁.modifyTrail (Trail.back above)) :=
    ⟨hx.size, hx.frame, hx.fresh, hx.custody⟩
  have hu : InUse (Beside I) (traded T l.ids l₁.ids) [l₁]
      (st₁.modifyTrail (Trail.back above)) := .of_stands hx₁ hl₁
  refine (h.ends hu).imp ?_ fun st' hh ↦ ?_
  · rintro r st' ⟨⟨l', hroot, hl', hx'⟩, -⟩
    exact ⟨l', hroot, hl', hx₁.comp (custody_beside hI) hx'⟩
  · exact hh.of_exchange hx₁ fun i hi ↦ hi.resolve_right fun hn ↦ hn.2 hn.1

/-- An exchange is none of the trail before or after it. -/
theorem Swaps.modifyTrail {f g : Trail → Trail} {r : Option NodeId} {st' : WalkState (σ × Trail)}
    (h : Swaps (Beside I) T l (st.modifyTrail f) r st') :
    Swaps (Beside I) T l st r (st'.modifyTrail g) := by
  obtain ⟨l', hroot, hl', hx⟩ := h
  exact ⟨l', hroot, hl', hx.size, hx.frame, hx.fresh, hx.custody⟩

/-- A visitor that leaves the stages as they are can note what it returns. -/
theorem Tracks.noted {visit : Visitor (σ × Trail)} (h : Tracks (Beside I) visit) :
    Notes (Beside I) (· = []) (noted visit) := by
  constructor
  intro st T l hu
  refine (h.ends hu).bind ?_ fun st' hh ↦ ⟨[], rfl, by rwa [noteAll_nil]⟩
  rintro r st₁ ⟨hswaps, hstages⟩
  refine (returns_modifyTrail (note r) st₁).ends_bind (ends_pure ⟨hswaps.modifyTrail (f := id), ?_⟩)
  rw [← hstages]
  rfl

/-- What is below a node is a stage of the trail until the node is exchanged. -/
theorem Tracks.within {visit : Visitor (σ × Trail)} (h : Tracks (Beside I) visit)
    (hpost : Tracks (Beside I) fun node ↦ (post node).aside) (hI : Custody I)
    (hu : InUse (Beside I) T [.node id info shape] st) :
    (within visit post id).Ends st
      (fun r st' ↦ Swaps (Beside I) T (.node id info shape) st r st' ∧
        st'.trail.stages = st.trail.stages)
      (Halts T (Layout.node id info shape).ids st.trail.stages st) := by
  let entered := st.modifyTrail (Trail.enter id (st.store.cell id))
  have hu' : InUse (Beside I) T [.node id info shape] entered :=
    ⟨hu.custody, hu.holds, hu.unshared, hu.mem⟩
  have hcloses := closes_after hpost hI st.trail.stages
  have hdescend := h.noted.descend (custody_beside hI) hcloses hu' rfl
  have hcell : (st.store.cell id).shape = shape.mapChildren root? := congrArg Cell.shape hu.cell_eq
  rw [← hcell] at hdescend
  rw [Ends, run_within]
  have hhalts (st' : WalkState (σ × Trail))
      (hh : Halts T (Layout.node id info shape).ids st.trail.stages entered st') :
      Halts T (Layout.node id info shape).ids st.trail.stages st st' :=
    ⟨hh.size, hh.frame, hh.stages⟩
  refine hdescend.bind (fun r st₁ hswaps ↦ ?_) hhalts
  exact (returns_modifyTrail _ st₁).ends_bind (ends_pure ⟨hswaps.modifyTrail, rfl⟩)

/-- A traced walk leaves the stages above it as they are, and halts with those within it left. -/
theorem tracks_tracedTo (hI : Custody I) (hpre : Tracks (Beside I) fun node ↦ (pre node).aside)
    (hpost : Tracks (Beside I) fun node ↦ (post node).aside) (depth : Nat) :
    Tracks (Beside I) (tracedTo pre post depth) := by
  induction depth with
  | zero => exact ⟨fun _ ↦ ends_throw _ (.refl _ _ _)⟩
  | succ depth ih =>
    constructor
    intro st T l hu
    refine (hpre.ends hu).bind ?_ fun st' hh ↦ hh
    rintro r st₁ ⟨⟨l₁, rfl, hl₁, hx⟩, hstages⟩
    cases l₁ with
    | missing => exact ends_pure ⟨⟨.missing, rfl, hl₁, hx⟩, hstages⟩
    | node id info shape =>
      refine (ih.within hpost hI (.of_stands hx hl₁)).imp ?_ fun st' hh ↦ ?_
      · rintro r st₂ ⟨⟨l₂, hroot, hl₂, hx'⟩, hstages'⟩
        exact ⟨⟨l₂, hroot, hl₂, hx.comp (custody_beside hI) hx'⟩, hstages'.trans hstages⟩
      · rw [← hstages]
        exact hh.of_exchange hx fun i hi ↦ hi.resolve_right fun hn ↦ hn.2 hn.1

end Walks

/-- Whatever two visitors do that change no nodes and introduce no sharing: where their walk of an
unshared layout fails, its trail tells what is left of the nodes whose children were being visited,
and that those whose children had not begun to be visited are as they were. -/
theorem visitNode_interrupted {I : WalkState σ → Set NodeId → Prop} {pre post : Visitor σ}
    {st st' : WalkState σ} {failure : Failure} (hI : Custody I) (hpre : Tidy I pre)
    (hpost : Tidy I post) (haddpre : pre.OnlyAdds) (haddpost : post.OnlyAdds)
    (hl : st.store.Stands l) (hst : I st {id | id ∈ l.ids})
    (h : (visitNode pre post l.root?).run.run st = (.error failure, st')) :
    ∃ trail : Trail,
      (tracedNode pre post l.root?).run.run (st.traced (.ofStore st.store)) =
        (.error failure, st'.traced trail) ∧
      trail.Tells st.store st'.store := by
  let start := st.traced (.ofStore st.store)
  have hu : InUse I {id | id ∈ l.ids} [l] st := .alone hst hl
  have hu' : InUse (Beside I) {id | id ∈ l.ids} [l] start :=
    ⟨hu.custody, hu.holds, hu.unshared, hu.mem⟩
  have herase : (visitNode pre post l.root?).run.run st = _ :=
    erases_tracedNode pre post l.root? start
  have haccurate := accurate_tracedTo haddpre haddpost (start.store.size + depthAllowance) l.root?
    (WalkState.Accurate.ofStore st)
  have hends := (tracks_tracedTo hI (hpre.tracks haddpre) (hpost.tracks haddpost)
    (start.store.size + depthAllowance)).ends hu'
  rw [h] at herase
  rw [← run_tracedNode] at haccurate
  rw [Ends, ← run_tracedNode] at hends
  cases hrun : (tracedNode pre post l.root?).run.run start with
  | mk outcome after =>
    rw [hrun] at herase haccurate hends
    obtain ⟨rfl, rfl⟩ := Prod.mk.inj herase
    obtain ⟨inner, hstages, hinner⟩ := hends.stages
    have hall : after.trail.stages = inner := hstages.trans (List.append_nil inner)
    exact ⟨after.trail, rfl, hall ▸ hinner, fun stage hstage ↦ (haccurate.stages stage hstage).2,
      haccurate.unbegun, haccurate.start⟩

/-- The visitor that deletes nulls and gives up at the text `stop`. -/
private def stopping : Visitor Unit
  | none => return none
  | some id => do
    match (← Walk.cell id).shape.literal? with
    | some .none => return none
    | some (.str text) => if text = "stop" then throw (.raised "stop") else return some id
    | _ => return some id

private theorem onlyAdds_stopping : stopping.OnlyAdds := by
  intro node st
  cases node with
  | none => exact .refl st.store
  | some id =>
    refine holds_after_bind (P := fun st' ↦ st.store.Extends st'.store) (.refl st.store)
      fun cell st' _ hst' ↦ ?_
    split
    · exact hst'
    · split <;> exact hst'
    · exact hst'

private theorem tidy_stopping : Tidy Occupied stopping := by
  constructor
  intro st T l r st' hu hr
  cases l with
  | missing => exact (tidy_keep custody_occupied).returns hu hr
  | node id info shape =>
    obtain ⟨cell, st₁, hc, hk⟩ := returns_bind_iff.mp hr
    cases hc
    split at hk
    · obtain ⟨rfl, rfl⟩ := returns_pure_iff.mp hk
      exact ⟨.missing, rfl, .missing _, (hu.exchange custody_occupied).widen custody_occupied
        (fun _ h ↦ h) (List.forall_mem_nil _), trivial⟩
    · split at hk
      · cases hk
      · exact (tidy_keep custody_occupied).returns hu hk
    · exact (tidy_keep custody_occupied).returns hu hk

/-- The map of `a` to null, `b` to a text and `c` to an output of two texts, of which the second is
`stop`. -/
private def interruptible : Store :=
  ⟨#[⟨{}, .literal none .none⟩, ⟨{}, .literal none (.str "x")⟩, ⟨{}, .literal none (.str "y")⟩,
    ⟨{}, .literal none (.str "stop")⟩, ⟨{}, .output none [some ⟨2⟩, some ⟨3⟩]⟩,
    ⟨{}, .map [("a", some ⟨0⟩), ("b", some ⟨1⟩), ("c", some ⟨4⟩)]⟩], .empty⟩

/-- The map without `a`. -/
private def interrupted : Store :=
  interruptible.modifyShape ⟨5⟩ fun _ ↦ .map [("b", some ⟨1⟩), ("c", some ⟨4⟩)]

/-- When the visitor gives up below `c`, the map has lost `a`, and the output is as it was. -/
theorem visitNode_interrupted_stopping :
    (visitNode stopping keep (some ⟨5⟩)).run.run ⟨interruptible, ()⟩ =
        (.error (.raised "stop"), ⟨interrupted, ()⟩) ∧
      ∃ trail : Trail, trail.Tells interruptible interrupted ∧
        trail.stages.map (fun stage ↦ (stage.id, stage.results)) =
          [(⟨4⟩, [some ⟨2⟩]), (⟨5⟩, [none, some ⟨1⟩])] := by
  let text (id : NodeId) (s : String) : Layout := .node id {} (.literal none (.str s))
  let l : Layout := .node ⟨5⟩ {} (.map [("a", .node ⟨0⟩ {} (.literal none .none)),
    ("b", text ⟨1⟩ "x"), ("c", .node ⟨4⟩ {} (.output none [text ⟨2⟩ "y", text ⟨3⟩ "stop"]))])
  have hleaf (id : NodeId) (value : Literal) (hid : id.index < interruptible.size)
      (hcell : interruptible.cell id = ⟨{}, .literal none value⟩) :
      interruptible.Holds (.node id {} (.literal none value)) :=
    .node hid hcell List.nodup_nil (List.forall_mem_nil _)
  have hl : interruptible.Stands l := by
    refine ⟨.node (by decide) rfl (by decide) ?_, by decide⟩
    refine List.forall_mem_cons.mpr ⟨hleaf _ _ (by decide) rfl, List.forall_mem_cons.mpr
      ⟨hleaf _ _ (by decide) rfl, List.forall_mem_singleton.mpr ?_⟩⟩
    refine .node (by decide) rfl List.nodup_nil ?_
    exact List.forall_mem_cons.mpr ⟨hleaf _ _ (by decide) rfl, List.forall_mem_singleton.mpr
      (hleaf _ _ (by decide) rfl)⟩
  have hst : Occupied (⟨interruptible, ()⟩ : WalkState Unit) {id | id ∈ l.ids} := hl.holds.lt_size
  have hrun : (visitNode stopping keep (some ⟨5⟩)).run.run ⟨interruptible, ()⟩ =
      (.error (.raised "stop"), ⟨interrupted, ()⟩) := rfl
  obtain ⟨trail, htrace, htells⟩ := visitNode_interrupted custody_occupied tidy_stopping
    (tidy_keep custody_occupied) onlyAdds_stopping onlyAdds_keep hl hst hrun
  refine ⟨hrun, trail, htells, ?_⟩
  have htrail : _ = trail := congrArg (fun run ↦ run.2.trail) htrace
  rw [← htrail]
  decide +kernel

end Visitor
end Hil
