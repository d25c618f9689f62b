import Hil.Pass
import Hil.Proofs.Walk.Sweeping

/-!
# Passes that only look

Validation and the collection of dependencies return the node that they start from and are written
with visitors that change nothing. The walk behind them drops what is gone all the same. That is all
they change, and in a tree without missing children they change nothing.
-/

namespace Hil

open Store

/-- Stores are equal if they have the same nodes and labels. -/
theorem Store.ext_of_cell {s s' : Store} (hsize : s.size = s'.size) (hlabels : s.labels = s'.labels)
    (hcell : ∀ id, s.cell id = s'.cell id) : s = s' := by
  obtain ⟨cells, labels⟩ := s
  obtain ⟨cells', labels'⟩ := s'
  obtain rfl : labels = labels' := hlabels
  rw [mk.injEq]
  refine ⟨Array.ext hsize fun i h h' ↦ ?_, rfl⟩
  simpa [cell, Array.getD_eq_getD_getElem?, h, h'] using hcell ⟨i⟩

/-- Validation looks. -/
theorem Validation.looks_check : Visitor.Looks check := by
  intro st node r st' h
  cases h
  exact ⟨rfl, rfl⟩

/-- The collection of dependencies looks. -/
theorem Dependencies.looks_note : Visitor.Looks note := by
  intro st node r st' h
  obtain ⟨_, st₁, hget, h⟩ := Walk.returns_bind_iff.mp h
  cases hget
  cases he : entryOf? (st.store.cellOf node) with
  | none =>
    rw [he] at h
    cases h
    exact ⟨rfl, rfl⟩
  | some entry =>
    rw [he] at h
    cases h
    exact ⟨rfl, rfl⟩

namespace Pass

variable {st st' : WalkState Context} {node r : Option NodeId} {pass : Pass}

/-- Validation sweeps what it comes to, whenever it returns. -/
theorem sweeps_validation (hkeys : ∀ id, (st.store.cell id).shape.keys.Nodup)
    (h : (validation.run node).Returns st r st') :
    r = node ∧ st.store.Sweeps (st.store.live node) st.store st'.store := by
  obtain ⟨context, st₁, hmemo, h⟩ := Walk.returns_bind_iff.mp h
  cases hmemo
  obtain ⟨⟨outcome, found⟩, st₁, hisolate, h⟩ := Walk.returns_bind_iff.mp h
  obtain ⟨after, hvalidate, -, rfl⟩ := Walk.returns_isolate_iff.mp hisolate
  obtain ⟨_, st₂, hmodify, h⟩ := Walk.returns_bind_iff.mp h
  cases hmodify
  obtain ⟨rfl, rfl⟩ := Walk.returns_ofOutcome_iff.mp h
  obtain ⟨_, st₂, hvisit, hdone⟩ := Walk.returns_bind_iff.mp hvalidate
  obtain ⟨rfl, rfl⟩ := Walk.returns_pure_iff.mp hdone
  exact ⟨rfl, Validation.looks_check.sweeps_visitNode hkeys hvisit⟩

/-- So does the collection of dependencies. -/
theorem sweeps_dependencies (hkeys : ∀ id, (st.store.cell id).shape.keys.Nodup)
    (h : (dependencies.run node).Returns st r st') :
    r = node ∧ st.store.Sweeps (st.store.live node) st.store st'.store := by
  obtain ⟨⟨outcome, found⟩, st₁, hisolate, h⟩ := Walk.returns_bind_iff.mp h
  obtain ⟨after, hcollect, -, rfl⟩ := Walk.returns_isolate_iff.mp hisolate
  obtain ⟨entries, st₂, houtcome, h⟩ := Walk.returns_bind_iff.mp h
  obtain ⟨rfl, rfl⟩ := Walk.returns_ofOutcome_iff.mp houtcome
  obtain ⟨_, st₃, hmodify, h⟩ := Walk.returns_bind_iff.mp h
  cases hmodify
  obtain ⟨rfl, rfl⟩ := Walk.returns_pure_iff.mp h
  obtain ⟨_, st₂, hvisit, hdone⟩ := Walk.returns_bind_iff.mp hcollect
  cases hdone
  exact ⟨rfl, Dependencies.looks_note.sweeps_visitNode hkeys hvisit⟩

/-- Validation and the collection of dependencies drop what is gone and change nothing else, however
damaged the tree is and however its nodes are shared. Whenever one of them returns, it returns the
node that it starts from. Then the nodes that occur there have lost the children that are gone from
their lists and maps, and those that are themselves gone, like all other nodes, are as they were. In
a tree without missing children nothing has changed. -/
theorem looking_drops_gone (hpass : pass ∈ [validation, dependencies])
    (hkeys : ∀ id, (st.store.cell id).shape.keys.Nodup) (h : (pass.run node).Returns st r st') :
    r = node ∧ st'.store.size = st.store.size ∧ st'.store.labels = st.store.labels ∧
      (∀ id, st.store.Occurs node id → ¬st.store.Gone (some id) →
        st'.store.cell id = st.store.swept id) ∧
      (∀ id, ¬st.store.Occurs node id ∨ st.store.Gone (some id) →
        st'.store.cell id = st.store.cell id) ∧
      ((∀ id, st.store.Occurs node id → none ∉ (st.store.cell id).shape.children) →
        st'.store = st.store) := by
  have hboth : r = node ∧ st.store.Sweeps (st.store.live node) st.store st'.store := by
    rcases List.mem_pair.mp hpass with rfl | rfl
    · exact sweeps_validation hkeys h
    · exact sweeps_dependencies hkeys h
  obtain ⟨hr, hsweeps⟩ := hboth
  refine ⟨hr, hsweeps.size, hsweeps.labels, fun id hid hlive ↦ hsweeps.inside id ⟨hid, hlive⟩,
    fun id hid ↦ hsweeps.outside id ?_, fun hpresent ↦ ?_⟩
  · rintro ⟨hoccurs, hlive⟩
    exact hid.elim (fun hnot ↦ hnot hoccurs) hlive
  · refine ext_of_cell hsweeps.size hsweeps.labels fun id ↦ ?_
    by_cases hid : id ∈ st.store.live node
    · rw [hsweeps.inside id hid, swept_eq_self hpresent hid.1]
    · exact hsweeps.outside id hid

/-- A list of a literal, a missing child, a list of a missing child, and a map that misses a
value. -/
private def torn : WalkState Context where
  store := ⟨#[⟨{}, .literal (some (.known Ty.string)) (.str "x")⟩,
    ⟨{}, .list [none]⟩,
    ⟨{}, .map [("a", none), ("b", some ⟨0⟩)]⟩,
    ⟨{}, .list [some ⟨0⟩, none, some ⟨1⟩, some ⟨2⟩]⟩], .empty⟩
  memo := .ofFiles []

/-- The list loses the missing child and the list of one, which is as it was. -/
theorem looking_drops_gone_torn :
    dependencies ∈ [validation, dependencies] ∧
      (∀ id, (torn.store.cell id).shape.keys.Nodup) ∧
      ∃ st', (dependencies.run (some ⟨3⟩)).Returns torn (some ⟨3⟩) st' ∧
        st'.store.cell ⟨3⟩ = torn.store.swept ⟨3⟩ ∧
        (st'.store.cell ⟨3⟩).shape.children = [some ⟨0⟩, some ⟨2⟩] ∧
        st'.store.cell ⟨1⟩ = torn.store.cell ⟨1⟩ := by
  have hpass : dependencies ∈ [validation, dependencies] := by simp
  have hkeys : ∀ id, (torn.store.cell id).shape.keys.Nodup := by
    rintro ⟨_ | _ | _ | _ | i⟩ <;> simp [torn, cell, Shape.keys, Cell.absent]
  have hgone : torn.store.Gone (some ⟨1⟩) := gone_some_iff.mpr
    ⟨rfl, List.cons_ne_nil _ _, List.forall_mem_singleton.mpr .missing⟩
  have hlive : ¬torn.store.Gone (some ⟨3⟩) := fun h ↦
    not_gone_of_isListBearing rfl ((gone_some_iff.mp h).2.2 (some ⟨0⟩) List.mem_cons_self)
  obtain ⟨st', hrun, hchildren⟩ : ∃ st', (dependencies.run (some ⟨3⟩)).Returns torn (some ⟨3⟩) st' ∧
      (st'.store.cell ⟨3⟩).shape.children = [some ⟨0⟩, some ⟨2⟩] :=
    ⟨((dependencies.run (some ⟨3⟩)).run.run torn).2, Prod.ext rfl rfl, rfl⟩
  obtain ⟨-, -, -, hinside, houtside, -⟩ := looking_drops_gone hpass hkeys hrun
  exact ⟨hpass, hkeys, st', hrun, hinside _ (.root _) hlive, hchildren, houtside _ (.inr hgone)⟩

/-- A list of a literal and a missing child. -/
private def lacking : WalkState Context where
  store := ⟨#[⟨{}, .literal (some (.known Ty.string)) (.str "x")⟩,
    ⟨{}, .list [some ⟨0⟩, none]⟩], .empty⟩
  memo := .ofFiles []

/-- Validation takes a missing child out of the list that it was in. -/
theorem validation_drops_missing :
    ∃ st', (validation.run (some ⟨1⟩)).Returns lacking (some ⟨1⟩) st' ∧
      (lacking.store.cell ⟨1⟩).shape.children = [some ⟨0⟩, none] ∧
      (st'.store.cell ⟨1⟩).shape.children = [some ⟨0⟩] :=
  ⟨((validation.run (some ⟨1⟩)).run.run lacking).2, Prod.ext rfl rfl, rfl, rfl⟩

end Pass

end Hil
