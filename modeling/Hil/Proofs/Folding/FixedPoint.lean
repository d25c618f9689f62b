import Hil.Proofs.Folding.Walk

/-!
# The fixed point of folding

One run of the folding pass leaves nothing to fold, although a fold can enable another above it and
a shared node is visited again after it has been changed: the walk leaves the folded tree. Where
nothing is left to fold, both visitors of the walk rest, so that another run leaves the store as it
is.
-/

namespace Hil

open Hil.Tree

namespace Folding

variable {st : WalkState Nat} {node : Option NodeId}

/-- Folding observes nothing on the way down. -/
theorem observes_keep : (Visitor.keep : Visitor Nat).Observes fun _ count ↦ count :=
  fun st id ↦ Visitor.returns_keep (some id) st

/-- Folding the constants of a tree in which nothing is left to fold changes nothing. -/
theorem returns_foldConstants_of_idle (hw : (st.store.tree node).WellFormed)
    (hidle : (st.store.tree node).Everywhere fun _ shape ↦ Idle shape) :
    (foldConstants node).Returns st node st := by
  have hkeep := observes_keep.returns_visitNode_of_rests rests_foldNode hw hidle
  have hstate (labels : List Label) : st.observed (fun _ count ↦ count) labels = st := by
    rw [WalkState.observed, List.foldl_fixed]
  rwa [hstate] at hkeep

end Folding

namespace Pass

variable {st : WalkState Context} {node : Option NodeId} {t : Tree}

/-- The folding pass leaves a store as it is at a tree in which nothing is left to fold, and counts
no folds. -/
theorem returns_folding_of_idle (hw : (st.store.tree node).WellFormed)
    (hidle : (st.store.tree node).Everywhere fun _ shape ↦ Idle shape) :
    (folding.run node).Returns st node ⟨st.store, { st.memo with folded := 0 }⟩ := by
  have hret := @Folding.returns_foldConstants_of_idle ⟨st.store, 0⟩ node hw hidle
  exact .bind hret.isolate (.bind (Walk.returns_modifyMemo _ _) (Walk.returns_pure _ _))

/-- The folding pass reaches its fixed point in one run: from any node that a well-formed tree is
read at, whether or not it shares nodes, it returns a node of a well-formed tree in which nothing is
left to fold; run again from there, it returns the same node, leaves the store as it is and counts
no folds. -/
theorem folding_reaches_fixed_point (hr : st.store.Reads node t) (hw : t.WellFormed) :
    ∃ id st', (folding.run node).Returns st (some id) st' ∧
      (st'.store.tree (some id)).WellFormed ∧
      ((st'.store.tree (some id)).Everywhere fun _ shape ↦ Idle shape) ∧
      (folding.run (some id)).Returns st' (some id)
        ⟨st'.store, { st'.memo with folded := 0 }⟩ := by
  obtain rfl := hr.tree_eq_of_wellFormed hw
  obtain ⟨id, store, count, hret, _, htree⟩ := returns_folding hw
  have hw' : (store.tree (some id)).WellFormed := htree ▸ hw.folded
  have hidle : (store.tree (some id)).Everywhere fun _ shape ↦ Idle shape :=
    htree ▸ hw.present.everywhere_idle_folded
  exact ⟨id, ⟨store, _⟩, hret, hw', hidle, returns_folding_of_idle hw' hidle⟩

/-- An output in which a conditional on `false` has two places. An output without operands is an
operand of it, a branch of the conditional and the argument of a call. -/
private def twice : WalkState Context where
  store := ⟨#[⟨{}, .literal (some (.known Ty.bool)) (.bool false)⟩,
    ⟨{}, .output none []⟩,
    ⟨{}, .call "file" (some (.known Ty.string)) [some ⟨1⟩]⟩,
    ⟨{}, .conditional (some (.known Ty.string)) (some ⟨0⟩) (some ⟨2⟩) (some ⟨1⟩)⟩,
    ⟨{}, .output none [some ⟨3⟩, some ⟨1⟩, some ⟨3⟩]⟩], .empty⟩
  memo := .ofFiles []

/-- What a shared conditional becomes is folded in the output above its two places. -/
theorem folding_reaches_fixed_point_twice :
    twice.store.Reads (some ⟨4⟩) (twice.store.tree (some ⟨4⟩)) ∧
      (twice.store.tree (some ⟨4⟩)).WellFormed ∧
      ∃ id st', (folding.run (some ⟨4⟩)).Returns twice (some id) st' ∧
        (st'.store.tree (some id)).WellFormed ∧
        ((st'.store.tree (some id)).Everywhere fun _ shape ↦ Idle shape) ∧
        (folding.run (some id)).Returns st' (some id)
          ⟨st'.store, { st'.memo with folded := 0 }⟩ := by
  have hw : (twice.store.tree (some ⟨4⟩)).WellFormed := by decide
  have hr := Store.reads_tree hw.present
  exact ⟨hr, hw, folding_reaches_fixed_point hr hw⟩

end Pass
end Hil
