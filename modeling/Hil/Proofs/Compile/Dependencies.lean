import Hil.Proofs.Compile.History
import Hil.Proofs.Folding.References

/-!
# Dependencies of folded trees

The entities that are collected of a tree after its constants have been folded are those that it
refers to outside of the branches that are not selected. Folding adds no entity, and loses one only
if all references to it are in such branches.
-/

namespace Hil

open Hil.Tree

namespace CompileRequest

variable {r : CompileRequest} {g : Graph} {s : Store} {t : Tree}

/-- A compilation of a value that can be bound ends without a failure, unless its tree is to be
logged and cannot be written. -/
theorem exists_compiled (h : Bind.outcome g (bindValue r.hasCount r.value) = .ok t)
    (hkeys : r.dump = true → r.value.PlainKeys) :
    ∃ compiled, (r.compile g s).outcome = .ok compiled := by
  obtain ⟨id, hc, _⟩ := @compile_defaults_of_ok g r.hasCount r.dump t r.value s r.files h hkeys
  exact ⟨_, hc⟩

/-- A compilation that ends without a failure leaves the entities of the folded tree. -/
theorem analysis_of_compiled {compiled : Compiled}
    (h : Bind.outcome g (bindValue r.hasCount r.value) = .ok t)
    (hc : (r.compile g s).outcome = .ok compiled) :
    (r.compile g s).ran.context.analysis Pass.dependenciesName =
      .ok (.dependencies (Dependencies.entriesOf t.folded)) := by
  have hresult := r.result_compile g s
  rw [expected, h] at hresult
  have houtcome := congrArg CompileResult.outcome hresult
  have hdep := congrArg CompileResult.dependencies hresult
  rw [Compilation.result, CompileResult.of, hc] at houtcome
  simp only [CompileResult.ofTree] at houtcome hdep
  cases hlines : Pipeline.linesOf? r.dump Pass.defaults t.folded with
  | none =>
    rw [hlines] at houtcome
    cases houtcome
  | some log =>
    rw [hlines] at hdep
    exact hdep

end CompileRequest

namespace Pass

/-- Of a well-formed tree, the collected entities are the first occurrences of its references. After
folding they are the first occurrences of those that are left when the branches that are not
selected have been erased: there is no other entity than before, and an entity is lost exactly if
every path to a reference to it leads into such a branch. A compilation by the default passes leaves
these entities. -/
theorem dependencies_after_folding :
    (∀ (st : WalkState Context) (node : Option NodeId), (st.store.tree node).WellFormed →
      let t := st.store.tree node
      let before := t.references.eraseDups
      let after := t.erased.references.eraseDups
      ∃ id st', (folding.run node).Returns st (some id) st' ∧
        (Dependencies.collect node).Returns ⟨st.store, []⟩ before ⟨st.store, before⟩ ∧
        (Dependencies.collect (some id)).Returns ⟨st'.store, []⟩ after ⟨st'.store, after⟩ ∧
        (∀ entry ∈ after, entry ∈ before) ∧
        ∀ entry ∈ before, entry ∉ after ↔
          ∀ path, t.RefersAt entry path → t.Discards path) ∧
    ∀ (r : CompileRequest) (g : Graph) (s : Store) (t : Tree),
      Bind.outcome g (bindValue r.hasCount r.value) = .ok t →
      ((r.dump = true → r.value.PlainKeys) → ∃ compiled, (r.compile g s).outcome = .ok compiled) ∧
      ∀ compiled, (r.compile g s).outcome = .ok compiled →
        (r.compile g s).ran.context.analysis dependenciesName =
          .ok (.dependencies t.erased.references.eraseDups) := by
  refine ⟨fun st node hw ↦ ?_, fun r g s t h ↦ ⟨r.exists_compiled h, fun compiled hc ↦ ?_⟩⟩
  · intro t before after
    obtain ⟨id, store, count, hfold, _, htree⟩ := returns_folding hw
    have hbefore := Dependencies.returns_collect hw
    have hafter := @Dependencies.returns_collect store (some id) (htree ▸ hw.folded)
    rw [htree, Dependencies.entriesOf_eq, references_folded] at hafter
    rw [Dependencies.entriesOf_eq] at hbefore
    refine ⟨id, _, hfold, hbefore, hafter, fun entry he ↦ ?_, fun entry _ ↦ ?_⟩
    · rw [List.mem_eraseDups, mem_references_erased_iff] at he
      obtain ⟨path, hrefers, _⟩ := he
      rw [List.mem_eraseDups, mem_references_iff]
      exact ⟨path, hrefers⟩
    · rw [List.mem_eraseDups, mem_references_erased_iff]
      simp only [not_exists, not_and, not_not]
  · rw [CompileRequest.analysis_of_compiled h hc, Dependencies.entriesOf_eq, references_folded]

/-- A reference to a local value. -/
private def localAccess (name : String) (serial : Nat) : Cell :=
  ⟨{}, .access (some (.known Ty.unknown.outputOf))
    ⟨[], .plain Ty.unknown, ⟨"local." ++ name, .local name⟩, some ⟨.local, name, serial⟩⟩⟩

/-- The list of `(true ? false : local.c) ? local.a : local.b` and of `local.a`, which is one node
at both places. -/
private def nested : WalkState Context where
  store := ⟨#[⟨{}, .literal (some (.known Ty.bool)) (.bool true)⟩,
    ⟨{}, .literal (some (.known Ty.bool)) (.bool false)⟩,
    localAccess "a" 0, localAccess "b" 1, localAccess "c" 2,
    ⟨{}, .conditional (some (.known Ty.unknown)) (some ⟨0⟩) (some ⟨1⟩) (some ⟨4⟩)⟩,
    ⟨{}, .conditional (some (.known Ty.unknown)) (some ⟨5⟩) (some ⟨2⟩) (some ⟨3⟩)⟩,
    ⟨{}, .list [some ⟨6⟩, some ⟨2⟩]⟩], .empty⟩
  memo := .ofFiles []

/-- The property `${true ? local.a : local.b}`. -/
private def chosen : Value :=
  .expr (.conditional none (.expr (.literal none (.bool true) .bool))
    (.expr (.access none "local.a")) (.expr (.access none "local.b")))

/-- The local values `a` and `b`. -/
private def locals : Graph :=
  (Graph.empty.add (.local ⟨"a", none⟩)).add (.local ⟨"b", none⟩)

/-- A reference moves behind another when its first occurrence is dropped, and an entity that is
referred to in a dropped branch only is lost. -/
theorem dependencies_after_folding_nested :
    (nested.store.tree (some ⟨7⟩)).WellFormed ∧
      (∃ id st', (folding.run (some ⟨7⟩)).Returns nested (some id) st' ∧
        (Dependencies.collect (some ⟨7⟩)).Returns ⟨nested.store, []⟩
          [⟨.local, "c", 2⟩, ⟨.local, "a", 0⟩, ⟨.local, "b", 1⟩]
          ⟨nested.store, [⟨.local, "c", 2⟩, ⟨.local, "a", 0⟩, ⟨.local, "b", 1⟩]⟩ ∧
        (Dependencies.collect (some id)).Returns ⟨st'.store, []⟩
          [⟨.local, "b", 1⟩, ⟨.local, "a", 0⟩]
          ⟨st'.store, [⟨.local, "b", 1⟩, ⟨.local, "a", 0⟩]⟩) ∧
      ∃ compiled, (CompileRequest.compile ⟨chosen, false, [], false⟩ locals .empty).outcome =
          .ok compiled ∧
        (CompileRequest.compile ⟨chosen, false, [], false⟩ locals
            .empty).ran.context.analysis dependenciesName =
          .ok (.dependencies [⟨.local, "a", 0⟩]) := by
  have hw : (nested.store.tree (some ⟨7⟩)).WellFormed := by decide
  obtain ⟨id, st', hfold, hbefore, hafter, _⟩ := dependencies_after_folding.1 nested _ hw
  obtain ⟨hends, hleaves⟩ :=
    dependencies_after_folding.2 ⟨chosen, false, [], false⟩ locals .empty _ rfl
  obtain ⟨compiled, hc⟩ := hends nofun
  exact ⟨hw, ⟨id, st', hfold, hbefore, hafter⟩, compiled, hc, hleaves compiled hc⟩

end Pass

end Hil
