/-!
# Splitting text

Text is split at every occurrence of a separator, so that the runs between separators are one more
than the separators. Joining the runs gives back the text, and no run holds the separator.
-/

namespace Hil.Text

/-- The runs of characters between separators; a text without the separator is one run. -/
def splitAt (sep : Char) : List Char → List (List Char)
  | [] => [[]]
  | c :: cs =>
    if c = sep then [] :: splitAt sep cs
    else match splitAt sep cs with
      | [] => [[c]]
      | run :: runs => (c :: run) :: runs

/-- There is always a run, if only an empty one. -/
theorem splitAt_ne_nil (sep : Char) (cs : List Char) : splitAt sep cs ≠ [] := by
  cases cs with
  | nil => simp [splitAt]
  | cons c cs =>
    simp only [splitAt]
    split
    · simp
    · split <;> simp

/-- No run holds the separator. -/
theorem not_mem_of_mem_splitAt {sep : Char} {cs run : List Char} (h : run ∈ splitAt sep cs) :
    sep ∉ run := by
  induction cs generalizing run with
  | nil => simp_all [splitAt]
  | cons c cs ih =>
    simp only [splitAt] at h
    split at h
    · rcases List.mem_cons.mp h with rfl | h
      · simp
      · exact ih h
    · rename_i hc
      split at h
      · rename_i he
        exact absurd he (splitAt_ne_nil sep cs)
      · rename_i first runs he
        rcases List.mem_cons.mp h with rfl | h
        · intro hm
          rcases List.mem_cons.mp hm with hm | hm
          · exact hc hm.symm
          · exact ih (he ▸ List.mem_cons_self) hm
        · exact ih (he ▸ List.mem_cons_of_mem _ h)

/-- Joining the runs with separators gives back the text. -/
theorem intercalate_splitAt (sep : Char) (cs : List Char) :
    [sep].intercalate (splitAt sep cs) = cs := by
  induction cs with
  | nil => simp [splitAt]
  | cons c cs ih =>
    simp only [splitAt]
    cases hs : splitAt sep cs with
    | nil => exact absurd hs (splitAt_ne_nil sep cs)
    | cons run runs =>
      rw [hs] at ih
      split
      · rename_i hc
        subst hc
        cases runs <;> simp_all [List.intercalate]
      · cases runs <;> simp_all [List.intercalate]

/-- A text without the separator is one run. -/
theorem splitAt_of_not_mem {sep : Char} {cs : List Char} (h : sep ∉ cs) :
    splitAt sep cs = [cs] := by
  induction cs with
  | nil => rfl
  | cons c cs ih =>
    rw [List.mem_cons, not_or] at h
    rw [splitAt, if_neg (Ne.symm h.1), ih h.2]

/-- The runs of two texts around a separator are those of the one and those of the other. -/
theorem splitAt_append (sep : Char) (cs ds : List Char) :
    splitAt sep (cs ++ sep :: ds) = splitAt sep cs ++ splitAt sep ds := by
  induction cs with
  | nil => simp [splitAt]
  | cons c cs ih =>
    simp only [List.cons_append, splitAt]
    split
    · rw [ih, List.cons_append]
    · cases hs : splitAt sep cs with
      | nil => exact absurd hs (splitAt_ne_nil sep cs)
      | cons run runs => rw [ih, hs, List.cons_append, List.cons_append]

/-- The runs of a text before the first separator, and those of what follows. -/
theorem splitAt_run_append {sep : Char} {run : List Char} (h : sep ∉ run) (cs : List Char) :
    splitAt sep (run ++ sep :: cs) = run :: splitAt sep cs := by
  rw [splitAt_append, splitAt_of_not_mem h, List.singleton_append]

/-- Every text is one run, or a run and a shorter text around a separator. -/
@[elab_as_elim]
theorem run_induct (sep : Char) {P : List Char → Prop} (single : ∀ run, sep ∉ run → P run)
    (append : ∀ run cs, sep ∉ run → P cs → P (run ++ sep :: cs)) (cs : List Char) : P cs := by
  induction hn : cs.length using Nat.strongRecOn generalizing cs with
  | _ n ih =>
    by_cases h : sep ∈ cs
    · obtain ⟨run, rest, rfl, hrun⟩ := List.eq_append_cons_of_mem h
      rw [List.length_append, List.length_cons] at hn
      exact append run rest hrun (ih rest.length (by omega) rest rfl)
    · exact single cs h

/-- Every character of a run is one of the text. -/
theorem mem_of_mem_splitAt {sep c : Char} {cs run : List Char} (h : run ∈ splitAt sep cs)
    (hc : c ∈ run) : c ∈ cs := by
  induction cs using run_induct sep with
  | single first hfirst =>
    rw [splitAt_of_not_mem hfirst, List.mem_singleton] at h
    exact h ▸ hc
  | append first cs hfirst ih =>
    rw [splitAt_run_append hfirst, List.mem_cons] at h
    rw [List.mem_append]
    rcases h with rfl | h
    · exact .inl hc
    · exact .inr (List.mem_cons_of_mem sep (ih h))

end Hil.Text
