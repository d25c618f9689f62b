import Hil.Reference.Segment
import Mathlib.Data.List.TakeWhile

/-!
# Classes of segments

A segment of a reference is a name, an integer, `*` or `#`. The longest token at the start of a run
decides the class of the whole run: a run is of a class exactly if all its characters are those of
the class, since the token then ends where the run does.
-/

namespace Hil

/-- An ASCII letter. -/
def IsLetter (c : Char) : Prop := ('A' ≤ c ∧ c ≤ 'Z') ∨ ('a' ≤ c ∧ c ≤ 'z')

/-- An ASCII digit. -/
def IsDigit (c : Char) : Prop := '0' ≤ c ∧ c ≤ '9'

/-- A name: a letter or an underscore, and after it letters, digits, underscores and hyphens. -/
def IsName (s : String) : Prop :=
  ∃ c cs, s.toList = c :: cs ∧ (IsLetter c ∨ c = '_') ∧
    ∀ d ∈ cs, IsLetter d ∨ IsDigit d ∨ d = '_' ∨ d = '-'

/-- An integer: digits, at least one. -/
def IsInteger (s : String) : Prop := s.toList ≠ [] ∧ ∀ c ∈ s.toList, IsDigit c

/-- What can stand between the dots of a reference. -/
def IsSegment (s : String) : Prop := IsName s ∨ IsInteger s ∨ s = "*" ∨ s = "#"

variable {c : Char} {cs run : List Char} {s : String} {allowed : List TokenClass}

/-! ### Characters -/

/-- The characters of integers are the ASCII digits. -/
theorem isDigit_iff : c.isDigit = true ↔ IsDigit c := by
  rw [Char.isDigit, Bool.and_eq_true, decide_eq_true_iff, decide_eq_true_iff]
  rfl

private theorem isAlpha_iff : c.isAlpha = true ↔ IsLetter c := by
  have hdef : c.isAlpha =
      (decide ('A' ≤ c ∧ c ≤ 'Z') || (decide ('a' ≤ c) && decide (c ≤ 'z'))) := rfl
  rw [hdef, Bool.or_eq_true, Bool.and_eq_true]
  simp only [decide_eq_true_iff]
  rfl

/-- The characters that begin names are letters and the underscore. -/
theorem isNameStart_iff : isNameStart c = true ↔ IsLetter c ∨ c = '_' := by
  rw [isNameStart, Bool.or_eq_true, isAlpha_iff, beq_iff_eq]

/-- The characters that continue names are letters, digits, underscores and hyphens. -/
theorem isNameRest_iff :
    isNameRest c = true ↔ IsLetter c ∨ IsDigit c ∨ c = '_' ∨ c = '-' := by
  rw [isNameRest, Bool.or_eq_true, Bool.or_eq_true, Char.isAlphanum, Bool.or_eq_true, isAlpha_iff,
    isDigit_iff, beq_iff_eq, beq_iff_eq, or_assoc, or_assoc]

/-- No digit begins a name. -/
theorem isNameStart_of_isDigit (h : c.isDigit = true) : isNameStart c = false := by
  rw [isDigit_iff, IsDigit] at h
  rw [Bool.eq_false_iff, ne_eq, isNameStart_iff, IsLetter]
  simp only [Char.le_def, UInt32.le_iff_toNat_le] at h ⊢
  rintro (h' | rfl)
  · simp only [Char.reduceVal, UInt32.reduceToNat] at h h'
    omega
  · simp at h

/-! ### Runs -/

private theorem length_takeWhile_eq_iff {p : Char → Bool} :
    (cs.takeWhile p).length = cs.length ↔ ∀ c ∈ cs, p c = true := by
  rw [← List.takeWhile_eq_self_iff]
  constructor
  · exact (List.takeWhile_prefix p).eq_of_length
  · intro h
    rw [h]

/-- A token is not longer than the run that it begins. -/
theorem length_leadingToken?_le {cls : TokenClass} {n : Nat}
    (h : leadingToken? run = some (cls, n)) : n ≤ run.length := by
  cases run with
  | nil => cases h
  | cons c cs =>
    have hlen (p : Char → Bool) : 1 + (cs.takeWhile p).length ≤ (c :: cs).length := by
      have hle := (List.takeWhile_prefix (l := cs) p).length_le
      rw [List.length_cons]
      omega
    rw [leadingToken?] at h
    split at h
    · cases h
      exact hlen isNameRest
    · split at h
      · cases h
        exact hlen Char.isDigit
      · split at h
        · cases h
          simp
        · split at h
          · cases h
            simp
          · cases h

/-- A run has no fault exactly if it is a token of an allowed class. -/
theorem tokenFault?_eq_none_iff :
    tokenFault? allowed run = none ↔ ∃ cls ∈ allowed, tokenClass? run = some cls := by
  rw [tokenFault?, tokenClass?]
  cases h : leadingToken? run with
  | none => simp
  | some token =>
    obtain ⟨cls, n⟩ := token
    have hn := length_leadingToken?_le h
    by_cases ha : cls ∈ allowed
    · by_cases hlt : n < run.length
      · have hne : n ≠ run.length := Nat.ne_of_lt hlt
        simp [ha, hlt, hne]
      · have he : n = run.length := by omega
        simp [ha, he]
    · have hno : ∀ cls' ∈ allowed, ¬cls = cls' := by
        rintro cls' hm rfl
        exact ha hm
      simp only [List.contains_eq_mem, ha, decide_false, Bool.not_false, if_true, reduceCtorEq,
        false_iff, not_exists, not_and]
      intro cls' hm
      split
      · simpa using hno cls' hm
      · simp

/-! ### Segments -/

/-- The class of the tokens that begin with a character. -/
def classOf? (c : Char) : Option TokenClass :=
  if isNameStart c then some .name
  else if c.isDigit then some .int
  else if c = '*' then some .splat
  else if c = '#' then some .hash
  else none

/-- The characters that continue a token of a class. -/
def TokenClass.continues : TokenClass → Char → Bool
  | name => isNameRest
  | int => Char.isDigit
  | splat | hash => fun _ ↦ false

private theorem classOf?_eq_name_iff : classOf? c = some .name ↔ isNameStart c = true := by
  unfold classOf?
  split_ifs <;> simp_all

private theorem classOf?_eq_int_iff : classOf? c = some .int ↔ c.isDigit = true := by
  unfold classOf?
  split
  · next h =>
    have hd : c.isDigit ≠ true := fun hd ↦ by
      rw [isNameStart_of_isDigit hd] at h
      cases h
    simpa using hd
  · split_ifs <;> simp_all

private theorem classOf?_eq_splat_iff : classOf? c = some .splat ↔ c = '*' := by
  refine ⟨fun h ↦ ?_, fun h ↦ h ▸ rfl⟩
  unfold classOf? at h
  split_ifs at h <;> simp_all

private theorem classOf?_eq_hash_iff : classOf? c = some .hash ↔ c = '#' := by
  refine ⟨fun h ↦ ?_, fun h ↦ h ▸ rfl⟩
  unfold classOf? at h
  split_ifs at h <;> simp_all

/-- The first character of a run decides of which class its first token is. -/
theorem leadingToken?_cons (c : Char) (cs : List Char) :
    leadingToken? (c :: cs) =
      (classOf? c).map fun cls ↦ (cls, 1 + (cs.takeWhile cls.continues).length) := by
  rw [leadingToken?, classOf?]
  split_ifs <;> simp [TokenClass.continues]

/-- A run is a token if all its characters continue the first one. -/
theorem tokenClass?_cons_iff {cls : TokenClass} :
    tokenClass? (c :: cs) = some cls ↔
      classOf? c = some cls ∧ ∀ d ∈ cs, cls.continues d = true := by
  have hlen (p : Char → Bool) :
      1 + (cs.takeWhile p).length = (c :: cs).length ↔ ∀ d ∈ cs, p d = true := by
    rw [← length_takeWhile_eq_iff, List.length_cons]
    omega
  rw [tokenClass?, leadingToken?_cons]
  cases classOf? c with
  | none => simp
  | some cls' =>
    simp only [Option.map_some, hlen, Option.some.injEq]
    split
    · next h =>
      rw [Option.some.injEq]
      exact ⟨fun he ↦ ⟨he, he ▸ h⟩, And.left⟩
    · next h => simp only [reduceCtorEq, false_iff, not_and]; rintro rfl; exact h

/-- A run is a token of an allowed class if all its characters continue the first one. -/
theorem tokenFault?_cons_eq_none_iff :
    tokenFault? allowed (c :: cs) = none ↔
      ∃ cls ∈ allowed, classOf? c = some cls ∧ ∀ d ∈ cs, cls.continues d = true := by
  simp only [tokenFault?_eq_none_iff, tokenClass?_cons_iff]

/-- Of a token, each beginning is a token of its class, if it is not empty. -/
theorem tokenFault?_of_append {rest : List Char} (h : tokenFault? allowed (run ++ rest) = none)
    (hrun : run ≠ []) : tokenFault? allowed run = none := by
  obtain ⟨c, cs, rfl⟩ := List.exists_cons_of_ne_nil hrun
  rw [List.cons_append, tokenFault?_cons_eq_none_iff] at h
  obtain ⟨cls, hmem, hc, hcs⟩ := h
  exact tokenFault?_cons_eq_none_iff.mpr
    ⟨cls, hmem, hc, fun d hd ↦ hcs d (List.mem_append_left _ hd)⟩

/-- The fault of a run is its first character if no allowed token begins with it, and otherwise the
first character that does not continue the token. -/
theorem exists_of_tokenFault?_cons {n : Nat} (h : tokenFault? allowed (c :: cs) = some n) :
    (n = 0 ∧ ∀ cls ∈ allowed, classOf? c ≠ some cls) ∨
      ∃ cls ∈ allowed, classOf? c = some cls ∧ n = (cs.takeWhile cls.continues).length + 1 ∧
        n ≤ cs.length := by
  rw [tokenFault?, leadingToken?_cons] at h
  cases hc : classOf? c with
  | none =>
    rw [hc] at h
    cases h
    exact .inl ⟨rfl, fun cls _ ↦ nofun⟩
  | some cls =>
    rw [hc] at h
    simp only [Option.map_some, List.contains_eq_mem, Bool.not_eq_true', decide_eq_false_iff_not,
      List.length_cons] at h
    split at h
    · next hmem =>
      cases h
      exact .inl ⟨rfl, fun cls' hmem' heq ↦ hmem (Option.some.inj heq ▸ hmem')⟩
    · next hmem =>
      split at h
      · next hlt =>
        cases h
        exact .inr ⟨cls, not_not.mp hmem, rfl, Nat.add_comm _ _, by omega⟩
      · cases h

/-- A run stops being a token at its fault: what precedes is one unless it is empty, and what goes
on to there is none. -/
theorem tokenFault?_eq_some {n : Nat} (h : tokenFault? allowed run = some n) (hrun : run ≠ []) :
    n < run.length ∧ (run.take n = [] ∨ tokenFault? allowed (run.take n) = none) ∧
      tokenFault? allowed (run.take (n + 1)) ≠ none := by
  obtain ⟨c, cs, rfl⟩ := List.exists_cons_of_ne_nil hrun
  rw [ne_eq, List.take_succ_cons, tokenFault?_cons_eq_none_iff]
  rcases exists_of_tokenFault?_cons h with ⟨rfl, hnone⟩ | ⟨cls, hmem, hc, rfl, hlength⟩
  · exact ⟨Nat.zero_lt_succ _, .inl rfl, fun ⟨cls, hmem, hc, _⟩ ↦ hnone cls hmem hc⟩
  · refine ⟨Nat.lt_succ_of_le hlength, .inr ?_, ?_⟩
    · have htake := List.prefix_iff_eq_take.mp (List.takeWhile_prefix (l := cs) cls.continues)
      rw [List.take_succ_cons, ← htake, tokenFault?_cons_eq_none_iff]
      exact ⟨cls, hmem, hc, fun d hd ↦ List.mem_takeWhile_imp hd⟩
    · rintro ⟨cls', -, hc', hall⟩
      obtain rfl := Option.some.inj (hc.symm.trans hc')
      generalize hn : (cs.takeWhile cls.continues).length + 1 = n at hlength hall
      have hlonger : (cs.take n ++ cs.drop n).takeWhile cls.continues =
          cs.take n ++ (cs.drop n).takeWhile cls.continues := List.takeWhile_append_of_pos hall
      have hle := congrArg List.length hlonger
      rw [List.take_append_drop, List.length_append, List.length_take] at hle
      omega

private theorem tokenClass?_nil : tokenClass? [] = none := rfl

/-- The names are the segments of the class of names. -/
theorem tokenClass?_eq_name_iff : tokenClass? s.toList = some .name ↔ IsName s := by
  rw [IsName]
  cases s.toList with
  | nil => simp [tokenClass?_nil]
  | cons c cs => simp [tokenClass?_cons_iff, classOf?_eq_name_iff, TokenClass.continues,
      isNameStart_iff, isNameRest_iff, and_assoc]

/-- The integers are the segments of the class of integers. -/
theorem tokenClass?_eq_int_iff : tokenClass? s.toList = some .int ↔ IsInteger s := by
  rw [IsInteger]
  cases s.toList with
  | nil => simp [tokenClass?_nil]
  | cons c cs => simp [tokenClass?_cons_iff, classOf?_eq_int_iff, TokenClass.continues, isDigit_iff]

/-- Only `*` is of the class of splats. -/
theorem tokenClass?_eq_splat_iff : tokenClass? s.toList = some .splat ↔ s = "*" := by
  rw [← String.toList_inj]
  cases s.toList with
  | nil => simp [tokenClass?_nil]
  | cons c cs =>
    simp [tokenClass?_cons_iff, classOf?_eq_splat_iff, TokenClass.continues,
      List.eq_nil_iff_forall_not_mem]

/-- Only `#` is of the class of hashes. -/
theorem tokenClass?_eq_hash_iff : tokenClass? s.toList = some .hash ↔ s = "#" := by
  rw [← String.toList_inj]
  cases s.toList with
  | nil => simp [tokenClass?_nil]
  | cons c cs =>
    simp [tokenClass?_cons_iff, classOf?_eq_hash_iff, TokenClass.continues,
      List.eq_nil_iff_forall_not_mem]

/-- A segment is what is a token of some class. -/
theorem isSegment_iff : IsSegment s ↔ ∃ cls, tokenClass? s.toList = some cls := by
  constructor
  · rintro (h | h | h | h)
    · exact ⟨_, tokenClass?_eq_name_iff.mpr h⟩
    · exact ⟨_, tokenClass?_eq_int_iff.mpr h⟩
    · exact ⟨_, tokenClass?_eq_splat_iff.mpr h⟩
    · exact ⟨_, tokenClass?_eq_hash_iff.mpr h⟩
  · rintro ⟨cls, h⟩
    cases cls with
    | name => exact .inl (tokenClass?_eq_name_iff.mp h)
    | int => exact .inr (.inl (tokenClass?_eq_int_iff.mp h))
    | splat => exact .inr (.inr (.inl (tokenClass?_eq_splat_iff.mp h)))
    | hash => exact .inr (.inr (.inr (tokenClass?_eq_hash_iff.mp h)))

/-- Joining the segments gives back the text. -/
theorem joinDots_segmentsOf (text : String) : joinDots (segmentsOf text) = text := by
  rw [← String.toList_inj, joinDots, String.toList_intercalate, segmentsOf, List.map_map]
  simpa [Function.comp_def] using Text.intercalate_splitAt '.' text.toList

end Hil
