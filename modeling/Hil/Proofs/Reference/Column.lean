import Hil.Proofs.Reference.Language
import Mathlib.Order.Bounds.Defs

/-!
# Where a text stops being a reference

A text with a dot that is no reference is reported with a column. If the text goes wrong before its
end, that is the column of the first character that no reference has there after what precedes it.
If the text only ends too early, so that it begins some reference, that is the column of its last
token. The forms of references are scanned for this one run after the other, as the reader does.
-/

namespace Hil

variable {allowed : List TokenClass} {cs run : List Char} {form : Form}

/-! ### Forms -/

/-- One more segment fits if the form allows for one, and what it asks for after that fits. -/
theorem fits_cons_iff {isOpen : Bool} {required : List (List TokenClass)} {s : String}
    {segments : List String} :
    Fits isOpen required (s :: segments) ↔ ¬(required = [] ∧ isOpen = false) ∧
      HasClass (required.headD anyToken) s ∧ Fits isOpen required.tail segments := by
  cases required with
  | nil =>
    cases isOpen with
    | false => simp [Fits]
    | true => simp [Fits, hasClass_any_iff]
  | cons classes required => simp [Fits]

/-- Nothing is missing if nothing is required. -/
theorem fits_nil_iff {isOpen : Bool} {required : List (List TokenClass)} :
    Fits isOpen required [] ↔ required = [] := by
  cases required <;> simp [Fits]

namespace Form

/-- The classes of the segment that comes next. -/
def classes (form : Form) : List TokenClass := form.required.headD anyToken

/-- What the form asks for after one more segment. -/
def next (form : Form) : Form := ⟨form.required.tail, form.isOpen⟩

/-- No segment may follow. -/
def IsOver (form : Form) : Prop := form.required = [] ∧ form.isOpen = false

/-- A name can stand wherever a segment is required. -/
def TakesNames (form : Form) : Prop := ∀ classes ∈ form.required, .name ∈ classes

/-- The segments of the text fit the form. -/
def Accepts (form : Form) (cs : List Char) : Prop :=
  Fits form.isOpen form.required ((Text.splitAt '.' cs).map String.ofList)

/-- The text begins one that the form accepts. -/
def Begins (form : Form) (cs : List Char) : Prop := ∃ more, form.Accepts (cs ++ more)

private theorem TakesNames.next (h : form.TakesNames) : form.next.TakesNames :=
  fun classes hmem ↦ h classes (List.mem_of_mem_tail hmem)

private theorem TakesNames.name_mem_classes (h : form.TakesNames) : .name ∈ form.classes := by
  rw [TakesNames] at h
  rw [classes]
  cases hrequired : form.required with
  | nil => simp [anyToken]
  | cons classes required => exact h classes (hrequired ▸ List.mem_cons_self)

/-- Names can stand in all forms of references, and none is over at once. -/
theorem takesNames_formOf (head : String) :
    (formOf head).TakesNames ∧ ¬(formOf head).IsOver := by
  unfold formOf
  split <;> simp [TakesNames, IsOver, anyToken]

private theorem accepts_iff_of_splitAt {runs : List (List Char)}
    (h : Text.splitAt '.' cs = run :: runs) :
    form.Accepts cs ↔ ¬form.IsOver ∧ tokenFault? form.classes run = none ∧
      Fits form.isOpen form.required.tail (runs.map String.ofList) := by
  rw [Accepts, h, List.map_cons, fits_cons_iff, hasClass_iff, String.toList_ofList]
  rfl

private theorem accepts_run_iff (hrun : '.' ∉ run) :
    form.Accepts run ↔ ¬form.IsOver ∧ tokenFault? form.classes run = none ∧
      form.required.tail = [] := by
  rw [accepts_iff_of_splitAt (Text.splitAt_of_not_mem hrun), List.map_nil, fits_nil_iff]

private theorem accepts_append_iff (hrun : '.' ∉ run) :
    form.Accepts (run ++ '.' :: cs) ↔ ¬form.IsOver ∧ tokenFault? form.classes run = none ∧
      form.next.Accepts cs :=
  accepts_iff_of_splitAt (Text.splitAt_run_append hrun cs)

/-- A form that is over accepts nothing. -/
theorem not_begins_of_isOver (h : form.IsOver) : ¬form.Begins cs := by
  rintro ⟨more, haccepts⟩
  obtain ⟨run, runs, hruns⟩ := List.exists_cons_of_ne_nil (Text.splitAt_ne_nil '.' (cs ++ more))
  exact ((accepts_iff_of_splitAt hruns).mp haccepts).1 h

private theorem tokenFault?_a (h : .name ∈ allowed) : tokenFault? allowed ['a'] = none :=
  tokenFault?_eq_none_iff.mpr ⟨.name, h, rfl⟩

private theorem begins_of_tokenFault? (hnames : form.TakesNames) (hover : ¬form.IsOver)
    (hrun : '.' ∉ run) (h : tokenFault? form.classes run = none) : form.Begins run := by
  obtain ⟨required, isOpen⟩ := form
  induction required generalizing run with
  | nil => exact ⟨[], (accepts_run_iff (by simpa using hrun)).mpr ⟨hover, by simpa using h, rfl⟩⟩
  | cons classes required ih =>
    by_cases hlast : required = []
    · subst hlast
      exact ⟨[], (accepts_run_iff (by simpa using hrun)).mpr ⟨hover, by simpa using h, rfl⟩⟩
    · have hnext : ¬(⟨required, isOpen⟩ : Form).IsOver := fun hover ↦ hlast hover.1
      obtain ⟨more, hmore⟩ := ih (show '.' ∉ ['a'] by decide) hnames.next hnext
        (tokenFault?_a hnames.next.name_mem_classes)
      exact ⟨'.' :: ['a'] ++ more, (accepts_append_iff hrun).mpr ⟨hover, h, hmore⟩⟩

/-- A run begins what a form accepts if it is empty or a segment of the class that comes next. -/
theorem begins_run_iff (hnames : form.TakesNames) (hover : ¬form.IsOver) (hrun : '.' ∉ run) :
    form.Begins run ↔ run = [] ∨ tokenFault? form.classes run = none := by
  constructor
  · rintro ⟨more, hmore⟩
    rw [or_iff_not_imp_left]
    intro hne
    by_cases hdot : '.' ∈ more
    · obtain ⟨first, rest, rfl, hfirst⟩ := List.eq_append_cons_of_mem hdot
      have hall : '.' ∉ run ++ first := by simp [hrun, hfirst]
      rw [← List.append_assoc, accepts_append_iff hall] at hmore
      exact tokenFault?_of_append hmore.2.1 hne
    · have hall : '.' ∉ run ++ more := by simp [hrun, hdot]
      exact tokenFault?_of_append ((accepts_run_iff hall).mp hmore).2.1 hne
  · rintro (rfl | h)
    · obtain ⟨more, hmore⟩ := begins_of_tokenFault? hnames hover (show '.' ∉ ['a'] by decide)
        (tokenFault?_a hnames.name_mem_classes)
      exact ⟨['a'] ++ more, hmore⟩
    · exact begins_of_tokenFault? hnames hover hrun h

private theorem begins_append_iff (hover : ¬form.IsOver) (hrun : '.' ∉ run) :
    form.Begins (run ++ '.' :: cs) ↔ tokenFault? form.classes run = none ∧
      form.next.Begins cs := by
  simp only [Begins, List.append_assoc, List.cons_append, accepts_append_iff hrun, hover,
    not_false_eq_true, true_and, exists_and_left]

end Form

/-! ### References -/

namespace Reference

/-- The texts with a dot that are references. -/
def dotted : Set String :=
  {text | '.' ∈ text.toList ∧ ∃ reference, Reference.read text = .ok reference}

/-- The text begins a reference with a dot. -/
def Begins (cs : List Char) : Prop := ∃ text ∈ dotted, cs <+: text.toList

variable {text : String}

/-- What precedes the first dot of a reference is a name, and what follows it fits the form that the
name selects. -/
theorem mem_dotted_iff (hrun : '.' ∉ run) (h : text.toList = run ++ '.' :: cs) :
    text ∈ dotted ↔
      tokenFault? [.name] run = none ∧ (formOf (String.ofList run)).Accepts cs := by
  have hdot : '.' ∈ text.toList := by simp [h]
  have hsegments : segmentsOf text =
      String.ofList run :: (Text.splitAt '.' cs).map String.ofList := by
    rw [segmentsOf, h, Text.splitAt_run_append hrun, List.map_cons]
  have hread : (∃ reference, Reference.read text = .ok reference) ↔
      ∃ target, Spells (segmentsOf text) target := by
    constructor
    · rintro ⟨reference, hreference⟩
      exact ⟨_, ((read_eq_ok_iff hdot).mp hreference).2⟩
    · rintro ⟨target, htarget⟩
      exact ⟨⟨text, target⟩, (read_eq_ok_iff hdot).mpr ⟨rfl, htarget⟩⟩
  rw [dotted, Set.mem_ofPred_eq, hread, hsegments]
  simp [hdot, spells_iff, ← hasClass_name_iff, hasClass_iff, Form.Accepts]

private theorem begins_append_iff (hrun : '.' ∉ run) :
    Begins (run ++ '.' :: cs) ↔
      tokenFault? [.name] run = none ∧ (formOf (String.ofList run)).Begins cs := by
  constructor
  · rintro ⟨text, hmem, more, hmore⟩
    rw [List.append_assoc, List.cons_append] at hmore
    obtain ⟨hname, haccepts⟩ := (mem_dotted_iff hrun hmore.symm).mp hmem
    exact ⟨hname, more, haccepts⟩
  · rintro ⟨hname, more, haccepts⟩
    refine ⟨String.ofList (run ++ '.' :: (cs ++ more)), ?_, ?_⟩
    · exact (mem_dotted_iff hrun (String.toList_ofList ..)).mpr ⟨hname, haccepts⟩
    · simp

private theorem begins_run_iff (hrun : '.' ∉ run) :
    Begins run ↔ run = [] ∨ tokenFault? [.name] run = none := by
  constructor
  · rintro ⟨text, hmem, more, hmore⟩
    rw [or_iff_not_imp_left]
    intro hne
    obtain ⟨first, rest, hfirst, hnot⟩ := List.eq_append_cons_of_mem hmem.1
    -- the first dot of the reference stands behind the run, which holds none
    have hinitial : run <+: first := by
      rw [hfirst] at hmore
      rcases List.append_eq_append_iff.mp hmore with ⟨as, rfl, -⟩ | ⟨bs, rfl, hbs⟩
      · exact List.prefix_append _ _
      · cases bs with
        | nil => simp
        | cons b bs =>
          rw [List.cons_append, List.cons.injEq] at hbs
          simp [← hbs.1] at hrun
    obtain ⟨more, rfl⟩ := hinitial
    exact tokenFault?_of_append ((mem_dotted_iff hnot hfirst).mp hmem).1 hne
  · rintro (rfl | h)
    · exact ⟨"path.module", ⟨by decide, _, rfl⟩, List.nil_prefix⟩
    · obtain ⟨hnames, hover⟩ := Form.takesNames_formOf (String.ofList run)
      have hempty : (formOf (String.ofList run)).Begins [] :=
        (Form.begins_run_iff hnames hover List.not_mem_nil).mpr (.inl rfl)
      obtain ⟨text, hmem, hinitial⟩ := (begins_append_iff hrun).mpr ⟨h, hempty⟩
      exact ⟨text, hmem, (List.prefix_append _ _).trans hinitial⟩

end Reference

/-! ### Scanning -/

variable {Viable : List Char → Prop} {Follows : List Char → List Char → Prop} {k n start : Nat}

/-- How texts are scanned: the first run is a token of an allowed class, of which one may have read
a part, and what follows a dot depends on the run. -/
structure Scans (Viable : List Char → Prop) (allowed : List TokenClass)
    (Follows : List Char → List Char → Prop) : Prop where
  run : ∀ {run}, '.' ∉ run → (Viable run ↔ run = [] ∨ tokenFault? allowed run = none)
  append : ∀ {run cs}, '.' ∉ run →
    (Viable (run ++ '.' :: cs) ↔ tokenFault? allowed run = none ∧ Follows run cs)

/-- The text goes wrong at the offset: what precedes it is still a beginning, with it no more. -/
structure Stops (Viable : List Char → Prop) (cs : List Char) (k : Nat) : Prop where
  lt_length : k < cs.length
  viable : Viable (cs.take k)
  not_viable : ¬Viable (cs.take (k + 1))

/-- The column of the last token of a text, counted from that of the dot before the text. -/
def lastColumn (cs : List Char) : Nat := column (Text.splitAt '.' cs)
where
  /-- The column of the last of the runs. -/
  column : List (List Char) → Nat
    | [] => 0
    | [run] => if run = [] then 0 else 1
    | run :: runs => run.length + 1 + column runs

/-- The number is the column of the fault in a text that begins at an offset. -/
def Locates (Viable : List Char → Prop) (cs : List Char) (start n : Nat) : Prop :=
  (Viable cs ∧ n = start + lastColumn cs) ∨ ∃ k, Stops Viable cs k ∧ n = start + k + 1

private theorem lastColumn_run (hrun : '.' ∉ run) : lastColumn run = if run = [] then 0 else 1 := by
  rw [lastColumn, Text.splitAt_of_not_mem hrun, lastColumn.column]

private theorem lastColumn_append (hrun : '.' ∉ run) (cs : List Char) :
    lastColumn (run ++ '.' :: cs) = run.length + 1 + lastColumn cs := by
  rw [lastColumn, Text.splitAt_run_append hrun, lastColumn.column]
  · rfl
  · exact Text.splitAt_ne_nil '.' cs

/-- The last token stands behind the last dot, and an empty one at the dot. -/
theorem lastColumn_last (before : List Char) {token : List Char} (h : '.' ∉ token) :
    lastColumn (before ++ '.' :: token) = before.length + if token = [] then 1 else 2 := by
  induction before using Text.run_induct '.' with
  | single run hrun =>
    rw [lastColumn_append hrun, lastColumn_run h]
    split <;> rfl
  | append run before hrun ih =>
    rw [List.append_assoc, List.cons_append, lastColumn_append hrun, ih, List.length_append,
      List.length_cons]
    omega

/-- A text with a dot has a last one. -/
theorem exists_lastToken (h : '.' ∈ cs) :
    ∃ before token, cs = before ++ '.' :: token ∧ '.' ∉ token := by
  obtain ⟨run, rest, hrun, hnot⟩ := List.eq_append_cons_of_mem (List.mem_reverse.mpr h)
  refine ⟨rest.reverse, run.reverse, ?_, by simpa using hnot⟩
  rw [← List.reverse_inj, hrun]
  simp

namespace Scans

variable (scan : Scans Viable allowed Follows)
include scan

/-- A run that is no token goes wrong at its fault, whatever follows the run. -/
theorem stops_run (hrun : '.' ∉ run) (hne : run ≠ []) (h : tokenFault? allowed run = some k)
    (rest : List Char) : Stops Viable (run ++ rest) k := by
  obtain ⟨hlt, hbefore, hafter⟩ := tokenFault?_eq_some h hne
  have hnot (n : Nat) : '.' ∉ run.take n := fun hmem ↦ hrun (List.mem_of_mem_take hmem)
  refine ⟨?_, ?_, ?_⟩
  · rw [List.length_append]
    omega
  · rw [List.take_append_of_le_length hlt.le]
    exact (scan.run (hnot k)).mpr hbefore
  · rw [List.take_append_of_le_length hlt, scan.run (hnot (k + 1)), not_or]
    refine ⟨fun hnil ↦ ?_, hafter⟩
    rw [List.take_eq_nil_iff] at hnil
    rcases hnil with hnil | hnil
    · omega
    · exact hne hnil

/-- A run before a dot goes wrong at its fault, an empty one at the dot. -/
theorem stops_append (hrun : '.' ∉ run) (h : tokenFault? allowed run = some k)
    (cs : List Char) : Stops Viable (run ++ '.' :: cs) k := by
  by_cases hne : run = []
  · subst hne
    cases h
    refine ⟨by simp, (scan.run List.not_mem_nil).mpr (.inl rfl), ?_⟩
    have hdot : ¬Viable ([] ++ '.' :: []) := fun hviable ↦
      nomatch ((scan.append List.not_mem_nil).mp hviable).1
    exact hdot
  · exact scan.stops_run hrun hne h _

/-- Where nothing can follow a run, the text goes wrong at the dot. -/
theorem stops_dot (hrun : '.' ∉ run) (h : tokenFault? allowed run = none)
    (hno : ¬Follows run []) (cs : List Char) : Stops Viable (run ++ '.' :: cs) run.length := by
  refine ⟨by simp, ?_, ?_⟩
  · rw [List.take_left' rfl]
    exact (scan.run hrun).mpr (.inr h)
  · rw [List.take_length_add_append, List.take_succ_cons, List.take_zero, scan.append hrun]
    exact fun hall ↦ hno hall.2

/-- A fault of what follows a run is one of the text. -/
theorem locates_append (hrun : '.' ∉ run) (h : tokenFault? allowed run = none)
    (hfollows : Locates (Follows run) cs (start + run.length + 1) n) :
    Locates Viable (run ++ '.' :: cs) start n := by
  rcases hfollows with ⟨hviable, rfl⟩ | ⟨k, hstops, rfl⟩
  · refine .inl ⟨(scan.append hrun).mpr ⟨h, hviable⟩, ?_⟩
    rw [lastColumn_append hrun]
    omega
  · have htake (m : Nat) :
        (run ++ '.' :: cs).take (run.length + (m + 1)) = run ++ '.' :: cs.take m := by
      rw [List.take_length_add_append, List.take_succ_cons]
    refine .inr ⟨run.length + (k + 1), ⟨?_, ?_, ?_⟩, by omega⟩
    · rw [List.length_append, List.length_cons]
      have := hstops.lt_length
      omega
    · rw [htake, scan.append hrun]
      exact ⟨h, hstops.viable⟩
    · rw [Nat.add_assoc, htake, scan.append hrun]
      exact fun hall ↦ hstops.not_viable hall.2

end Scans

private theorem Form.scans (hnames : form.TakesNames) (hover : ¬form.IsOver) :
    Scans form.Begins form.classes fun _ ↦ form.next.Begins where
  run := Form.begins_run_iff hnames hover
  append := Form.begins_append_iff hover

private theorem Reference.scans :
    Scans Reference.Begins [.name] fun run ↦ (formOf (String.ofList run)).Begins where
  run := Reference.begins_run_iff
  append := Reference.begins_append_iff

private theorem faultColumn?_of_isOver (h : form.IsOver) {last : Nat} :
    faultColumn? form.required form.isOpen last start (Text.splitAt '.' cs) = some start := by
  obtain ⟨run, runs, hruns⟩ := List.exists_cons_of_ne_nil (Text.splitAt_ne_nil '.' cs)
  rw [hruns, h.1, h.2]
  rfl

/-- The column at which a text leaves a form locates its fault. -/
theorem Form.locates_of_faultColumn? (hnames : form.TakesNames) (hover : ¬form.IsOver) {last : Nat}
    (h : faultColumn? form.required form.isOpen last start (Text.splitAt '.' cs) = some n) :
    Locates form.Begins cs start n := by
  induction cs using Text.run_induct '.' generalizing form last start with
  | single run hrun =>
    have hbegins := Form.begins_run_iff hnames hover hrun
    rw [Text.splitAt_of_not_mem hrun, faultColumn?, if_neg (by simpa [IsOver] using hover)] at h
    by_cases hne : run = []
    · subst hne
      cases h
      exact .inl ⟨hbegins.mpr (.inl rfl), rfl⟩
    · rw [if_neg (by simpa using hne)] at h
      split at h
      · next k hk =>
        cases h
        have hstops := (Form.scans hnames hover).stops_run hrun hne hk []
        rw [List.append_nil] at hstops
        exact .inr ⟨k, hstops, rfl⟩
      · next hk =>
        rw [faultColumn?] at h
        split at h
        · cases h
        · cases h
          refine .inl ⟨hbegins.mpr (.inr hk), ?_⟩
          rw [lastColumn_run hrun, if_neg hne]
  | append run cs hrun ih =>
    have scan := Form.scans hnames hover
    rw [Text.splitAt_run_append hrun, faultColumn?, if_neg (by simpa [IsOver] using hover),
      if_neg (by simp [Text.splitAt_ne_nil])] at h
    split at h
    · next k hk =>
      cases h
      exact .inr ⟨k, scan.stops_append hrun hk cs, rfl⟩
    · next hk =>
      by_cases hlast : form.next.IsOver
      · obtain rfl := Option.some.inj ((faultColumn?_of_isOver hlast).symm.trans h)
        exact .inr ⟨_, scan.stops_dot hrun hk (Form.not_begins_of_isOver hlast) cs, rfl⟩
      · exact scan.locates_append hrun hk (ih hnames.next hlast h)

namespace Reference

variable {text : String}

/-- The column at which a text with a dot stops being a reference locates its fault. -/
theorem locates_of_referenceFault? (hdot : '.' ∈ cs)
    (h : referenceFault? (Text.splitAt '.' cs) = some n) : Locates Begins cs 0 n := by
  obtain ⟨head, rest, rfl, hhead⟩ := List.eq_append_cons_of_mem hdot
  rw [Text.splitAt_run_append hhead, referenceFault?] at h
  split at h
  · next k hk =>
    cases h
    exact .inr ⟨k, scans.stops_append hhead hk rest, by omega⟩
  · next hk =>
    obtain ⟨hnames, hover⟩ := Form.takesNames_formOf (String.ofList head)
    rw [← Nat.zero_add head.length, Nat.add_assoc] at h
    exact scans.locates_append hhead hk (Form.locates_of_faultColumn? hnames hover h)

/-- A text with a dot that is no reference has a fault. -/
theorem exists_referenceFault? {fault : ReferenceFault} (hdot : '.' ∈ text.toList)
    (h : Reference.read text = .error fault) :
    ∃ column, fault = .unexpected column ∧
      referenceFault? (Text.splitAt '.' text.toList) = some column := by
  obtain ⟨first, second, runs, hruns⟩ := exists_runs_of_mem hdot
  rw [Reference.read, hruns] at h
  dsimp only at h
  split at h
  · next column hcolumn =>
    cases h
    exact ⟨column, rfl, hruns ▸ hcolumn⟩
  · cases h

/-- What begins with the beginning of a reference. -/
theorem Begins.of_initial {ds : List Char} (h : Begins ds) (hinitial : cs <+: ds) : Begins cs := by
  obtain ⟨text, hmem, hds⟩ := h
  exact ⟨text, hmem, hinitial.trans hds⟩

/-- Where a text goes wrong, the longest of its prefixes that begins a reference ends. -/
theorem isGreatest_of_stops (h : Stops Begins cs k) :
    IsGreatest {n | n ≤ cs.length ∧ Begins (cs.take n)} k := by
  refine ⟨⟨h.lt_length.le, h.viable⟩, fun n hn ↦ ?_⟩
  by_contra hlt
  exact h.not_viable (hn.2.of_initial (List.take_prefix_take_left (by omega)))

/-- The column that the note on a text with a dot names is in the text. If no reference begins with
the text, the column is that of the first character behind the longest prefix with which one does.
Otherwise the last token starts in it, which is the last dot if nothing stands behind that. -/
theorem read_eq_error_column {fault : ReferenceFault} (hdot : '.' ∈ text.toList)
    (h : Reference.read text = .error fault) (place : Option Location) :
    ∃ column, fault = .unexpected column ∧
      (fault.problem text place).note = some ("unexpected input at column " ++ toString column) ∧
      1 ≤ column ∧ column ≤ text.length ∧
      (¬Begins text.toList →
        IsGreatest {n | n ≤ text.length ∧ Begins (text.toList.take n)} (column - 1)) ∧
      (Begins text.toList → ∀ before token, text.toList = before ++ '.' :: token → '.' ∉ token →
        column = before.length + if token = [] then 1 else 2) := by
  obtain ⟨column, rfl, hfault⟩ := exists_referenceFault? hdot h
  rw [← String.length_toList]
  refine ⟨column, rfl, rfl, ?_⟩
  rcases locates_of_referenceFault? hdot hfault with ⟨hbegins, hcolumn⟩ | ⟨k, hstops, hcolumn⟩
  · obtain ⟨before, token, htext, htoken⟩ := exists_lastToken hdot
    have hlength := congrArg List.length htext
    rw [List.length_append, List.length_cons] at hlength
    rw [hcolumn, Nat.zero_add, htext, lastColumn_last before htoken, ← htext]
    refine ⟨?_, ?_, fun hnot ↦ (hnot hbegins).elim, fun _ before' token' htext' htoken' ↦ ?_⟩
    · split <;> omega
    · split
      · omega
      · next hne =>
        have := List.length_pos_iff.mpr hne
        omega
    · rw [← lastColumn_last before htoken, ← lastColumn_last before' htoken', ← htext, htext']
  · have hnot : ¬Begins text.toList := fun hbegins ↦
      hstops.not_viable (hbegins.of_initial (List.take_prefix _ _))
    have hk := hstops.lt_length
    obtain rfl : column = k + 1 := by omega
    exact ⟨by omega, by omega, fun _ ↦ isGreatest_of_stops hstops,
      fun hbegins ↦ (hnot hbegins).elim⟩

/-- Where the name of a resource is missing, the second of two dots is at fault. -/
theorem read_eq_error_column_missingName :
    '.' ∈ "aws_instance..id".toList ∧
      Reference.read "aws_instance..id" = .error (.unexpected 14) ∧
      ((ReferenceFault.unexpected 14).problem "aws_instance..id" none).note =
        some "unexpected input at column 14" ∧
      ¬Begins "aws_instance..id".toList ∧
      IsGreatest {n | n ≤ "aws_instance..id".length ∧ Begins ("aws_instance..id".toList.take n)}
        13 := by
  have hdot : '.' ∈ "aws_instance..id".toList := by decide
  have hread : Reference.read "aws_instance..id" = .error (.unexpected 14) := by rfl
  have hnot : ¬Begins "aws_instance..id".toList := by
    have hruns : "aws_instance..id".toList =
        "aws_instance".toList ++ '.' :: ([] ++ '.' :: ['i', 'd']) := rfl
    rw [hruns, begins_append_iff (by decide),
      Form.begins_append_iff (Form.takesNames_formOf _).2 List.not_mem_nil]
    exact fun h ↦ nomatch h.2.1
  obtain ⟨column, hcolumn, hnote, -, -, hgreatest, -⟩ := read_eq_error_column hdot hread none
  cases hcolumn
  exact ⟨hdot, hread, hnote, hnot, hgreatest hnot⟩

end Reference

end Hil
