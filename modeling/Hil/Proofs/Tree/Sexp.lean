import Hil.Proofs.Text.Json
import Hil.Tree.Text

/-!
# S-expressions are unambiguous

Nested lists of words and JSON strings, as text. A word ends at the first blank or parenthesis and a
JSON string at its closing quote, so the text of a list falls apart into the texts of its items in
one way only, at every depth.
-/

namespace Hil

/-- A list has a head and any number of items. Lists and heads are written alike, but an item may be
a list again. -/
inductive Sexp where
  | atom (text : String)
  | list (head : String) (items : List Sexp)

/-- What ends words and begins anything else. -/
def isDelimiter (c : Char) : Bool := c == ' ' || c == '(' || c == ')' || c == '"'

/-- A word is not empty, and has no blanks, parentheses or quotes. -/
structure IsWord (s : String) : Prop where
  ne_nil : s.toList ≠ []
  plain : ∀ c ∈ s.toList, isDelimiter c = false

instance (s : String) : Decidable (IsWord s) :=
  decidable_of_iff (s.toList.isEmpty = false ∧ (s.toList.all fun c ↦ !isDelimiter c) = true) <| by
    rw [List.isEmpty_eq_false_iff, List.all_eq_true]
    constructor
    · exact fun h ↦ ⟨h.1, fun c hc ↦ by simpa using h.2 c hc⟩
    · exact fun h ↦ ⟨h.1, fun c hc ↦ by simpa using h.2 c hc⟩

/-- What is not taken apart further: words and JSON strings. -/
inductive IsAtom : String → Prop
  | word {s : String} (h : IsWord s) : IsAtom s
  | quoted (s : Str) : IsAtom (Text.jsonString s)

/-- What can follow an atom: nothing, a blank or a closing parenthesis. -/
def EndsAtom (r : List Char) : Prop := ∀ c ∈ r.head?, c = ' ' ∨ c = ')'

variable {r r' : List Char} {s s' : String}

private theorem endsAtom_nil : EndsAtom [] := nofun

private theorem endsAtom_blank (r : List Char) : EndsAtom (' ' :: r) := by simp [EndsAtom]

private theorem endsAtom_close (r : List Char) : EndsAtom (')' :: r) := by simp [EndsAtom]

private theorem run_append_inj {cs cs' : List Char} (hcs : ∀ c ∈ cs, isDelimiter c = false)
    (hcs' : ∀ c ∈ cs', isDelimiter c = false) (hr : EndsAtom r) (hr' : EndsAtom r')
    (h : cs ++ r = cs' ++ r') : cs = cs' ∧ r = r' := by
  have hends {c : Char} {r t : List Char} (hc : isDelimiter c = false) (hr : EndsAtom r) :
      r ≠ c :: t := by
    rintro rfl
    rcases hr c rfl with rfl | rfl <;> cases hc
  induction cs generalizing cs' with
  | nil =>
    cases cs' with
    | nil => exact ⟨rfl, h⟩
    | cons c' cs' => exact absurd h (hends (hcs' c' List.mem_cons_self) hr)
  | cons c cs ih =>
    cases cs' with
    | nil => exact absurd h.symm (hends (hcs c List.mem_cons_self) hr')
    | cons c' cs' =>
      obtain ⟨rfl, htail⟩ := List.cons.inj h
      obtain ⟨rfl, hrest⟩ := ih (fun c hc ↦ hcs c (List.mem_cons_of_mem _ hc))
        (fun c hc ↦ hcs' c (List.mem_cons_of_mem _ hc)) htail
      exact ⟨rfl, hrest⟩

namespace IsWord

/-- A word begins with a character that ends none. -/
theorem exists_cons (h : IsWord s) : ∃ c cs, s.toList = c :: cs ∧ isDelimiter c = false := by
  obtain ⟨c, cs, hcs⟩ := List.exists_cons_of_ne_nil h.ne_nil
  exact ⟨c, cs, hcs, h.plain c (hcs ▸ List.mem_cons_self)⟩

/-- No word begins as a JSON string does. -/
theorem append_ne (h : IsWord s) (t : Str) (r r' : List Char) :
    s.toList ++ r ≠ (Text.jsonString t).toList ++ r' := by
  obtain ⟨c, cs, hcs, hc⟩ := h.exists_cons
  obtain ⟨q, hq⟩ := Text.exists_toList_jsonString t
  rw [hcs, hq]
  intro heq
  obtain ⟨rfl, -⟩ := List.cons.inj heq
  cases hc

end IsWord

namespace IsAtom

/-- No atom begins as a list does. -/
theorem ne_open (h : IsAtom s) (r r' : List Char) : s.toList ++ r ≠ '(' :: r' := by
  cases h with
  | word h =>
    obtain ⟨c, cs, hcs, hc⟩ := h.exists_cons
    rw [hcs]
    intro heq
    obtain ⟨rfl, -⟩ := List.cons.inj heq
    cases hc
  | quoted t =>
    obtain ⟨q, hq⟩ := Text.exists_toList_jsonString t
    rw [hq]
    intro heq
    cases (List.cons.inj heq).1

/-- An atom ends where it ends, whatever follows it. -/
theorem append_inj (h : IsAtom s) (h' : IsAtom s') (hr : EndsAtom r) (hr' : EndsAtom r')
    (heq : s.toList ++ r = s'.toList ++ r') : s = s' ∧ r = r' := by
  cases h with
  | word h =>
    cases h' with
    | word h' => exact (run_append_inj h.plain h'.plain hr hr' heq).imp_left String.toList_inj.mp
    | quoted t => exact absurd heq (h.append_ne t r r')
  | quoted t =>
    cases h' with
    | word h' => exact absurd heq.symm (h'.append_ne t r' r)
    | quoted t' => exact (Text.jsonString_append_inj heq).imp_left Text.jsonString_inj.mpr

end IsAtom

/-- The items of a list after the first are each preceded by a blank. -/
theorem toList_parenthesised (head : String) (items : List String) :
    (parenthesised (head :: items)).toList =
      '(' :: (head.toList ++ (items.flatMap (fun item ↦ ' ' :: item.toList) ++ [')'])) := by
  have hjoin (head : String) : (" ".intercalate (head :: items)).toList =
      head.toList ++ items.flatMap fun item ↦ ' ' :: item.toList := by
    induction items generalizing head with
    | nil => simp
    | cons item items ih => simp [String.intercalate_cons_cons, ih item]
  simp [parenthesised, hjoin]

namespace Sexp

mutual

/-- The text of an S-expression. -/
def text : Sexp → String
  | atom text => text
  | list head items => parenthesised (head :: texts items)

/-- The texts of the items of a list. -/
def texts : List Sexp → List String
  | [] => []
  | item :: items => text item :: texts items

end

/-- The texts of items are those of each. -/
theorem texts_eq_map (items : List Sexp) : texts items = items.map text := by
  induction items with
  | nil => rfl
  | cons item items ih => rw [texts, List.map_cons, ih]

/-- All atoms of an S-expression are words or JSON strings. -/
inductive Readable : Sexp → Prop
  | atom {s : String} (h : IsAtom s) : Readable (.atom s)
  | list {head : String} {items : List Sexp} (h : IsAtom head)
      (below : ∀ item ∈ items, Readable item) : Readable (.list head items)

private theorem endsAtom_items (items : List Sexp) (r : List Char) :
    EndsAtom (items.flatMap (fun item ↦ ' ' :: item.text.toList) ++ ')' :: r) := by
  cases items with
  | nil => exact endsAtom_close r
  | cons item items => exact endsAtom_blank _

private theorem items_append_inj {items items' : List Sexp}
    (ih : ∀ item ∈ items, ∀ {r r' : List Char} {y : Sexp}, Readable y → EndsAtom r → EndsAtom r' →
      item.text.toList ++ r = y.text.toList ++ r' → item = y ∧ r = r')
    (below' : ∀ item ∈ items', Readable item)
    (h : items.flatMap (fun item ↦ ' ' :: item.text.toList) ++ ')' :: r =
      items'.flatMap (fun item ↦ ' ' :: item.text.toList) ++ ')' :: r') :
    items = items' ∧ r = r' := by
  induction items generalizing items' with
  | nil =>
    cases items' with
    | nil => exact ⟨rfl, (List.cons.inj h).2⟩
    | cons item' items' => cases (List.cons.inj h).1
  | cons item items ihitems =>
    cases items' with
    | nil => cases (List.cons.inj h).1
    | cons item' items' =>
      rw [List.forall_mem_cons] at ih below'
      simp only [List.flatMap_cons, List.cons_append, List.append_assoc, List.cons.injEq,
        true_and] at h
      obtain ⟨rfl, hrest⟩ := ih.1 below'.1 (endsAtom_items items r) (endsAtom_items items' r') h
      obtain ⟨rfl, hr⟩ := ihitems ih.2 below'.2 hrest
      exact ⟨rfl, hr⟩

/-- An S-expression ends where it ends, whatever follows it, and is determined by its text. -/
theorem text_append_inj {x y : Sexp} (hx : Readable x) (hy : Readable y) (hr : EndsAtom r)
    (hr' : EndsAtom r') (h : x.text.toList ++ r = y.text.toList ++ r') : x = y ∧ r = r' := by
  induction hx generalizing y r r' with
  | atom hs =>
    cases hy with
    | atom hs' => exact (hs.append_inj hs' hr hr' h).imp_left (congrArg atom)
    | list hhead' below' =>
      rw [text, text, toList_parenthesised] at h
      exact absurd h (hs.ne_open r _)
  | @list head items hhead below ih =>
    cases hy with
    | atom hs' =>
      rw [text, text, toList_parenthesised] at h
      exact absurd h.symm (hs'.ne_open r' _)
    | @list head' items' hhead' below' =>
      simp only [text, toList_parenthesised, texts_eq_map, List.flatMap_map, List.cons_append,
        List.append_assoc, List.cons.injEq, true_and, List.nil_append] at h
      obtain ⟨rfl, hitems⟩ :=
        hhead.append_inj hhead' (endsAtom_items items r) (endsAtom_items items' r') h
      obtain ⟨rfl, hrest⟩ := items_append_inj ih below' hitems
      exact ⟨rfl, hrest⟩

/-- The S-expression is determined by its text. -/
theorem text_inj {x y : Sexp} (hx : Readable x) (hy : Readable y) : x.text = y.text ↔ x = y := by
  constructor
  · intro h
    have happend : x.text.toList ++ [] = y.text.toList ++ [] := by rw [h]
    exact (text_append_inj hx hy endsAtom_nil endsAtom_nil happend).1
  · exact congrArg text

end Sexp

end Hil
