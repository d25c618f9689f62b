import Hil.Proofs.Tree.Everywhere
import Hil.Tree.Text

/-!
# Trees that have a text

A literal has a JSON form exactly if the keys of all dictionaries in it are plain: text, numbers,
truth values or `none`. A tree has a text when all its literals have a JSON form.
-/

namespace Hil

namespace Literal

/-- A property of all literals follows from that of their parts. -/
@[elab_as_elim]
theorem induct {P : Literal → Prop} (none : P .none) (bool : ∀ b, P (.bool b))
    (int : ∀ i, P (.int i)) (float : ∀ x, P (.float x)) (str : ∀ s, P (.str s))
    (list : ∀ items, (∀ l ∈ items, P l) → P (.list items))
    (dict : ∀ entries, (∀ e ∈ entries, P e.2) → P (.dict entries))
    (foreign : ∀ text, P (.foreign text)) (l : Literal) : P l := by
  refine @Literal.rec P (fun ls ↦ ∀ l ∈ ls, P l) (fun es ↦ ∀ e ∈ es, P e.2) (fun e ↦ P e.2)
    none bool int float str list dict foreign ?_ ?_ ?_ ?_ ?_ l <;> simp_all

/-- A literal that can be a key in JSON. -/
def IsPlain : Literal → Prop
  | .list _ | .dict _ | .foreign _ => False
  | _ => True

/-- The keys of all dictionaries in the literal are plain. -/
inductive PlainKeys : Literal → Prop
  | none : PlainKeys .none
  | bool (b : Bool) : PlainKeys (.bool b)
  | int (i : Int) : PlainKeys (.int i)
  | float (x : Binary64) : PlainKeys (.float x)
  | str (s : Str) : PlainKeys (.str s)
  | list {items : List Literal} (below : ∀ l ∈ items, PlainKeys l) : PlainKeys (.list items)
  | dict {entries : List (Literal × Literal)} (keys : ∀ e ∈ entries, e.1.IsPlain)
      (below : ∀ e ∈ entries, PlainKeys e.2) : PlainKeys (.dict entries)
  | foreign (text : String) : PlainKeys (.foreign text)

private theorem isSome_jsonKey?_iff {l : Literal} : l.jsonKey?.isSome = true ↔ l.IsPlain := by
  cases l <;> simp [jsonKey?, IsPlain]

private theorem isSome_jsonItems?_iff {items : List Literal} :
    (jsonItems? items).isSome = true ↔ ∀ l ∈ items, l.json?.isSome = true := by
  induction items with
  | nil => simp [jsonItems?]
  | cons l items ih =>
    rw [List.forall_mem_cons, ← ih, jsonItems?]
    cases l.json? <;> cases jsonItems? items <;> simp

private theorem isSome_jsonEntries?_iff {entries : List (Literal × Literal)} :
    (jsonEntries? entries).isSome = true ↔
      ∀ e ∈ entries, e.1.IsPlain ∧ e.2.json?.isSome = true := by
  induction entries with
  | nil => simp [jsonEntries?]
  | cons e entries ih =>
    rw [List.forall_mem_cons, ← ih, jsonEntries?, ← isSome_jsonKey?_iff]
    cases e.1.jsonKey? <;> cases e.2.json? <;> cases jsonEntries? entries <;> simp

/-- A literal has a JSON form exactly if all keys in it are plain. -/
theorem isSome_json?_iff {l : Literal} : l.json?.isSome = true ↔ l.PlainKeys := by
  induction l using induct with
  | none => exact ⟨fun _ ↦ .none, fun _ ↦ rfl⟩
  | bool b => exact ⟨fun _ ↦ .bool b, fun _ ↦ rfl⟩
  | int i => exact ⟨fun _ ↦ .int i, fun _ ↦ rfl⟩
  | float x => exact ⟨fun _ ↦ .float x, fun _ ↦ rfl⟩
  | str s => exact ⟨fun _ ↦ .str s, fun _ ↦ rfl⟩
  | foreign text => exact ⟨fun _ ↦ .foreign text, fun _ ↦ rfl⟩
  | list items ih =>
    have hjson : (json? (.list items)).isSome = true ↔ ∀ l ∈ items, l.PlainKeys := by
      rw [← forall₂_congr ih, ← isSome_jsonItems?_iff, json?]
      cases jsonItems? items <;> simp
    rw [hjson]
    exact ⟨.list, fun h ↦ by cases h with | list below => exact below⟩
  | dict entries ih =>
    have hjson : (json? (.dict entries)).isSome = true ↔
        ∀ e ∈ entries, e.1.IsPlain ∧ e.2.PlainKeys := by
      rw [forall₂_congr fun e he ↦ and_congr_right fun _ ↦ (ih e he).symm,
        ← isSome_jsonEntries?_iff, json?]
      cases jsonEntries? entries <;> simp
    rw [hjson]
    constructor
    · exact fun h ↦ .dict (fun e he ↦ (h e he).1) fun e he ↦ (h e he).2
    · intro h e he
      cases h with
      | dict keys below => exact ⟨keys e he, below e he⟩

end Literal

/-- Results that are all there are collected in their places. -/
theorem Shape.sequence_map_some {α : Type} (s : Shape α) :
    (s.mapChildren some).sequence = some s := by
  have hlist (xs : List α) : (xs.map some).mapM id = some xs := by
    rw [List.mapM_map]
    exact (List.mapM_pure (m := Option) (f := id)).trans (by simp)
  have hentries (es : List (Str × α)) :
      ((es.map fun e ↦ (e.1, some e.2)).mapM fun e ↦ do return (e.1, ← e.2)) = some es := by
    rw [List.mapM_map]
    exact (List.mapM_pure (m := Option) (f := id)).trans (by simp)
  cases s with
  | map entries => simp only [mapChildren, sequence, hentries]; rfl
  | _ => simp [mapChildren, sequence, hlist]

/-- A node has a text, of the texts of its children, if its literal has a JSON form. -/
theorem Shape.isSome_sexpr? {withTypes : Bool} {info : NodeInfo} {s : Shape String}
    (h : ∀ v ∈ s.literal?, v.json?.isSome = true) : (s.sexpr? withTypes info).isSome = true := by
  cases s with
  | literal type value => simpa [sexpr?] using h value rfl
  | _ => rfl

namespace Tree

/-- A tree has a text if all its literals have a JSON form. -/
theorem isSome_sexpr? {withTypes : Bool} {t : Tree}
    (h : t.Everywhere fun _ shape ↦ ∀ v ∈ shape.literal?, v.json?.isSome = true) :
    (t.sexpr? withTypes).isSome = true := by
  induction h with
  | @node info shape here _ ih =>
    have htexts : shape.mapChildren (sexpr? withTypes) =
        (shape.mapChildren fun t ↦ (t.sexpr? withTypes).getD "").mapChildren some := by
      rw [Shape.mapChildren_mapChildren]
      apply Shape.mapChildren_congr
      intro t ht
      obtain ⟨text, htext⟩ := Option.isSome_iff_exists.mp (ih t ht)
      simp [htext]
    rw [sexpr?, fold_node, ← sexpr?, htexts, Shape.sequence_map_some]
    apply Shape.isSome_sexpr?
    cases shape <;> exact here

end Tree

end Hil
