import Hil.Text.Json

/-!
# JSON strings are prefix-free

A code unit of a JSON string can be read off the front of what follows, whether it stands for itself
or is escaped. So a JSON string ends where it ends, whatever comes after it, and determines the code
units of its text. Texts of characters are determined by their code units; other texts are not,
since the two surrogates of a character are written as the character is.
-/

namespace Hil

/-! ### Code units -/

namespace Point

/-- A code unit takes two bytes. -/
theorem lt_of_mem_units {p : Point} {n : Nat} (h : n ∈ p.units) : n < 0x10000 := by
  cases p with
  | char c =>
    have hvalid : c.toNat < 0xd800 ∨ 0xdfff < c.toNat ∧ c.toNat < 0x110000 := c.valid
    simp only [units] at h
    split at h
    · rw [List.mem_singleton.mp h]
      assumption
    · simp only [List.mem_cons, List.not_mem_nil, or_false] at h
      omega
  | surrogate offset =>
    rw [List.mem_singleton.mp h]
    omega

/-- The character that code units begin with, and the units after it. -/
private def readChar? : List Nat → Option (Char × List Nat)
  | high :: low :: rest =>
    if 0xd800 ≤ high ∧ high < 0xdc00 then
      some (Char.ofNat (0x10000 + (high - 0xd800) * 0x400 + (low - 0xdc00)), rest)
    else some (Char.ofNat high, low :: rest)
  | [unit] => some (Char.ofNat unit, [])
  | [] => none

private theorem readChar?_units (c : Char) (rest : List Nat) :
    readChar? ((char c).units ++ rest) = some (c, rest) := by
  have hvalid : c.toNat < 0xd800 ∨ 0xdfff < c.toNat ∧ c.toNat < 0x110000 := c.valid
  have hself : Char.ofNat c.toNat = c := Char.ofNat_toNat c
  simp only [units]
  split
  · have hplain : ¬ (0xd800 ≤ c.toNat ∧ c.toNat < 0xdc00) := by omega
    cases rest with
    | nil => simp [readChar?, hself]
    | cons unit rest =>
      simp only [List.cons_append, List.nil_append, readChar?, if_neg hplain, hself]
  · have hpair : 0x10000 + (0xd800 + (c.toNat - 0x10000) / 0x400 - 0xd800) * 0x400 +
        (0xdc00 + (c.toNat - 0x10000) % 0x400 - 0xdc00) = c.toNat := by omega
    rw [List.cons_append, List.singleton_append, readChar?, if_pos (by omega), hpair, hself]

end Point

namespace Str

/-- Texts of characters are equal exactly if their code units are. -/
theorem units_ofString_inj {s s' : String} : (ofString s).units = (ofString s').units ↔ s = s' := by
  refine ⟨fun h ↦ String.toList_inj.mp ?_, congrArg fun s ↦ (ofString s).units⟩
  have hlists (cs cs' : List Char) (h : (cs.map Point.char).flatMap Point.units =
      (cs'.map Point.char).flatMap Point.units) : cs = cs' := by
    induction cs generalizing cs' with
    | nil =>
      cases cs' with
      | nil => rfl
      | cons c' cs' =>
        have hread := Point.readChar?_units c' ((cs'.map Point.char).flatMap Point.units)
        rw [← List.flatMap_cons, ← List.map_cons, ← h] at hread
        cases hread
    | cons c cs ih =>
      have hread := Point.readChar?_units c ((cs.map Point.char).flatMap Point.units)
      rw [← List.flatMap_cons, ← List.map_cons, h] at hread
      cases cs' with
      | nil => cases hread
      | cons c' cs' =>
        rw [List.map_cons, List.flatMap_cons, Point.readChar?_units] at hread
        obtain ⟨rfl, hrest⟩ := Prod.mk.inj (Option.some.inj hread)
        rw [ih cs' hrest.symm]
  exact hlists _ _ h

end Str

namespace Text

/-! ### Hexadecimal numbers -/

/-- The value of a lower-case hexadecimal digit. -/
def hexDigitValue (c : Char) : Nat := if c.isDigit then c.toNat - 48 else c.toNat - 87

/-- The value of a run of hexadecimal digits. -/
def hexValue (ds : List Char) : Nat := ds.foldl (fun n c ↦ n * 16 + hexDigitValue c) 0

private theorem hexDigitValue_digitChar {n : Nat} (h : n < 16) :
    hexDigitValue (Nat.digitChar n) = n := by
  have hall : ∀ n < 16, hexDigitValue (Nat.digitChar n) = n := by decide
  exact hall n h

/-- Hexadecimal text of a fixed width holds the number up to its last digits. -/
theorem hexValue_hexDigits (width n : Nat) :
    hexValue (hexDigits width n) = n % Nat.pow 16 width := by
  induction width generalizing n with
  | zero => exact (Nat.mod_one n).symm
  | succ width ih =>
    have hmod : n % Nat.pow 16 (width + 1) = n / 16 % Nat.pow 16 width * 16 + n % 16 := by
      have hpow : Nat.pow 16 (width + 1) = 16 * Nat.pow 16 width := Nat.mul_comm _ _
      rw [hpow, Nat.mod_mul]
      omega
    rw [hmod, ← ih, hexDigits, hexValue, List.foldl_append, ← hexValue, List.foldl_cons,
      List.foldl_nil, hexDigitValue_digitChar (Nat.mod_lt _ (by decide))]

/-! ### Escapes -/

/-- The first code unit of the contents of a JSON string, and what follows it. -/
def readJsonUnit? : List Char → Option (Nat × List Char)
  | '\\' :: 'u' :: a :: b :: c :: d :: rest => some (hexValue [a, b, c, d], rest)
  | '\\' :: 'n' :: rest => some ('\n'.toNat, rest)
  | '\\' :: 'r' :: rest => some ('\r'.toNat, rest)
  | '\\' :: 't' :: rest => some ('\t'.toNat, rest)
  | '\\' :: 'b' :: rest => some (0x08, rest)
  | '\\' :: 'f' :: rest => some (0x0c, rest)
  | '\\' :: c :: rest => some (c.toNat, rest)
  | c :: rest => some (c.toNat, rest)
  | [] => none

private theorem readJsonUnit?_unitEscape {n : Nat} (h : n < 0x10000) (rest : List Char) :
    readJsonUnit? (unitEscape n ++ rest) = some (n, rest) := by
  have hvalue : hexValue (hexDigits 4 n) = n :=
    (hexValue_hexDigits 4 n).trans (Nat.mod_eq_of_lt h)
  exact congrArg (fun n ↦ some (n, rest)) hvalue

/-- A code unit is read back from its JSON form. -/
theorem readJsonUnit?_jsonUnit {n : Nat} (h : n < 0x10000) (rest : List Char) :
    readJsonUnit? (jsonUnit n ++ rest) = some (n, rest) := by
  unfold jsonUnit
  split
  next hn => exact hn ▸ rfl
  split
  next hn => exact hn ▸ rfl
  split
  next hn => exact hn ▸ rfl
  split
  next hn => exact hn ▸ rfl
  split
  next hn => exact hn ▸ rfl
  split
  next hn => exact hn ▸ rfl
  split
  next hn => exact hn ▸ rfl
  next hbackslash _ _ _ _ _ =>
    split
    next hascii =>
      have hn : (Char.ofNat n).toNat = n := by
        have hvalid : n.isValidChar := .inl (by omega)
        rw [Char.ofNat, dif_pos hvalid]
        rfl
      have hc : Char.ofNat n ≠ '\\' := by
        intro hc
        exact hbackslash (by rw [← hn, hc])
      rw [List.singleton_append, readJsonUnit?.eq_def]
      split <;> simp_all
    · exact readJsonUnit?_unitEscape h rest

/-! ### Strings -/

private theorem jsonUnits_append_inj {ns ns' : List Nat} (hns : ∀ n ∈ ns, n < 0x10000)
    (hns' : ∀ n ∈ ns', n < 0x10000) {r r' : List Char}
    (h : ns.flatMap jsonUnit ++ '"' :: r = ns'.flatMap jsonUnit ++ '"' :: r') :
    ns = ns' ∧ r = r' := by
  have hquote {n : Nat} (hn : n < 0x10000) (t r : List Char) : '"' :: r ≠ jsonUnit n ++ t := by
    intro h
    have hread := readJsonUnit?_jsonUnit hn t
    rw [← h] at hread
    obtain ⟨rfl, -⟩ := Prod.mk.inj (Option.some.inj hread)
    cases h
  induction ns generalizing ns' with
  | nil =>
    cases ns' with
    | nil => exact ⟨rfl, (List.cons.inj h).2⟩
    | cons n' ns' =>
      exact absurd (by simpa using h)
        (hquote (hns' n' List.mem_cons_self) (ns'.flatMap jsonUnit ++ '"' :: r') r)
  | cons n ns ih =>
    have hn := hns n List.mem_cons_self
    cases ns' with
    | nil => exact absurd (by simpa using h.symm) (hquote hn (ns.flatMap jsonUnit ++ '"' :: r) r')
    | cons n' ns' =>
      rw [List.forall_mem_cons] at hns hns'
      simp only [List.flatMap_cons, List.append_assoc] at h
      have hread := congrArg readJsonUnit? h
      rw [readJsonUnit?_jsonUnit hn, readJsonUnit?_jsonUnit hns'.1] at hread
      obtain ⟨rfl, hrest⟩ := Prod.mk.inj (Option.some.inj hread)
      obtain ⟨rfl, hr⟩ := ih hns.2 hns'.2 hrest
      exact ⟨rfl, hr⟩

variable {s s' : Str} {r r' : List Char}

/-- A JSON string ends at its closing quote, and determines the code units of its text. -/
theorem jsonString_append_inj (h : (jsonString s).toList ++ r = (jsonString s').toList ++ r') :
    s.units = s'.units ∧ r = r' := by
  have hunits (s : Str) (n : Nat) (hn : n ∈ s.units) : n < 0x10000 := by
    obtain ⟨p, -, hp⟩ := List.mem_flatMap.mp hn
    exact Point.lt_of_mem_units hp
  simp only [jsonString, String.toList_ofList, List.cons_append, List.append_assoc,
    List.cons.injEq, true_and] at h
  exact jsonUnits_append_inj (hunits s) (hunits s') h

/-- Texts have the same JSON string exactly if they have the same code units. -/
theorem jsonString_inj : jsonString s = jsonString s' ↔ s.units = s'.units := by
  constructor
  · intro h
    have happend : (jsonString s).toList ++ [] = (jsonString s').toList ++ [] := by rw [h]
    exact (jsonString_append_inj happend).1
  · intro h
    rw [jsonString, jsonString, h]

/-- A JSON string begins with a quote. -/
theorem exists_toList_jsonString (s : Str) : ∃ r, (jsonString s).toList = '"' :: r :=
  ⟨_, String.toList_ofList⟩

end Text

end Hil
