import CacheAudit.Json.Reading
import CacheAudit.Proofs.Decimal.Digits

/-!
# Strings and integers are read as they were written

A quoted string is read piece by piece: a character stands for itself or for its escape, and a
control character without an escape of its own is written as its number. An integer is read up to
the first character that does not belong to a number.
-/

namespace CacheAudit.Json

open Decimal (digitsOf)

/-! ### Strings -/

/-- The piece that a character is written as. -/
def Piece.ofChar (c : Char) : Piece :=
  if c.toNat < 0x20 ∧ c ∉ ['\x08', '\x0c', '\n', '\r', '\t'] then .unit c.toNat else .char c

/-- The pieces that a text is written as. -/
def Piece.ofText (s : String) : List Piece :=
  s.toList.map ofChar

theorem hexValue?_digitChar {n : Nat} (h : n < 16) : hexValue? n.digitChar = some n := by
  have hall : ∀ n < 16, hexValue? n.digitChar = some n := by decide
  exact hall n h

theorem unitValue?_digitChars {n : Nat} (h : n < 0x20) :
    unitValue? '0' '0' (n / 16).digitChar (n % 16).digitChar = some n := by
  have hzero : hexValue? '0' = some 0 := by decide
  have hvalue : ((0 * 16 + 0) * 16 + n / 16) * 16 + n % 16 = n := by omega
  simp only [unitValue?, hzero, hexValue?_digitChar (n := n / 16) (by omega),
    hexValue?_digitChar (n := n % 16) (by omega), hvalue]

/-- A character is read back from its escape, or from itself. -/
theorem string?_escapeChar (before : List Piece) (c : Char) (rest : Source) :
    string? before ((escapeChar c).map some ++ rest) =
      string? (Piece.ofChar c :: before) rest := by
  unfold escapeChar
  split
  · subst c
    simp [string?, shortEscape?, Piece.ofChar]
  split
  · subst c
    simp [string?, shortEscape?, Piece.ofChar]
  split
  · subst c
    simp [string?, shortEscape?, Piece.ofChar]
  split
  · subst c
    simp [string?, shortEscape?, Piece.ofChar]
  split
  · subst c
    simp [string?, shortEscape?, Piece.ofChar]
  split
  · subst c
    simp [string?, shortEscape?, Piece.ofChar]
  split
  · subst c
    simp [string?, shortEscape?, Piece.ofChar]
  split
  · rename_i hquote hback hb hf hn hr ht hcontrol
    have hpiece : Piece.ofChar c = .unit c.toNat := by
      simp [Piece.ofChar, hcontrol, hb, hf, hn, hr, ht]
    simp [string?, unitValue?_digitChars hcontrol, hpiece]
  · rename_i hquote hback hb hf hn hr ht hcontrol
    have hpiece : Piece.ofChar c = .char c := by
      simp [Piece.ofChar, hcontrol]
    rw [List.map_singleton, List.singleton_append, string?]
    · simp [hback, hcontrol, hpiece]
    all_goals simp_all

theorem string?_escaped (before : List Piece) (text : List Char) (rest : Source) :
    string? before ((text.flatMap escapeChar).map some ++ some '"' :: rest) =
      some (before.reverse ++ text.map Piece.ofChar, rest) := by
  induction text generalizing before with
  | nil => simp [string?]
  | cons c text ih =>
    rw [List.flatMap_cons, List.map_append, List.append_assoc, string?_escapeChar, ih]
    simp

/-- A quoted string is read up to its closing quote. -/
theorem string?_quote (s : String) (rest : Source) :
    string? [] ((s.toList.flatMap escapeChar ++ ['"']).map some ++ rest) =
      some (Piece.ofText s, rest) := by
  rw [List.map_append, List.append_assoc]
  exact string?_escaped [] s.toList rest

/-- A unit below the surrogates is a character by itself. -/
theorem Piece.textFrom_unit {n : Nat} (h : n < 0xD800) (before : List Char) (rest : List Piece) :
    textFrom before (.unit n :: rest) = textFrom (Char.ofNat n :: before) rest := by
  by_cases hunit : ∃ m more, rest = .unit m :: more
  · obtain ⟨m, more, rfl⟩ := hunit
    rw [textFrom, if_pos (.inl h)]
  · rw [textFrom, if_pos (.inl h)]
    exact fun m more heq => hunit ⟨m, more, heq⟩

theorem Piece.textFrom_ofChar (before text : List Char) :
    textFrom before (text.map ofChar) = some (before.reverse ++ text) := by
  induction text generalizing before with
  | nil => simp [textFrom]
  | cons c text ih =>
    rw [List.map_cons]
    by_cases hunit : c.toNat < 0x20 ∧ c ∉ ['\x08', '\x0c', '\n', '\r', '\t']
    · rw [ofChar, if_pos hunit, textFrom_unit (by omega), ih, Char.ofNat_toNat]
      simp
    · rw [ofChar, if_neg hunit, textFrom, ih]
      simp

/-- Reading the pieces of a text gives the text back. -/
theorem Piece.text?_ofText (s : String) : text? (ofText s) = some s := by
  rw [text?, ofText, textFrom_ofChar]
  simp

/-! ### Integers -/

/-- An integer as it is written. -/
def Numeral.ofInt (n : Int) : Numeral :=
  ⟨n < 0, digitsOf n.natAbs, [], none⟩

/-- A source that does not go on with a number. -/
def Ends (rest : Source) : Prop :=
  ∀ c, rest.head? = some (some c) → Decimal.isDigit c = false ∧ c ≠ '.' ∧ c ≠ 'e' ∧ c ≠ 'E'

theorem ends_nil : Ends [] := by
  rintro c ⟨⟩

theorem ends_cons {c : Char} (h : Decimal.isDigit c = false ∧ c ≠ '.' ∧ c ≠ 'e' ∧ c ≠ 'E')
    (rest : Source) : Ends (some c :: rest) := by
  rintro c' ⟨⟩
  exact h

theorem digits_append {ds : List Char} (hds : ∀ c ∈ ds, Decimal.isDigit c = true) {rest : Source}
    (hrest : Ends rest) : digits (ds.map some ++ rest) = (ds, rest) := by
  induction ds with
  | nil =>
    cases rest with
    | nil => rfl
    | cons c rest =>
      cases c with
      | none => simp [digits]
      | some c => simp [digits, (hrest c rfl).1]
  | cons d ds ih =>
    have hd := hds d List.mem_cons_self
    have hrec := ih fun c hc => hds c (List.mem_cons_of_mem d hc)
    have hstep : digits (some d :: (ds.map some ++ rest)) =
        (d :: (digits (ds.map some ++ rest)).1, (digits (ds.map some ++ rest)).2) := by
      simp [digits, hd]
    rw [List.map_cons, List.cons_append, hstep, hrec]

theorem decimals?_of_ends {rest : Source} (h : Ends rest) : decimals? rest = some ([], rest) := by
  cases rest with
  | nil => rfl
  | cons c rest =>
    cases c with
    | none => rfl
    | some c =>
      unfold decimals?
      split
      · rename_i heq
        cases heq
        exact absurd rfl (h '.' rfl).2.1
      · rfl

theorem exponent?_of_ends {rest : Source} (h : Ends rest) : exponent? rest = some (none, rest) := by
  cases rest with
  | nil => rfl
  | cons c rest =>
    cases c with
    | none => rfl
    | some c => simp [exponent?, (h c rfl).2.2]

/-- The digits of a number are read up to the end of the number. -/
theorem numeral?_digitsOf (negative : Bool) (n : Nat) {rest : Source} (h : Ends rest) :
    numeral? negative ((digitsOf n).map some ++ rest) =
      some (⟨negative, digitsOf n, [], none⟩, rest) := by
  have hshape : ¬((digitsOf n).isEmpty = true ∨
      ((digitsOf n).head? = some '0' ∧ 1 < (digitsOf n).length)) := by
    rintro (hempty | ⟨hzero, hlength⟩)
    · exact Decimal.digitsOf_ne_nil n (List.isEmpty_iff.1 hempty)
    · by_cases hn : n = 0
      · subst hn
        exact absurd hlength (by decide)
      · exact Decimal.head?_digitsOf_ne (by omega) hzero
  simp only [numeral?, digits_append (fun c hc => Decimal.isDigit_digitsOf hc) h,
    decimals?_of_ends h, exponent?_of_ends h, if_neg hshape]

theorem Numeral.unsigned?_ofInt {n : Nat} (h : n < 2 ^ 64) : (ofInt n).unsigned? = some n := by
  have hmagnitude : (ofInt n).magnitude = n := by
    simp [magnitude, ofInt, Decimal.digitsValue_digitsOf]
  have hsign : (ofInt n).negative = false := by
    simp [ofInt]
  have hinteger : (ofInt n).isInteger = true := rfl
  have hbound : n < Nat.pow 2 64 := h
  simp [unsigned?, hmagnitude, hsign, hinteger, hbound]

end CacheAudit.Json
