/-!
# Byte strings

File contents and file names are lists of bytes. This file fixes the type and the lower-case
hexadecimal spelling in which digests are recorded, from which the bytes can be told.
-/

namespace CacheAudit

/-- The content of a file, or a name in the file system. -/
abbrev Bytes := List UInt8

namespace Bytes

/-- The lower-case hexadecimal digit of a number below sixteen. -/
def hexDigit (n : Nat) : Char :=
  if n < 10 then Char.ofNat (48 + n) else Char.ofNat (87 + n)

/-- Two lower-case hexadecimal digits for each byte. -/
def hexChars (bytes : Bytes) : List Char :=
  bytes.flatMap fun b => [hexDigit (b.toNat / 16), hexDigit (b.toNat % 16)]

/-- The hexadecimal spelling as a string. -/
def hex (bytes : Bytes) : String :=
  String.ofList bytes.hexChars

/-- The lower-case hexadecimal digits, each at the number that it stands for. -/
def hexAlphabet : List Char :=
  "0123456789abcdef".toList

/-- A text spells bytes: it has two digits for each, the more significant one first. -/
inductive SpelledBy : Bytes → List Char → Prop
  | nil : SpelledBy [] []
  | cons {b : UInt8} {bytes : Bytes} {high low : Char} {chars : List Char}
    (hhigh : hexAlphabet[b.toNat / 16]? = some high) (hlow : hexAlphabet[b.toNat % 16]? = some low)
    (hrest : SpelledBy bytes chars) : SpelledBy (b :: bytes) (high :: low :: chars)

theorem hexAlphabet_getElem? {n : Nat} (h : n < 16) : hexAlphabet[n]? = some (hexDigit n) := by
  have hall : ∀ n : Fin 16, hexAlphabet[n.val]? = some (hexDigit n) := by decide
  exact hall ⟨n, h⟩

/-- Different numbers have different digits. -/
theorem eq_of_hexDigit_eq {m n : Nat} (hm : m < 16) (hn : n < 16) (h : hexDigit m = hexDigit n) :
    m = n := by
  have hall : ∀ m n : Fin 16, hexDigit m = hexDigit n → m = n := by decide
  exact congrArg Fin.val (hall ⟨m, hm⟩ ⟨n, hn⟩ h)

theorem hexChars_cons (b : UInt8) (bytes : Bytes) : hexChars (b :: bytes) =
    hexDigit (b.toNat / 16) :: hexDigit (b.toNat % 16) :: bytes.hexChars :=
  rfl

/-- The halves of a byte are below sixteen. -/
theorem half_lt (b : UInt8) : b.toNat / 16 < 16 ∧ b.toNat % 16 < 16 := by
  have hb : b.toNat < 256 := b.toNat_lt
  omega

/-- The hexadecimal spelling is the one text that spells the bytes. -/
theorem spelledBy_iff {bytes : Bytes} {chars : List Char} :
    bytes.SpelledBy chars ↔ chars = bytes.hexChars := by
  constructor
  · intro h
    induction h with
    | nil => rfl
    | @cons b bytes high low chars hhigh hlow _ ih =>
      rw [hexAlphabet_getElem? (half_lt b).1] at hhigh
      rw [hexAlphabet_getElem? (half_lt b).2] at hlow
      cases hhigh
      cases hlow
      rw [hexChars_cons, ih]
  · rintro rfl
    induction bytes with
    | nil => exact .nil
    | cons b bytes ih =>
      exact .cons (hexAlphabet_getElem? (half_lt b).1) (hexAlphabet_getElem? (half_lt b).2) ih

/-- Different byte strings have different spellings. -/
theorem hexChars_injective {bytes bytes' : Bytes} (h : bytes.hexChars = bytes'.hexChars) :
    bytes = bytes' := by
  induction bytes generalizing bytes' with
  | nil =>
    cases bytes' with
    | nil => rfl
    | cons b' bytes' => cases h
  | cons b bytes ih =>
    cases bytes' with
    | nil => cases h
    | cons b' bytes' =>
      rw [hexChars_cons, hexChars_cons, List.cons.injEq, List.cons.injEq] at h
      obtain ⟨hhigh, hlow, hrest⟩ := h
      have hdiv := eq_of_hexDigit_eq (half_lt b).1 (half_lt b').1 hhigh
      have hmod := eq_of_hexDigit_eq (half_lt b).2 (half_lt b').2 hlow
      have hbyte : b = b' := UInt8.toNat_inj.1 (by omega)
      rw [hbyte, ih hrest]

/-- The bytes can be told from their spelling. -/
theorem spelledBy_hex_iff {bytes bytes' : Bytes} :
    bytes'.SpelledBy bytes.hex.toList ↔ bytes' = bytes := by
  rw [spelledBy_iff, hex, String.toList_ofList]
  exact ⟨fun h => (hexChars_injective h).symm, fun h => h ▸ rfl⟩

end Bytes

end CacheAudit
