import CacheAudit.Json.Raw

/-!
# Reading the JSON grammar

A document is read from characters, with `none` in the place of bytes that are no text; those
are allowed inside strings only. The reader answers the document as written, or nothing: the
wording of a complaint is left to the caller.
-/

namespace CacheAudit.Json

/-- Characters of a document, `none` standing for bytes that are no text. -/
abbrev Source := List (Option Char)

/-- White space between the parts of a document. -/
def isSpace : Option Char → Bool
  | some c => c = ' ' || c = '\t' || c = '\n' || c = '\r'
  | none => false

/-- The source after the white space at its beginning. -/
def skip (input : Source) : Source :=
  input.dropWhile isSpace

/-- The rest of the source after a given word. -/
def word? : List Char → Source → Option Source
  | [], rest => some rest
  | c :: word, some d :: rest => if c = d then word? word rest else none
  | _ :: _, _ => none

/-- The digits at the beginning of a source. -/
def digits (input : Source) : List Char × Source :=
  let isDigit : Option Char → Bool := fun c => c.any Decimal.isDigit
  ((input.takeWhile isDigit).filterMap id, input.dropWhile isDigit)

/-- An optional point with at least one digit after it. -/
def decimals? (input : Source) : Option (List Char × Source) :=
  match input with
  | some '.' :: rest =>
    let (found, rest) := digits rest
    if found.isEmpty then none else some (found, rest)
  | _ => some ([], input)

/-- An optional exponent. -/
def exponent? (input : Source) : Option (Option (Bool × List Char) × Source) :=
  match input with
  | some c :: rest =>
    if c = 'e' ∨ c = 'E' then
      let (negative, rest) : Bool × Source := match rest with
        | some '-' :: rest => (true, rest)
        | some '+' :: rest => (false, rest)
        | _ => (false, rest)
      let (found, rest) := digits rest
      if found.isEmpty then none else some (some (negative, found), rest)
    else some (none, input)
  | _ => some (none, input)

/-- A number without its sign. A zero is not followed by another digit before the point. -/
def numeral? (negative : Bool) (input : Source) : Option (Numeral × Source) :=
  let (whole, rest) := digits input
  if whole.isEmpty ∨ (whole.head? = some '0' ∧ 1 < whole.length) then none
  else
    match decimals? rest with
    | none => none
    | some (decimals, rest) =>
      match exponent? rest with
      | none => none
      | some (exponent, rest) => some (⟨negative, whole, decimals, exponent⟩, rest)

/-- The value of a hexadecimal digit in either case. -/
def hexValue? (c : Char) : Option Nat :=
  if '0' ≤ c ∧ c ≤ '9' then some (c.toNat - 48)
  else if 'a' ≤ c ∧ c ≤ 'f' then some (c.toNat - 87)
  else if 'A' ≤ c ∧ c ≤ 'F' then some (c.toNat - 55)
  else none

/-- The unit written by four hexadecimal digits. -/
def unitValue? (a b c d : Char) : Option Nat :=
  match hexValue? a, hexValue? b, hexValue? c, hexValue? d with
  | some a, some b, some c, some d => some (((a * 16 + b) * 16 + c) * 16 + d)
  | _, _, _, _ => none

/-- The character written by a backslash and a letter. -/
def shortEscape? (c : Char) : Option Char :=
  if c = '"' ∨ c = '\\' ∨ c = '/' then some c
  else if c = 'b' then some '\x08'
  else if c = 'f' then some '\x0c'
  else if c = 'n' then some '\n'
  else if c = 'r' then some '\r'
  else if c = 't' then some '\t'
  else none

/-- The pieces of a string after its opening quote and after the reversed `before`, and the
source after its closing quote. -/
def string? (before : List Piece) : Source → Option (List Piece × Source)
  | [] => none
  | none :: rest => string? (.damaged :: before) rest
  | some '"' :: rest => some (before.reverse, rest)
  | some '\\' :: some 'u' :: some a :: some b :: some c :: some d :: rest =>
    match unitValue? a b c d with
    | some n => string? (.unit n :: before) rest
    | none => none
  | some '\\' :: some c :: rest =>
    match shortEscape? c with
    | some e => string? (.char e :: before) rest
    | none => none
  | some c :: rest =>
    if c = '\\' ∨ c.toNat < 0x20 then none else string? (.char c :: before) rest

mutual

/-- A value after any white space, read with at most `fuel` nested calls. -/
def value? : Nat → Source → Option (Raw × Source)
  | 0, _ => none
  | fuel + 1, input =>
    match skip input with
    | some 'n' :: rest => (word? ['u', 'l', 'l'] rest).map fun r => (.null, r)
    | some 't' :: rest => (word? ['r', 'u', 'e'] rest).map fun r => (.bool true, r)
    | some 'f' :: rest => (word? ['a', 'l', 's', 'e'] rest).map fun r => (.bool false, r)
    | some '"' :: rest => (string? [] rest).map fun (s, r) => (.text s, r)
    | some '-' :: rest => (numeral? true rest).map fun (n, r) => (.number n, r)
    | some '[' :: rest =>
      match skip rest with
      | some ']' :: rest => some (.array [], rest)
      | rest => (items? fuel rest).map fun (vs, r) => (.array vs, r)
    | some '\x7b' :: rest =>
      match skip rest with
      | some '\x7d' :: rest => some (.object [], rest)
      | rest => (fields? fuel rest).map fun (fs, r) => (.object fs, r)
    | rest => (numeral? false rest).map fun (n, r) => (.number n, r)

/-- The items of an array up to its closing bracket. -/
def items? : Nat → Source → Option (List Raw × Source)
  | 0, _ => none
  | fuel + 1, input =>
    match value? fuel input with
    | none => none
    | some (v, rest) =>
      match skip rest with
      | some ',' :: rest => (items? fuel rest).map fun (vs, r) => (v :: vs, r)
      | some ']' :: rest => some ([v], rest)
      | _ => none

/-- The fields of an object up to its closing brace. -/
def fields? : Nat → Source → Option (List (List Piece × Raw) × Source)
  | 0, _ => none
  | fuel + 1, input =>
    match skip input with
    | some '"' :: rest =>
      match string? [] rest with
      | none => none
      | some (k, rest) =>
        match skip rest with
        | some ':' :: rest =>
          match value? fuel rest with
          | none => none
          | some (v, rest) =>
            match skip rest with
            | some ',' :: rest => (fields? fuel rest).map fun (fs, r) => ((k, v) :: fs, r)
            | some '\x7d' :: rest => some ([(k, v)], rest)
            | _ => none
        | _ => none
    | _ => none

end

/-- The document written by a source: one value with nothing but white space around it. -/
def parse? (input : Source) : Option Raw :=
  match value? (2 * input.length + 2) input with
  | some (v, rest) => if (skip rest).isEmpty then some v else none
  | none => none

/-- The document written by a string. -/
def ofString? (s : String) : Option Raw :=
  parse? (s.toList.map some)

end CacheAudit.Json
