import CacheAudit.Json.Parser
import CacheAudit.Ordered.Set

/-!
# Settings files

A settings file is a TOML document that assigns a text, an integer or a truth value to each of
its keys. No setting is anything else, so documents with tables, arrays, dates, fractions or
dotted keys are refused together with those that break the grammar.
-/

namespace CacheAudit.Toml

/-- The value of a setting. -/
inductive Scalar
  | text (s : String)
  | integer (n : Int)
  | bool (b : Bool)
deriving DecidableEq

/-- Spaces and tabs. -/
def isSpace (c : Char) : Bool :=
  c = ' ' || c = '\t'

/-- A text without the spaces and tabs at its beginning. -/
def skipSpace (input : List Char) : List Char :=
  input.dropWhile isSpace

/-- Characters of a comment. -/
def isCommentChar (c : Char) : Bool :=
  c = '\t' || 0x20 ≤ c.toNat

/-- The text after a line break at its beginning. -/
def newline? : List Char → Option (List Char)
  | '\n' :: rest => some rest
  | '\r' :: '\n' :: rest => some rest
  | _ => none

/-- The text after the end of a line: spaces, a comment, and a line break or the end. -/
def lineEnd? (input : List Char) : Option (List Char) :=
  let rest := match skipSpace input with
    | '#' :: rest => rest.dropWhile isCommentChar
    | rest => rest
  if rest.isEmpty then some [] else newline? rest

/-- Characters of a key without quotes. -/
def isBareChar (c : Char) : Bool :=
  c.isAlphanum || c = '-' || c = '_'

/-- Characters that stand for themselves in a string on one line. -/
def isPlainChar (c : Char) : Bool :=
  c = '\t' || (0x20 ≤ c.toNat && c.toNat != 0x7F)

/-- The character with a given number, unless it is a surrogate or too large. -/
def scalar? (n : Nat) : Option Char :=
  if n.isValidChar then some (Char.ofNat n) else none

/-- The value of hexadecimal digits, all of which must be given. -/
def hexNumber? (digits : List Char) (width : Nat) : Option Nat :=
  if digits.length = width then
    digits.foldl (fun n c => match n, Json.hexValue? c with
      | some n, some d => some (n * 16 + d)
      | _, _ => none) (some 0)
  else none

/-- The character of an escape after its backslash, and the number of characters it takes. -/
def escape? (input : List Char) : Option (Char × Nat) :=
  match input with
  | 'b' :: _ => some ('\x08', 1)
  | 't' :: _ => some ('\t', 1)
  | 'n' :: _ => some ('\n', 1)
  | 'f' :: _ => some ('\x0c', 1)
  | 'r' :: _ => some ('\r', 1)
  | '"' :: _ => some ('"', 1)
  | '\\' :: _ => some ('\\', 1)
  | 'u' :: rest => ((hexNumber? (rest.take 4) 4).bind scalar?).map fun c => (c, 5)
  | 'U' :: rest => ((hexNumber? (rest.take 8) 8).bind scalar?).map fun c => (c, 9)
  | _ => none

/-- The text after a backslash at the end of a line: the break, and all blanks and breaks that
follow it. -/
def continuation? (input : List Char) : Option (List Char) :=
  let rec blanks (fuel : Nat) (input : List Char) : List Char :=
    match fuel with
    | 0 => input
    | fuel + 1 =>
      match newline? (skipSpace input) with
      | some rest => blanks fuel rest
      | none => skipSpace input
  match newline? (skipSpace input) with
  | some rest => some (blanks input.length rest)
  | none => none

/-- The rest of a string with escapes on one line, after the reversed `before`. -/
def basic? (before : List Char) (input : List Char) : Nat → Option (String × List Char)
  | 0 => none
  | fuel + 1 =>
    match input with
    | '"' :: rest => some (String.ofList before.reverse, rest)
    | '\\' :: rest =>
      match escape? rest with
      | some (c, width) => basic? (c :: before) (rest.drop width) fuel
      | none => none
    | c :: rest => if isPlainChar c then basic? (c :: before) rest fuel else none
    | [] => none

/-- The rest of a string without escapes on one line, after the reversed `before`. -/
def literal? (before : List Char) : List Char → Option (String × List Char)
  | [] => none
  | c :: rest =>
    if c = '\'' then some (String.ofList before.reverse, rest)
    else if isPlainChar c then literal? (c :: before) rest
    else none

/-- The end of a string over several lines, which closes with three quotes: up to two more quotes
before them belong to the string. Answers those and the rest of the text. -/
def closing? (quote : Char) (input : List Char) : Option (List Char × List Char) :=
  let n := min 5 (input.takeWhile (· == quote)).length
  if n < 3 then none else some (List.replicate (n - 3) quote, input.drop n)

/-- The rest of a string over several lines, after the reversed `before`. Escapes count when the
quotes are double. -/
def multiline? (quote : Char) (before : List Char) (input : List Char) :
    Nat → Option (String × List Char)
  | 0 => none
  | fuel + 1 =>
    match closing? quote input with
    | some (quotes, rest) => some (String.ofList (before.reverse ++ quotes), rest)
    | none =>
      match newline? input with
      | some rest => multiline? quote ('\n' :: before) rest fuel
      | none =>
        match input with
        | [] => none
        | c :: rest =>
          if c = '\\' ∧ quote = '"' then
            match escape? rest, continuation? rest with
            | some (e, width), _ => multiline? quote (e :: before) (rest.drop width) fuel
            | none, some rest => multiline? quote before rest fuel
            | none, none => none
          else if isPlainChar c then multiline? quote (c :: before) rest fuel
          else none

/-- A string in any of the four kinds of quotes. -/
def string? (input : List Char) : Option (String × List Char) :=
  let body (rest : List Char) : List Char := (newline? rest).getD rest
  match input with
  | '"' :: '"' :: '"' :: rest => multiline? '"' [] (body rest) (input.length + 1)
  | '\'' :: '\'' :: '\'' :: rest => multiline? '\'' [] (body rest) (input.length + 1)
  | '"' :: rest => basic? [] rest (input.length + 1)
  | '\'' :: rest => literal? [] rest
  | _ => none

/-- Digits with single underscores between them. -/
def grouped? (isDigit : Char → Bool) : List Char → Option (List Char)
  | [] => none
  | [c] => if isDigit c then some [c] else none
  | c :: '_' :: rest => if isDigit c then (grouped? isDigit rest).map (c :: ·) else none
  | c :: rest => if isDigit c then (grouped? isDigit rest).map (c :: ·) else none

/-- The value of digits with underscores in a given base. -/
def inBase? (base : Nat) (digits : List Char) : Option Nat :=
  let value (c : Char) : Nat := (Json.hexValue? c).getD base
  (grouped? (fun c => value c < base) digits).map fun ds =>
    ds.foldl (fun n c => n * base + value c) 0

/-- An integer: decimal with an optional sign and no leading zero, or hexadecimal, octal or
binary without a sign. -/
def integer? (token : List Char) : Option Int :=
  let decimal (digits : List Char) : Option Nat :=
    if digits.head? = some '0' ∧ 1 < digits.length then none else inBase? 10 digits
  let n : Option Int := match token with
    | '0' :: 'x' :: digits => (inBase? 16 digits).map Int.ofNat
    | '0' :: 'o' :: digits => (inBase? 8 digits).map Int.ofNat
    | '0' :: 'b' :: digits => (inBase? 2 digits).map Int.ofNat
    | '+' :: digits => (decimal digits).map Int.ofNat
    | '-' :: digits => (decimal digits).map fun n => -(n : Int)
    | digits => (decimal digits).map Int.ofNat
  n.filter fun n => -(Nat.pow 2 63 : Int) ≤ n && n < Nat.pow 2 63

/-- The value after an equals sign. -/
def scalarValue? (input : List Char) : Option (Scalar × List Char) :=
  match input with
  | '"' :: _ | '\'' :: _ => (string? input).map fun (s, rest) => (.text s, rest)
  | _ =>
    let isTokenChar (c : Char) : Bool := !isSpace c && c != '\n' && c != '\r' && c != '#'
    let token := input.takeWhile isTokenChar
    let rest := input.dropWhile isTokenChar
    if token = ['t', 'r', 'u', 'e'] then some (.bool true, rest)
    else if token = ['f', 'a', 'l', 's', 'e'] then some (.bool false, rest)
    else (integer? token).map fun n => (.integer n, rest)

/-- A key: bare, or a string on one line. -/
def key? (input : List Char) : Option (String × List Char) :=
  match input with
  | '"' :: '"' :: '"' :: _ | '\'' :: '\'' :: '\'' :: _ => none
  | '"' :: _ | '\'' :: _ => string? input
  | _ =>
    let key := input.takeWhile isBareChar
    if key.isEmpty then none else some (String.ofList key, input.dropWhile isBareChar)

/-- One assignment up to the end of its line. -/
def assignment? (input : List Char) : Option ((String × Scalar) × List Char) := do
  let (key, rest) ← key? input
  let rest ← match skipSpace rest with
    | '=' :: rest => some rest
    | _ => none
  let (value, rest) ← scalarValue? (skipSpace rest)
  return ((key, value), ← lineEnd? rest)

/-- The assignments of a text, with at most `fuel` lines. -/
def assignmentsFrom? (input : List Char) : Nat → Option (List (String × Scalar))
  | 0 => none
  | fuel + 1 =>
    let input := skipSpace input
    if input.isEmpty then some []
    else match lineEnd? input with
      | some rest => assignmentsFrom? rest fuel
      | none =>
        match assignment? input with
        | none => none
        | some (a, rest) => (assignmentsFrom? rest fuel).map (a :: ·)

/-- The assignments of a settings file, each key once. A byte order mark at the beginning does
not count. -/
def settings? (text : String) : Option (List (String × Scalar)) :=
  let input := match text.toList with
    | c :: rest => if c.toNat = 0xFEFF then rest else c :: rest
    | [] => []
  match assignmentsFrom? input (input.length + 1) with
  | some found =>
    let keys := found.map Prod.fst
    if (StringSet.ofList keys).size = keys.length then some found else none
  | none => none

end CacheAudit.Toml
