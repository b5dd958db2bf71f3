import CacheAudit.Decimal.Shortest

/-!
# JSON values

Documents that the library writes. `compact` puts no white space between the parts of a value,
`pretty` puts each part on a line of its own, indented by two spaces for each level. Fields keep
the order in which they are given.
-/

namespace CacheAudit

/-- A value of a JSON document. -/
inductive Json
  | null
  | bool (b : Bool)
  | integer (n : Int)
  | real (x : Float)
  | text (s : String)
  | array (items : List Json)
  | object (fields : List (String × Json))

namespace Json

/-- A natural number as a value. -/
def nat (n : Nat) : Json :=
  .integer n

/-- A list of strings as a value. -/
def texts (xs : List String) : Json :=
  .array (xs.map .text)

/-- A value that may be missing. -/
def optional {α : Type} (encode : α → Json) : Option α → Json
  | some a => encode a
  | none => .null

/-- A character inside a quoted string. Quotes, backslashes and control characters below U+0020
are escaped, everything else stands for itself. -/
def escapeChar (c : Char) : List Char :=
  if c = '"' then ['\\', '"']
  else if c = '\\' then ['\\', '\\']
  else if c = '\x08' then ['\\', 'b']
  else if c = '\x0c' then ['\\', 'f']
  else if c = '\n' then ['\\', 'n']
  else if c = '\r' then ['\\', 'r']
  else if c = '\t' then ['\\', 't']
  else if c.toNat < 0x20 then
    ['\\', 'u', '0', '0', Nat.digitChar (c.toNat / 16), Nat.digitChar (c.toNat % 16)]
  else [c]

/-- A quoted string. -/
def quote (s : String) : List Char :=
  '"' :: s.toList.flatMap escapeChar ++ ['"']

/-- The text of an integer. -/
def integerText (n : Int) : List Char :=
  if n < 0 then '-' :: Decimal.digitsOf n.natAbs else Decimal.digitsOf n.natAbs

/-- The text of a real number. Infinities and NaN have none and are written as `null`. -/
def realText (x : Float) : List Char :=
  match Decimal.Exact.ofFloat x with
  | .finite .. => Decimal.text x
  | _ => ['n', 'u', 'l', 'l']

/-- The text of a value without parts. -/
def atomText : Json → List Char
  | .null => ['n', 'u', 'l', 'l']
  | .bool true => ['t', 'r', 'u', 'e']
  | .bool false => ['f', 'a', 'l', 's', 'e']
  | .integer n => integerText n
  | .real x => realText x
  | .text s => quote s
  | .array _ => ['[', ']']
  | .object _ => ['\x7b', '\x7d']

mutual

/-- A value without white space between its parts. -/
def compactChars : Json → List Char
  | .array items => '[' :: compactItems items ++ [']']
  | .object fields => '\x7b' :: compactFields fields ++ ['\x7d']
  | .null => atomText .null
  | .bool b => atomText (.bool b)
  | .integer n => atomText (.integer n)
  | .real x => atomText (.real x)
  | .text s => atomText (.text s)

/-- The items of an array, separated by commas. -/
def compactItems : List Json → List Char
  | [] => []
  | [v] => compactChars v
  | v :: rest => compactChars v ++ ',' :: compactItems rest

/-- The fields of an object, separated by commas. -/
def compactFields : List (String × Json) → List Char
  | [] => []
  | [(k, v)] => quote k ++ ':' :: compactChars v
  | (k, v) :: rest => quote k ++ ':' :: compactChars v ++ ',' :: compactFields rest

end

/-- A new line at a level of indentation. -/
def newline (level : Nat) : List Char :=
  '\n' :: List.replicate (2 * level) ' '

mutual

/-- A value with its parts on lines of their own, at a level of indentation. -/
def prettyChars (level : Nat) : Json → List Char
  | .array [] => ['[', ']']
  | .array (v :: rest) => '[' :: prettyItems (level + 1) (v :: rest) ++ newline level ++ [']']
  | .object [] => ['\x7b', '\x7d']
  | .object (f :: rest) =>
    '\x7b' :: prettyFields (level + 1) (f :: rest) ++ newline level ++ ['\x7d']
  | .null => atomText .null
  | .bool b => atomText (.bool b)
  | .integer n => atomText (.integer n)
  | .real x => atomText (.real x)
  | .text s => atomText (.text s)

/-- The items of an array, each on a line of its own. -/
def prettyItems (level : Nat) : List Json → List Char
  | [] => []
  | [v] => newline level ++ prettyChars level v
  | v :: rest => newline level ++ prettyChars level v ++ ',' :: prettyItems level rest

/-- The fields of an object, each on a line of its own. -/
def prettyFields (level : Nat) : List (String × Json) → List Char
  | [] => []
  | [(k, v)] => newline level ++ quote k ++ [':', ' '] ++ prettyChars level v
  | (k, v) :: rest =>
    newline level ++ quote k ++ [':', ' '] ++ prettyChars level v ++ ',' ::
      prettyFields level rest

end

/-- A value on one line. -/
def compact (v : Json) : String :=
  String.ofList (compactChars v)

/-- A value with its parts on lines of their own. -/
def pretty (v : Json) : String :=
  String.ofList (prettyChars 0 v)

end Json

end CacheAudit
