import CacheAudit.Decimal.Exact

/-!
# Reading numbers

A number is a sign, digits with at most one point among them, and an optional exponent; the
words `inf`, `infinity` and `nan` are numbers in any case. The value is the nearest double.
-/

namespace CacheAudit.Decimal

/-- The value of an ASCII digit. -/
def digit? (c : Char) : Option Nat :=
  if '0' ≤ c ∧ c ≤ '9' then some (c.toNat - 48) else none

/-- Whether a character is an ASCII digit. -/
def isDigit (c : Char) : Bool :=
  (digit? c).isSome

/-- The value of a string of digits; other characters count as zero. -/
def digitsValue (digits : List Char) : Nat :=
  digits.foldl (fun n c => n * 10 + (digit? c).getD 0) 0

/-- The natural number written by a non-empty string of digits. -/
def natural? (text : List Char) : Option Nat :=
  if text.isEmpty || !text.all isDigit then none else some (digitsValue text)

/-- The double nearest to `digits · 10 ^ e`. Outside the decades that doubles reach the answer
is zero or infinity, whatever the digits. -/
def scaledValue (digits : Nat) (e : Int) : Float :=
  if digits = 0 then 0.0
  else
    let reach := (Nat.toDigits 10 digits).length + e
    if 400 < reach then nearest (Nat.pow 2 1024) 1
    else if reach < -400 then 0.0
    else nearest (digits * power 10 e) (power 10 (-e))

/-- A text without its sign, and whether the sign was a minus. -/
def splitSign : List Char → Bool × List Char
  | '-' :: rest => (true, rest)
  | '+' :: rest => (false, rest)
  | text => (false, text)

/-- An integer exponent: digits with an optional sign. -/
def exponent? (text : List Char) : Option Int :=
  let (negative, digits) := splitSign text
  (natural? digits).map fun n => if negative then -(n : Int) else n

/-- The magnitude of a number written in decimal notation. -/
def magnitude? (text : List Char) : Option Float :=
  let whole := text.takeWhile isDigit
  let (decimals, rest) : List Char × List Char :=
    match text.dropWhile isDigit with
    | '.' :: after => (after.takeWhile isDigit, after.dropWhile isDigit)
    | rest => ([], rest)
  if whole.isEmpty && decimals.isEmpty then none
  else
    let exponent : Option Int :=
      match rest with
      | [] => some 0
      | c :: after => if c = 'e' ∨ c = 'E' then exponent? after else none
    exponent.map fun e => scaledValue (digitsValue (whole ++ decimals)) (e - decimals.length)

/-- The number written by a text, without blanks around it. -/
def float? (text : List Char) : Option Float :=
  let (negative, rest) := splitSign text
  let word := String.ofList (rest.map Char.toLower)
  if word = "inf" ∨ word = "infinity" then some (withSign negative (1.0 / 0.0))
  else if word = "nan" then some (withSign negative (0.0 / 0.0))
  else (magnitude? rest).map (withSign negative)

end CacheAudit.Decimal
