import CacheAudit.Text.Blank
import CacheAudit.Decimal.Reading
import CacheAudit.Decimal.Shortest

/-!
# Moments in UTC

A moment is a civil date and a time of day in UTC, to the nanosecond. A leap second is second
60 of its minute. Moments are written as `2024-01-02T03:04:05.678Z` with as few fraction digits,
in groups of three, as lose nothing. Reading is lenient about blanks and digits and demands an
offset, which it takes off.
-/

namespace CacheAudit

namespace Calendar

/-- Leap years of the Gregorian calendar, extended to all years. -/
def isLeap (year : Int) : Bool :=
  year % 4 == 0 && (year % 100 != 0 || year % 400 == 0)

/-- The number of days of a month. -/
def daysIn (year : Int) (month : Nat) : Nat :=
  match month with
  | 2 => if isLeap year then 29 else 28
  | 4 | 6 | 9 | 11 => 30
  | _ => 31

/-- A civil date. -/
structure Date where
  year : Int
  month : Nat
  day : Nat
deriving DecidableEq

/-- Dates of the calendar between the years -262143 and 262142. -/
def Date.isValid (d : Date) : Bool :=
  -262143 ≤ d.year && d.year ≤ 262142 && 1 ≤ d.month && d.month ≤ 12 && 1 ≤ d.day &&
    d.day ≤ daysIn d.year d.month

/-- The day after. -/
def Date.next (d : Date) : Date :=
  if d.day < daysIn d.year d.month then { d with day := d.day + 1 }
  else if d.month < 12 then ⟨d.year, d.month + 1, 1⟩
  else ⟨d.year + 1, 1, 1⟩

/-- The day before. -/
def Date.previous (d : Date) : Date :=
  if 1 < d.day then { d with day := d.day - 1 }
  else if 1 < d.month then ⟨d.year, d.month - 1, daysIn d.year (d.month - 1)⟩
  else ⟨d.year - 1, 12, 31⟩

/-- A time of day; second 60 is a leap second. -/
structure Time where
  hour : Nat
  minute : Nat
  second : Nat
  nanos : Nat
deriving DecidableEq

/-- Times of a day. -/
def Time.isValid (t : Time) : Bool :=
  t.hour < 24 && t.minute < 60 && t.second ≤ 60 && t.nanos < 1000000000

end Calendar

open Calendar

/-- A moment as the system tells it: the nanoseconds since the year 1970 began, negative before. -/
structure SystemTime where
  nanos : Int
deriving DecidableEq

/-- A moment in UTC. -/
structure Timestamp where
  date : Date
  time : Time
  valid : date.isValid && time.isValid
deriving DecidableEq

namespace Timestamp

/-- The moment of a date and a time of day, if both exist. -/
def of? (date : Date) (time : Time) : Option Timestamp :=
  if h : date.isValid && time.isValid then some ⟨date, time, h⟩ else none

/-- The beginning of the year 1970. -/
def epoch : Timestamp :=
  ⟨⟨1970, 1, 1⟩, ⟨0, 0, 0, 0⟩, by decide⟩

/-- The moment that the system tells, if it lies in the calendar. -/
def ofSystem? (t : SystemTime) : Option Timestamp :=
  let seconds := t.nanos / 1000000000
  let second := (seconds % 86400).toNat
  let date := match seconds / 86400 with
    | .ofNat n => Nat.repeat Date.next n epoch.date
    | .negSucc n => Nat.repeat Date.previous (n + 1) epoch.date
  of? date ⟨second / 3600, second / 60 % 60, second % 60, (t.nanos % 1000000000).toNat⟩

example : (ofSystem? ⟨-1⟩).map (fun t => (t.date, t.time)) =
    some (⟨1969, 12, 31⟩, ⟨23, 59, 59, 999999999⟩) := by
  decide

/-- A number with at least `width` digits. -/
def padded (width n : Nat) : List Char :=
  let digits := Decimal.digitsOf n
  List.replicate (width - digits.length) '0' ++ digits

/-- The fraction of a second with 0, 3, 6 or 9 digits, the fewest that lose nothing. -/
def fraction (nanos : Nat) : List Char :=
  if nanos = 0 then []
  else if nanos % 1000000 = 0 then '.' :: padded 3 (nanos / 1000000)
  else if nanos % 1000 = 0 then '.' :: padded 6 (nanos / 1000)
  else '.' :: padded 9 nanos

/-- A year: four digits, or a sign and at least four digits outside the years 0 to 9999. -/
def yearText (year : Int) : List Char :=
  if 0 ≤ year ∧ year ≤ 9999 then padded 4 year.natAbs
  else (if year < 0 then '-' else '+') :: padded 4 year.natAbs

/-- The written form of a moment. -/
def chars (t : Timestamp) : List Char :=
  yearText t.date.year ++ '-' :: padded 2 t.date.month ++ '-' :: padded 2 t.date.day ++
    'T' :: padded 2 t.time.hour ++ ':' :: padded 2 t.time.minute ++
    ':' :: padded 2 t.time.second ++ fraction t.time.nanos ++ ['Z']

/-- The written form of a moment as a string. -/
def text (t : Timestamp) : String :=
  String.ofList t.chars

/-- Without the blanks at the beginning. -/
def skipBlanks (input : List Char) : List Char :=
  input.dropWhile Text.isBlank

/-- A number of at most `width` digits, after any blanks. -/
def number? (width : Nat) (input : List Char) : Option (Nat × List Char) :=
  let input := skipBlanks input
  let digits := (input.take width).takeWhile Decimal.isDigit
  if digits.isEmpty then none
  else some (Decimal.digitsValue digits, input.drop digits.length)

/-- A year, after any blanks: up to four digits, or any number of them after a sign. -/
def year? (input : List Char) : Option (Int × List Char) :=
  let input := skipBlanks input
  let signed (negative : Bool) (rest : List Char) : Option (Int × List Char) :=
    let digits := rest.takeWhile Decimal.isDigit
    if digits.isEmpty then none
    else
      let n : Int := Decimal.digitsValue digits
      some (if negative then -n else n, rest.drop digits.length)
  match input with
  | '-' :: rest => signed true rest
  | '+' :: rest => signed false rest
  | _ => (number? 4 input).map fun (n, rest) => ((n : Int), rest)

/-- A given character, after any blanks. -/
def mark? (c : Char) (input : List Char) : Option (List Char) :=
  match skipBlanks input with
  | d :: rest => if c = d then some rest else none
  | [] => none

/-- The nanoseconds of an optional fraction; digits after the ninth are cut. -/
def nanos? (input : List Char) : Option (Nat × List Char) :=
  match input with
  | '.' :: rest =>
    let digits := rest.takeWhile Decimal.isDigit
    if digits.isEmpty then none
    else
      let kept := digits.take 9
      some (Decimal.digitsValue kept * Nat.pow 10 (9 - kept.length), rest.drop digits.length)
  | _ => some (0, input)

/-- Two digits. -/
def twoDigits? (input : List Char) : Option (Nat × List Char) :=
  match input with
  | a :: b :: rest =>
    match Decimal.digit? a, Decimal.digit? b with
    | some a, some b => some (a * 10 + b, rest)
    | _, _ => none
  | _ => none

/-- An offset from UTC in minutes: `Z`, `UTC`, or a sign, hours and minutes with any colons and
blanks between them. -/
def offset? (input : List Char) : Option (Int × List Char) :=
  let signed (negative : Bool) (rest : List Char) : Option (Int × List Char) :=
    match twoDigits? rest with
    | none => none
    | some (hours, rest) =>
      match twoDigits? (rest.dropWhile fun c => c = ':' || Text.isBlank c) with
      | none => none
      | some (minutes, rest) =>
        if 60 ≤ minutes then none
        else
          let n : Int := (hours * 60 + minutes : Nat)
          some (if negative then -n else n, rest)
  if (input.take 3).map Char.toLower = ['u', 't', 'c'] then some (0, input.drop 3)
  else match input with
    | '+' :: rest => signed false rest
    | '-' :: rest => signed true rest
    | c :: rest =>
      if c = 'Z' ∨ c = 'z' then some (0, rest)
      else if c.toNat = 0x2212 then signed true rest
      else none
    | [] => none

/-- A local date and time with its offset of less than a day taken off. -/
def takeOff (date : Date) (time : Time) (offset : Int) : Option Timestamp :=
  let minute : Int := (time.hour * 60 + time.minute : Nat) - offset
  let day := if minute < 0 then date.previous else if 1440 ≤ minute then date.next else date
  let minute := (minute % 1440).toNat
  of? day { time with hour := minute / 60, minute := minute % 60 }

/-- The date at the beginning of a text. -/
def date? (input : List Char) : Option (Date × List Char) := do
  let (year, rest) ← year? input
  let rest ← mark? '-' rest
  let (month, rest) ← number? 2 rest
  let rest ← mark? '-' rest
  let (day, rest) ← number? 2 rest
  return (⟨year, month, day⟩, rest)

/-- The time of day at the beginning of a text. -/
def time? (input : List Char) : Option (Time × List Char) := do
  let (hour, rest) ← number? 2 input
  let rest ← mark? ':' rest
  let (minute, rest) ← number? 2 rest
  let rest ← mark? ':' rest
  let (second, rest) ← number? 2 rest
  let (nanos, rest) ← nanos? rest
  return (⟨hour, minute, second, nanos⟩, rest)

/-- The moment written by a text. -/
def ofChars? (input : List Char) : Option Timestamp := do
  let (date, rest) ← date? input
  let rest ← match rest with
    | c :: rest => if c = 'T' ∨ c = 't' ∨ c = ' ' then some rest else none
    | [] => none
  let (time, rest) ← time? rest
  let (offset, rest) ← offset? (skipBlanks rest)
  let _ ← of? date time
  if !(skipBlanks rest).isEmpty ∨ 1440 ≤ offset.natAbs then none
  else takeOff date time offset

/-- The moment written by a string. -/
def ofString? (s : String) : Option Timestamp :=
  ofChars? s.toList

/-- Whether a moment is not after another. -/
def notAfter (a b : Timestamp) : Bool :=
  let parts (t : Timestamp) : List Int :=
    [t.date.year, t.date.month, t.date.day, t.time.hour, t.time.minute, t.time.second,
      t.time.nanos]
  !(parts b < parts a)

end Timestamp

end CacheAudit
