import CacheAudit.Decimal.Exact

/-!
# The shortest decimal of a double

A double is written with the fewest significant digits that read back to it, and among those
with the digits nearest to its value. A number of digits fixes a decimal grid, and if any point
of the grid reads back, one of the two neighbours of the value does; so the search looks at two
points for one digit, two digits, and so on up to seventeen.
-/

namespace CacheAudit.Decimal

/-- A positive double's value and the interval of reals that round to it, over one
denominator. The ends belong to the interval when `closed`. -/
structure Interval where
  low : Nat
  value : Nat
  high : Nat
  den : Nat
  closed : Bool

/-- The interval of `m · 2 ^ q`. The gap below a power of two is half the gap above, except at
the smallest exponent. -/
def Interval.around (m : Nat) (q : Int) : Interval where
  low := (if m = Nat.pow 2 52 ∧ -1074 < q then 4 * m - 1 else 4 * m - 2) * power 2 (q - 2)
  value := 4 * m * power 2 (q - 2)
  high := (4 * m + 2) * power 2 (q - 2)
  den := power 2 (2 - q)
  closed := m % 2 = 0

/-- Whether the point `num / den` lies in the interval. -/
def Interval.holds (i : Interval) (num den : Nat) : Bool :=
  if i.closed then i.low * den ≤ num * i.den && num * i.den ≤ i.high * den
  else i.low * den < num * i.den && num * i.den < i.high * den

/-- The exponent of the leading decimal digit of `num / den`. -/
def leadingExponent (num den : Nat) : Int :=
  let guess : Int := ((Nat.log2 num : Int) - Nat.log2 den) * 30103 / 100000
  let fits (e : Int) : Bool := den * power 10 e ≤ num * power 10 (-e)
  if fits (guess + 1) then guess + 1 else if fits guess then guess else guess - 1

/-- A decimal number `digits · 10 ^ exponent`. -/
structure Scaled where
  digits : Nat
  exponent : Int
deriving DecidableEq

/-- The neighbour of the value on the grid `10 ^ e` that lies in the interval: the nearer one if
both do, the even one at a tie. -/
def Interval.onGrid (i : Interval) (e : Int) : Option Nat :=
  let den := i.den * power 10 e
  let num := i.value * power 10 (-e)
  let below := num / den
  let here (d : Nat) : Bool := i.holds (d * power 10 e) (power 10 (-e))
  match here below, here (below + 1) with
  | true, true =>
    let twice := 2 * (num % den)
    if twice < den then some below
    else if den < twice then some (below + 1)
    else if below % 2 = 0 then some below else some (below + 1)
  | true, false => some below
  | false, true => some (below + 1)
  | false, false => none

/-- The first grid that has a point in the interval, starting with the grid `10 ^ e` and
refining it `fuel` times. -/
def Interval.search (i : Interval) (e : Int) : Nat → Scaled
  | 0 => ⟨i.value * power 10 (-e) / (i.den * power 10 e), e⟩
  | fuel + 1 =>
    match i.onGrid e with
    | some d => ⟨d, e⟩
    | none => i.search (e - 1) fuel

/-- The shortest decimal of the positive double `m · 2 ^ q`. -/
def shortest (m : Nat) (q : Int) : Scaled :=
  let i := Interval.around m q
  i.search (leadingExponent i.value i.den) 17

/-- The decimal digits of a number. -/
def digitsOf (n : Nat) : List Char :=
  Nat.toDigits 10 n

/-- Without the zeros at the end. -/
def dropTrailingZeros (digits : List Char) : List Char :=
  (digits.reverse.dropWhile (· == '0')).reverse

/-- The exponents of the leading digit for which a number is written without an exponent. -/
def isPositional (e : Int) : Bool :=
  -5 ≤ e && e ≤ 15

/-- Significant digits and the exponent of the first of them as text. A number in positional
notation has at least one decimal; an exponent carries its sign. -/
def layout (digits : List Char) (e : Int) : List Char :=
  if isPositional e then
    if e < 0 then ['0', '.'] ++ List.replicate (-e - 1).toNat '0' ++ digits
    else
      let whole := e.toNat + 1
      let decimals := digits.drop whole
      digits.take whole ++ List.replicate (whole - digits.length) '0' ++ ['.'] ++
        (if decimals.isEmpty then ['0'] else decimals)
  else
    let mark := if e < 0 then ['e', '-'] else ['e', '+']
    let decimals := digits.drop 1
    digits.take 1 ++ (if decimals.isEmpty then [] else '.' :: decimals) ++ mark ++
      digitsOf e.natAbs

/-- The text of a magnitude. -/
def magnitudeText (m : Nat) (q : Int) : List Char :=
  if m = 0 then ['0', '.', '0']
  else
    let s := shortest m q
    let digits := digitsOf s.digits
    layout (dropTrailingZeros digits) (s.exponent + digits.length - 1)

/-- The text of a double in the shortest form that reads back to it. -/
def text (x : Float) : List Char :=
  match Exact.ofFloat x with
  | .nan => ['N', 'a', 'N']
  | .infinite negative => if negative then ['-', 'i', 'n', 'f'] else ['i', 'n', 'f']
  | .finite negative m q => if negative then '-' :: magnitudeText m q else magnitudeText m q

end CacheAudit.Decimal
