/-!
# The exact value of a double

A finite double is `± m · 2 ^ q` with natural `m`. This file reads `m` and `q` off the bits and
goes back: `nearest` is the double nearest to a quotient of natural numbers, a tie going to the
even significand. Everything that writes, reads or rounds numbers is stated on this form.
-/

namespace CacheAudit.Decimal

/-- What the bits of a double stand for. -/
inductive Exact
  | nan
  | infinite (negative : Bool)
  | finite (negative : Bool) (m : Nat) (q : Int)
deriving DecidableEq

/-- The value of a word of 64 bits: sign, eleven bits of exponent, 52 of fraction. -/
def Exact.ofBits (bits : Nat) : Exact :=
  let negative : Bool := bits / Nat.pow 2 63 % 2 == 1
  let exponent : Nat := bits / Nat.pow 2 52 % Nat.pow 2 11
  let fraction : Nat := bits % Nat.pow 2 52
  if exponent = 2047 then if fraction = 0 then .infinite negative else .nan
  else if exponent = 0 then .finite negative fraction (-1074)
  else .finite negative (Nat.pow 2 52 + fraction) ((exponent : Int) - 1075)

/-- The value of a double. -/
def Exact.ofFloat (x : Float) : Exact :=
  .ofBits x.toBits.toNat

/-- `num / den` rounded to a natural number, a tie going to the even one. -/
def roundEven (num den : Nat) : Nat :=
  let low := num / den
  let twice := 2 * (num % den)
  if twice < den then low
  else if den < twice then low + 1
  else if low % 2 = 0 then low else low + 1

/-- The natural power `base ^ e` for `e ≥ 0`, otherwise 1: the factor that an integer power puts
on the numerator. -/
def power (base : Nat) (e : Int) : Nat :=
  base.pow e.toNat

/-- The exponent of the grid of doubles around `num / den`: the quotient, divided by two to it,
lies between `2 ^ 52` and `2 ^ 53`, unless the smallest exponent is met first. -/
def gridExponent (num den : Nat) : Int :=
  let guess : Int := (Nat.log2 num : Int) - Nat.log2 den - 53
  let q := if Nat.pow 2 53 * den * power 2 guess ≤ num * power 2 (-guess) then guess + 1 else guess
  max q (-1074)

/-- The bits of the double nearest to `num / den`, without the sign; an overflow gives
infinity. -/
def nearestBits (num den : Nat) : Nat :=
  let q := gridExponent num den
  let m := roundEven (num * power 2 (-q)) (den * power 2 q)
  let bits := if m < Nat.pow 2 52 then m else (q + 1074).toNat * Nat.pow 2 52 + m
  min bits (2047 * Nat.pow 2 52)

/-- The double nearest to `num / den`, which is zero for `num = 0`. -/
def nearest (num den : Nat) : Float :=
  if num = 0 then 0.0 else Float.ofBits (UInt64.ofNat (nearestBits num den))

/-- The double nearest to a natural number. -/
def ofNat (n : Nat) : Float :=
  nearest n 1

/-- The sign put before a magnitude. -/
def withSign (negative : Bool) (x : Float) : Float :=
  if negative then -x else x

/-- The integer nearest to a double, a tie going away from zero. Signs of zero, infinities and
NaN are kept. -/
def roundToInteger (x : Float) : Float :=
  match Exact.ofFloat x with
  | .finite negative m q =>
    if 0 ≤ q then x
    else withSign negative (ofNat ((m + power 2 (-q - 1)) / power 2 (-q)))
  | _ => x

/-- Two decimals: a hundred times the number, rounded half away from zero, over a hundred. -/
def roundHundredths (x : Float) : Float :=
  roundToInteger (x * 100.0) / 100.0

/-- The percentage that `part` is of `whole`, with two decimals. -/
def percentage (part whole : Nat) : Float :=
  roundHundredths (ofNat part / ofNat whole * 100.0)

end CacheAudit.Decimal
