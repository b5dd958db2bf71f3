import CacheAudit.Decimal.Shortest

/-!
# A fixed number of decimals

Percentages and weights in the text logs have two decimals: the exact value of the double,
rounded to the nearest hundredth, a tie going to the even digit. A negative number that rounds
to zero keeps its sign.
-/

namespace CacheAudit.Decimal

/-- `scaled / 10 ^ places` in positional notation. -/
def placed (places scaled : Nat) : List Char :=
  let digits := digitsOf scaled
  let padded := List.replicate (places + 1 - digits.length) '0' ++ digits
  let whole := padded.length - places
  padded.take whole ++ (if places = 0 then [] else '.' :: padded.drop whole)

/-- A double with a fixed number of decimals. -/
def fixed (places : Nat) (x : Float) : List Char :=
  match Exact.ofFloat x with
  | .finite negative m q =>
    let body := placed places (roundEven (m * Nat.pow 10 places * power 2 q) (power 2 (-q)))
    if negative then '-' :: body else body
  | _ => text x

/-- A double with two decimals. -/
def hundredths (x : Float) : String :=
  String.ofList (fixed 2 x)

end CacheAudit.Decimal
