import CacheAudit.Json.Basic
import CacheAudit.Decimal.Reading
import CacheAudit.Ordered.Map

/-!
# JSON as written

Between a text and a typed value stands the document as it was written: numbers as their parts,
strings as their pieces. Only what a reader asks for is given a value, so a field that nobody
reads may hold a number beyond every range or a string with half a surrogate pair.
-/

namespace CacheAudit.Json

/-- A written number: sign, digits before and after the point, and the exponent with its sign. -/
structure Numeral where
  negative : Bool
  whole : List Char
  decimals : List Char
  exponent : Option (Bool × List Char)
deriving DecidableEq

/-- A part of a written string: a character, a sixteen-bit unit given by its number, or bytes
that are no text. -/
inductive Piece
  | char (c : Char)
  | unit (n : Nat)
  | damaged
deriving DecidableEq

/-- A document as written. -/
inductive Raw
  | null
  | bool (b : Bool)
  | number (n : Numeral)
  | text (pieces : List Piece)
  | array (items : List Raw)
  | object (fields : List (List Piece × Raw))

/-- The text of a written string, after the reversed `before`. Two units that form a surrogate
pair are one character; a surrogate alone and bytes that are no text have no value. -/
def Piece.textFrom (before : List Char) : List Piece → Option (List Char)
  | [] => some before.reverse
  | .char c :: rest => textFrom (c :: before) rest
  | .damaged :: _ => none
  | .unit n :: rest =>
    if n < 0xD800 ∨ 0xE000 ≤ n then textFrom (Char.ofNat n :: before) rest
    else match rest with
      | .unit m :: rest =>
        if n < 0xDC00 ∧ 0xDC00 ≤ m ∧ m < 0xE000 then
          textFrom (Char.ofNat (0x10000 + (n - 0xD800) * 0x400 + (m - 0xDC00)) :: before) rest
        else none
      | _ => none

/-- The text of a written string. -/
def Piece.text? (pieces : List Piece) : Option String :=
  (textFrom [] pieces).map String.ofList

namespace Numeral

/-- Whether the number is written as an integer. -/
def isInteger (n : Numeral) : Bool :=
  n.decimals.isEmpty && n.exponent.isNone

/-- The value of the digits before the point. -/
def magnitude (n : Numeral) : Nat :=
  Decimal.digitsValue n.whole

/-- An unsigned 64-bit integer. A sign, a point or an exponent makes a number something else. -/
def unsigned? (n : Numeral) : Option Nat :=
  if n.isInteger && !n.negative && n.magnitude < Nat.pow 2 64 then some n.magnitude else none

/-- An integer of 64 bits, signed or unsigned. Minus zero is not an integer. -/
def integer? (n : Numeral) : Option Int :=
  if !n.isInteger then none
  else if n.negative then
    if n.magnitude = 0 ∨ Nat.pow 2 63 < n.magnitude then none else some (-(n.magnitude : Int))
  else if n.magnitude < Nat.pow 2 64 then some n.magnitude else none

/-- Digits gathered into a significand of at most 64 bits, and how many were gathered. The first
digit that does not fit ends the gathering. -/
def gather (significand : Nat) : List Char → Nat × Nat
  | [] => (significand, 0)
  | d :: rest =>
    let next := significand * 10 + (Decimal.digit? d).getD 0
    if next < Nat.pow 2 64 then
      let (s, k) := gather next rest
      (s, k + 1)
    else (significand, 0)

/-- The significand and decimal exponent of a number. Digits that do not fit are dropped: one
before the point raises the exponent, one after it does not count. -/
def scaled (n : Numeral) : Nat × Int :=
  let (high, gathered) := gather 0 n.whole
  let (low, decimals) := gather high n.decimals
  (low, (n.whole.length - gathered : Nat) - (decimals : Int))

/-- Ten to a power below 309, as a double. -/
def powerOfTen (e : Nat) : Float :=
  Decimal.nearest (Nat.pow 10 e) 1

/-- A double times a power of ten, in steps of at most 308 decades. An overflow has no value. -/
def scaleFrom (x : Float) (e : Int) : Nat → Option Float
  | 0 => some x
  | fuel + 1 =>
    if e.natAbs ≤ 308 then
      if 0 ≤ e then
        let y := x * powerOfTen e.natAbs
        if y.isInf then none else some y
      else some (x / powerOfTen e.natAbs)
    else if x == 0.0 then some x
    else if 0 ≤ e then none
    else scaleFrom (x / powerOfTen 308) (e + 308) fuel

/-- The written exponent; `none` if it does not fit 32 bits. -/
def exponentValue? (n : Numeral) : Option Int :=
  match n.exponent with
  | none => some 0
  | some (negative, digits) =>
    let e := Decimal.digitsValue digits
    if e < Nat.pow 2 31 then some (if negative then -(e : Int) else e) else none

/-- The value of a number with a point or an exponent, or too large for 64 bits: its leading
digits as a double, scaled by a power of ten. A number too large for a double has no value. -/
def real? (n : Numeral) : Option Float :=
  let (s, e) := n.scaled
  let sign := Decimal.withSign n.negative
  match n.exponentValue? with
  | none =>
    if s ≠ 0 ∧ n.exponent.any (fun x => !x.1) then none else some (sign 0.0)
  | some written =>
    let bound : Int := Nat.pow 2 31
    let total := max (-bound) (min (bound - 1) (e + written))
    (scaleFrom (Decimal.ofNat s) total 8).map sign

/-- The value of any number as a double. -/
def float? (n : Numeral) : Option Float :=
  match n.integer? with
  | some i => some (Decimal.withSign (i < 0) (Decimal.ofNat i.natAbs))
  | none => n.real?

end Numeral

end CacheAudit.Json
