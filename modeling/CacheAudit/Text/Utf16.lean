import CacheAudit.Bytes

/-!
# UTF-16

Text in sixteen-bit units, in either byte order. A character above U+FFFF is a pair of
surrogates, the high one first; a surrogate outside such a pair is no text.
-/

namespace CacheAudit.Text.Utf16

/-- Which byte of a unit comes first. -/
inductive Order
  | little
  | big
deriving DecidableEq

/-- The unit written by two bytes. -/
def Order.unit (order : Order) (first second : UInt8) : Nat :=
  match order with
  | .little => second.toNat * 256 + first.toNat
  | .big => first.toNat * 256 + second.toNat

/-- The units of a byte string, after the reversed `before`; `none` if a byte is left over. -/
def unitsFrom (order : Order) (before : List Nat) : Bytes → Option (List Nat)
  | [] => some before.reverse
  | [_] => none
  | a :: b :: rest => unitsFrom order (order.unit a b :: before) rest

/-- The units of a byte string; `none` if a byte is left over. -/
def units (order : Order) (bytes : Bytes) : Option (List Nat) :=
  unitsFrom order [] bytes

/-- Units that open a pair. -/
def isHigh (u : Nat) : Bool :=
  0xD800 ≤ u && u < 0xDC00

/-- Units that close a pair. -/
def isLow (u : Nat) : Bool :=
  0xDC00 ≤ u && u < 0xE000

/-- The character of a pair of surrogates. -/
def pair (high low : Nat) : Char :=
  Char.ofNat (0x10000 + (high - 0xD800) * 0x400 + (low - 0xDC00))

/-- The text of a list of units, after the reversed `before`; `none` if a surrogate stands
alone. -/
def textFrom (before : List Char) : List Nat → Option (List Char)
  | [] => some before.reverse
  | [u] => if isHigh u || isLow u then none else some (Char.ofNat u :: before).reverse
  | u :: v :: rest =>
    if isHigh u then if isLow v then textFrom (pair u v :: before) rest else none
    else if isLow u then none
    else textFrom (Char.ofNat u :: before) (v :: rest)

/-- The text of a list of units; `none` if a surrogate stands alone. -/
def decodeUnits (us : List Nat) : Option (List Char) :=
  textFrom [] us

/-- The units of a character. -/
def unitsOf (c : Char) : List Nat :=
  if c.toNat < 0x10000 then [c.toNat]
  else [0xD800 + (c.toNat - 0x10000) / 0x400, 0xDC00 + (c.toNat - 0x10000) % 0x400]

/-- The two bytes of a unit. -/
def Order.bytes (order : Order) (u : Nat) : Bytes :=
  match order with
  | .little => [UInt8.ofNat (u % 256), UInt8.ofNat (u / 256)]
  | .big => [UInt8.ofNat (u / 256), UInt8.ofNat (u % 256)]

/-- The bytes of a text. -/
def encode (order : Order) (text : List Char) : Bytes :=
  (text.flatMap unitsOf).flatMap order.bytes

end CacheAudit.Text.Utf16
