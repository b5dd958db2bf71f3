import CacheAudit.Bytes

/-!
# UTF-8

A byte string is cut into pieces: well-formed characters, and stretches that no well-formed
text begins with. `decode` accepts a byte string made of characters alone and otherwise
points at the first damage; `lossy` replaces each damaged stretch by U+FFFD; `lenient` keeps
the place of the damage for readers that may skip it.
-/

namespace CacheAudit.Text.Utf8

/-- What a reader knows between two bytes: nothing, or the beginning of a character of which
`seen` bytes gave `code` and `more` are expected, the next one between `low` and `high`. -/
inductive State
  | start
  | pending (seen code more : Nat) (low high : UInt8)

/-- A stretch of the input: a character, bytes that begin no character, or the beginning of a
character at which the input ends. -/
inductive Piece
  | char (c : Char)
  | damaged (width : Nat)
  | cut (width : Nat)
deriving DecidableEq

/-- The first byte of a character fixes how many follow and the range of the second, which is
what keeps out overlong spellings, surrogates and numbers above U+10FFFF. -/
def opening (b : UInt8) : List Piece × State :=
  if b < 0x80 then ([.char (Char.ofNat b.toNat)], .start)
  else if b < 0xC2 then ([.damaged 1], .start)
  else if b < 0xE0 then ([], .pending 1 (b.toNat - 0xC0) 1 0x80 0xBF)
  else if b = 0xE0 then ([], .pending 1 0 2 0xA0 0xBF)
  else if b = 0xED then ([], .pending 1 0xD 2 0x80 0x9F)
  else if b < 0xF0 then ([], .pending 1 (b.toNat - 0xE0) 2 0x80 0xBF)
  else if b = 0xF0 then ([], .pending 1 0 3 0x90 0xBF)
  else if b < 0xF4 then ([], .pending 1 (b.toNat - 0xF0) 3 0x80 0xBF)
  else if b = 0xF4 then ([], .pending 1 4 3 0x80 0x8F)
  else ([.damaged 1], .start)

/-- One byte further. A byte that cannot continue the pending character ends it as damaged and
is looked at again as an opening byte. -/
def step (state : State) (b : UInt8) : List Piece × State :=
  match state with
  | .start => opening b
  | .pending seen code more low high =>
    if low ≤ b ∧ b ≤ high then
      let code := code * 64 + (b.toNat - 0x80)
      if more ≤ 1 then ([.char (Char.ofNat code)], .start)
      else ([], .pending (seen + 1) code (more - 1) 0x80 0xBF)
    else
      let (pieces, next) := opening b
      (.damaged seen :: pieces, next)

/-- A reader between two bytes, with the pieces read so far, the last one first. -/
structure Scan where
  state : State
  done : List Piece

/-- The reader after one more byte. -/
def Scan.push (s : Scan) (b : UInt8) : Scan :=
  let (pieces, next) := step s.state b
  ⟨next, pieces.reverse ++ s.done⟩

/-- All pieces, when no byte is left. -/
def Scan.finish (s : Scan) : List Piece :=
  match s.state with
  | .start => s.done.reverse
  | .pending seen _ _ _ _ => (.cut seen :: s.done).reverse

/-- The pieces of a byte string. -/
def pieces (bytes : Bytes) : List Piece :=
  (bytes.foldl Scan.push ⟨.start, []⟩).finish

/-- The first place at which a byte string is not UTF-8: its index and, unless the input ended
there, the length of the damaged stretch. -/
structure Damage where
  index : Nat
  width : Option Nat
deriving DecidableEq

namespace Damage

/-- The wording of a damage report. -/
def message (d : Damage) : String :=
  match d.width with
  | some w => "invalid utf-8 sequence of " ++ toString w ++ " bytes from index " ++ toString d.index
  | none => "incomplete utf-8 byte sequence from index " ++ toString d.index

end Damage

/-- The characters of the pieces from byte `index` on, after the reversed `before`, up to the first
damage. -/
def collect (index : Nat) (before : List Char) : List Piece → Except Damage (List Char)
  | [] => .ok before.reverse
  | .char c :: rest => collect (index + c.utf8Size) (c :: before) rest
  | .damaged w :: _ => .error ⟨index, some w⟩
  | .cut _ :: _ => .error ⟨index, none⟩

/-- The text of a byte string, or the first place where it is not UTF-8. -/
def decode (bytes : Bytes) : Except Damage (List Char) :=
  collect 0 [] (pieces bytes)

/-- The UTF-8 bytes of a text. -/
def encode (text : List Char) : Bytes :=
  text.flatMap String.utf8EncodeChar

/-- The text of a piece, with U+FFFD for a damaged stretch. -/
def Piece.shown : Piece → Char
  | .char c => c
  | _ => Char.ofNat 0xFFFD

/-- The piece as a character, if it is one. -/
def Piece.char? : Piece → Option Char
  | .char c => some c
  | _ => none

/-- The text with each damaged stretch replaced by U+FFFD. -/
def lossy (bytes : Bytes) : List Char :=
  (pieces bytes).map Piece.shown

/-- The text with `none` in the place of each damaged stretch. -/
def lenient (bytes : Bytes) : List (Option Char) :=
  (pieces bytes).map Piece.char?

/-- The bytes of a string. -/
def ofString (s : String) : Bytes :=
  encode s.toList

/-- The string written by a byte string, if it is UTF-8. -/
def toString? (bytes : Bytes) : Option String :=
  match decode bytes with
  | .ok cs => some (String.ofList cs)
  | .error _ => none

end CacheAudit.Text.Utf8
