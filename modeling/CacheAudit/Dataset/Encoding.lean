import CacheAudit.Text.Utf8
import CacheAudit.Text.Utf16
import CacheAudit.Problem

/-!
# The encoding of dataset files

Exported files are UTF-8, or UTF-16 in either byte order after a byte order mark. The mark is no
part of the text. What is in none of these encodings is a problem of line 0 of its source.
-/

namespace CacheAudit.Dataset

/-- The UTF-8 spelling of the byte order mark. -/
def utf8Mark : Bytes := [0xEF, 0xBB, 0xBF]

/-- The byte order mark of UTF-16 in one byte order. -/
def utf16Mark : Text.Utf16.Order → Bytes
  | .little => [0xFF, 0xFE]
  | .big => [0xFE, 0xFF]

/-- What follows a given beginning, if a byte string has it. -/
def after? : Bytes → Bytes → Option Bytes
  | [], bytes => some bytes
  | m :: mark, b :: bytes => if m = b then after? mark bytes else none
  | _ :: _, [] => none

/-- The text of UTF-8 bytes. -/
def decodeUtf8 (source : String) (bytes : Bytes) : Except Problem (List Char) :=
  match Text.Utf8.decode bytes with
  | .ok text => .ok text
  | .error d => .error (.datasetParse source 0 ("not valid UTF-8: " ++ d.message))

/-- The text of UTF-16 bytes in one byte order. -/
def decodeUtf16 (source : String) (order : Text.Utf16.Order) (bytes : Bytes) :
    Except Problem (List Char) :=
  match Text.Utf16.units order bytes with
  | none => .error (.datasetParse source 0 "odd byte count in UTF-16 text")
  | some units =>
    match Text.Utf16.decodeUnits units with
    | some text => .ok text
    | none =>
      .error (.datasetParse source 0 "not valid UTF-16: invalid utf-16: lone surrogate found")

/-- The text of a dataset file. -/
def textOf (source : String) (bytes : Bytes) : Except Problem (List Char) :=
  match after? utf8Mark bytes with
  | some rest => decodeUtf8 source rest
  | none =>
    match after? (utf16Mark .little) bytes with
    | some rest => decodeUtf16 source .little rest
    | none =>
      match after? (utf16Mark .big) bytes with
      | some rest => decodeUtf16 source .big rest
      | none => decodeUtf8 source bytes

end CacheAudit.Dataset
