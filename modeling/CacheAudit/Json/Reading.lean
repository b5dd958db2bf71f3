import CacheAudit.Json.Parser
import CacheAudit.Decimal.Shortest

/-!
# Typed reading of documents

What a document as written means for a reader that expects a text, a number, a list, a map or a
record. A record may be written as an object, where fields that nobody asked for are ignored and
no known field comes twice, or as an array of its fields in order.
-/

namespace CacheAudit.Json.Raw

/-- The text of a string. -/
def text? : Raw → Option String
  | .text pieces => Piece.text? pieces
  | _ => none

/-- A truth value. -/
def bool? : Raw → Option Bool
  | .bool b => some b
  | _ => none

/-- An unsigned integer of 64 bits. -/
def unsigned? : Raw → Option Nat
  | .number n => n.unsigned?
  | _ => none

/-- A number as a double. -/
def float? : Raw → Option Float
  | .number n => n.float?
  | _ => none

/-- A value or `null`. -/
def optional? {α : Type} (read : Raw → Option α) : Raw → Option (Option α)
  | .null => some none
  | v => (read v).map some

/-- A list. -/
def list? {α : Type} (read : Raw → Option α) : Raw → Option (List α)
  | .array items => items.mapM read
  | _ => none

/-- A set of strings, written as a list in which a string may be repeated. -/
def set? (v : Raw) : Option StringSet :=
  (list? text? v).map StringSet.ofList

/-- A field name with its value. -/
def field? {α : Type} (read : Raw → Option α) (f : List Piece × Raw) : Option (String × α) :=
  match Piece.text? f.1, read f.2 with
  | some k, some v => some (k, v)
  | _, _ => none

/-- A map from strings, written as an object; of two values under one key the later counts. -/
def map? {α : Type} (read : Raw → Option α) : Raw → Option (StringMap α)
  | .object fields => (fields.mapM (field? read)).map StringMap.ofList
  | _ => none

/-- The values written for the fields `names` of a record, in that order, `none` for a field left
out. In the array form the last `spare` fields may be missing, in the object form any. -/
def record? (names : List String) (spare : Nat) : Raw → Option (List (Option Raw))
  | .object fields =>
    match fields.mapM (field? some) with
    | none => none
    | some named =>
      let known := (named.map Prod.fst).filter names.contains
      if known.eraseDups.length = known.length then
        some (names.map fun name => (named.find? fun f => f.1 == name).map Prod.snd)
      else none
  | .array items =>
    if items.length ≤ names.length ∧ names.length ≤ items.length + spare then
      some (items.map some ++ List.replicate (names.length - items.length) none)
    else none
  | _ => none

/-- The value of a field that must be given. -/
def required? {α : Type} (read : Raw → Option α) (field : Option Raw) : Option α :=
  field.bind read

/-- The value of a field that counts as missing when it is not given or `null`. -/
def absent? {α : Type} (read : Raw → Option α) : Option Raw → Option (Option α)
  | none => some none
  | some v => optional? read v

/-- The value of a field with a default. -/
def given? {α : Type} (read : Raw → Option α) (default : α) : Option Raw → Option α
  | none => some default
  | some v => read v

mutual

/-- The number of containers around the innermost value. -/
def depth : Raw → Nat
  | .array items => depthItems items + 1
  | .object fields => depthFields fields + 1
  | .null => 0
  | .bool _ => 0
  | .number _ => 0
  | .text _ => 0

/-- The greatest depth of the items of an array. -/
def depthItems : List Raw → Nat
  | [] => 0
  | v :: rest => max (depth v) (depthItems rest)

/-- The greatest depth of the fields of an object. -/
def depthFields : List (List Piece × Raw) → Nat
  | [] => 0
  | (_, v) :: rest => max (depth v) (depthFields rest)

end

mutual

/-- The value of a document of any form: integers of 64 bits stay integers, other numbers are
doubles, and the fields of an object are sorted by name, the later of two with one name counting. -/
def value? : Raw → Option Json
  | .null => some .null
  | .bool b => some (.bool b)
  | .number n =>
    match n.integer? with
    | some i => some (.integer i)
    | none => n.real?.map .real
  | .text pieces => (Piece.text? pieces).map .text
  | .array items => (valueItems? items).map .array
  | .object fields =>
    (valueFields? fields).map fun fs => .object (StringMap.ofList fs).entries

/-- The values of the items of an array. -/
def valueItems? : List Raw → Option (List Json)
  | [] => some []
  | v :: rest =>
    match value? v, valueItems? rest with
    | some v, some vs => some (v :: vs)
    | _, _ => none

/-- The values of the fields of an object. -/
def valueFields? : List (List Piece × Raw) → Option (List (String × Json))
  | [] => some []
  | (k, v) :: rest =>
    match Piece.text? k, value? v, valueFields? rest with
    | some k, some v, some fs => some ((k, v) :: fs)
    | _, _, _ => none

end

/-- The value of a document of any form, with at most 127 containers inside each other. -/
def freeForm? (v : Raw) : Option Json :=
  if v.depth ≤ 127 then v.value? else none

end CacheAudit.Json.Raw
