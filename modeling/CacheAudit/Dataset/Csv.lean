/-!
# Comma-separated records

Records end at a line feed or a carriage return, and empty lines are no records. A field that
begins with a quote runs to the next quote that stands alone; inside it a quote is written
twice. Text after the closing quote belongs to the field, and an unclosed quote runs to the end.
A record counts as standing on the line that was reached when the record before it ended.
-/

namespace CacheAudit.Dataset.Csv

/-- A record: its line and its fields. -/
structure Record where
  line : Nat
  fields : List (List Char)
deriving DecidableEq

/-- Where a reader stands: between records, before a field, inside one without quotes, inside
quotes, or after a quote inside quotes. -/
inductive Place
  | between
  | fieldStart
  | plain
  | quoted
  | afterQuote
deriving DecidableEq

/-- A reader: its place, the current line, the line on which the current record counts, the
reversed characters of the current field, the fields and the records read so far, the last one
first. -/
structure Reader where
  place : Place := .between
  line : Nat := 1
  recordLine : Nat := 1
  field : List Char := []
  fields : List (List Char) := []
  records : List Record := []

namespace Reader

/-- A character of the current field, which goes on at `place`. -/
def take (r : Reader) (c : Char) (place : Place) : Reader :=
  { r with place := place, field := c :: r.field }

/-- The current field is complete, and another one follows. -/
def endField (r : Reader) : Reader :=
  { r with place := .fieldStart, field := [], fields := r.field.reverse :: r.fields }

/-- The current record is complete. -/
def endRecord (r : Reader) : Reader :=
  { r with
    place := .between
    recordLine := r.line
    field := []
    fields := []
    records := ⟨r.recordLine, (r.field.reverse :: r.fields).reverse⟩ :: r.records }

/-- Whether a character ends a record. -/
def isEnd (c : Char) : Bool :=
  c = '\n' || c = '\r'

/-- A character outside quotes, after the beginning of a field. -/
def pushPlain (r : Reader) (c : Char) : Reader :=
  if c = ',' then r.endField
  else if isEnd c then r.endRecord
  else r.take c .plain

/-- A character at the beginning of a field. -/
def pushStart (r : Reader) (c : Char) : Reader :=
  if c = '"' then { r with place := .quoted } else r.pushPlain c

/-- A character wherever it stands. -/
def pushHere (r : Reader) (c : Char) : Reader :=
  match r.place with
  | .between => if isEnd c then r else r.pushStart c
  | .fieldStart => r.pushStart c
  | .plain => r.pushPlain c
  | .quoted => if c = '"' then { r with place := .afterQuote } else r.take c .quoted
  | .afterQuote => if c = '"' then r.take c .quoted else r.pushPlain c

/-- One character further. -/
def push (r : Reader) (c : Char) : Reader :=
  (if c = '\n' then { r with line := r.line + 1 } else r).pushHere c

/-- All records, when no character is left. -/
def finish (r : Reader) : List Record :=
  if r.place = .between then r.records.reverse else r.endRecord.records.reverse

end Reader

/-- A text without a byte order mark at its beginning. -/
def dropMark : List Char → List Char
  | [] => []
  | c :: rest => if c.toNat = 0xFEFF then rest else c :: rest

/-- The records of a text. -/
def records (text : List Char) : List Record :=
  ((dropMark text).foldl Reader.push {}).finish

end CacheAudit.Dataset.Csv
