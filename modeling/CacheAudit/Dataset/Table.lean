import CacheAudit.Dataset.Csv
import CacheAudit.Dataset.Encoding
import CacheAudit.Dataset.Weight
import CacheAudit.Dataset.Weighted

/-!
# Tables

A table has one row for each key. The columns from some column on stand for members, named by
the header or by the settings. An empty cell or a dash says that the member is absent for the
key; any other cell says that it is present and, where weights are asked for, what it weighs.
Columns are machine words of 64 bits, counted from zero.
-/

namespace CacheAudit.Dataset

/-- How a table is laid out. -/
structure Table where
  keyColumn : UInt64 := 0
  firstMemberColumn : UInt64 := 2
  memberNames : Option (List String) := none
  hasHeader : Bool := true
  excluded : StringSet := ∅

/-- A row: its line, its key, and the present members with their cells. -/
structure Row where
  line : Nat
  key : String
  cells : List (String × String)
deriving DecidableEq

namespace Table

/-- Whether a trimmed cell says that the member is present. -/
def isPresent (cell : List Char) : Bool :=
  !cell.isEmpty && cell != ['-']

/-- The names of the member columns and the records that hold data. -/
def names (t : Table) (source : String) (records : List Csv.Record) :
    Except Problem (List String × List Csv.Record) :=
  match t.memberNames with
  | some names => .ok (names, if t.hasHeader then records.drop 1 else records)
  | none =>
    if !t.hasHeader then
      .error (.datasetParse source 0 "header-less table needs explicit member names")
    else match records with
      | [] => .ok ([], [])
      | header :: data =>
        let titles := header.fields.drop t.firstMemberColumn.toNat
        .ok (titles.map fun h => String.ofList (Text.trim h), data)

/-- The present members among the cells of a row from column `column` on, whose names are
`names`. A present cell without a name is a problem; one with an empty or excluded name does not
count. -/
def members (t : Table) (source : String) (line : Nat) :
    UInt64 → List String → List (List Char) → Except Problem (List (String × String))
  | _, _, [] => .ok []
  | column, names, raw :: cells =>
    let cell := Text.trim raw
    if !isPresent cell then members t source line (column + 1) (names.drop 1) cells
    else match names with
      | [] => .error (.datasetParse source line ("value in unnamed column " ++ toString column))
      | name :: names =>
        match members t source line (column + 1) names cells with
        | .error p => .error p
        | .ok rest =>
          .ok (if name.isEmpty || t.excluded.contains name then rest
            else (name, String.ofList cell) :: rest)

/-- The row of a record; a record without a key has none. -/
def row? (t : Table) (source : String) (names : List String) (r : Csv.Record) :
    Except Problem (Option Row) :=
  match r.fields[t.keyColumn.toNat]? with
  | none => .ok none
  | some raw =>
    let key := Text.trim raw
    if key.isEmpty then .ok none
    else
      let cells := r.fields.drop t.firstMemberColumn.toNat
      (t.members source r.line t.firstMemberColumn names cells).map fun members =>
        some ⟨r.line, String.ofList key, members⟩

/-- The rows of records. -/
def rowsOf (t : Table) (source : String) (records : List Csv.Record) :
    Except Problem (List Row) := do
  let (names, data) ← t.names source records
  let rows ← data.mapM (t.row? source names)
  return rows.filterMap id

/-- The rows of a table. -/
def rows (t : Table) (source : String) (bytes : Bytes) : Except Problem (List Row) := do
  t.rowsOf source (Csv.records (← textOf source bytes))

/-- A row put into a keyed dataset. -/
def addMembers (d : KeyedDataset) (row : Row) : KeyedDataset :=
  row.cells.foldl (fun d cell => d.insert row.key cell.1) (d.ensureKey row.key)

/-- A cell put into a weighted dataset. -/
def addCell (source : String) (row : Row) (d : WeightedDataset) (cell : String × String) :
    Except Problem WeightedDataset :=
  match weight? cell.2.toList with
  | some w => .ok (d.add row.key cell.1 w)
  | none => .error (.invalidWeight source row.line cell.2)

/-- The members of a table under its keys. -/
def keyed (t : Table) (source label : String) (bytes : Bytes) : Except Problem KeyedDataset :=
  (t.rows source bytes).map fun rows => rows.foldl addMembers (.empty label)

/-- The weights of a table under its keys. -/
def weighted (t : Table) (source label : String) (bytes : Bytes) :
    Except Problem WeightedDataset := do
  let rows ← t.rows source bytes
  rows.foldlM (fun d row => row.cells.foldlM (addCell source row) d) (WeightedDataset.empty label)

end Table

end CacheAudit.Dataset
