import CacheAudit.Dataset.Table
import CacheAudit.Dataset.LineLog
import CacheAudit.Disk.Basic
import CacheAudit.Journal

/-!
# Loading datasets

Reading a table or a log from a file. The journal has the beginning of each load and, if it
succeeds, its end with the number of keys; a failure or a crash leaves the record open.
-/

namespace CacheAudit.Dataset

/-- The content of a dataset file. -/
def content (d : Disk) (path : Path) : Except Failure Bytes :=
  match d.read path with
  | .ok bytes => .ok bytes
  | .error e =>
    .error { kind := .io, op := some "load_dataset", path := some path.display
             message := e.message }

/-- Loads a dataset from a file by a reader of its content. -/
def load {α : Type} (op label : String) (d : Disk) (path : Path) (size : α → Nat)
    (read : Bytes → Except (Halt Problem) α) : Logged (Except (Halt Failure) α) := do
  Logged.record (.starting op [("path", path.display), ("label", label)])
  match content d path with
  | .error f => return .error (.failed f)
  | .ok bytes =>
    match read bytes with
    | .error h => return .error (h.map Problem.toFailure)
    | .ok dataset => do
      Logged.record (.ending op [.count "key_count" (size dataset)])
      return .ok dataset

namespace Table

/-- The members of the table in a file. -/
def keyedAt (t : Table) (d : Disk) (path : Path) (label : String) :
    Logged (Except (Halt Failure) KeyedDataset) :=
  load "load_table" label d path KeyedDataset.size fun bytes =>
    Halt.lift (t.keyed path.display label bytes)

/-- The weights of the table in a file. -/
def weightedAt (t : Table) (d : Disk) (path : Path) (label : String) :
    Logged (Except (Halt Failure) WeightedDataset) :=
  load "load_table" label d path WeightedDataset.size fun bytes =>
    Halt.lift (t.weighted path.display label bytes)

end Table

namespace LineLog

/-- The members of a log given by its bytes. -/
def keyedBytes (l : LineLog) (source label : String) (bytes : Bytes) :
    Except (Halt Problem) KeyedDataset := do
  l.keyed source label (← Halt.lift (textOf source bytes))

/-- The weights of a log given by its bytes. -/
def weightedBytes (l : LineLog) (source label : String) (bytes : Bytes) :
    Except (Halt Problem) WeightedDataset := do
  l.weighted source label (← Halt.lift (textOf source bytes))

/-- The members of the log in a file. -/
def keyedAt (l : LineLog) (d : Disk) (path : Path) (label : String) :
    Logged (Except (Halt Failure) KeyedDataset) :=
  load "load_log" label d path KeyedDataset.size (l.keyedBytes path.display label)

/-- The weights of the log in a file. -/
def weightedAt (l : LineLog) (d : Disk) (path : Path) (label : String) :
    Logged (Except (Halt Failure) WeightedDataset) :=
  load "load_log" label d path WeightedDataset.size (l.weightedBytes path.display label)

end LineLog

end CacheAudit.Dataset
