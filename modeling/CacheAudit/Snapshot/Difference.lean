import CacheAudit.Snapshot.Basic
import CacheAudit.Journal
import CacheAudit.Problem

/-!
# The difference of two snapshots

The entries of both snapshots are sorted by path, so one merge of the two lists finds the paths
that changed, appeared and disappeared. Isolation is violated when a path changed or
disappeared; new paths do not count against it.
-/

namespace CacheAudit

/-- Paths whose content changed, that appeared, that disappeared, and the number of others. -/
structure SnapshotDiff where
  changed : List String := []
  added : List String := []
  removed : List String := []
  unchanged : Nat := 0
deriving DecidableEq

namespace SnapshotDiff

/-- Whether both snapshots had the same paths with the same contents. -/
def isEmpty (d : SnapshotDiff) : Bool :=
  d.changed.isEmpty && d.added.isEmpty && d.removed.isEmpty

/-- Whether a path changed or disappeared. -/
def violatesIsolation (d : SnapshotDiff) : Bool :=
  !d.changed.isEmpty || !d.removed.isEmpty

/-- The number of paths in either snapshot. -/
def totalPaths (d : SnapshotDiff) : Nat :=
  d.unchanged + d.changed.length + d.added.length + d.removed.length

/-- One path further back in the merge: it disappeared. -/
def consRemoved (path : String) (d : SnapshotDiff) : SnapshotDiff :=
  { d with removed := path :: d.removed }

/-- One path further back in the merge: it appeared. -/
def consAdded (path : String) (d : SnapshotDiff) : SnapshotDiff :=
  { d with added := path :: d.added }

/-- One path further back in the merge, with the records of both sides. -/
def consShared (before after : FileRecord) (path : String) (d : SnapshotDiff) : SnapshotDiff :=
  if before.sameContent after then { d with unchanged := d.unchanged + 1 }
  else { d with changed := path :: d.changed }

/-- Merges two lists of entries that are sorted by path. -/
def merge : List (String × FileRecord) → List (String × FileRecord) → SnapshotDiff
  | [], after => { added := after.map Prod.fst }
  | before, [] => { removed := before.map Prod.fst }
  | (p, r) :: before, (q, s) :: after =>
    if p = q then (merge before after).consShared r s p
    else if p < q then (merge before ((q, s) :: after)).consRemoved p
    else (merge ((p, r) :: before) after).consAdded q
termination_by before after => before.length + after.length

/-- The difference of two snapshots, their algorithms aside. -/
def between (before after : Snapshot) : SnapshotDiff :=
  merge before.entries.entries after.entries.entries

/-- A section of the summary: a title over a list of paths, unless the list is empty. -/
def titled (title : String) (paths : List String) : String :=
  if paths.isEmpty then ""
  else "### " ++ title ++ "\n\n" ++
    String.join (paths.map fun p => "- " ++ "\x60" ++ p ++ "\x60\n") ++ "\n"

/-- The difference as text for people. -/
def summary (d : SnapshotDiff) : String :=
  let line (title : String) (n : Nat) : String := "- " ++ title ++ ": " ++ toString n ++ "\n"
  "## Snapshot Diff\n\n" ++ line "unchanged" d.unchanged ++ line "changed" d.changed.length ++
    line "added" d.added.length ++ line "removed" d.removed.length ++ "\n" ++
    if d.isEmpty then "_No changes detected._\n"
    else titled "Changed" d.changed ++ titled "Removed" d.removed ++ titled "Added" d.added

/-- The document of a difference. -/
def toJson (d : SnapshotDiff) : Json :=
  .object [
    ("changed", .texts d.changed),
    ("added", .texts d.added),
    ("removed", .texts d.removed),
    ("unchanged", .nat d.unchanged)]

/-- The difference that a document describes. -/
def ofRaw? (v : Json.Raw) : Option SnapshotDiff :=
  match v.record? ["changed", "added", "removed", "unchanged"] 0 with
  | some [changed, added, removed, unchanged] => do
    let changed ← Json.Raw.required? (Json.Raw.list? Json.Raw.text?) changed
    let added ← Json.Raw.required? (Json.Raw.list? Json.Raw.text?) added
    let removed ← Json.Raw.required? (Json.Raw.list? Json.Raw.text?) removed
    let unchanged ← Json.Raw.required? Json.Raw.unsigned? unchanged
    return { changed, added, removed, unchanged }
  | _ => none

end SnapshotDiff

/-- The difference of two snapshots, recorded in the journal. Digests of different algorithms
cannot be compared, and then nothing is recorded. -/
def Snapshot.diff (before after : Snapshot) : Logged (Except Failure SnapshotDiff) :=
  if before.algorithm ≠ after.algorithm then
    return .error (Problem.algorithmMismatch before.algorithm after.algorithm).toFailure
  else do
    Logged.record (.starting "diff" [("root", after.root), .count "before_count" before.size,
      .count "after_count" after.size])
    let d := SnapshotDiff.between before after
    Logged.record (.ending "diff" [("root", after.root), .count "changed" d.changed.length,
      .count "added" d.added.length, .count "removed" d.removed.length])
    return .ok d

end CacheAudit
