import CacheAudit.Storage.Replace
import CacheAudit.Snapshot.Basic

/-!
# Snapshot files

A snapshot is kept as an indented JSON document. A document that describes no snapshot, and one
whose entries are not sound, is refused when it is read.
-/

namespace CacheAudit.Snapshot

/-- The content of a snapshot file. -/
def fileContent (s : Snapshot) : Bytes :=
  Text.Utf8.ofString s.toJson.pretty

/-- The disk with a snapshot in a file. -/
def save (s : Snapshot) (d : Disk) (path : Path) : Disk × Except Failure Unit :=
  d.replace path s.fileContent

/-- The snapshot in a content read from a path. -/
def ofContent (path : Path) (content : Bytes) : Except Failure Snapshot :=
  match (Json.parse? (Text.Utf8.lenient content)).bind ofRaw? with
  | none =>
    .error { kind := .serialization, op := some "load_snapshot", path := some path.display }
  | some s =>
    match s.check with
    | .ok () => .ok s
    | .error f => .error { f with path := some path.display }

/-- The snapshot in a file. -/
def load (d : Disk) (path : Path) : Except Failure Snapshot :=
  match d.read path with
  | .ok content => ofContent path content
  | .error e =>
    .error { kind := .io, op := some "load_snapshot", path := some path.display
             message := e.message }

end CacheAudit.Snapshot
