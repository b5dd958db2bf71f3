import CacheAudit.Ordered.Map
import CacheAudit.Json.Reading
import CacheAudit.Timestamp
import CacheAudit.Failure

/-!
# Snapshots

A snapshot records every regular file below a root at one time: its path, the digest of its
content, its size and its modification time. Files that were seen but could not be read are
listed apart. Two records have the same content when their digests agree; nothing else counts.
-/

namespace CacheAudit

/-- What was observed of one file; `path` is relative to the root, with `/` between names. -/
structure FileRecord where
  path : String
  contentHash : String
  size : Nat
  modifiedAt : Option Timestamp
deriving DecidableEq

namespace FileRecord

/-- Whether two records agree on the content. -/
def sameContent (a b : FileRecord) : Bool :=
  a.contentHash == b.contentHash

/-- The document of a record. -/
def toJson (r : FileRecord) : Json :=
  .object [
    ("path", .text r.path),
    ("content_hash", .text r.contentHash),
    ("size", .nat r.size),
    ("modified_at", .optional (fun t => .text (Timestamp.text t)) r.modifiedAt)]

end FileRecord

/-- A moment written as a string. -/
def Json.Raw.moment? (v : Json.Raw) : Option Timestamp :=
  v.text?.bind Timestamp.ofString?

/-- The record that a document describes. -/
def FileRecord.ofRaw? (v : Json.Raw) : Option FileRecord :=
  match v.record? ["path", "content_hash", "size", "modified_at"] 0 with
  | some [path, contentHash, size, modifiedAt] => do
    let path ← Json.Raw.required? Json.Raw.text? path
    let contentHash ← Json.Raw.required? Json.Raw.text? contentHash
    let size ← Json.Raw.required? Json.Raw.unsigned? size
    let modifiedAt ← Json.Raw.absent? Json.Raw.moment? modifiedAt
    return { path, contentHash, size, modifiedAt }
  | _ => none

/-- The state of all files below a root at one time. -/
structure Snapshot where
  root : String
  capturedAt : Timestamp
  algorithm : String
  entries : StringMap FileRecord
  unreadable : StringSet
deriving DecidableEq

namespace Snapshot

/-- The snapshot of given records; a later record replaces an earlier one with its path. -/
def ofRecords (root : String) (capturedAt : Timestamp) (algorithm : String)
    (records : List FileRecord) (unreadable : List String) : Snapshot where
  root := root
  capturedAt := capturedAt
  algorithm := algorithm
  entries := StringMap.ofList (records.map fun r => (r.path, r))
  unreadable := StringSet.ofList unreadable

/-- The record of a path. -/
def get? (s : Snapshot) (path : String) : Option FileRecord :=
  s.entries.get? path

/-- The recorded paths in ascending order. -/
def paths (s : Snapshot) : List String :=
  s.entries.keys

theorem mem_paths {s : Snapshot} {p : String} : p ∈ s.paths ↔ ∃ r, s.get? p = some r :=
  StringMap.mem_keys.trans Option.isSome_iff_exists

theorem not_mem_paths {s : Snapshot} {p : String} : p ∉ s.paths ↔ s.get? p = none :=
  StringMap.get?_eq_none_iff.symm

/-- The number of recorded files. -/
def size (s : Snapshot) : Nat :=
  s.entries.size

/-- Whether no file is recorded. -/
def isEmpty (s : Snapshot) : Bool :=
  s.entries.isEmpty

/-- What is wrong with an entry: it is filed under another path than it records, or it has no
digest. -/
def defect? (key : String) (r : FileRecord) : Option Failure :=
  let report (message : String) : Failure :=
    { kind := .invalidSnapshot, op := some "check_consistency", path := some key
      message := message }
  if key ≠ r.path then
    some (report ("entry keyed '" ++ key ++ "' records path '" ++ r.path ++ "'"))
  else if r.contentHash.isEmpty then some (report "entry has an empty content hash")
  else none

/-- Accepts a snapshot whose entries are sound, and otherwise names the first that is not. -/
def check (s : Snapshot) : Except Failure Unit :=
  match s.entries.entries.findSome? fun e => defect? e.1 e.2 with
  | some f => .error f
  | none => .ok ()

/-- The document of a snapshot. -/
def toJson (s : Snapshot) : Json :=
  .object [
    ("root", .text s.root),
    ("captured_at", .text s.capturedAt.text),
    ("algorithm", .text s.algorithm),
    ("entries", .object (s.entries.entries.map fun e => (e.1, e.2.toJson))),
    ("unreadable", .texts s.unreadable.toList)]

/-- The snapshot that a document describes. The list of unreadable paths may be missing. -/
def ofRaw? (v : Json.Raw) : Option Snapshot :=
  match v.record? ["root", "captured_at", "algorithm", "entries", "unreadable"] 1 with
  | some [root, capturedAt, algorithm, entries, unreadable] => do
    let root ← Json.Raw.required? Json.Raw.text? root
    let capturedAt ← Json.Raw.required? Json.Raw.moment? capturedAt
    let algorithm ← Json.Raw.required? Json.Raw.text? algorithm
    let entries ← Json.Raw.required? (Json.Raw.map? FileRecord.ofRaw?) entries
    let unreadable ← Json.Raw.given? Json.Raw.set? ∅ unreadable
    return { root, capturedAt, algorithm, entries, unreadable }
  | _ => none

end Snapshot

end CacheAudit
