import CacheAudit.Ordered.Map
import CacheAudit.Json.Reading

/-!
# Keyed datasets

A keyed dataset gives each key (a date, say) a set of members (ticker symbols, say), under a
label that names where it came from. A single value under a key is a set of one member.
-/

namespace CacheAudit

/-- Sets of members under keys, with a label. -/
structure KeyedDataset where
  label : String
  entries : StringMap StringSet
deriving DecidableEq

namespace KeyedDataset

/-- The dataset without keys. -/
def empty (label : String) : KeyedDataset :=
  ⟨label, ∅⟩

/-- The members under a key. -/
def get? (d : KeyedDataset) (key : String) : Option StringSet :=
  d.entries.get? key

/-- The keys in ascending order. -/
def keys (d : KeyedDataset) : List String :=
  d.entries.keys

/-- The number of keys. -/
def size (d : KeyedDataset) : Nat :=
  d.entries.size

/-- One more member under a key, which need not exist. -/
def insert (d : KeyedDataset) (key member : String) : KeyedDataset :=
  { d with entries := d.entries.alter key fun s => (s.getD ∅).insert member }

/-- Exactly one member under a key. -/
def insertScalar (d : KeyedDataset) (key value : String) : KeyedDataset :=
  { d with entries := d.entries.insert key (StringSet.singleton value) }

/-- The dataset with a key, without members if it is new. -/
def ensureKey (d : KeyedDataset) (key : String) : KeyedDataset :=
  { d with entries := d.entries.alter key fun s => s.getD ∅ }

/-- The dataset with a key and more members under it. -/
def insertAll (d : KeyedDataset) (key : String) (members : List String) : KeyedDataset :=
  members.foldl (fun d m => d.insert key m) (d.ensureKey key)

/-- The document of a dataset. -/
def toJson (d : KeyedDataset) : Json :=
  .object [
    ("label", .text d.label),
    ("entries", .object (d.entries.entries.map fun e => (e.1, .texts e.2.toList)))]

/-- The dataset that a document describes. -/
def ofRaw? (v : Json.Raw) : Option KeyedDataset :=
  match v.record? ["label", "entries"] 0 with
  | some [label, entries] => do
    let label ← Json.Raw.required? Json.Raw.text? label
    let entries ← Json.Raw.required? (Json.Raw.map? Json.Raw.set?) entries
    return ⟨label, entries⟩
  | _ => none

end KeyedDataset

end CacheAudit
