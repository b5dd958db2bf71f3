import CacheAudit.Dataset.Keyed

/-!
# Weighted datasets

A weighted dataset gives each member under a key a weight. Weights given for one member under
one key add up, starting from zero and in the order in which they are given.
-/

namespace CacheAudit

/-- Weights of members under keys, with a label. -/
structure WeightedDataset where
  label : String
  entries : StringMap (StringMap Float)

namespace WeightedDataset

/-- The dataset without keys. -/
def empty (label : String) : WeightedDataset :=
  ⟨label, ∅⟩

/-- The weights under a key. -/
def get? (d : WeightedDataset) (key : String) : Option (StringMap Float) :=
  d.entries.get? key

/-- The keys in ascending order. -/
def keys (d : WeightedDataset) : List String :=
  d.entries.keys

/-- The number of keys. -/
def size (d : WeightedDataset) : Nat :=
  d.entries.size

/-- A weight added to what a member has under a key. -/
def add (d : WeightedDataset) (key member : String) (weight : Float) : WeightedDataset :=
  { d with
    entries := d.entries.alter key fun weights =>
      (weights.getD ∅).alter member fun sum => sum.getD 0.0 + weight }

/-- The dataset without the weights. -/
def toKeyed (d : WeightedDataset) : KeyedDataset :=
  ⟨d.label, d.entries.mapValues StringMap.keySet⟩

/-- The document of a dataset. -/
def toJson (d : WeightedDataset) : Json :=
  let weights (m : StringMap Float) : Json := .object (m.entries.map fun e => (e.1, .real e.2))
  .object [
    ("label", .text d.label),
    ("entries", .object (d.entries.entries.map fun e => (e.1, weights e.2)))]

/-- The dataset that a document describes. -/
def ofRaw? (v : Json.Raw) : Option WeightedDataset :=
  match v.record? ["label", "entries"] 0 with
  | some [label, entries] => do
    let label ← Json.Raw.required? Json.Raw.text? label
    let entries ← Json.Raw.required? (Json.Raw.map? (Json.Raw.map? Json.Raw.float?)) entries
    return ⟨label, entries⟩
  | _ => none

end WeightedDataset

end CacheAudit
