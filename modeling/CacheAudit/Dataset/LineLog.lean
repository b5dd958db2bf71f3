import CacheAudit.Dataset.Encoding
import CacheAudit.Dataset.Weight
import CacheAudit.Dataset.Weighted
import CacheAudit.Halt

/-!
# Line logs

Each line of a log that carries the marker and not the skip token names a key, a member and a
weight at fixed positions among its words. Lines are counted from one, skipped lines included.
Positions are machine words of 64 bits, counted from zero. A reader that asks for more words than
a machine word can say crashes.
-/

namespace CacheAudit.Dataset

/-- Which lines of a log count, and where their fields stand. -/
structure LineLog where
  marker : Option String := some "buying"
  skipToken : Option String := some "stocks"
  keyField : UInt64 := 1
  memberField : UInt64 := 4
  weightField : UInt64 := 3
  excluded : StringSet := ∅

/-- A line that counts: its number and its words. -/
structure LogLine where
  number : Nat
  words : List String
deriving DecidableEq

namespace LineLog

/-- Whether a trimmed line counts. -/
def accepts (l : LineLog) (line : List Char) : Bool :=
  !line.isEmpty && l.marker.all (fun m => Text.contains m.toList line) &&
    !l.skipToken.any (fun s => Text.contains s.toList line)

/-- The lines that count. -/
def used (l : LineLog) (text : List Char) : List LogLine :=
  (Text.lines text).zipIdx.filterMap fun (line, i) =>
    let line := Text.trim line
    if l.accepts line then some ⟨i + 1, (Text.words line).map String.ofList⟩ else none

/-- The greatest position that members need. -/
def memberReach (l : LineLog) : UInt64 :=
  max l.keyField l.memberField

/-- The greatest position that weights need. -/
def weightReach (l : LineLog) : UInt64 :=
  max l.memberReach l.weightField

/-- Demands that a line has a word at position `reach`. The number of words that the complaint
asks for is a machine word too, so there is none for the last position. -/
def demand (source : String) (reach : UInt64) (line : LogLine) : Except (Halt Problem) Unit :=
  if reach.toNat < line.words.length then return ()
  else do
    let needed ← Halt.add reach 1
    throw (.failed (.datasetParse source line.number ("expected at least " ++ toString needed ++
      " fields, found " ++ toString line.words.length)))

/-- A line put into a keyed dataset. -/
def addMember (l : LineLog) (source : String) (d : KeyedDataset) (line : LogLine) :
    Except (Halt Problem) KeyedDataset := do
  demand source l.memberReach line
  let member ← Halt.item line.words l.memberField
  let key ← Halt.item line.words l.keyField
  return if l.excluded.contains member then d.ensureKey key else d.insert key member

/-- A line put into a weighted dataset. -/
def addWeight (l : LineLog) (source : String) (d : WeightedDataset) (line : LogLine) :
    Except (Halt Problem) WeightedDataset := do
  demand source l.weightReach line
  let member ← Halt.item line.words l.memberField
  if l.excluded.contains member then return d
  else
    let cell ← Halt.item line.words l.weightField
    match weight? cell.toList with
    | some w => return d.add (← Halt.item line.words l.keyField) member w
    | none => throw (.failed (.invalidWeight source line.number cell))

/-- The members of a log under its keys. -/
def keyed (l : LineLog) (source label : String) (text : List Char) :
    Except (Halt Problem) KeyedDataset :=
  (l.used text).foldlM (l.addMember source) (KeyedDataset.empty label)

/-- The weights of a log under its keys. -/
def weighted (l : LineLog) (source label : String) (text : List Char) :
    Except (Halt Problem) WeightedDataset :=
  (l.used text).foldlM (l.addWeight source) (WeightedDataset.empty label)

end LineLog

end CacheAudit.Dataset
