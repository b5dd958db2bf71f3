import CacheAudit.Disk.Basic

/-!
# Changes of the file system

What has to be done to a machine's files so that they become those of another disk: the entries
that are gone are removed, the innermost first, and then the new and altered ones are written,
the outermost first.
-/

namespace CacheAudit

/-- One thing to do to the files of a machine. -/
inductive Change
  | removeFile (path : Path)
  | removeDirectory (path : Path)
  | makeDirectory (path : Path)
  | writeFile (path : Path) (content : Bytes)
  | makeLink (path target : Path)
deriving DecidableEq

namespace Change

/-- What takes an entry away. -/
def removing (l : Location) : Entry → Change
  | .directory => removeDirectory l.path
  | .file .. | .link _ => removeFile l.path

/-- What brings an entry about. -/
def making (l : Location) : Entry → Change
  | .directory => makeDirectory l.path
  | .file content _ => writeFile l.path content
  | .link target => makeLink l.path target

/-- Whether an entry can take the place of another without removing it first. -/
def canReplace : Entry → Entry → Bool
  | .file .., .file .. | .directory, .directory => true
  | _, _ => false

end Change

namespace Disk

/-- Entries with the shorter locations first. -/
def outermostFirst (entries : List (Location × Entry)) : List (Location × Entry) :=
  entries.mergeSort fun a b => a.1.length ≤ b.1.length

/-- Whether what stands at a place has to go before the new disk's entry can come. -/
def isGone (d : Disk) (l : Location) (e : Entry) : Bool :=
  match d.entry? l with
  | none => true
  | some new => !Change.canReplace e new

/-- What has to be done to the files of `old` so that they become those of `new`. -/
def changes (old new : Disk) : List Change :=
  let gone := old.entries.filter fun (l, e) => new.isGone l e
  let come := new.entries.filter fun (l, e) => old.entry? l != some e
  (outermostFirst gone).reverse.map (fun (l, e) => Change.removing l e) ++
    (outermostFirst come).map fun (l, e) => Change.making l e

/-- The disk with an entry at a place and directories at all places above it. -/
def install (d : Disk) (l : Location) (e : Entry) : Disk :=
  let above := (List.range (l.length - 1)).map fun i => l.take (i + 1)
  (above.foldl (fun d m => if (d.entry? m).isSome then d else d.put m .directory) d).put l e

end Disk

end CacheAudit
