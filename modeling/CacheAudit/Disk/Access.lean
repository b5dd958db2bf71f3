import CacheAudit.Disk.Walk

/-!
# File operations as their callers meet them

What a disk holds does not settle how every operation on it ends: the system may refuse a path for
reasons of its own, a device may fail halfway, and a directory is listed in any order. Captures and
runs therefore take the operations they rely on as functions of the disk. When nothing interferes
they go by the disk alone.
-/

namespace CacheAudit

/-- What a walk tells of a place: the path of a regular file, something else, or a failure, with the
path at which it arose where that is known. -/
inductive Visit
  | file (path : Path)
  | other
  | failed (path : Option Path) (e : SystemError)
deriving DecidableEq

/-- What a walk tells when it comes across an item. -/
def WalkItem.visit : WalkItem → Visit
  | file path _ => .file path
  | other => .other
  | failed place e => .failed (place.map Prod.fst) e

/-- What a walk that began at a root came across: names are what the path of the root leaves of a
path. -/
def Visit.item (root : Path) : Visit → WalkItem
  | file path => .file path (path.namesBelow root)
  | other => .other
  | failed path e => .failed (path.map fun p => (p, p.namesBelow root)) e

/-- The operations that captures and runs rely on: what a path leads to, the walk of a tree, the
removal of a tree and the making of a directory with its parents. -/
structure FileAccess where
  follow : Disk → Path → Except SystemError (Location × Entry) := Disk.follow
  visits : Disk → Path → List Visit := fun d root => (d.walk root).map WalkItem.visit
  removeTree : Disk → Path → Disk × Except SystemError Unit := Disk.removeTree
  createDirectories : Disk → Path → Disk × Except SystemError Unit := Disk.createDirectories

/-- The items of the walk of a tree. -/
def FileAccess.walk (files : FileAccess) (d : Disk) (root : Path) : List WalkItem :=
  (files.visits d root).map (Visit.item root)

end CacheAudit
