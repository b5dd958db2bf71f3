import CacheAudit.Disk.Basic

/-!
# Walking a tree

A walk lists everything below a directory, each directory before what it holds. Links are listed
and not followed, except for the root of the walk. A directory whose path is too long to be
opened is listed and then reported as a failure, and the walk goes on after it.
-/

namespace CacheAudit

/-- What a walk comes across: a regular file with its path and the names that lead to it from the
root, something else, or a failure, with the place it arose at where that is known. -/
inductive WalkItem
  | file (path : Path) (names : List Bytes)
  | other
  | failed (place : Option (Path × List Bytes)) (e : SystemError)
deriving DecidableEq

namespace WalkItem

/-- The name under which a place below a root is recorded: the names that lead to it, with
slashes between them. -/
def key (names : List Bytes) : String :=
  "/".intercalate (names.map Path.nameText)

/-- The wording of a failure. -/
def failureText (place : Option (Path × List Bytes)) (e : SystemError) : String :=
  match place with
  | some (path, _) => "IO error for operation on " ++ path.display ++ ": " ++ e.message
  | none => e.message

end WalkItem

namespace Disk

/-- What lies in a directory and below it. The directory stands at `l`, is opened by the path
`p`, and is reached from the root of the walk by `names`. -/
def walkFrom (d : Disk) (p : Path) (l : Location) (names : List Bytes) : Nat → List WalkItem
  | 0 => []
  | fuel + 1 =>
    if pathLimit ≤ p.bytes.length then [.failed (some (p, names)) .nameTooLong]
    else (d.children l).flatMap fun (n, e) =>
      let path := p.join ⟨n⟩
      match e with
      | .file .. => [.file path (names ++ [n])]
      | .link _ => [.other]
      | .directory => .other :: d.walkFrom path (l ++ [n]) (names ++ [n]) fuel

/-- Everything at and below a root. A directory is at most as deep as there are entries. -/
def walk (d : Disk) (root : Path) : List WalkItem :=
  match d.follow root with
  | .ok (l, .directory) => .other :: d.walkFrom root l [] (d.entries.length + 1)
  | .ok _ => [.other]
  | .error e => [.failed (some (root, [])) e]

end Disk

end CacheAudit
