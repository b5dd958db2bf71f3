import CacheAudit.Text.Utf8

/-!
# Paths

A path is any byte string; slashes separate its parts. Empty parts and dots inside a path mean
nothing, so the components of a path are its names, the steps upwards, a root at the beginning
or a single dot there. Parents and file names are taken by component and keep the spelling of
what remains.
-/

namespace CacheAudit

/-- A path as it is spelled. -/
structure Path where
  bytes : Bytes
deriving DecidableEq

namespace Path

/-- A part of a path that means something. -/
inductive Component
  | root
  | current
  | up
  | name (n : Bytes)
deriving DecidableEq

/-- The separator. -/
def slash : UInt8 := 47

/-- The name of the current directory. -/
def dot : Bytes := [46]

/-- The name of the directory above. -/
def dotDot : Bytes := [46, 46]

/-- The path spelled by a string. -/
def ofString (s : String) : Path :=
  ⟨Text.Utf8.ofString s⟩

/-- The path as text, with U+FFFD in the place of bytes that are no text. -/
def display (p : Path) : String :=
  String.ofList (Text.Utf8.lossy p.bytes)

/-- A name as text. -/
def nameText (n : Bytes) : String :=
  String.ofList (Text.Utf8.lossy n)

/-- Whether a path starts at the root. -/
def isAbsolute (p : Path) : Bool :=
  p.bytes.head? == some slash

/-- The parts between slashes. -/
def parts (p : Path) : List Bytes :=
  p.bytes.foldr
    (fun b done => if b = slash then [] :: done else match done with
      | [] => [[b]]
      | part :: rest => (b :: part) :: rest)
    [[]]

/-- The meaning of a part that is not the first of its path. -/
def component? (part : Bytes) : Option Component :=
  if part = [] ∨ part = dot then none
  else if part = dotDot then some .up
  else some (.name part)

/-- The components among parts, each with the number of bytes up to its end, the first part
beginning at byte `start`. -/
def located (start : Nat) : List Bytes → List (Component × Nat)
  | [] => []
  | part :: rest =>
    let stop := start + part.length
    match component? part with
    | some c => (c, stop) :: located (stop + 1) rest
    | none => located (stop + 1) rest

/-- The components of a path with the number of bytes up to the end of each. -/
def locatedComponents (p : Path) : List (Component × Nat) :=
  match p.parts with
  | [] => []
  | first :: rest =>
    if first = [] then
      if rest.isEmpty then [] else (.root, 1) :: located 1 rest
    else if first = dot then (.current, 1) :: located 2 rest
    else located 0 (first :: rest)

/-- The components of a path. -/
def components (p : Path) : List Component :=
  p.locatedComponents.map Prod.fst

/-- The path without its last component; the root and the empty path have none. -/
def parent? (p : Path) : Option Path :=
  match p.locatedComponents.reverse with
  | [] | (.root, _) :: _ => none
  | [_] => some ⟨[]⟩
  | _ :: (_, stop) :: _ => some ⟨p.bytes.take stop⟩

/-- The last component, if it is a name. -/
def fileName? (p : Path) : Option Bytes :=
  match p.components.getLast? with
  | some (.name n) => some n
  | _ => none

/-- The path `q` as seen from `p`: absolute paths stand for themselves. -/
def join (p q : Path) : Path :=
  if q.isAbsolute then q
  else if p.bytes.isEmpty ∨ p.bytes.getLast? = some slash then ⟨p.bytes ++ q.bytes⟩
  else ⟨p.bytes ++ slash :: q.bytes⟩

/-- The path with another last name, or with that name below it if it ends in none. -/
def withFileName (p : Path) (n : Bytes) : Path :=
  match p.fileName?, p.parent? with
  | some _, some parent => parent.join ⟨n⟩
  | _, _ => p.join ⟨n⟩

/-- Whether the components of `p` begin with those of `q`. -/
def startsWith (p q : Path) : Bool :=
  q.components.isPrefixOf p.components

/-- How a component is spelled. -/
def Component.bytes : Component → Bytes
  | root => [slash]
  | current => dot
  | up => dotDot
  | name n => n

/-- The spellings of the components that lead from a root to a path; of all components if the path
does not begin with the root. -/
def namesBelow (p root : Path) : List Bytes :=
  (if p.startsWith root then p.components.drop root.components.length
    else p.components).map Component.bytes

end Path

/-- A place in the tree of directories: the names on the way from the root. -/
abbrev Location := List Bytes

namespace Location

/-- The place reached from another by components; a step upwards from the root stays there. -/
def follow (here : Location) : List Path.Component → Location
  | [] => here
  | .root :: rest => follow [] rest
  | .current :: rest => follow here rest
  | .up :: rest => follow here.dropLast rest
  | .name n :: rest => follow (here ++ [n]) rest

/-- The place that a path names when no part of it is a link. -/
def ofPath (cwd : Location) (p : Path) : Location :=
  follow (if p.isAbsolute then [] else cwd) p.components

/-- The absolute path of a place. -/
def path (l : Location) : Path :=
  if l.isEmpty then ⟨[Path.slash]⟩ else ⟨l.flatMap fun n => Path.slash :: n⟩

/-- Whether one place lies at or below another. -/
def isWithin (l ancestor : Location) : Bool :=
  ancestor.isPrefixOf l

end Location

end CacheAudit
