import CacheAudit.Path
import CacheAudit.Timestamp

/-!
# The file system

A disk holds files, directories and symbolic links at places below the root. Paths are resolved
part by part as the operating system does: links are followed, every part but the last must lead
to a directory, and names and paths have a greatest length. Operations either change the disk or
fail with a system error and leave it alone, unless they say otherwise.
-/

namespace CacheAudit

/-- Why the operating system refuses an operation: for a reason that lies in what the disk holds,
or for one of its own. -/
inductive SystemError
  | noEntry
  | busy
  | fileExists
  | notDirectory
  | isDirectory
  | invalidArgument
  | nameTooLong
  | notEmpty
  | tooManyLinks
  | other (code : Nat) (text : String)
deriving DecidableEq, Repr

/-- The wording of a system error. -/
def SystemError.message : SystemError → String
  | noEntry => "No such file or directory (os error 2)"
  | busy => "Device or resource busy (os error 16)"
  | fileExists => "File exists (os error 17)"
  | notDirectory => "Not a directory (os error 20)"
  | isDirectory => "Is a directory (os error 21)"
  | invalidArgument => "Invalid argument (os error 22)"
  | nameTooLong => "File name too long (os error 36)"
  | notEmpty => "Directory not empty (os error 39)"
  | tooManyLinks => "Too many levels of symbolic links (os error 40)"
  | other code text => text ++ " (os error " ++ toString code ++ ")"

/-- What stands at a place. -/
inductive Entry
  | file (content : Bytes) (modified : Timestamp)
  | directory
  | link (target : Path)
deriving DecidableEq

/-- The files, directories and links of a machine, in the order in which directories list them,
with the directory in which relative paths start and the time that new files get. -/
structure Disk where
  cwd : Location := []
  now : Timestamp := .epoch
  entries : List (Location × Entry) := []

namespace Disk

/-- What stands at a place; the root is always a directory. -/
def entry? (d : Disk) (l : Location) : Option Entry :=
  if l.isEmpty then some .directory else (d.entries.find? fun e => e.1 == l).map Prod.snd

/-- The disk with something put at a place. -/
def put (d : Disk) (l : Location) (e : Entry) : Disk :=
  if d.entries.any fun f => f.1 == l then
    { d with entries := d.entries.map fun f => if f.1 == l then (l, e) else f }
  else { d with entries := d.entries ++ [(l, e)] }

/-- The disk without what stands at a place. -/
def erase (d : Disk) (l : Location) : Disk :=
  { d with entries := d.entries.filter fun f => f.1 != l }

/-- The disk without what stands at or below a place. -/
def eraseTree (d : Disk) (l : Location) : Disk :=
  { d with entries := d.entries.filter fun f => !f.1.isWithin l }

/-- The names in a directory with what they stand for. -/
def children (d : Disk) (l : Location) : List (Bytes × Entry) :=
  d.entries.filterMap fun (m, e) =>
    match m.getLast? with
    | some n => if m.dropLast = l then some (n, e) else none
    | none => none

/-- The greatest length of a name. -/
def nameLimit : Nat := 255

/-- The length from which on a path is too long. -/
def pathLimit : Nat := 4096

/-- The number of links that one path may follow. -/
def linkLimit : Nat := 40

/-- The parts of a path that the system looks up one after the other: all but the empty ones. -/
def steps (p : Path) : List Bytes :=
  p.parts.filter fun part => !part.isEmpty

/-- Whether a path ends in a slash. -/
def endsInSlash (p : Path) : Bool :=
  p.bytes.getLast? == some Path.slash

/-- The parts to look up for something that must be a directory if its path ends in a slash. -/
def strictSteps (p : Path) : List Bytes :=
  if endsInSlash p then steps p ++ [Path.dot] else steps p

/-- Where a lookup ends: at something, or at a name that is free in a directory. -/
inductive Place
  | found (l : Location) (e : Entry)
  | free (l : Location)

/-- Looks parts up from a place that stands for `entry`. A link at the very end is followed when
`follow` says so. -/
def lookup (d : Disk) (follow : Bool) (links : Nat) (here : Location) (entry : Entry)
    (parts : List Bytes) : Except SystemError Place :=
  match parts with
  | [] => .ok (.found here entry)
  | part :: rest =>
    match entry with
    | .directory =>
      if part = Path.dot then d.lookup follow links here .directory rest
      else if part = Path.dotDot then d.lookup follow links here.dropLast .directory rest
      else if nameLimit < part.length then .error .nameTooLong
      else
        let there := here ++ [part]
        match d.entry? there with
        | none => if rest.isEmpty then .ok (.free there) else .error .noEntry
        | some (.link target) =>
          if rest.isEmpty && !follow then .ok (.found there (.link target))
          else match links with
            | 0 => .error .tooManyLinks
            | links + 1 =>
              if target.bytes.isEmpty then .error .noEntry
              else
                let start := if target.isAbsolute then [] else here
                d.lookup follow links start .directory (strictSteps target ++ rest)
        | some e => d.lookup follow links there e rest
    | _ => .error .notDirectory
termination_by (links, parts.length)

/-- Where a path leads, given the parts to look up. -/
def resolveSteps (d : Disk) (follow : Bool) (p : Path) (parts : List Bytes) :
    Except SystemError Place :=
  if p.bytes.isEmpty then .error .noEntry
  else if pathLimit ≤ p.bytes.length then .error .nameTooLong
  else d.lookup follow linkLimit (if p.isAbsolute then [] else d.cwd) .directory parts

/-- Where a path leads, following links to the end. -/
def resolve (d : Disk) (p : Path) : Except SystemError Place :=
  d.resolveSteps true p (strictSteps p)

/-- What a path leads to, following links to the end. -/
def follow (d : Disk) (p : Path) : Except SystemError (Location × Entry) :=
  match d.resolve p with
  | .ok (.found l e) => .ok (l, e)
  | .ok (.free _) => .error .noEntry
  | .error e => .error e

/-- Whether a path leads to a directory. -/
def isDirectory (d : Disk) (p : Path) : Bool :=
  match d.follow p with
  | .ok (_, .directory) => true
  | _ => false

/-- The content of a file and its modification time. -/
def open? (d : Disk) (p : Path) : Except SystemError (Bytes × Timestamp) :=
  match d.follow p with
  | .ok (_, .file content modified) => .ok (content, modified)
  | .ok _ => .error .isDirectory
  | .error e => .error e

/-- The content of a file. -/
def read (d : Disk) (p : Path) : Except SystemError Bytes :=
  (d.open? p).map Prod.fst

/-- The last part of a path when it is one of the dots. -/
def lastDots? (p : Path) : Option Bytes :=
  match (steps p).getLast? with
  | some part => if part = Path.dot ∨ part = Path.dotDot then some part else none
  | none => none

/-- The disk with a file of the given content at a path. A path that ends in a slash names no
file. -/
def write (d : Disk) (p : Path) (content : Bytes) : Except SystemError Disk :=
  match d.resolveSteps true p (steps p) with
  | .error e => .error e
  | .ok (.found l (.file ..)) | .ok (.free l) =>
    if endsInSlash p then .error .isDirectory else .ok (d.put l (.file content d.now))
  | .ok (.found ..) => .error .isDirectory

/-- The disk with a new directory at a path. -/
def makeDirectory (d : Disk) (p : Path) : Except SystemError Disk :=
  match d.resolveSteps false p (steps p) with
  | .error e => .error e
  | .ok (.found ..) => .error .fileExists
  | .ok (.free l) => .ok (d.put l .directory)

/-- The disk with a directory at a path and all directories above it, and the error that stopped
the work. Directories made on the way stay. -/
def makeDirectories (d : Disk) (p : Path) : Nat → Disk × Except SystemError Unit
  | 0 => (d, .error .noEntry)
  | fuel + 1 =>
    if p.bytes.isEmpty then (d, .ok ())
    else match d.makeDirectory p with
      | .ok d => (d, .ok ())
      | .error .noEntry =>
        match p.parent? with
        | none => (d, .error .noEntry)
        | some parent =>
          match d.makeDirectories parent fuel with
          | (d, .error e) => (d, .error e)
          | (d, .ok ()) =>
            match d.makeDirectory p with
            | .ok d => (d, .ok ())
            | .error e => if d.isDirectory p then (d, .ok ()) else (d, .error e)
      | .error e => if d.isDirectory p then (d, .ok ()) else (d, .error e)

/-- The disk with a directory at a path and all directories above it. -/
def createDirectories (d : Disk) (p : Path) : Disk × Except SystemError Unit :=
  d.makeDirectories p (p.bytes.length + 1)

/-- The disk without the file or link at a path. -/
def unlink (d : Disk) (p : Path) : Except SystemError Disk :=
  match d.resolveSteps false p (strictSteps p) with
  | .error e => .error e
  | .ok (.free _) => .error .noEntry
  | .ok (.found _ .directory) => .error .isDirectory
  | .ok (.found l _) => .ok (d.erase l)

/-- The disk without the empty directory at a path. The path is looked up to its last part, which
must be a name. -/
def removeDirectory (d : Disk) (p : Path) : Except SystemError Disk :=
  if steps p = [] then .error (if p.bytes.isEmpty then .noEntry else .busy)
  else match d.resolveSteps true p (steps p).dropLast with
    | .error e => .error e
    | .ok (.free _) => .error .noEntry
    | .ok (.found _ (.file ..)) | .ok (.found _ (.link _)) => .error .notDirectory
    | .ok (.found _ .directory) =>
      match lastDots? p with
      | some part => .error (if part = Path.dot then .invalidArgument else .notEmpty)
      | none =>
        match d.resolveSteps false p (steps p) with
        | .error e => .error e
        | .ok (.free _) => .error .noEntry
        | .ok (.found l .directory) =>
          if (d.children l).isEmpty then .ok (d.erase l) else .error .notEmpty
        | .ok (.found ..) => .error .notDirectory

/-- The disk without what lies below a place. -/
def clear (d : Disk) (l : Location) : Disk :=
  { d with entries := d.entries.filter fun f => f.1 == l || !f.1.isWithin l }

/-- The disk without the directory at a path and all that it holds; a link at the path goes
alone. The directory is emptied first and then removed by its path, so one whose path ends in
dots, or leads through what it held, is emptied and stays. -/
def removeTree (d : Disk) (p : Path) : Disk × Except SystemError Unit :=
  match d.resolveSteps false p (strictSteps p) with
  | .error e => (d, .error e)
  | .ok (.free _) => (d, .error .noEntry)
  | .ok (.found _ (.file ..)) => (d, .error .notDirectory)
  | .ok (.found l (.link _)) => (d.erase l, .ok ())
  | .ok (.found l .directory) =>
    let emptied := d.clear l
    match emptied.removeDirectory p with
    | .ok d => (d, .ok ())
    | .error e => (emptied, .error e)

/-- The disk with everything at or below one place moved to another, which is given up. -/
def moveTree (d : Disk) (source target : Location) : Disk :=
  let kept := (d.eraseTree target).entries
  { d with
    entries := kept.map fun (l, e) =>
      if l.isWithin source then (target ++ l.drop source.length, e) else (l, e) }

/-- The disk with what stands at one path moved to another. A file replaces a file or link; a
directory replaces an empty directory. -/
def rename (d : Disk) (source target : Path) : Except SystemError Disk := do
  let sourcePlace ← d.resolveSteps false source (steps source)
  let targetPlace ← d.resolveSteps false target (steps target)
  if (lastDots? source).isSome ∨ (lastDots? target).isSome ∨ steps source = [] ∨
      steps target = [] then throw .busy
  match sourcePlace with
  | .free _ => throw .noEntry
  | .found origin e =>
    let directory : Bool := e = .directory
    if !directory ∧ (endsInSlash source ∨ endsInSlash target) then throw .notDirectory
    match targetPlace with
    | .free goal =>
      if directory ∧ goal.isWithin origin then throw .invalidArgument
      return d.moveTree origin goal
    | .found goal old =>
      if goal = origin then return d
      if directory ∧ goal.isWithin origin then throw .invalidArgument
      if origin.isWithin goal then throw .notEmpty
      match directory, old with
      | true, .directory =>
        if !(d.children goal).isEmpty then throw .notEmpty
        return d.moveTree origin goal
      | true, _ => throw .notDirectory
      | false, .directory => throw .isDirectory
      | false, _ => return d.moveTree origin goal

/-- The disk with a new link at a path. -/
def makeLink (d : Disk) (target p : Path) : Except SystemError Disk :=
  match d.resolveSteps false p (steps p) with
  | .error e => .error e
  | .ok (.found ..) => .error .fileExists
  | .ok (.free l) => if endsInSlash p then .error .noEntry else .ok (d.put l (.link target))

end Disk

end CacheAudit
