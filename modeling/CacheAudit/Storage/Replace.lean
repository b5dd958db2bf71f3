import CacheAudit.Disk.Basic
import CacheAudit.Failure

/-!
# Replacing a file in one step

A file is replaced by writing its new content to a temporary file beside it, which then takes its
name. The replacement is a plan of disk actions, carried out in order up to the first that
fails; so it can be said what the target holds after any number of them.
-/

namespace CacheAudit

/-- An action that changes the disk. -/
inductive DiskAction
  | createDirectories (path : Path)
  | write (path : Path) (content : Bytes)
  | rename (source target : Path)
deriving DecidableEq

namespace DiskAction

/-- What an action does. -/
def run (d : Disk) : DiskAction → Disk × Except SystemError Unit
  | createDirectories path => d.createDirectories path
  | write path content =>
    match d.write path content with
    | .ok d => (d, .ok ())
    | .error e => (d, .error e)
  | rename source target =>
    match d.rename source target with
    | .ok d => (d, .ok ())
    | .error e => (d, .error e)

/-- The operation that a failure of an action names. -/
def op : DiskAction → String
  | createDirectories _ => "create_report_dir"
  | write .. => "write_temp"
  | rename .. => "rename_temp"

/-- The path that a failure of an action names. -/
def path : DiskAction → Path
  | createDirectories path => path
  | write path _ => path
  | rename _ target => target

/-- The failure of an action. -/
def failure (a : DiskAction) (e : SystemError) : Failure :=
  { kind := .io, op := some a.op, path := some a.path.display, message := e.message }

/-- Carries actions out in order, up to the first that fails. -/
def runAll (d : Disk) : List DiskAction → Disk × Except Failure Unit
  | [] => (d, .ok ())
  | a :: rest =>
    match a.run d with
    | (d, .ok ()) => runAll d rest
    | (d, .error e) => (d, .error (a.failure e))

end DiskAction

/-- The ending of a temporary file's name. -/
def temporaryEnding : Bytes := [46, 116, 109, 112]

/-- The temporary file beside a target. -/
def Path.temporary (target : Path) : Path :=
  target.withFileName (target.fileName?.getD [] ++ temporaryEnding)

/-- The plan that gives a target new content: the directory above it, the temporary file, and
the change of its name. -/
def replacement (target : Path) (content : Bytes) : List DiskAction :=
  let directory := match target.parent? with
    | some parent => if parent.bytes.isEmpty then [] else [.createDirectories parent]
    | none => []
  directory ++ [.write target.temporary content, .rename target.temporary target]

/-- The disk with new content in a target file. -/
def Disk.replace (d : Disk) (target : Path) (content : Bytes) : Disk × Except Failure Unit :=
  DiskAction.runAll d (replacement target content)

end CacheAudit
