import CacheAudit.CommandLine.Identifier
import CacheAudit.CommandLine.Inputs
import CacheAudit.Disk.Changes
import Std.Time.DateTime.Timestamp

/-!
# The program

Brings the files that a command looks at into a disk, carries the command out there, and does to
the machine's files what the command did to the disk's. The names of the files in the tree that a
command walks or empties are taken from standard input, one to a line.
-/

namespace CacheAudit.CommandLine

/-- The code by which the system reports that a directory was read like a file. -/
def directoryCode : UInt32 := 21

/-- What stands at a path of the machine, if anything can be read there. -/
def probe (d : Disk) (p : Path) : IO (Option Entry) := do
  match ← (IO.FS.readBinFile p.display).toBaseIO with
  | .ok content => return some (.file content.toList d.now)
  | .error (.inappropriateType _ code _) =>
    return if code == directoryCode then some .directory else none
  | .error _ => return none

/-- The disk with what stands on the way to a path and at the path itself. -/
def load (d : Disk) (p : Path) : IO Disk := do
  let goal := Location.ofPath d.cwd p
  (List.range goal.length).foldlM (fun d i => do
    let place := goal.take (i + 1)
    match ← probe d (Location.path place) with
    | some e => return d.install place e
    | none => return d) d

/-- The lines of standard input. -/
partial def inputLines (stdin : IO.FS.Stream) : IO (List String) := do
  let line ← stdin.getLine
  if line.isEmpty then return []
  return line.trimAscii.toString :: (← inputLines stdin)

/-- The disk with everything that a command looks at. -/
def loadFor (c : Command) (d : Disk) : IO Disk := do
  let d ← (c.paths d).foldlM load d
  let d ← (c.paths d).foldlM load d
  match c.tree? d with
  | none => return d
  | some root =>
    let names := (← inputLines (← IO.getStdin)).filter fun name => !name.isEmpty
    names.foldlM (fun d name => load d (root.join (.ofString name))) d

/-- Does a change to the machine's files. A file gets its content in one step, and a directory
that holds files unknown to the command stays. -/
def perform : Change → IO Unit
  | .removeFile p => IO.FS.removeFile p.display
  | .removeDirectory p => do
    let _ ← (IO.FS.removeDir p.display).toBaseIO
  | .makeDirectory p => IO.FS.createDirAll p.display
  | .writeFile p content => do
    IO.FS.writeBinFile p.temporary.display ⟨content.toArray⟩
    IO.FS.rename p.temporary.display p.display
  | .makeLink .. => return

/-- The machine at this moment. -/
def thisMachine : IO Machine := do
  let random (_ : Unit) : IO String := return identifier (← IO.getRandomBytes 16).toList
  let now : SystemTime := ⟨(← Std.Time.Timestamp.now).toNanosecondsSinceUnixEpoch.val⟩
  return { processors := 1
           runId := ← random ()
           firstId := ← random ()
           secondId := ← random ()
           now := (Timestamp.ofSystem? now).getD .epoch }

/-- Carries out the command that arguments call for, and answers its exit code. -/
def run (arguments : List String) : IO UInt32 := do
  match Command.ofArguments? arguments with
  | none =>
    IO.eprintln "Usage: snapshot capture | snapshot diff | reconcile | verify"
    return 2
  | some c =>
    let m ← thisMachine
    let here := Location.ofPath [] (.ofString (toString (← IO.currentDir)))
    let d ← loadFor c { cwd := here, now := m.now }
    let done := c.run m d
    (d.changes done.disk).forM perform
    IO.print done.output
    done.messages.forM IO.eprintln
    return done.exitCode.toUInt32

end CacheAudit.CommandLine

/-- The program. -/
def main (arguments : List String) : IO UInt32 :=
  CacheAudit.CommandLine.run arguments
