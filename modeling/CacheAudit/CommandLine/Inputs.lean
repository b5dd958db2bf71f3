import CacheAudit.CommandLine.Arguments
import CacheAudit.CommandLine.Execution

/-!
# Inputs of commands

Which paths a command will look at, as far as that can be told from the files that are known
already: the configuration of a verification run names further files.
-/

namespace CacheAudit.CommandLine

/-- The paths that a verification run with a configuration looks at. -/
def configurationPaths (c : Configuration) : List Path :=
  [c.root, c.firstPayload, c.secondPayload] ++ c.reportDir.toList

namespace Command

/-- The paths that a command looks at. -/
def paths (d : Disk) : Command → List Path
  | .capture c => c.root :: c.out.toList
  | .diff c => [c.before, c.after]
  | .reconcile c => [c.reference, c.candidate] ++ c.out.toList
  | .verify c => c.configuration :: match c.configured d with
    | .ok found => configurationPaths found
    | .error _ => []

/-- The tree that a command walks or empties. -/
def tree? (d : Disk) : Command → Option Path
  | .capture c => some c.root
  | .verify c =>
    match c.configured d with
    | .ok found => some found.root
    | .error _ => none
  | .diff _ | .reconcile _ => none

end Command

end CacheAudit.CommandLine
