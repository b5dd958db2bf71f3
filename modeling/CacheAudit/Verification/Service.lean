import CacheAudit.Verification.Plan
import CacheAudit.Disk.Basic
import CacheAudit.Journal

/-!
# The service under test

A service takes a request and answers it, or fails to, or crashes the run that called it.
Meanwhile it takes time and changes the disk.
-/

namespace CacheAudit

/-- How a service deals with a request. -/
inductive Answer
  | response (status : Nat) (success : Bool)
  | failed (f : Failure)
  | crashed

/-- What an invocation leaves behind: the answer, the time it took in nanoseconds, the disk, and
the events it recorded. -/
structure Reply where
  answer : Answer
  elapsedNs : Nat
  disk : Disk
  events : Journal := []

/-- A service, as a function of the request, the timeout and the disk. -/
abbrev Service := Request → Duration → Disk → Reply

end CacheAudit
