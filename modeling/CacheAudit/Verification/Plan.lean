import CacheAudit.Duration
import CacheAudit.Json.Basic
import CacheAudit.Path

/-!
# Plans of verification runs

A plan says which root is watched, which two workloads are sent to the service under test, and
how long everything may take.
-/

namespace CacheAudit

/-- Everything that one run needs to know. -/
structure Plan where
  root : Path
  firstPayload : Json
  secondPayload : Json
  period : String
  endDate : String
  gracePeriod : Duration
  invocationTimeout : Duration
  captureTimeout : Duration
  workers : Nat
  cleanupOnExit : Bool

/-- One workload sent to the service under test. -/
structure Request where
  payload : Json
  period : String
  id : String
  endDate : String

namespace Plan

/-- The request for a workload of the plan. -/
def request (p : Plan) (payload : Json) (id : String) : Request :=
  ⟨payload, p.period, id, p.endDate⟩

end Plan

end CacheAudit
