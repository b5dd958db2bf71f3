import CacheAudit.Reconciliation.Weights

/-!
# Reconciliation reports as text

One line for each mismatching key, then the keys on one side only, then the summary line. The
log of weights has no lines for one-sided keys.
-/

namespace CacheAudit

/-- A set in braces. -/
def braced (s : StringSet) : String :=
  "\x7b" ++ ", ".intercalate s.toList ++ "\x7d"

namespace Reconciliation

/-- The line of a mismatching key. -/
def mismatchLine (r : Reconciliation) (c : KeyComparison) : String :=
  let side (title : String) (s : StringSet) : String :=
    if s.isEmpty then "" else title ++ " " ++ r.candidateLabel ++ ": " ++ braced s
  "Key: " ++ c.key ++ ", " ++ r.referenceLabel ++ ": " ++ braced c.reference ++ " " ++
    r.candidateLabel ++ ": " ++ braced c.candidate ++ side " Missing from" c.missing ++
    side " Extra in" c.extra ++ " Percentage Difference: " ++
    (c.percentDifference.map Decimal.hundredths).getD "N/A" ++ "\n"

/-- The line of the keys on one side only. -/
def oneSidedLine (label : String) (keys : List String) : String :=
  if keys.isEmpty then "" else "Keys only in " ++ label ++ ": " ++ ", ".intercalate keys ++ "\n"

/-- The report as text. -/
def textLog (r : Reconciliation) : String :=
  String.join (r.mismatches.map r.mismatchLine) ++
    oneSidedLine r.referenceLabel r.referenceOnlyKeys ++
    oneSidedLine r.candidateLabel r.candidateOnlyKeys ++ r.summaryLine ++ "\n"

end Reconciliation

namespace WeightReconciliation

/-- A weight with two decimals, or a dash for a side that lacks the member. -/
def weightText (w : Option Float) : String :=
  (w.map Decimal.hundredths).getD "-"

/-- The line of a mismatching key. -/
def mismatchLine (r : WeightReconciliation) (m : WeightMismatch) : String :=
  let delta (d : WeightDelta) : String :=
    d.member ++ " " ++ weightText d.reference ++ " vs " ++ weightText d.candidate
  "Key: " ++ m.key ++ ", " ++ r.referenceLabel ++ " vs " ++ r.candidateLabel ++ ": " ++
    "; ".intercalate (m.deltas.map delta) ++ "\n"

/-- The report as text. -/
def textLog (r : WeightReconciliation) : String :=
  String.join (r.mismatches.map r.mismatchLine) ++ r.summaryLine ++ "\n"

end WeightReconciliation

end CacheAudit
