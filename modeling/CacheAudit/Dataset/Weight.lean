import CacheAudit.Decimal.Reading
import CacheAudit.Text.Blank

/-!
# Weights

A weight is a finite number with an optional percent sign, and blanks around either.
-/

namespace CacheAudit.Dataset

/-- A text without one percent sign at its end. -/
def dropPercent (text : List Char) : List Char :=
  if text.getLast? = some '%' then text.dropLast else text

/-- The weight written by a cell. -/
def weight? (cell : List Char) : Option Float :=
  match Decimal.float? (Text.trim (dropPercent (Text.trim cell))) with
  | some w => if w.isFinite then some w else none
  | none => none

end CacheAudit.Dataset
