/-!
# Spans of time

A span of time is a number of seconds that is a machine word, and nanoseconds besides. It is told in
whole milliseconds, of which what the last one lacks is left out.
-/

namespace CacheAudit

/-- A span of time in nanoseconds. -/
structure Duration where
  nanos : Nat
  inRange : nanos < UInt64.size * 1000000000
deriving DecidableEq

namespace Duration

/-- A number of milliseconds. -/
def ofMillis (ms : UInt64) : Duration where
  nanos := ms.toNat * 1000000
  inRange := by
    have hword : ms.toNat < UInt64.size := ms.toNat_lt_size
    omega

/-- The longest span of time. -/
def max : Duration where
  nanos := UInt64.size * 1000000000 - 1
  inRange := by decide

/-- The whole milliseconds of a span of time. -/
def millis (t : Duration) : Nat :=
  t.nanos / 1000000

/-- The whole milliseconds of a span of time, of which a machine word keeps the last 64 bits. -/
def millisWord (t : Duration) : UInt64 :=
  UInt64.ofNat t.millis

end Duration

end CacheAudit
