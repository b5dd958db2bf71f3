import CacheAudit.Bytes

/-!
# Identifiers of runs and requests

An identifier is a UUID of version 4: sixteen random bytes of which six bits say the version and
the variant, written as hexadecimal digits in groups.
-/

namespace CacheAudit.CommandLine

/-- A byte of an identifier, with the bits of version and variant in their places. -/
def markedByte (b : UInt8) (i : Nat) : UInt8 :=
  if i = 6 then (b &&& 0x0F) ||| 0x40
  else if i = 8 then (b &&& 0x3F) ||| 0x80
  else b

/-- The identifier made of sixteen random bytes. -/
def identifier (random : Bytes) : String :=
  let digits := (Bytes.hex (random.zipIdx.map fun (b, i) => markedByte b i)).toList
  let group (start length : Nat) : String := String.ofList ((digits.drop start).take length)
  "-".intercalate [group 0 8, group 8 4, group 12 4, group 16 4, group 20 12]

end CacheAudit.CommandLine
