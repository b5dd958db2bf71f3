/-!
# White space, words and lines

White space is the Unicode property `White_Space`. Cells of a table and lines of a log are
trimmed of it, and the fields of a log line are the words between it.
-/

namespace CacheAudit.Text

/-- The characters with the Unicode property `White_Space`. -/
def isBlank (c : Char) : Bool :=
  (9 ≤ c.toNat && c.toNat ≤ 13) || c.toNat == 0x20 || c.toNat == 0x85 || c.toNat == 0xA0 ||
    c.toNat == 0x1680 || (0x2000 ≤ c.toNat && c.toNat ≤ 0x200A) || c.toNat == 0x2028 ||
    c.toNat == 0x2029 || c.toNat == 0x202F || c.toNat == 0x205F || c.toNat == 0x3000

/-- Without the blanks at the end. -/
def trimEnd (text : List Char) : List Char :=
  (text.reverse.dropWhile isBlank).reverse

/-- Without the blanks at both ends. -/
def trim (text : List Char) : List Char :=
  trimEnd (text.dropWhile isBlank)

/-- A text cut at the characters that satisfy a test, which belong to no segment. -/
def segments (cutAt : Char → Bool) (text : List Char) : List (List Char) :=
  text.foldr
    (fun c done => if cutAt c then [] :: done else match done with
      | [] => [[c]]
      | segment :: rest => (c :: segment) :: rest)
    [[]]

/-- The maximal stretches without a blank. -/
def words (text : List Char) : List (List Char) :=
  (segments isBlank text).filter fun w => !w.isEmpty

/-- The lines of a text: the stretches between line feeds; what follows the last one counts
unless it is empty. A carriage return is a blank and stays in its line. -/
def lines (text : List Char) : List (List Char) :=
  let all := segments (· == '\n') text
  if all.getLast? = some [] then all.dropLast else all

/-- Whether `part` occurs in `text` as a contiguous stretch. -/
def contains (part : List Char) : List Char → Bool
  | [] => part.isEmpty
  | c :: rest => part.isPrefixOf (c :: rest) || contains part rest

end CacheAudit.Text
