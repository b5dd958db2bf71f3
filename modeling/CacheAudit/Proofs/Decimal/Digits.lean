import CacheAudit.Decimal.Reading
import CacheAudit.Decimal.Shortest
import Mathlib.Algebra.Group.Nat.Defs

/-!
# Digits of natural numbers

Writing a number in decimal digits and reading the digits gives the number back. The digits have no
zero in front unless there is just one, and zeros put in front of them do not change their value.
-/

namespace CacheAudit.Decimal

theorem digit?_eq_of_isDigit {c : Char} (h : c.isDigit = true) :
    digit? c = some (c.toNat - 48) := by
  have hbounds : '0' ≤ c ∧ c ≤ '9' := by
    simpa [Char.isDigit, Char.le_def] using h
  rw [digit?, if_pos hbounds]

theorem isDigit_of_isDigit {c : Char} (h : c.isDigit = true) : isDigit c = true := by
  rw [isDigit, digit?_eq_of_isDigit h]
  rfl

theorem isDigit_digitsOf {n : Nat} {c : Char} (h : c ∈ digitsOf n) : isDigit c = true :=
  isDigit_of_isDigit (Nat.isDigit_of_mem_toDigits (by decide) (by decide) h)

theorem digitsOf_ne_nil (n : Nat) : digitsOf n ≠ [] :=
  Nat.toDigits_ne_nil

theorem digitsOf_of_lt {n : Nat} (h : n < 10) : digitsOf n = [n.digitChar] :=
  Nat.toDigits_of_lt_base h

theorem digitsOf_of_le {n : Nat} (h : 10 ≤ n) :
    digitsOf n = digitsOf (n / 10) ++ [(n % 10).digitChar] :=
  Nat.toDigits_of_base_le (by decide) h

theorem length_digitsOf_le {n width : Nat} (hwidth : 0 < width) (h : n < 10 ^ width) :
    (digitsOf n).length ≤ width :=
  (Nat.length_toDigits_le_iff (by decide) hwidth).2 h

theorem digitsValue_append (ds : List Char) (c : Char) :
    digitsValue (ds ++ [c]) = digitsValue ds * 10 + (digit? c).getD 0 := by
  rw [digitsValue, List.foldl_append]
  rfl

theorem digit?_digitChar {n : Nat} (h : n < 10) : digit? n.digitChar = some n := by
  have hdigit : n.digitChar.isDigit = true := by simpa [Nat.isDigit_digitChar] using h
  rw [digit?_eq_of_isDigit hdigit, Nat.toNat_digitChar_of_lt_ten h, Nat.add_sub_cancel_left]

theorem digitsValue_digitsOf (n : Nat) : digitsValue (digitsOf n) = n := by
  induction n using Nat.strongRecOn with
  | ind n ih =>
    by_cases h : n < 10
    · rw [digitsOf_of_lt h]
      simp [digitsValue, digit?_digitChar h]
    · have hlast : n % 10 < 10 := Nat.mod_lt _ (by decide)
      rw [digitsOf_of_le (by omega), digitsValue_append, ih (n / 10) (by omega),
        digit?_digitChar hlast, Option.getD_some]
      omega

/-- A positive number is written without a zero in front. -/
theorem head?_digitsOf_ne {n : Nat} (h : 0 < n) : (digitsOf n).head? ≠ some '0' := by
  induction n using Nat.strongRecOn with
  | ind n ih =>
    by_cases hlt : n < 10
    · rw [digitsOf_of_lt hlt, List.head?_cons]
      intro heq
      have hzero := digit?_digitChar hlt
      rw [Option.some.inj heq] at hzero
      have hn : n = 0 := (Option.some.inj hzero).symm
      omega
    · have hsome : (digitsOf (n / 10)).head?.isSome = true := by simp [digitsOf_ne_nil]
      rw [digitsOf_of_le (by omega), List.head?_append, Option.or_of_isSome hsome]
      exact ih (n / 10) (by omega) (by omega)

/-- A text without a digit at its beginning. -/
def NoDigitAhead (rest : List Char) : Prop :=
  ∀ c, rest.head? = some c → isDigit c = false

theorem takeWhile_digits {ds : List Char} (hds : ∀ c ∈ ds, isDigit c = true) {rest : List Char}
    (hrest : NoDigitAhead rest) : (ds ++ rest).takeWhile isDigit = ds := by
  rw [List.takeWhile_append_of_pos hds]
  cases rest with
  | nil => simp
  | cons c rest => simp [hrest c rfl]

end CacheAudit.Decimal
