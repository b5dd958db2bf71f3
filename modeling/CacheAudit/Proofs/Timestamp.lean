import CacheAudit.Proofs.Decimal.Digits
import CacheAudit.Timestamp

/-!
# Moments are read back as they were written

Every part of a moment is written with a known number of digits and followed by a mark, so each
reader takes just what its part left. The offset is `Z`, and taking it off changes nothing.
-/

namespace CacheAudit.Timestamp

open Calendar Decimal

theorem isDigit_padded {width n : Nat} {c : Char} (h : c ∈ padded width n) : isDigit c = true := by
  rcases List.mem_append.1 h with hzero | hdigit
  · rw [List.eq_of_mem_replicate hzero]
    rfl
  · exact isDigit_digitsOf hdigit

theorem digitsValue_padded (width n : Nat) : digitsValue (padded width n) = n := by
  have hzeros (k : Nat) (ds : List Char) :
      digitsValue (List.replicate k '0' ++ ds) = digitsValue ds := by
    induction k with
    | zero => rfl
    | succ k ih => exact ih
  show digitsValue (List.replicate _ '0' ++ digitsOf n) = n
  rw [hzeros, digitsValue_digitsOf]

theorem length_padded {width n : Nat} (hwidth : 0 < width) (h : n < 10 ^ width) :
    (padded width n).length = width := by
  have hlength := length_digitsOf_le hwidth h
  show (List.replicate _ '0' ++ digitsOf n).length = width
  rw [List.length_append, List.length_replicate]
  omega

theorem padded_ne_nil (width n : Nat) : padded width n ≠ [] :=
  List.append_ne_nil_of_right_ne_nil _ (digitsOf_ne_nil n)

theorem not_isBlank_of_isDigit {c : Char} (h : isDigit c = true) : Text.isBlank c = false := by
  have hbounds : 48 ≤ c.toNat ∧ c.toNat ≤ 57 := by
    unfold isDigit digit? at h
    split at h
    · rename_i hc
      exact ⟨UInt32.le_iff_toNat_le.1 hc.1, UInt32.le_iff_toNat_le.1 hc.2⟩
    · cases h
  simp only [Text.isBlank, Bool.or_eq_false_iff, Bool.and_eq_false_iff, decide_eq_false_iff_not,
    beq_eq_false_iff_ne]
  omega

theorem skipBlanks_cons {c : Char} (h : Text.isBlank c = false) (rest : List Char) :
    skipBlanks (c :: rest) = c :: rest := by
  simp [skipBlanks, h]

theorem skipBlanks_padded (width n : Nat) (rest : List Char) :
    skipBlanks (padded width n ++ rest) = padded width n ++ rest := by
  obtain ⟨c, cs, hcons⟩ := List.exists_cons_of_ne_nil (padded_ne_nil width n)
  have hdigit : isDigit c = true := isDigit_padded (hcons ▸ List.mem_cons_self)
  rw [hcons, List.cons_append, skipBlanks_cons (not_isBlank_of_isDigit hdigit)]

theorem mark?_self {c : Char} (h : Text.isBlank c = false) (rest : List Char) :
    mark? c (c :: rest) = some rest := by
  rw [mark?, skipBlanks_cons h]
  exact if_pos rfl

theorem number?_padded (width n : Nat) (hwidth : 0 < width) (h : n < 10 ^ width)
    (rest : List Char) : number? width (padded width n ++ rest) = some (n, rest) := by
  have hlength := length_padded hwidth h
  have htake : ((padded width n ++ rest).take width).takeWhile isDigit = padded width n := by
    have hnil : NoDigitAhead [] := by
      rintro c ⟨⟩
    have hall : (padded width n ++ []).takeWhile isDigit = padded width n :=
      takeWhile_digits (fun c hc => isDigit_padded hc) hnil
    rw [List.take_left' hlength]
    rwa [List.append_nil] at hall
  have hnonempty : (padded width n).isEmpty = false := by
    simp [padded_ne_nil]
  unfold number?
  simp only [skipBlanks_padded, htake, hnonempty, digitsValue_padded, List.drop_left]
  rfl

/-- A year is read back whether it has a sign or not. -/
theorem year?_yearText (year : Int) (rest : List Char) :
    year? (yearText year ++ '-' :: rest) = some (year, '-' :: rest) := by
  have hahead : NoDigitAhead ('-' :: rest) := by
    rintro c ⟨⟩
    rfl
  have hdigits (n : Nat) : (padded 4 n ++ '-' :: rest).takeWhile isDigit = padded 4 n :=
    takeWhile_digits (fun c hc => isDigit_padded hc) hahead
  have hnonempty (n : Nat) : (padded 4 n).isEmpty = false := by
    simp [padded_ne_nil]
  unfold yearText
  split
  · -- four digits, the first of which is no sign
    rename_i hyear
    have hnumber := number?_padded 4 year.natAbs (by decide) (by omega) ('-' :: rest)
    obtain ⟨c, cs, hcons⟩ := List.exists_cons_of_ne_nil (padded_ne_nil 4 year.natAbs)
    have hdigit : isDigit c = true := isDigit_padded (hcons ▸ List.mem_cons_self)
    have hminus : c ≠ '-' := by
      rintro rfl
      cases hdigit
    have hplus : c ≠ '+' := by
      rintro rfl
      cases hdigit
    have hcast : ((year.natAbs : Nat) : Int) = year := by omega
    simp only [year?, skipBlanks_padded]
    rw [hcons, List.cons_append] at hnumber ⊢
    split
    · rename_i heq
      exact absurd (List.cons.inj heq).1 hminus
    · rename_i heq
      exact absurd (List.cons.inj heq).1 hplus
    · rw [hnumber]
      simp [hcast]
  · rename_i hyear
    by_cases hnegative : year < 0
    · have hcast : -((year.natAbs : Nat) : Int) = year := by omega
      simp only [year?, hnegative, if_true, List.cons_append,
        skipBlanks_cons (c := '-') (by decide), hdigits, hnonempty, digitsValue_padded, hcast]
      simp
    · have hcast : ((year.natAbs : Nat) : Int) = year := by omega
      simp only [year?, hnegative, if_false, List.cons_append,
        skipBlanks_cons (c := '+') (by decide), hdigits, hnonempty, digitsValue_padded, hcast]
      simp

theorem nanos?_point {width n : Nat} (hwidth : 0 < width) (hnine : width ≤ 9)
    (h : n < 10 ^ width) {rest : List Char} (hrest : NoDigitAhead rest) :
    nanos? ('.' :: padded width n ++ rest) = some (n * 10 ^ (9 - width), rest) := by
  have hdigits : (padded width n ++ rest).takeWhile isDigit = padded width n :=
    takeWhile_digits (fun c hc => isDigit_padded hc) hrest
  have hnonempty : (padded width n).isEmpty = false := by simp [padded_ne_nil]
  have hlength := length_padded hwidth h
  have htake : (padded width n).take 9 = padded width n := List.take_of_length_le (by omega)
  have hdrop : (padded width n ++ rest).drop (padded width n).length = rest := List.drop_left
  simp only [nanos?, List.cons_append, hdigits, hnonempty, htake, digitsValue_padded, hdrop]
  simp [hlength]

/-- A fraction of a second is read back, however many digits it was written with. -/
theorem nanos?_fraction {nanos : Nat} (h : nanos < 1000000000) :
    nanos? (fraction nanos ++ ['Z']) = some (nanos, ['Z']) := by
  have hahead : NoDigitAhead ['Z'] := by
    rintro c ⟨⟩
    rfl
  unfold fraction
  split
  · rename_i hzero
    subst hzero
    rfl
  · split
    · have hvalue : nanos / 1000000 * 10 ^ (9 - 3) = nanos := by omega
      rw [nanos?_point (by decide) (by decide) (by omega) hahead, hvalue]
    · split
      · have hvalue : nanos / 1000 * 10 ^ (9 - 6) = nanos := by omega
        rw [nanos?_point (by decide) (by decide) (by omega) hahead, hvalue]
      · have hvalue : nanos * 10 ^ (9 - 9) = nanos := by omega
        rw [nanos?_point (by decide) (by decide) (by omega) hahead, hvalue]

theorem Date.day_le (d : Date) (h : d.isValid = true) : d.month ≤ 12 ∧ d.day ≤ 31 := by
  simp only [Date.isValid, Bool.and_eq_true, decide_eq_true_eq] at h
  have hdays : daysIn d.year d.month ≤ 31 := by
    unfold daysIn
    split
    · split <;> decide
    · decide
    · decide
    · decide
    · decide
    · decide
  omega

theorem takeOff_zero (t : Timestamp) : takeOff t.date t.time 0 = some t := by
  have hvalid := t.valid
  have htime : t.time.isValid = true := (Bool.and_eq_true_iff.1 hvalid).2
  simp only [Time.isValid, Bool.and_eq_true, decide_eq_true_eq] at htime
  have hminute : ((t.time.hour * 60 + t.time.minute : Nat) : Int) - 0 =
      ((t.time.hour * 60 + t.time.minute : Nat) : Int) := Int.sub_zero _
  have hnonneg : ¬((t.time.hour * 60 + t.time.minute : Nat) : Int) < 0 := by omega
  have hday : ¬(1440 : Int) ≤ ((t.time.hour * 60 + t.time.minute : Nat) : Int) := by omega
  have hmod : (((t.time.hour * 60 + t.time.minute : Nat) : Int) % 1440).toNat =
      t.time.hour * 60 + t.time.minute := by omega
  have hhour : (t.time.hour * 60 + t.time.minute) / 60 = t.time.hour := by omega
  have hrest : (t.time.hour * 60 + t.time.minute) % 60 = t.time.minute := by omega
  simp only [takeOff, hminute, if_neg hnonneg, if_neg hday, hmod, hhour, hrest]
  exact dif_pos hvalid

theorem date?_chars (d : Date) (h : d.isValid = true) {c : Char} (rest : List Char) :
    date? (yearText d.year ++ '-' :: (padded 2 d.month ++ '-' :: (padded 2 d.day ++ c :: rest))) =
      some (d, c :: rest) := by
  have hbounds := Date.day_le d h
  simp only [date?, year?_yearText, mark?_self (c := '-') (by decide),
    number?_padded 2 d.month (by decide) (by omega), number?_padded 2 d.day (by decide) (by omega),
    Option.bind_eq_bind, Option.bind_some]
  rfl

theorem time?_chars (t : Time) (h : t.isValid = true) :
    time? (padded 2 t.hour ++ ':' :: (padded 2 t.minute ++ ':' :: (padded 2 t.second ++
      (fraction t.nanos ++ ['Z'])))) = some (t, ['Z']) := by
  simp only [Time.isValid, Bool.and_eq_true, decide_eq_true_eq] at h
  simp only [time?, number?_padded 2 t.hour (by decide) (by omega),
    mark?_self (c := ':') (by decide), number?_padded 2 t.minute (by decide) (by omega),
    number?_padded 2 t.second (by decide) (by omega),
    nanos?_fraction h.2, Option.bind_eq_bind, Option.bind_some]
  rfl

/-- Every moment is read back from its written form, leap seconds and years beyond four digits
among them. -/
theorem ofString?_text (t : Timestamp) : ofString? t.text = some t := by
  obtain ⟨hdate, htime⟩ := Bool.and_eq_true_iff.1 t.valid
  have hof : of? t.date t.time = some t := dif_pos t.valid
  rw [text, ofString?, String.toList_ofList, chars, ofChars?]
  simp only [List.append_assoc, List.cons_append, date?_chars t.date hdate,
    time?_chars t.time htime, Option.bind_eq_bind, Option.bind_some]
  rw [skipBlanks_cons (by decide)]
  simp only [if_true, true_or, Option.bind_some, hof]
  exact takeOff_zero t

end CacheAudit.Timestamp
