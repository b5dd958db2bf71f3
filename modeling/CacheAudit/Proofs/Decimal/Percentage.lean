import CacheAudit.Proofs.Decimal.Rounding
import Mathlib.Algebra.Order.Floor.Semifield
import Mathlib.RingTheory.Int.Basic
import Mathlib.Tactic.LinearCombination

/-!
# Percentages

A percentage with two decimals is computed in five steps, and each of them rounds. The first three
are off by so little that the integer closest to a hundred times the percentage comes out, unless
the exact number is as good as halfway between two integers. The last one gives the double nearest
to that integer over a hundred.
-/

namespace CacheAudit.Decimal

/-! ### Natural numbers -/

theorem power_natCast (base k : Nat) : power base (k : Int) = base ^ k :=
  rfl

theorem power_of_nonpos (base : Nat) {e : Int} (he : e ≤ 0) : power base e = 1 := by
  rw [power, Int.toNat_of_nonpos he]
  rfl

theorem roundEven_one (n : Nat) : roundEven n 1 = n := by
  simp [roundEven, Nat.mod_one]

/-- The grid around a natural number of at most 53 bits is that of its leading bit. -/
theorem gridExponent_one {n j : Nat} (hpos : 0 < n) (hj : n.log2 + j = 52) :
    gridExponent n 1 = -(j : Int) := by
  have hguess : ((Nat.log2 n : Int) - Nat.log2 1 - 53) = -((j + 1 : Nat) : Int) := by
    rw [show Nat.log2 1 = 0 from rfl]
    omega
  have htest : Nat.pow 2 53 * 1 * power 2 (-((j + 1 : Nat) : Int)) ≤
      n * power 2 (- -((j + 1 : Nat) : Int)) := by
    rw [power_of_nonpos 2 (by omega), neg_neg, power_natCast, Nat.mul_one, Nat.mul_one]
    calc Nat.pow 2 53 = 2 ^ (n.log2 + (j + 1)) := by
          rw [← Nat.add_assoc, hj]
          rfl
      _ = 2 ^ n.log2 * 2 ^ (j + 1) := Nat.pow_add ..
      _ ≤ n * 2 ^ (j + 1) := Nat.mul_le_mul_right _ (Nat.log2_self_le hpos.ne')
  unfold gridExponent
  dsimp only
  rw [hguess, if_pos htest]
  omega

/-- A natural number of at most 53 bits is a double. -/
theorem ofFloat_ofNat {n : Nat} (hlt : n < 2 ^ 53) :
    ∃ m e, Exact.ofFloat (ofNat n) = .finite false m e ∧ value (ofNat n) = n := by
  rcases Nat.eq_zero_or_pos n with rfl | hpos
  · have hzero : Exact.ofFloat (ofNat 0) = .finite false 0 (-1074) := by decide
    exact ⟨0, -1074, hzero, by rw [value_unsigned hzero, Nat.cast_zero, zero_mul]⟩
  obtain ⟨j, hj⟩ : ∃ j, n.log2 + j = 52 := by
    have hlog := (Nat.log2_lt hpos.ne').2 hlt
    exact ⟨52 - n.log2, by omega⟩
  have hlow : 2 ^ 52 ≤ n * 2 ^ j := by
    rw [← hj, Nat.pow_add]
    exact Nat.mul_le_mul_right _ (Nat.log2_self_le hpos.ne')
  have hhigh : n * 2 ^ j < 2 ^ 53 := by
    rw [show 53 = n.log2 + 1 + j by omega, Nat.pow_add]
    exact Nat.mul_lt_mul_of_pos_right Nat.lt_log2_self (Nat.two_pow_pos j)
  have hbits : nearestBits n 1 = (1075 - j) * 2 ^ 52 + (n * 2 ^ j - 2 ^ 52) := by
    unfold nearestBits
    dsimp only
    rw [gridExponent_one hpos hj, neg_neg, power_natCast, power_of_nonpos 2 (by omega),
      Nat.mul_one, roundEven_one, if_neg (show ¬n * 2 ^ j < Nat.pow 2 52 from not_lt.2 hlow)]
    show min (_ * 2 ^ 52 + _) (2047 * 2 ^ 52) = _
    omega
  have hexact : Exact.ofFloat (ofNat n) = .finite false (n * 2 ^ j) (-(j : Int)) := by
    have hword : (UInt64.ofNat (nearestBits n 1)).toNat = nearestBits n 1 :=
      UInt64.toNat_ofNat_of_lt' (by
        rw [hbits, UInt64.size]
        omega)
    have hcomponents := ofBits_components false (show 1075 - j < 2047 by omega)
      (show n * 2 ^ j - 2 ^ 52 < 2 ^ 52 by omega)
    have hmantissa : 2 ^ 52 + (n * 2 ^ j - 2 ^ 52) = n * 2 ^ j := by omega
    have hexponent : ((1075 - j : Nat) : Int) - 1075 = -(j : Int) := by omega
    rw [if_neg (by omega), Bool.toNat_false, Nat.zero_mul, Nat.zero_add, ← hbits, hmantissa,
      hexponent] at hcomponents
    rw [ofNat, nearest, if_neg hpos.ne', ofFloat_ofBits, hword, hcomponents]
  refine ⟨_, _, hexact, ?_⟩
  rw [value_unsigned hexact, zpow_neg, zpow_natCast, Nat.cast_mul, Nat.cast_pow, Nat.cast_ofNat]
  exact mul_inv_cancel_right₀ (by positivity) _

/-! ### The integer nearest to a double -/

/-- Rounding to an integer takes the greatest one that is at most half a unit above. -/
theorem value_roundToInteger {x : Float} {m : Nat} {q : Int}
    (h : Exact.ofFloat x = .finite false m q) :
    (∃ m' q', Exact.ofFloat (roundToInteger x) = .finite false m' q') ∧
      value (roundToInteger x) = ⌊value x + 1 / 2⌋₊ := by
  unfold roundToInteger
  rw [h]
  dsimp only
  by_cases hq : 0 ≤ q
  · rw [if_pos hq]
    refine ⟨⟨_, _, h⟩, ?_⟩
    obtain ⟨k, rfl⟩ := Int.eq_ofNat_of_zero_le hq
    have hinteger : value x = (m * 2 ^ k : Nat) := by
      rw [value_unsigned h]
      push_cast
      rfl
    rw [hinteger, add_comm, Nat.floor_add_natCast (by norm_num)]
    norm_num
  · rw [if_neg hq]
    obtain ⟨j, rfl⟩ : ∃ j : Nat, q = -((j + 1 : Nat) : Int) := ⟨(-q - 1).toNat, by omega⟩
    have hhalf : power 2 (- -((j + 1 : Nat) : Int) - 1) = 2 ^ j := by
      rw [show (- -((j + 1 : Nat) : Int) - 1) = (j : Int) by omega, power_natCast]
    have hunit : power 2 (- -((j + 1 : Nat) : Int)) = 2 ^ (j + 1) := by
      rw [neg_neg, power_natCast]
    rw [hhalf, hunit]
    have hfloor : ⌊value x + 1 / 2⌋₊ = (m + 2 ^ j) / 2 ^ (j + 1) := by
      have hsum : value x + 1 / 2 = ((m + 2 ^ j : Nat) : ℚ) / (2 ^ (j + 1) : Nat) := by
        rw [value_unsigned h, zpow_neg, zpow_natCast]
        push_cast
        rw [pow_succ]
        field_simp
      rw [hsum, Nat.floor_div_eq_div]
    have hlt : (m + 2 ^ j) / 2 ^ (j + 1) < 2 ^ 53 := by
      have hm := (ofBits_canonical h).1
      have hone : 1 ≤ 2 ^ j := Nat.one_le_two_pow
      rw [Nat.div_lt_iff_lt_mul (Nat.two_pow_pos _), Nat.pow_succ]
      omega
    rw [hfloor]
    obtain ⟨m', q', hexact, hvalue⟩ := ofFloat_ofNat hlt
    exact ⟨⟨m', q', hexact⟩, hvalue⟩

/-! ### Errors -/

/-- A number that is rounded with a small error in proportion to it. -/
def IsNormal (v : ℚ) : Prop :=
  v = 0 ∨ 2 ^ (-1022 : ℤ) ≤ v

theorem IsNormal.nonneg {v : ℚ} (h : IsNormal v) : 0 ≤ v := by
  rcases h with rfl | h
  · exact le_rfl
  · exact le_trans (zpow_pos two_pos _).le h

/-- A hundred times the rounded number is normal if the number is. -/
theorem IsNormal.hundredfold {v w : ℚ} (h : IsNormal v) (herror : |v - w| ≤ v / 2 ^ 53) :
    IsNormal (w * 100) := by
  rw [abs_le] at herror
  rcases h with rfl | h
  · left
    linarith
  · right
    have hpos : (0 : ℚ) < 2 ^ (-1022 : ℤ) := zpow_pos two_pos _
    linarith

theorem Exact.Rounds.error_le {x : Exact} {v : ℚ} (h : x.Rounds v) (hv : IsNormal v) :
    |v - x.value| ≤ v / 2 ^ 53 := by
  obtain ⟨-, M, q, hrounding, hvalue⟩ := h
  rw [hvalue]
  rcases hv with rfl | hv
  · -- zero is rounded to no units at all
    have hunit : (0 : ℚ) < 2 ^ q := zpow_pos two_pos _
    have herror := hrounding.error
    rw [zero_sub, abs_neg, abs_of_nonneg (by positivity)] at herror
    have hM : (M : ℚ) < 1 := by
      by_contra hge
      have hmul := mul_le_mul_of_nonneg_right (not_lt.1 hge) hunit.le
      linarith
    have hzero : M = 0 := by
      have hnat : M < 1 := by exact_mod_cast hM
      omega
    simp [hzero]
  · exact hrounding.error_le hv

theorem ofFloat_hundred : Exact.ofFloat 100.0 = .finite false (100 * 2 ^ 46) (-46) := by
  decide +kernel

theorem value_hundred : value 100.0 = 100 := by
  rw [value_unsigned ofFloat_hundred]
  norm_num

/-- A hundred times a double is off by a small part of the exact product, and so is a hundred times
that in turn. -/
theorem hundredfold_error {x : Float} (hx : ∃ m e, Exact.ofFloat x = .finite false m e)
    (hnormal : IsNormal (value x * 100)) (hlt : value x < 2 ^ 64) :
    (∃ m e, Exact.ofFloat (x * 100.0) = .finite false m e) ∧
      |value x * 100 - value (x * 100.0)| ≤ value x * 100 / 2 ^ 53 ∧
      IsNormal (value (x * 100.0) * 100) := by
  obtain ⟨m, e, hx⟩ := hx
  have hproduct : value x * value 100.0 < 2 ^ 1023 := by
    rw [value_hundred]
    calc value x * 100 < 2 ^ 64 * 100 := mul_lt_mul_of_pos_right hlt (by norm_num)
      _ ≤ 2 ^ 71 := by norm_num
      _ ≤ 2 ^ 1023 := pow_le_pow_right₀ one_le_two (by decide)
  have hrounds := rounds_mul hx ofFloat_hundred hproduct
  rw [value_hundred] at hrounds
  have herror := hrounds.error_le hnormal
  exact ⟨hrounds.1, herror, hnormal.hundredfold herror⟩

theorem isNormal_ratio (part : Nat) {whole : Nat} (hpos : 0 < whole) (hlt : whole < 2 ^ 53) :
    IsNormal ((part : ℚ) / whole) := by
  have hwhole : (0 : ℚ) < whole := by exact_mod_cast hpos
  rcases Nat.eq_zero_or_pos part with rfl | hpart
  · exact .inl (by rw [Nat.cast_zero, zero_div])
  · right
    have hone : (1 : ℚ) ≤ part := by exact_mod_cast hpart
    have hle : (whole : ℚ) ≤ 2 ^ 53 := by exact_mod_cast hlt.le
    calc (2 : ℚ) ^ (-1022 : ℤ) ≤ 2 ^ (-53 : ℤ) := zpow_le_zpow_right₀ one_le_two (by decide)
      _ = 1 / 2 ^ 53 := by norm_num
      _ ≤ part / whole := by gcongr

theorem ratio_le_one {part whole : Nat} (hle : part ≤ whole) (hpos : 0 < whole) :
    (part : ℚ) / whole ≤ 1 := by
  rw [div_le_one (by exact_mod_cast hpos)]
  exact_mod_cast hle

/-- The first step rounds the exact ratio. -/
theorem rounds_quotient {part whole : Nat} (hle : part ≤ whole) (hpos : 0 < whole)
    (hlt : whole < 2 ^ 53) :
    (Exact.ofFloat (ofNat part / ofNat whole)).Rounds ((part : ℚ) / whole) := by
  obtain ⟨m₁, e₁, hpart, hpartValue⟩ := ofFloat_ofNat (hle.trans_lt hlt)
  obtain ⟨m₂, e₂, hwhole, hwholeValue⟩ := ofFloat_ofNat hlt
  have hdivisor : 0 < m₂ := by
    rw [value_unsigned hwhole] at hwholeValue
    refine Nat.pos_of_ne_zero fun hzero => hpos.ne ?_
    rw [hzero, Nat.cast_zero, zero_mul] at hwholeValue
    exact_mod_cast hwholeValue
  have hrounds := rounds_div hpart hwhole hdivisor (by
    rw [hpartValue, hwholeValue]
    exact (ratio_le_one hle hpos).trans_lt (one_lt_pow₀ one_lt_two (by decide)))
  rwa [hpartValue, hwholeValue] at hrounds

/-- The number that is rounded to an integer is a hundred times the exact percentage, but for an
error far below a unit. -/
theorem scaled_error {part whole : Nat} (hle : part ≤ whole) (hpos : 0 < whole)
    (hlt : whole < 2 ^ 53) :
    (∃ m e, Exact.ofFloat (ofNat part / ofNat whole * 100.0 * 100.0) = .finite false m e) ∧
      |10000 * (part / whole : ℚ) - value (ofNat part / ofNat whole * 100.0 * 100.0)| <
        1 / 2 ^ 38 := by
  have hone := ratio_le_one hle hpos
  have hnormal := isNormal_ratio part hpos hlt
  have hnonneg := hnormal.nonneg
  have hquotient := rounds_quotient hle hpos hlt
  have herror := hquotient.error_le hnormal
  have hnormal₁ := hnormal.hundredfold herror
  change |_ - value (ofNat part / ofNat whole)| ≤ _ at herror
  rw [abs_le] at herror
  obtain ⟨hform₁, herror₁, hnormal₂⟩ := hundredfold_error hquotient.1 hnormal₁ (by linarith)
  rw [abs_le] at herror₁
  obtain ⟨hform₂, herror₂, -⟩ := hundredfold_error hform₁ hnormal₂ (by linarith)
  rw [abs_le] at herror₂
  refine ⟨hform₂, ?_⟩
  rw [abs_lt]
  constructor <;> linarith

/-! ### The percentage -/

/-- A fraction halfway between two multiples of a unit is an odd multiple of half of it. -/
theorem exists_odd_of_halfway {a b M j : Nat} (hb : 0 < b)
    (h : |(a : ℚ) / b - M * 2 ^ (-(j : ℤ))| = 2 ^ (-(j : ℤ)) / 2) :
    ∃ N : ℤ, Odd N ∧ (a : ℤ) * 2 ^ (j + 1) = b * N := by
  have hdivisor : (a : ℚ) / b * b = a := div_mul_cancel₀ _ (by positivity)
  have hunit : (2 : ℚ) ^ (-(j : ℤ)) * 2 ^ j = 1 := by
    rw [zpow_neg, zpow_natCast]
    exact inv_mul_cancel₀ (by positivity)
  generalize (2 : ℚ) ^ (-(j : ℤ)) = unit at h hunit
  generalize (a : ℚ) / b = ratio at h hdivisor
  have hnonneg : 0 ≤ unit / 2 := h ▸ abs_nonneg _
  rcases (abs_eq hnonneg).1 h with hcase | hcase
  · refine ⟨2 * M + 1, ⟨M, rfl⟩, ?_⟩
    have hrat : (a : ℚ) * 2 ^ (j + 1) = b * (2 * M + 1) := by
      rw [← hdivisor]
      linear_combination 2 * b * 2 ^ j * hcase + b * (2 * M + 1) * hunit
    exact_mod_cast hrat
  · refine ⟨2 * M - 1, ⟨M - 1, by ring⟩, ?_⟩
    have hrat : (a : ℚ) * 2 ^ (j + 1) = b * (2 * M - 1) := by
      rw [← hdivisor]
      linear_combination 2 * b * 2 ^ j * hcase + b * (2 * M - 1) * hunit
    exact_mod_cast hrat

/-- A number of hundredths is never halfway between two doubles. -/
theorem hundredths_not_halfway {n M : Nat} {q : Int} (hn : n < 2 ^ 53)
    (h : IsRounding ((n : ℚ) / 100) M q) : |(n : ℚ) / 100 - M * 2 ^ q| ≠ 2 ^ q / 2 := by
  intro heq
  have hq : q ≤ -2 := by
    rcases h.normal with hleast | hnormal
    · omega
    · by_contra hge
      have hunit : (2 : ℚ) ^ (-1 : ℤ) ≤ 2 ^ q := zpow_le_zpow_right₀ one_le_two (by omega)
      have hsmall : (n : ℚ) < 2 ^ 53 := by exact_mod_cast hn
      norm_num at hunit
      linarith
  obtain ⟨j, rfl⟩ : ∃ j : Nat, q = -((j + 2 : Nat) : Int) := ⟨(-q - 2).toNat, by omega⟩
  -- the hundred has only two factors of two
  obtain ⟨N, ⟨half, rfl⟩, hint⟩ := exists_odd_of_halfway (b := 100) (by decide) heq
  have hscaled : 8 * ((n : ℤ) * 2 ^ j) = 100 * (2 * half + 1) :=
    calc 8 * ((n : ℤ) * 2 ^ j) = n * 2 ^ (j + 2 + 1) := by ring
      _ = 100 * (2 * half + 1) := hint
  omega

/-- A natural number over a hundred is rounded only once. -/
theorem rounds_hundredths {x : Float} {m n : Nat} {e : Int}
    (hx : Exact.ofFloat x = .finite false m e) (hvalue : value x = n) (hn : n < 2 ^ 53) :
    (Exact.ofFloat (x / 100.0)).Rounds ((n : ℚ) / 100) := by
  have hlt : value x / value 100.0 < 2 ^ 1023 := by
    have hcast : (n : ℚ) < 2 ^ 53 := by exact_mod_cast hn
    rw [hvalue, value_hundred]
    calc (n : ℚ) / 100 < 2 ^ 53 := by linarith [(Nat.cast_nonneg n : (0 : ℚ) ≤ n)]
      _ ≤ 2 ^ 1023 := pow_le_pow_right₀ one_le_two (by decide)
  have hrounds := rounds_div hx ofFloat_hundred (by decide) hlt
  rwa [hvalue, value_hundred] at hrounds

/-- A natural number over a hundred comes out as the double nearest to that. -/
theorem isNearest_ofNat_div {n : Nat} (hn : n < 2 ^ 53) :
    (∃ m e, Exact.ofFloat (ofNat n / 100.0) = .finite false m e) ∧
      IsNearest (ofNat n / 100.0) ((n : ℚ) / 100) := by
  obtain ⟨m, e, hform, hvalue⟩ := ofFloat_ofNat hn
  have hrounds := rounds_hundredths hform hvalue hn
  exact ⟨hrounds.1, isNearest_of_rounds hrounds fun _ _ => hundredths_not_halfway hn⟩

/-- The percentage is nearest to some number of hundredths, which is as good as nearest to the
exact percentage. -/
theorem exists_hundredths {part whole : Nat} (hle : part ≤ whole) (hpos : 0 < whole)
    (hlt : whole < 2 ^ 53) :
    (∃ m e, Exact.ofFloat (percentage part whole) = .finite false m e) ∧
      ∃ n : Nat, IsNearest (percentage part whole) ((n : ℚ) / 100) ∧
        |n - 10000 * (part / whole : ℚ)| < 1 / 2 + 1 / 2 ^ 38 := by
  obtain ⟨⟨m, e, hscaled⟩, herror⟩ := scaled_error hle hpos hlt
  obtain ⟨⟨m', e', hinteger⟩, hvalue⟩ := value_roundToInteger hscaled
  generalize hx : ofNat part / ofNat whole * 100.0 * 100.0 = x at hscaled herror hinteger hvalue
  have hnonneg : 0 ≤ value x := by
    rw [value_unsigned hscaled]
    positivity
  have hfloor := Nat.floor_le (show 0 ≤ value x + 1 / 2 by linarith)
  have hceil := Nat.lt_floor_add_one (value x + 1 / 2)
  have hratio := ratio_le_one hle hpos
  rw [abs_lt] at herror
  have hsmall : ⌊value x + 1 / 2⌋₊ < 2 ^ 53 := by
    rw [Nat.floor_lt (by linarith)]
    norm_num at herror ⊢
    linarith
  have hrounds := rounds_hundredths hinteger hvalue hsmall
  rw [percentage, roundHundredths, hx]
  refine ⟨hrounds.1, ⌊value x + 1 / 2⌋₊,
    isNearest_of_rounds hrounds fun _ _ => hundredths_not_halfway hsmall, ?_⟩
  rw [abs_lt]
  constructor <;> linarith

/-! ### The exact percentage -/

/-- The percentage that `part` is of `whole`, computed exactly and rounded once, to two decimals and
half away from zero. (Rounding takes a half up, and no percentage is negative.) -/
def exactPercentage (part whole : Nat) : ℚ :=
  (round (100 * (100 * part / whole : ℚ)) : ℚ) / 100

/-- The half between `k` and `k + 1` hundredths goes up when it is computed from the ratio of
`2 * k + 1` to 20000. -/
def HalfGoesUp (k : Nat) : Prop :=
  percentage (2 * k + 1) 20000 = ofNat (k + 1) / 100.0

instance (k : Nat) : Decidable (HalfGoesUp k) :=
  inferInstanceAs (Decidable (percentage (2 * k + 1) 20000 = ofNat (k + 1) / 100.0))

/-- What is known of a computed percentage. -/
structure IsPercentage (x : Float) (part whole : Nat) : Prop where
  /-- It is the exact one, unless that lies halfway between two numbers with two decimals, and even
  then if halves go up there, whatever the part and the whole. -/
  isNearest_iff : whole ≤ 2 ^ 37 → (IsNearest x (exactPercentage part whole) ↔
    ∀ k, 20000 * part = (2 * k + 1) * whole → HalfGoesUp k)
  /-- So it is the exact one unless the whole is a multiple of 160. -/
  isNearest_of_not_dvd : whole ≤ 2 ^ 37 → ¬160 ∣ whole → IsNearest x (exactPercentage part whole)
  /-- In any case it is a number with two decimals, off by hardly more than rounding alone. -/
  isNearest_hundredths : ∃ n : Nat, IsNearest x ((n : ℚ) / 100) ∧
    |n - 10000 * (part / whole : ℚ)| < 1 / 2 + 1 / 2 ^ 38

/-- A ratio of natural numbers of at most 53 bits is never halfway between two doubles. -/
theorem ratio_not_halfway {part whole M : Nat} {q : Int} (hle : part ≤ whole) (hpos : 0 < whole)
    (hlt : whole < 2 ^ 53) (h : IsRounding ((part : ℚ) / whole) M q) :
    |(part : ℚ) / whole - M * 2 ^ q| ≠ 2 ^ q / 2 := by
  intro heq
  obtain hzero | hnormal := isNormal_ratio part hpos hlt
  · -- zero is a multiple of every unit
    have hunit : (2 : ℚ) ^ q ≠ 0 := zpow_ne_zero q two_ne_zero
    rw [hzero, zero_sub, abs_neg, abs_of_nonneg (by positivity)] at heq
    have hhalf : (2 * M : ℚ) = 1 := by
      field_simp at heq
      linarith
    have hnat : 2 * M = 1 := by exact_mod_cast hhalf
    omega
  · have hunit := h.unit_le hnormal
    have hone := ratio_le_one hle hpos
    have hq : q ≤ 0 := by
      by_contra hgt
      have hlarge : (1 : ℚ) ≤ 2 ^ q := one_le_zpow₀ one_le_two (by omega)
      linarith
    obtain ⟨j, rfl⟩ : ∃ j : Nat, q = -(j : Int) := ⟨(-q).toNat, by omega⟩
    obtain ⟨N, hodd, hint⟩ := exists_odd_of_halfway hpos heq
    -- an odd number of more than 53 bits divides the part
    have hdvd : N ∣ part := by
      have hcoprime : IsCoprime N (2 ^ (j + 1)) := (Int.isCoprime_two_right.2 hodd).pow_right
      exact hcoprime.dvd_of_dvd_mul_right ⟨whole, hint.trans (mul_comm ..)⟩
    have hlarge : 2 ^ 53 ≤ N := by
      have hwhole : (0 : ℚ) < whole := by exact_mod_cast hpos
      have hrat : (part : ℚ) * 2 ^ (j + 1) = whole * N := by exact_mod_cast hint
      have hscaled : (whole : ℚ) * 2 ^ 53 ≤ whole * N := by
        rw [zpow_neg, zpow_natCast, le_div_iff₀ hwhole, mul_assoc, mul_comm, mul_assoc,
          inv_mul_le_iff₀ (by positivity)] at hunit
        rw [← hrat, pow_succ (2 : ℚ) j]
        linarith
      exact_mod_cast le_of_mul_le_mul_left hscaled hwhole
    have hpart : (0 : ℤ) < part := by
      by_contra hnot
      have hzero : part = 0 := by omega
      rw [hzero, Nat.cast_zero, zero_div] at hnormal
      exact absurd hnormal (not_le.2 (zpow_pos two_pos _))
    have hle := Int.le_of_dvd hpart hdvd
    omega

/-- The percentage depends on the ratio alone. -/
theorem percentage_congr {part whole part' whole' : Nat} (hle : part ≤ whole) (hpos : 0 < whole)
    (hlt : whole < 2 ^ 53) (hle' : part' ≤ whole') (hpos' : 0 < whole') (hlt' : whole' < 2 ^ 53)
    (h : part * whole' = part' * whole) : percentage part whole = percentage part' whole' := by
  have hratio : (part : ℚ) / whole = part' / whole' := by
    rw [div_eq_div_iff (by positivity) (by positivity)]
    exact_mod_cast h
  have hquotient := rounds_quotient hle hpos hlt
  have hquotient' := rounds_quotient hle' hpos' hlt'
  rw [← hratio] at hquotient'
  have heq := eq_of_rounds hquotient hquotient' fun _ _ => ratio_not_halfway hle hpos hlt
  rw [percentage, percentage, heq]

/-- Unless the exact number is halfway between two integers, the integer is the one it is rounded
to. -/
theorem hundredths_eq_exact {part whole n : Nat} (hpos : 0 < whole) (hle : whole ≤ 2 ^ 37)
    (hclose : |n - 10000 * (part / whole : ℚ)| < 1 / 2 + 1 / 2 ^ 38)
    (hnot : ∀ k, 20000 * part ≠ (2 * k + 1) * whole) :
    (n : ℚ) / 100 = exactPercentage part whole := by
  have hwhole : (0 : ℚ) < whole := by exact_mod_cast hpos
  have hsize : (whole : ℚ) ≤ 2 ^ 37 := by exact_mod_cast hle
  have hratio : (part / whole : ℚ) * whole = part := div_mul_cancel₀ _ hwhole.ne'
  rw [abs_lt] at hclose
  generalize (part / whole : ℚ) = ratio at hclose hratio
  -- twice the whole times the error is below one, so integers do not see it
  have hupper : 2 * whole * n ≤ 20000 * part + whole := by
    have hscaled : (n - 10000 * ratio) * whole < (1 / 2 + 1 / 2 ^ 38) * whole :=
      mul_lt_mul_of_pos_right hclose.2 hwhole
    have hlt : (2 * whole * n : ℚ) < 20000 * part + whole + 1 := by linarith
    have hnat : 2 * whole * n < 20000 * part + whole + 1 := by exact_mod_cast hlt
    omega
  have hlower : 20000 * part < (2 * n + 1) * whole := by
    have hscaled : -(1 / 2 + 1 / 2 ^ 38) * (whole : ℚ) < (n - 10000 * ratio) * whole :=
      mul_lt_mul_of_pos_right hclose.1 hwhole
    have hlt : (20000 * part : ℚ) < (2 * n + 1) * whole + 1 := by linarith
    have hnat : 20000 * part < (2 * n + 1) * whole + 1 := by exact_mod_cast hlt
    exact lt_of_le_of_ne (by omega) (hnot n)
  have hround : round (100 * (100 * part / whole : ℚ)) = n := by
    have hfraction : 100 * (100 * part / whole : ℚ) + 1 / 2 =
        (20000 * part + whole) / (2 * whole) := by
      field_simp
      ring
    rw [round_eq, hfraction, Int.floor_eq_iff, Int.cast_natCast, le_div_iff₀ (by positivity),
      div_lt_iff₀ (by positivity)]
    constructor
    · rw [mul_comm]
      exact_mod_cast hupper
    · have hlt : (20000 * part : ℚ) < (2 * n + 1) * whole := by exact_mod_cast hlower
      linarith
  rw [exactPercentage, hround, Int.cast_natCast]

/-- A ratio halfway between two of the integers has the denominator 32, or one that five divides. -/
theorem exists_thirtySeconds {part whole k : Nat} (hdvd : ¬160 ∣ whole)
    (h : 20000 * part = (2 * k + 1) * whole) : ∃ j, 2 * k + 1 = 625 * (2 * j + 1) := by
  have hcoprime : Nat.Coprime (2 ^ 5) (2 * k + 1) := .pow_left 5 (Nat.coprime_two_left.2 ⟨k, rfl⟩)
  have htwo : 2 ^ 5 ∣ whole := by
    refine hcoprime.dvd_of_dvd_mul_left ⟨625 * part, ?_⟩
    rw [← h]
    ring
  have hfive : Nat.Coprime 5 whole :=
    (Nat.Prime.coprime_iff_not_dvd Nat.prime_five).2 fun hmul =>
      hdvd (Nat.Coprime.mul_dvd_of_dvd_of_dvd (by decide : Nat.Coprime (2 ^ 5) 5) htwo hmul)
  obtain ⟨m, hm⟩ : 5 ^ 4 ∣ 2 * k + 1 := by
    refine (hfive.pow_left 4).dvd_of_dvd_mul_right ⟨32 * part, ?_⟩
    rw [← h]
    ring
  have hodd : Odd (5 ^ 4 * m) := hm ▸ ⟨k, rfl⟩
  obtain ⟨j, rfl⟩ := (Nat.odd_mul.1 hodd).2
  exact ⟨j, hm⟩

/-- The odd thirty-seconds are computed exactly, so halves among them go up. -/
theorem halfGoesUp_thirtySeconds : ∀ j < 16, HalfGoesUp (625 * j + 312) := by
  decide +kernel

/-- An exact percentage that lies halfway goes up. -/
theorem exactPercentage_halfway {part whole k : Nat} (hpos : 0 < whole)
    (h : 20000 * part = (2 * k + 1) * whole) :
    exactPercentage part whole = (k + 1 : Nat) / 100 := by
  have hwhole : (whole : ℚ) ≠ 0 := by exact_mod_cast hpos.ne'
  have hhalf : 100 * (100 * part / whole : ℚ) + 1 / 2 = (k + 1 : Nat) := by
    have hrat : (20000 * part : ℚ) = (2 * k + 1) * whole := by exact_mod_cast h
    push_cast
    field_simp
    linarith
  rw [exactPercentage, round_eq, hhalf, Int.floor_natCast, Int.cast_natCast]

/-- A percentage that lies halfway comes out as it does for the odd part of 20000 there. -/
theorem percentage_halfway {part whole k : Nat} (hle : part ≤ whole) (hpos : 0 < whole)
    (hlt : whole < 2 ^ 53) (h : 20000 * part = (2 * k + 1) * whole) :
    2 * k + 1 ≤ 20000 ∧ percentage part whole = percentage (2 * k + 1) 20000 := by
  have hsmall : 2 * k + 1 ≤ 20000 := by
    by_contra hgt
    have hmul := Nat.mul_lt_mul_of_pos_right (not_le.1 hgt) hpos
    omega
  exact ⟨hsmall, percentage_congr hle hpos hlt hsmall (by decide) (by decide) (by linarith)⟩

theorem isPercentage {part whole : Nat} (hle : part ≤ whole) (hpos : 0 < whole)
    (hlt : whole < 2 ^ 53) : IsPercentage (percentage part whole) part whole := by
  obtain ⟨hform, n, hnearest, hclose⟩ := exists_hundredths hle hpos hlt
  have hiff (hsize : whole ≤ 2 ^ 37) :
      IsNearest (percentage part whole) (exactPercentage part whole) ↔
        ∀ k, 20000 * part = (2 * k + 1) * whole → HalfGoesUp k := by
    constructor
    · intro hexact k hk
      obtain ⟨hsmall, heq⟩ := percentage_halfway hle hpos hlt hk
      obtain ⟨hup, hupnear⟩ := isNearest_ofNat_div (n := k + 1) (by omega)
      rw [exactPercentage_halfway hpos hk] at hexact
      exact heq.symm.trans (eq_of_isNearest hform hup hexact hupnear)
    · intro hgoesUp
      by_cases hnot : ∀ k, 20000 * part ≠ (2 * k + 1) * whole
      · rwa [hundredths_eq_exact hpos hsize hclose hnot] at hnearest
      · obtain ⟨k, hk⟩ := not_forall_not.1 hnot
        obtain ⟨hsmall, heq⟩ := percentage_halfway hle hpos hlt hk
        rw [heq, hgoesUp k hk, exactPercentage_halfway hpos hk]
        exact (isNearest_ofNat_div (by omega)).2
  refine ⟨hiff, fun hsize hdvd => (hiff hsize).2 fun k hk => ?_, n, hnearest, hclose⟩
  obtain ⟨hsmall, -⟩ := percentage_halfway hle hpos hlt hk
  obtain ⟨j, hj⟩ := exists_thirtySeconds hdvd hk
  obtain rfl : k = 625 * j + 312 := by omega
  exact halfGoesUp_thirtySeconds j (by omega)

/-- The half above 3.12 goes up, and the one above 14.37 does not. -/
example : HalfGoesUp 312 ∧ ¬HalfGoesUp 1437 := by
  decide +kernel

end CacheAudit.Decimal
