import CacheAudit.Proofs.Decimal.Packing

/-!
# The nearest double

A product or a quotient of two doubles is computed as a mantissa with two residual bits: the first
bit that is left out and whether anything is left after it. They say enough about the exact number
to round it, and they keep saying so when the mantissa is shifted. So the result is the exact
number rounded to the nearest multiple of a unit, and no other double is as near to it unless the
exact number lies halfway between two of these multiples.
-/

namespace CacheAudit.Decimal

open Float.Model (Format UnpackedFloat totalExponent)
open Float.Model.UnpackedFloat

/-! ### Residual bits -/

/-- A mantissa and its residual bits describe a number: the mantissa is its integer part, the round
bit tells whether half a unit or more is left, the sticky bit whether it is neither nothing nor
just that half. -/
structure Describes (em : ExtendedMantissa) (t : ℚ) : Prop where
  mantissa_le : em.mantissa ≤ t
  lt_mantissa : t < em.mantissa + 1
  roundBit_iff : em.roundBit = true ↔ em.mantissa + 1 / 2 ≤ t
  stickyBit_iff : em.stickyBit = true ↔ t ≠ em.mantissa ∧ t ≠ em.mantissa + 1 / 2

namespace Describes

variable {em : ExtendedMantissa} {t : ℚ}

/-- Something is left out when one of the residual bits is set. -/
theorem residual_iff (h : Describes em t) :
    (em.roundBit || em.stickyBit) = true ↔ t ≠ em.mantissa := by
  rw [Bool.or_eq_true, h.roundBit_iff, h.stickyBit_iff]
  constructor
  · rintro (hround | ⟨hne, -⟩)
    · exact fun heq => by linarith
    · exact hne
  · intro hne
    by_cases hhalf : (em.mantissa : ℚ) + 1 / 2 ≤ t
    · exact .inl hhalf
    · exact .inr ⟨hne, fun heq => hhalf heq.ge⟩

/-- A shift by one bit halves the number. -/
theorem shiftRightOne (h : Describes em t) : Describes em.shiftRightOne (t / 2) := by
  have hresidual := h.residual_iff
  obtain ⟨m, r, s⟩ := em
  obtain ⟨hlow, hhigh, -, -⟩ := h
  dsimp only at hlow hhigh hresidual
  obtain ⟨half, hm⟩ : ∃ half, m = 2 * half ∨ m = 2 * half + 1 := ⟨m / 2, by omega⟩
  rcases hm with rfl | rfl
  · have hdiv : 2 * half / 2 = half := by omega
    push_cast at hlow hhigh hresidual
    constructor <;> simp only [ExtendedMantissa.shiftRightOne, hdiv]
    · linarith
    · linarith
    · refine iff_of_false (by simp) (by linarith)
    · rw [hresidual]
      refine ⟨fun hne => ⟨fun heq => hne (by linarith), fun heq => by linarith⟩,
        fun hne heq => hne.1 (by linarith)⟩
  · have hdiv : (2 * half + 1) / 2 = half := by omega
    push_cast at hlow hhigh hresidual
    constructor <;> simp only [ExtendedMantissa.shiftRightOne, hdiv]
    · linarith
    · linarith
    · refine iff_of_true (by simp) (by linarith)
    · rw [hresidual]
      refine ⟨fun hne => ⟨fun heq => by linarith, fun heq => hne (by linarith)⟩,
        fun hne heq => hne.2 (by linarith)⟩

theorem shiftRight (h : Describes em t) (k : Nat) : Describes (em >>> k) (t / 2 ^ k) := by
  induction k with
  | zero =>
    rw [pow_zero, div_one]
    exact h
  | succ k ih =>
    rw [shift_succ, pow_succ, ← div_div]
    exact ih.shiftRightOne

/-- Rounding is off by at most half a unit. -/
theorem roundedMantissa_error (h : Describes em t) : |t - em.roundedMantissa| ≤ 1 / 2 := by
  obtain ⟨m, r, s⟩ := em
  obtain ⟨hlow, hhigh, hround, hsticky⟩ := h
  dsimp only at hlow hhigh hround hsticky
  rw [abs_le]
  cases r <;> cases s <;>
    simp only [ExtendedMantissa.roundedMantissa, ExtendedMantissa.accuracy,
      Accuracy.roundToNearestEven]
  · have hlt : ¬(m : ℚ) + 1 / 2 ≤ t := by simpa using hround
    constructor <;> linarith
  · have hlt : ¬(m : ℚ) + 1 / 2 ≤ t := by simpa using hround
    constructor <;> linarith
  · -- halfway, the mantissa goes to an even one, whichever that is
    have hhalf : t = m + 1 / 2 := by
      have hle := hround.1 rfl
      by_contra hne
      exact absurd (hsticky.2 ⟨fun heq => by linarith, hne⟩) Bool.false_ne_true
    rcases Nat.mod_two_eq_zero_or_one m with hlast | hlast <;> rw [hlast, hhalf] <;>
      push_cast <;> constructor <;> linarith
  · have hle := hround.1 rfl
    push_cast
    constructor <;> linarith

theorem of_exact (m : Nat) : Describes (.ofMantissaAndAccuracy m .exact) m where
  mantissa_le := le_rfl
  lt_mantissa := lt_add_one _
  roundBit_iff := iff_of_false Bool.false_ne_true (by
    show ¬(m : ℚ) + 1 / 2 ≤ m
    linarith)
  stickyBit_iff := iff_of_false Bool.false_ne_true fun h => h.1 rfl

/-- A number that is no integer is described by how it compares with the middle between the two
integers around it. -/
theorem of_inexact {m : Nat} {o : Ordering} (hlow : m < t) (hhigh : t < m + 1)
    (ho : o.Compares t (m + 1 / 2)) : Describes (.ofMantissaAndAccuracy m (.inexact o)) t := by
  cases o with
  | lt =>
    exact ⟨hlow.le, hhigh, iff_of_false Bool.false_ne_true (not_le.2 ho),
      iff_of_true rfl ⟨hlow.ne', ne_of_lt ho⟩⟩
  | eq =>
    exact ⟨hlow.le, hhigh, iff_of_true rfl (ge_of_eq ho),
      iff_of_false Bool.false_ne_true fun h => h.2 ho⟩
  | gt =>
    exact ⟨hlow.le, hhigh, iff_of_true rfl (le_of_lt ho), iff_of_true rfl ⟨hlow.ne', ne_of_gt ho⟩⟩

/-- A fraction compares with a half as twice its numerator does with its denominator. -/
theorem compares_half (low : ℚ) (rest : Nat) {den : Nat} (hden : 0 < den) :
    (compare (2 * rest) den).Compares (low + rest / den) (low + 1 / 2) := by
  have hpos : (0 : ℚ) < den := by exact_mod_cast hden
  have hnat := (compare_iff (2 * rest) den).1 rfl
  generalize compare (2 * rest) den = o at hnat ⊢
  cases o with
  | lt =>
    have hlt : (2 * rest : ℚ) < den := by exact_mod_cast hnat
    show _ < _
    rw [add_lt_add_iff_left, div_lt_div_iff₀ hpos two_pos]
    linarith
  | eq =>
    have heq : (2 * rest : ℚ) = den := by exact_mod_cast hnat
    show _ = _
    rw [add_right_inj, div_eq_div_iff hpos.ne' two_ne_zero]
    linarith
  | gt =>
    have hgt : (den : ℚ) < 2 * rest := by exact_mod_cast hnat
    show _ < _
    rw [add_lt_add_iff_left, div_lt_div_iff₀ two_pos hpos]
    linarith

/-- A quotient is described by what is left of the division. -/
theorem of_fraction (num : Nat) {den : Nat} (hden : 0 < den) :
    Describes (.ofMantissaAndAccuracy (num / den) (accuracyOfFraction (num % den) den))
      (num / den) := by
  have hpos : (0 : ℚ) < den := by exact_mod_cast hden
  have hmod : num % den < den := Nat.mod_lt _ hden
  have hdiv : (num : ℚ) / den = (num / den : Nat) + (num % den : Nat) / den := by
    have hsum : (num : ℚ) = den * (num / den : Nat) + (num % den : Nat) := by
      exact_mod_cast (Nat.div_add_mod num den).symm
    field_simp
    linarith
  rw [hdiv]
  by_cases hzero : num % den = 0
  · rw [accuracyOfFraction, if_pos hzero, hzero, Nat.cast_zero, zero_div, add_zero]
    exact of_exact _
  · have hfraction : (0 : ℚ) < (num % den : Nat) / den ∧ ((num % den : Nat) : ℚ) / den < 1 := by
      rw [div_lt_one hpos]
      refine ⟨div_pos ?_ hpos, ?_⟩
      · exact_mod_cast Nat.pos_of_ne_zero hzero
      · exact_mod_cast hmod
    rw [accuracyOfFraction, if_neg hzero]
    exact of_inexact (by linarith) (by linarith) (compares_half _ _ hden)

end Describes

/-! ### Rounding to a multiple of a unit -/

/-- A number is rounded to `M` units of `2 ^ q`: that is off by at most half a unit, and the unit
is that of the doubles of this size. -/
structure IsRounding (v : ℚ) (M : Nat) (q : Int) : Prop where
  least : -1074 ≤ q
  error : |v - M * 2 ^ q| ≤ 2 ^ q / 2
  normal : q = -1074 ∨ 2 ^ 52 * 2 ^ q ≤ v

/-- A value is that of a number which is rounded, and has no sign. -/
def Exact.Rounds (x : Exact) (v : ℚ) : Prop :=
  (∃ m e, x = .finite false m e) ∧ ∃ M q, IsRounding v M q ∧ x.value = M * 2 ^ q

section RoundWithAccuracy

variable {m : Nat} {e : Int} {accuracy : Accuracy} {t : ℚ}

theorem isRounding_roundedUnits (h : Describes (.ofMantissaAndAccuracy m accuracy) t)
    (he : e ≤ roundingExponent m e) :
    IsRounding (t * 2 ^ e) (roundedUnits m e accuracy) (roundingExponent m e) := by
  have hshifted := h.shiftRight (roundingExponent m e - e).toNat
  have herror := hshifted.roundedMantissa_error
  have hscaled : t * 2 ^ e =
      t / 2 ^ (roundingExponent m e - e).toNat * 2 ^ roundingExponent m e := by
    have hsplit : (2 : ℚ) ^ roundingExponent m e =
        2 ^ (roundingExponent m e - e).toNat * 2 ^ e := by
      rw [← zpow_natCast, ← zpow_add₀ two_ne_zero]
      congr 1
      omega
    rw [hsplit]
    field_simp
  have hunit : (0 : ℚ) < 2 ^ roundingExponent m e := zpow_pos two_pos _
  refine ⟨le_roundingExponent m e, ?_, ?_⟩
  · rw [hscaled, ← sub_mul, abs_mul, abs_of_pos hunit]
    exact (mul_le_mul_of_nonneg_right herror hunit.le).trans_eq (by ring)
  · by_cases hleast : roundingExponent m e = -1074
    · exact .inl hleast
    · right
      rw [hscaled]
      have hfloor := hshifted.mantissa_le
      rw [mantissa_shift, mantissa_ofMantissaAndAccuracy] at hfloor
      gcongr
      refine le_trans ?_ hfloor
      exact_mod_cast le_shifted_mantissa he hleast

/-- A number that is computed to enough bits is rounded to a double. -/
theorem rounds_roundWithAccuracy (h : Describes (.ofMantissaAndAccuracy m accuracy) t)
    (he : e ≤ roundingExponent m e) (hlt : t * 2 ^ e < 2 ^ 1023) :
    (Exact.ofUnpacked (unpack Format.binary64 (pack Format.binary64
      (roundWithAccuracy Format.binary64 .positive m e accuracy)))).Rounds (t * 2 ^ e) := by
  have hrounding := isRounding_roundedUnits h he
  have hleast := le_roundingExponent m e
  have hgreatest : roundingExponent m e ≤ 970 := by
    rcases hrounding.normal with heq | hnormal
    · omega
    · have hpow : (2 : ℚ) ^ (52 + roundingExponent m e) < 2 ^ (1023 : ℤ) :=
        calc (2 : ℚ) ^ (52 + roundingExponent m e) = 2 ^ 52 * 2 ^ roundingExponent m e :=
              zpow_add₀ two_ne_zero ..
          _ ≤ t * 2 ^ e := hnormal
          _ < 2 ^ (1023 : ℤ) := hlt
      have := (zpow_lt_zpow_iff_right₀ (one_lt_two : (1 : ℚ) < 2)).1 hpow
      omega
  have hlarge : 2 ^ 52 ≤ roundedUnits m e accuracy ∨ roundingExponent m e = -1074 := by
    by_cases heq : roundingExponent m e = -1074
    · exact .inr heq
    · exact .inl ((le_shifted_mantissa he heq).trans (roundedUnits_bounds m e accuracy).1)
  suffices hround : Canonical (roundWithAccuracy Format.binary64 .positive m e accuracy) ∧
      (∃ m' e', Exact.ofUnpacked (roundWithAccuracy Format.binary64 .positive m e accuracy) =
        .finite false m' e') ∧
      (Exact.ofUnpacked (roundWithAccuracy Format.binary64 .positive m e accuracy)).value =
        roundedUnits m e accuracy * 2 ^ roundingExponent m e by
    rw [ofUnpacked_unpack_pack hround.1]
    exact ⟨hround.2.1, _, _, hrounding, hround.2.2⟩
  rcases roundWithAccuracy_cases .positive accuracy he with
    ⟨hzero, hresult⟩ | ⟨hpos, hsmall, hresult⟩ | ⟨hpower, hresult⟩
  · rw [hresult, hzero]
    refine ⟨trivial, ⟨_, _, rfl⟩, ?_⟩
    rw [Exact.value_ofUnpacked_zero, Nat.cast_zero, zero_mul]
  · rw [hresult]
    exact ⟨⟨hsmall, hleast, by omega, hlarge⟩, ⟨_, _, rfl⟩, rfl⟩
  · rw [hresult, hpower]
    refine ⟨⟨by decide, by omega, by omega, .inl le_rfl⟩, ⟨_, _, rfl⟩, ?_⟩
    show ((2 ^ 52 : Nat) : ℚ) * 2 ^ (roundingExponent m e + 1) = _
    rw [zpow_add_one₀ two_ne_zero]
    push_cast
    ring

end RoundWithAccuracy

/-! ### Quotients and products -/

section Operations

variable {x y : Float} {m₁ m₂ : Nat} {e₁ e₂ : Int}

/-- A double without a sign is zero or has a mantissa. -/
theorem unpack_of_unsigned (h : Exact.ofFloat x = .finite false m₁ e₁) :
    (m₁ = 0 ∧ x.toModel.unpack = .zero .positive) ∨
      ∃ hm, x.toModel.unpack = .finite .positive m₁ e₁ hm := by
  rw [ofFloat_eq] at h
  have hsign (s : Sign) (hs : (s == .negative) = false) : s = .positive := by
    cases s with
    | negative => cases hs
    | positive => rfl
  cases hu : x.toModel.unpack with
  | notANumber | infinity s =>
    rw [hu] at h
    cases h
  | zero s =>
    rw [hu] at h
    injection h with hnegative hm
    exact .inl ⟨hm.symm, by rw [hsign s hnegative]⟩
  | finite s m e hm =>
    rw [hu] at h
    injection h with hnegative hmantissa hexponent
    subst hmantissa hexponent
    exact .inr ⟨hm, by rw [hsign s hnegative]⟩

theorem value_unsigned (h : Exact.ofFloat x = .finite false m₁ e₁) :
    value x = m₁ * 2 ^ e₁ := by
  rw [value, h]
  rfl

theorem rounds_zero :
    (Exact.ofUnpacked (unpack Format.binary64 (pack Format.binary64 (.zero .positive)))).Rounds
      0 := by
  have hzero : Canonical (.zero .positive) := trivial
  rw [ofUnpacked_unpack_pack hzero]
  refine ⟨⟨_, _, rfl⟩, 0, -1074, ⟨le_rfl, ?_, .inl rfl⟩, ?_⟩
  · rw [Nat.cast_zero, zero_mul, sub_zero, abs_zero]
    positivity
  · rw [Exact.value_ofUnpacked_zero, Nat.cast_zero, zero_mul]

/-- The quotient is computed to so many bits that rounding shifts it only to the right. -/
theorem exponent_divCore_le (e₁ e₂ : Int) (hm₁ : 0 < m₁) (hm₂ : 0 < m₂) :
    (divCore Format.binary64 m₁ e₁ m₂ e₂).2.1 ≤
      roundingExponent (divCore Format.binary64 m₁ e₁ m₂ e₂).1
        (divCore Format.binary64 m₁ e₁ m₂ e₂).2.1 := by
  have htarget : Format.binary64.targetExponent (totalExponent m₁ e₁ - totalExponent m₂ e₂) =
      max ((m₁.log2 : Int) + e₁ - (m₂.log2 + e₂) - 53) (-1074) := by
    rw [targetExponent_binary64, totalExponent, totalExponent]
    omega
  simp only [divCore, htarget]
  generalize ht : min (e₁ - e₂) (max ((m₁.log2 : Int) + e₁ - (m₂.log2 + e₂) - 53) (-1074)) = target
  generalize hk : (e₁ - e₂ - target).toNat = k
  unfold roundingExponent
  by_cases hleast : target ≤ -1074
  · omega
  · -- the shifted dividend has at least 53 bits more than the divisor
    have hbits : 2 ^ 52 * m₂ ≤ m₁ <<< k := by
      rw [Nat.shiftLeft_eq]
      calc 2 ^ 52 * m₂ ≤ 2 ^ 52 * 2 ^ (m₂.log2 + 1) := by
            gcongr
            exact Nat.lt_log2_self.le
        _ = 2 ^ (52 + (m₂.log2 + 1)) := (Nat.pow_add ..).symm
        _ ≤ 2 ^ (m₁.log2 + k) := Nat.pow_le_pow_right (by omega) (by omega)
        _ = 2 ^ m₁.log2 * 2 ^ k := Nat.pow_add ..
        _ ≤ m₁ * 2 ^ k := by
            gcongr
            exact Nat.log2_self_le hm₁.ne'
    have hquotient : 2 ^ 52 ≤ m₁ <<< k / m₂ := (Nat.le_div_iff_mul_le hm₂).2 hbits
    have hlog : 52 ≤ (m₁ <<< k / m₂).log2 := (Nat.le_log2 (by omega)).2 hquotient
    omega

/-- A quotient of doubles without a sign is the exact quotient, rounded to a double. -/
theorem rounds_div (hx : Exact.ofFloat x = .finite false m₁ e₁)
    (hy : Exact.ofFloat y = .finite false m₂ e₂) (hm₂ : 0 < m₂)
    (hlt : value x / value y < 2 ^ 1023) :
    (Exact.ofFloat (x / y)).Rounds (value x / value y) := by
  have hdivide : Exact.ofFloat (x / y) = .ofUnpacked (unpack Format.binary64
      (pack Format.binary64 (div Format.binary64 x.toModel.unpack y.toModel.unpack))) :=
    ofFloat_eq _
  obtain ⟨rfl, -⟩ | ⟨hpos, hyu⟩ := unpack_of_unsigned hy
  · exact absurd hm₂ (lt_irrefl 0)
  rw [hdivide, hyu]
  obtain ⟨rfl, hxu⟩ | ⟨hm₁, hxu⟩ := unpack_of_unsigned hx
  · rw [hxu, value_unsigned hx, Nat.cast_zero, zero_mul, zero_div]
    exact rounds_zero
  · have hle := exponent_divCore_le e₁ e₂ hm₁ hm₂
    have hquotient : value x / value y =
        ((m₁ <<< (e₁ - e₂ - (divCore Format.binary64 m₁ e₁ m₂ e₂).2.1).toNat : Nat) : ℚ) / m₂ *
          2 ^ (divCore Format.binary64 m₁ e₁ m₂ e₂).2.1 := by
      have hsub : (divCore Format.binary64 m₁ e₁ m₂ e₂).2.1 ≤ e₁ - e₂ := min_le_left ..
      generalize (divCore Format.binary64 m₁ e₁ m₂ e₂).2.1 = target at hsub ⊢
      have hscale : (2 : ℚ) ^ (e₁ - e₂ - target).toNat * 2 ^ target = 2 ^ e₁ / 2 ^ e₂ := by
        rw [← zpow_natCast, ← zpow_add₀ two_ne_zero, ← zpow_sub₀ two_ne_zero]
        congr 1
        omega
      rw [value_unsigned hx, value_unsigned hy, Nat.shiftLeft_eq, mul_div_mul_comm, ← hscale]
      push_cast
      ring
    rw [hxu]
    rw [hquotient] at hlt ⊢
    exact rounds_roundWithAccuracy (.of_fraction _ hm₂) hle hlt

/-- A product of doubles without a sign is the exact product, rounded to a double. -/
theorem rounds_mul (hx : Exact.ofFloat x = .finite false m₁ e₁)
    (hy : Exact.ofFloat y = .finite false m₂ e₂) (hlt : value x * value y < 2 ^ 1023) :
    (Exact.ofFloat (x * y)).Rounds (value x * value y) := by
  have hmultiply : Exact.ofFloat (x * y) = .ofUnpacked (unpack Format.binary64
      (pack Format.binary64 (mul Format.binary64 x.toModel.unpack y.toModel.unpack))) :=
    ofFloat_eq _
  rw [hmultiply]
  obtain ⟨rfl, hxu⟩ | ⟨hm₁, hxu⟩ := unpack_of_unsigned hx
  · rw [hxu, value_unsigned hx, Nat.cast_zero, zero_mul, zero_mul]
    obtain ⟨rfl, hyu⟩ | ⟨hm₂, hyu⟩ := unpack_of_unsigned hy
    · rw [hyu]
      exact rounds_zero
    · rw [hyu]
      exact rounds_zero
  · obtain ⟨rfl, hyu⟩ | ⟨hm₂, hyu⟩ := unpack_of_unsigned hy
    · rw [hxu, hyu, value_unsigned hy, Nat.cast_zero, zero_mul, mul_zero]
      exact rounds_zero
    · have hproduct : value x * value y = ((m₁ * m₂ : Nat) : ℚ) * 2 ^ (e₁ + e₂) := by
        rw [value_unsigned hx, value_unsigned hy, zpow_add₀ two_ne_zero]
        push_cast
        ring
      have hle : e₁ + e₂ ≤ roundingExponent (m₁ * m₂) (e₁ + e₂) := by
        obtain ⟨-, hx₁, -, hx₂⟩ := ofBits_canonical hx
        obtain ⟨-, hy₁, -, hy₂⟩ := ofBits_canonical hy
        unfold roundingExponent
        by_cases hleast : e₁ + e₂ ≤ -1074
        · omega
        · have hbits : 2 ^ 52 ≤ m₁ * m₂ := by
            rcases hx₂ with hx₂ | hx₂
            · exact hx₂.trans (Nat.le_mul_of_pos_right m₁ hm₂)
            · exact (hy₂.resolve_right (by omega)).trans (Nat.le_mul_of_pos_left m₂ hm₁)
          have hlog : 52 ≤ (m₁ * m₂).log2 := (Nat.le_log2 (by omega)).2 hbits
          omega
      rw [hxu, hyu]
      rw [hproduct] at hlt ⊢
      exact rounds_roundWithAccuracy (.of_exact _) hle hlt

end Operations

/-! ### The nearest double -/

theorem exists_of_isFinite {x : Float} (hx : x.isFinite = true) :
    ∃ negative m q, Exact.ofFloat x = .finite negative m q := by
  have hfinite := isFinite_iff.1 hx
  cases hexact : Exact.ofFloat x with
  | finite negative m q => exact ⟨negative, m, q, rfl⟩
  | _ =>
    rw [hexact] at hfinite
    exact hfinite.elim

/-- What 53 bits of a smaller unit can hold is less than what the first of them holds of a greater
one. -/
theorem mantissa_lt_unit {m : Nat} {e q : Int} (hm : m < 2 ^ 53) (h : e < q) :
    (m : ℚ) * 2 ^ e < 2 ^ 52 * 2 ^ q :=
  calc (m : ℚ) * 2 ^ e < 2 ^ 53 * 2 ^ e := by
        gcongr
        exact_mod_cast hm
    _ = 2 ^ 52 * 2 ^ (e + 1) := by
        rw [zpow_add_one₀ two_ne_zero]
        ring
    _ ≤ 2 ^ 52 * 2 ^ q := by
        gcongr
        · exact one_le_two
        · omega

namespace IsRounding

variable {v : ℚ} {M : Nat} {q : Int}

/-- In the normal range, a number has 53 bits of units. -/
theorem unit_le (h : IsRounding v M q) (hv : 2 ^ (-1022 : ℤ) ≤ v) : 2 ^ 52 * 2 ^ q ≤ v := by
  rcases h.normal with rfl | hnormal
  · rwa [← zpow_natCast, ← zpow_add₀ two_ne_zero]
  · exact hnormal

/-- In the normal range, the error is small in proportion to the number. -/
theorem error_le (h : IsRounding v M q) (hv : 2 ^ (-1022 : ℤ) ≤ v) :
    |v - M * 2 ^ q| ≤ v / 2 ^ 53 :=
  calc |v - M * 2 ^ q| ≤ 2 ^ q / 2 := h.error
    _ = 2 ^ 52 * 2 ^ q / 2 ^ 53 := by ring
    _ ≤ v / 2 ^ 53 := by
      gcongr
      exact h.unit_le hv

/-- Of the multiples of the unit, none is as near as the one that rounding gave. -/
theorem lt_of_multiple (hlt : |v - M * 2 ^ q| < 2 ^ q / 2) {z : Int} (hz : z ≠ M) :
    |v - M * 2 ^ q| < |v - z * 2 ^ q| := by
  have hunit : (0 : ℚ) < 2 ^ q := zpow_pos two_pos _
  have hapart : (2 : ℚ) ^ q ≤ |(z : ℚ) * 2 ^ q - M * 2 ^ q| := by
    rw [← sub_mul, abs_mul, abs_of_pos hunit]
    have hone : (1 : ℚ) ≤ |((z : ℚ) - (M : ℚ))| := by
      have hint : 1 ≤ |z - M| := Int.one_le_abs (sub_ne_zero.2 hz)
      exact_mod_cast hint
    exact le_mul_of_one_le_left hunit.le hone
  have htriangle : |(z : ℚ) * 2 ^ q - M * 2 ^ q| ≤ |v - M * 2 ^ q| + |v - z * 2 ^ q| := by
    rw [← sub_sub_sub_cancel_left _ _ v]
    exact abs_sub ..
  linarith

/-- No other double is as near as the one that rounding gave, unless the number lies halfway
between two multiples of the unit. -/
theorem lt_of_double (h : IsRounding v M q) (hlt : |v - M * 2 ^ q| < 2 ^ q / 2) {y : Float}
    (hy : y.isFinite = true) (hne : value y ≠ M * 2 ^ q) :
    |v - M * 2 ^ q| < |v - value y| := by
  obtain ⟨negative, m, e, hexact⟩ := exists_of_isFinite hy
  obtain ⟨hm, hleast, -, -⟩ := ofBits_canonical hexact
  have hvalue : value y = (if negative then -(m : ℚ) else m) * 2 ^ e := by
    rw [value, hexact]
    rfl
  by_cases hle : q ≤ e
  · -- a double with a greater unit is a multiple of this one
    have hmultiple : value y =
        ((if negative then -(m : Int) else m) * 2 ^ (e - q).toNat : Int) * 2 ^ q := by
      have hscale : (2 : ℚ) ^ e = 2 ^ (e - q).toNat * 2 ^ q := by
        rw [← zpow_natCast, ← zpow_add₀ two_ne_zero]
        congr 1
        omega
      rw [hvalue, hscale]
      push_cast
      ring
    rw [hmultiple] at hne ⊢
    exact lt_of_multiple hlt fun heq => hne (by rw [heq, Int.cast_natCast])
  · -- a double with a smaller unit lies below all doubles with this one
    have hnormal := h.normal.resolve_left (by omega)
    have hbelow : value y < 2 ^ 52 * 2 ^ q := by
      have hmagnitude : value y ≤ m * 2 ^ e := by
        have hnonneg : (0 : ℚ) ≤ m * 2 ^ e := by positivity
        rw [hvalue]
        cases negative with
        | false => exact le_rfl
        | true =>
          show -(m : ℚ) * 2 ^ e ≤ m * 2 ^ e
          linarith
      exact hmagnitude.trans_lt (mantissa_lt_unit hm (not_le.1 hle))
    have hfirst : |v - 2 ^ 52 * 2 ^ q| < |v - value y| := by
      rw [abs_of_nonneg (by linarith), abs_of_pos (by linarith)]
      linarith
    by_cases hM : M = 2 ^ 52
    · rw [hM]
      exact_mod_cast hfirst
    · have hmultiple := lt_of_multiple (z := 2 ^ 52) hlt (by exact_mod_cast Ne.symm hM)
      refine lt_trans hmultiple ?_
      exact_mod_cast hfirst

end IsRounding

/-- A double is the nearest one to a number when every other finite double is further away. -/
def IsNearest (x : Float) (v : ℚ) : Prop :=
  x.isFinite = true ∧
    ∀ y : Float, y.isFinite = true → value y ≠ value x → |v - value x| < |v - value y|

/-- A rounded number is the nearest double when it cannot lie halfway between two doubles. -/
theorem isNearest_of_rounds {x : Float} {v : ℚ} (h : (Exact.ofFloat x).Rounds v)
    (hhalf : ∀ M q, IsRounding v M q → |v - M * 2 ^ q| ≠ 2 ^ q / 2) : IsNearest x v := by
  obtain ⟨⟨m, e, hexact⟩, M, q, hrounding, hvalue⟩ := h
  have hlt := lt_of_le_of_ne hrounding.error (hhalf M q hrounding)
  have hfinite : x.isFinite = true := by
    rw [isFinite_iff, hexact]
    trivial
  have hx : value x = M * 2 ^ q := hvalue
  refine ⟨hfinite, fun y hy hne => ?_⟩
  rw [hx] at hne ⊢
  exact hrounding.lt_of_double hlt hy hne

/-- Of two numbers in canonical form, one with a smaller exponent is smaller or below the normal
range. -/
theorem exponent_le_of_value_eq {x y : Float} {m m' : Nat} {q q' : Int}
    (hx : Exact.ofFloat x = .finite false m q) (hy : Exact.ofFloat y = .finite false m' q')
    (h : value x = value y) : q' ≤ q := by
  by_contra hlt
  obtain ⟨hm, hleast, -, -⟩ := ofBits_canonical hx
  obtain ⟨-, -, -, hnormal⟩ := ofBits_canonical hy
  have hm' : 2 ^ 52 ≤ m' := hnormal.resolve_right (by omega)
  rw [value_unsigned hx, value_unsigned hy] at h
  have hbelow : (m : ℚ) * 2 ^ q < m' * 2 ^ q' := by
    refine (mantissa_lt_unit hm (not_le.1 hlt)).trans_le ?_
    gcongr
    exact_mod_cast hm'
  exact hbelow.ne h

/-- A double without a sign is determined by its value. -/
theorem eq_of_value_eq {x y : Float} {m m' : Nat} {q q' : Int}
    (hx : Exact.ofFloat x = .finite false m q) (hy : Exact.ofFloat y = .finite false m' q')
    (h : value x = value y) : x = y := by
  obtain rfl : q = q' := le_antisymm (exponent_le_of_value_eq hy hx h.symm)
    (exponent_le_of_value_eq hx hy h)
  have hmantissa : m = m' := by
    rw [value_unsigned hx, value_unsigned hy] at h
    exact_mod_cast mul_right_cancel₀ (zpow_ne_zero q two_ne_zero) h
  exact eq_of_ofFloat_eq hx (hmantissa ▸ hy)

/-- Only one double without a sign is the nearest one to a number. -/
theorem eq_of_isNearest {x y : Float} {v : ℚ} (hx : ∃ m q, Exact.ofFloat x = .finite false m q)
    (hy : ∃ m q, Exact.ofFloat y = .finite false m q) (hxnear : IsNearest x v)
    (hynear : IsNearest y v) : x = y := by
  obtain ⟨m, q, hx⟩ := hx
  obtain ⟨m', q', hy⟩ := hy
  refine eq_of_value_eq hx hy ?_
  by_contra hne
  exact lt_asymm (hxnear.2 y hynear.1 (Ne.symm hne)) (hynear.2 x hxnear.1 hne)

/-- A number that is not halfway between two doubles is rounded to only one of them. -/
theorem eq_of_rounds {x y : Float} {v : ℚ} (hx : (Exact.ofFloat x).Rounds v)
    (hy : (Exact.ofFloat y).Rounds v)
    (hhalf : ∀ M q, IsRounding v M q → |v - M * 2 ^ q| ≠ 2 ^ q / 2) : x = y :=
  eq_of_isNearest hx.1 hy.1 (isNearest_of_rounds hx hhalf) (isNearest_of_rounds hy hhalf)

end CacheAudit.Decimal
