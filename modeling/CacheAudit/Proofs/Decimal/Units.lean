import CacheAudit.Proofs.Decimal.Value

/-!
# The units to which a number is rounded

A mantissa of any length is shifted to the right until 53 bits of it are left, or until the least
exponent is met, and what is left is rounded up or down by the bits that were shifted out. This
gives a number of units, and these are the mantissa of a double unless they have become the next
power of two, which takes one more shift.
-/

namespace CacheAudit.Decimal

open Float.Model (Format UnpackedFloat totalExponent)
open Float.Model.UnpackedFloat

/-! ### Shifts -/

variable {m : Nat} {e : Int}

theorem shift_succ (em : ExtendedMantissa) (k : Nat) :
    em >>> (k + 1) = (em >>> k).shiftRightOne :=
  rfl

theorem mantissa_shift (em : ExtendedMantissa) (k : Nat) :
    (em >>> k).mantissa = em.mantissa / 2 ^ k := by
  induction k with
  | zero => exact (Nat.div_one _).symm
  | succ k ih =>
    rw [shift_succ, ExtendedMantissa.shiftRightOne, ih, Nat.div_div_eq_div_mul, Nat.pow_succ]

theorem roundBit_shift (em : ExtendedMantissa) (k : Nat) :
    (em >>> (k + 1)).roundBit = (em.mantissa / 2 ^ k % 2 != 0) := by
  rw [shift_succ, ExtendedMantissa.shiftRightOne, mantissa_shift]

theorem roundedMantissa_bounds (em : ExtendedMantissa) :
    em.mantissa ≤ em.roundedMantissa ∧ em.roundedMantissa ≤ em.mantissa + 1 := by
  obtain ⟨m, r, t⟩ := em
  cases r <;> cases t <;> simp [ExtendedMantissa.roundedMantissa, ExtendedMantissa.accuracy,
    Accuracy.roundToNearestEven]
  omega

/-- An odd mantissa is rounded up when the first bit left out is set. -/
theorem roundedMantissa_of_odd (em : ExtendedMantissa) (h : em.mantissa % 2 = 1) :
    em.roundedMantissa = if em.roundBit then em.mantissa + 1 else em.mantissa := by
  obtain ⟨m, r, t⟩ := em
  cases r <;> cases t <;> simp_all [ExtendedMantissa.roundedMantissa, ExtendedMantissa.accuracy,
    Accuracy.roundToNearestEven]

/-- A mantissa without further bits. -/
def wholeMantissa (m : Nat) : ExtendedMantissa :=
  ⟨m, false, false⟩

/-- The exponent to which a number is rounded. -/
def roundingExponent (m : Nat) (e : Int) : Int :=
  max (m.log2 + e - 52) (-1074)

theorem le_roundingExponent (m : Nat) (e : Int) : -1074 ≤ roundingExponent m e :=
  le_max_right _ _

theorem targetExponent_binary64 (total : Int) :
    Format.binary64.targetExponent total = max (total - 53) (-1074) := by
  have hbits : (Format.binary64.mantissaBits : Int) = 53 := rfl
  have hleast : Format.binary64.minExponent = -1074 := by decide
  rw [Format.targetExponent, hbits, hleast]

theorem targetExponent_eq (m : Nat) (e : Int) :
    Format.binary64.targetExponent (totalExponent m e) = roundingExponent m e := by
  rw [targetExponent_binary64, totalExponent, roundingExponent]
  omega

theorem shiftToTargetExponent_eq (m : Nat) (e : Int) (accuracy : Accuracy) :
    shiftToTargetExponent Format.binary64 m e accuracy =
      (ExtendedMantissa.ofMantissaAndAccuracy m accuracy >>> (roundingExponent m e - e).toNat,
        e + (roundingExponent m e - e).toNat) := by
  rw [shiftToTargetExponent, targetExponent_eq]
  rfl

/-- A mantissa of 53 bits needs no further shift, and the next power of two one more. -/
theorem shiftToTargetExponent_again (hm : m ≤ 2 ^ 53) (he : -1074 ≤ e) :
    shiftToTargetExponent Format.binary64 m e .exact =
      if m < 2 ^ 53 then (wholeMantissa m, e) else (wholeMantissa (2 ^ 53) >>> 1, e + 1) := by
  rw [shiftToTargetExponent_eq]
  split
  · rename_i hsmall
    have hlog : m.log2 ≤ 52 := by
      by_cases hzero : m = 0
      · simp [hzero]
      · have := (Nat.log2_lt hzero).2 hsmall
        omega
    have hshift : (roundingExponent m e - e).toNat = 0 := by
      unfold roundingExponent
      omega
    rw [hshift, Nat.cast_zero, add_zero]
    rfl
  · obtain rfl : m = 2 ^ 53 := by omega
    have hshift : (roundingExponent (2 ^ 53) e - e).toNat = 1 := by
      unfold roundingExponent
      rw [Nat.log2_two_pow]
      omega
    rw [hshift]
    rfl

/-! ### Units -/

/-- The units to which a mantissa is rounded. -/
def roundedUnits (m : Nat) (e : Int) (accuracy : Accuracy) : Nat :=
  (ExtendedMantissa.ofMantissaAndAccuracy m accuracy >>>
    (roundingExponent m e - e).toNat).roundedMantissa

theorem mantissa_ofMantissaAndAccuracy (m : Nat) (accuracy : Accuracy) :
    (ExtendedMantissa.ofMantissaAndAccuracy m accuracy).mantissa = m := by
  cases accuracy with
  | exact => rfl
  | inexact o => cases o <;> rfl

theorem roundedUnits_bounds (m : Nat) (e : Int) (accuracy : Accuracy) :
    m / 2 ^ (roundingExponent m e - e).toNat ≤ roundedUnits m e accuracy ∧
      roundedUnits m e accuracy ≤ m / 2 ^ (roundingExponent m e - e).toNat + 1 := by
  have hbounds := roundedMantissa_bounds (ExtendedMantissa.ofMantissaAndAccuracy m accuracy >>>
    (roundingExponent m e - e).toNat)
  rwa [mantissa_shift, mantissa_ofMantissaAndAccuracy] at hbounds

theorem roundedUnits_le (m : Nat) (e : Int) (accuracy : Accuracy) :
    roundedUnits m e accuracy ≤ 2 ^ 53 := by
  have hbounds := (roundedUnits_bounds m e accuracy).2
  generalize hk : (roundingExponent m e - e).toNat = k at hbounds
  have hlog : m.log2 ≤ 52 + k := by
    unfold roundingExponent at hk
    omega
  have hfloor : m / 2 ^ k < 2 ^ 53 := by
    rw [Nat.div_lt_iff_lt_mul (Nat.two_pow_pos k), ← Nat.pow_add]
    exact Nat.lt_log2_self.trans_le (Nat.pow_le_pow_right (by omega) (by omega))
  omega

/-- What is not below the normal range keeps 53 bits. -/
theorem le_shifted_mantissa (he : e ≤ roundingExponent m e) (hne : roundingExponent m e ≠ -1074) :
    2 ^ 52 ≤ m / 2 ^ (roundingExponent m e - e).toNat := by
  have hq : roundingExponent m e = m.log2 + e - 52 := by
    unfold roundingExponent at hne ⊢
    omega
  generalize hk : (roundingExponent m e - e).toNat = k
  have hlog : m.log2 = 52 + k := by omega
  have hm : m ≠ 0 := by
    rintro rfl
    rw [Nat.log2_zero] at hlog
    omega
  rw [Nat.le_div_iff_mul_le (Nat.two_pow_pos k), ← Nat.pow_add, ← hlog]
  exact Nat.log2_self_le hm

/-- The units are the mantissa of the result, unless rounding gave the next power of two. -/
theorem roundWithAccuracy_cases (s : Sign) (accuracy : Accuracy) (he : e ≤ roundingExponent m e) :
    (roundedUnits m e accuracy = 0 ∧
      roundWithAccuracy Format.binary64 s m e accuracy = .zero s) ∨
    (∃ hpos : 0 < roundedUnits m e accuracy, roundedUnits m e accuracy < 2 ^ 53 ∧
      roundWithAccuracy Format.binary64 s m e accuracy =
        .finite s (roundedUnits m e accuracy) (roundingExponent m e) hpos) ∨
    (roundedUnits m e accuracy = 2 ^ 53 ∧ roundWithAccuracy Format.binary64 s m e accuracy =
      .finite s (2 ^ 52) (roundingExponent m e + 1) (Nat.two_pow_pos 52)) := by
  have hle := roundedUnits_le m e accuracy
  have hexponent : e + ((roundingExponent m e - e).toNat : Int) = roundingExponent m e := by omega
  have hshifted := shiftToTargetExponent_eq m e accuracy
  rw [hexponent] at hshifted
  have hround : roundWithAccuracy Format.binary64 s m e accuracy =
      let shifted := shiftToTargetExponent Format.binary64 (roundedUnits m e accuracy)
        (roundingExponent m e) .exact
      if h : shifted.1.mantissa = 0 then .zero s
      else .finite s shifted.1.mantissa shifted.2 (Nat.pos_of_ne_zero h) := by
    unfold roundWithAccuracy
    dsimp only
    rw [hshifted]
    rfl
  rw [hround, shiftToTargetExponent_again hle (le_roundingExponent m e)]
  by_cases hlt : roundedUnits m e accuracy < 2 ^ 53
  · rw [if_pos hlt]
    by_cases hzero : roundedUnits m e accuracy = 0
    · exact .inl ⟨hzero, dif_pos hzero⟩
    · exact .inr (.inl ⟨Nat.pos_of_ne_zero hzero, hlt, dif_neg hzero⟩)
  · rw [if_neg hlt]
    have hhalf : (wholeMantissa (2 ^ 53) >>> 1).mantissa = 2 ^ 52 := by
      rw [mantissa_shift]
      rfl
    exact .inr (.inr ⟨by omega, dif_neg (by rw [hhalf]; omega)⟩)

end CacheAudit.Decimal
