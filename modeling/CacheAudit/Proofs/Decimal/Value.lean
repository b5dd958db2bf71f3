import CacheAudit.Decimal.Exact
import Mathlib.Algebra.Order.Field.Power
import Mathlib.Data.Rat.Floor
import Mathlib.Tactic.FieldSimp
import Mathlib.Tactic.Linarith
import Mathlib.Tactic.NormNum

/-!
# The value of a double

The bits of a double are read in two ways: into the exact form that texts are made from, and into
the form that sums are computed on. Both forms stand for the same number, and the finite ones among
them have a mantissa of at most 53 bits and a bounded exponent.
-/

namespace CacheAudit.Decimal

open Float.Model (Format UnpackedFloat)
open Float.Model.UnpackedFloat

namespace Exact

/-- Whether the value is a number. -/
def IsFinite : Exact → Prop
  | .finite .. => True
  | _ => False

/-- The number, which is zero by convention for an infinity and for what is no number. -/
def value : Exact → ℚ
  | .finite negative m q => (if negative then -(m : ℚ) else m) * 2 ^ q
  | _ => 0

/-- The exact form of a double that is taken apart for computing. -/
def ofUnpacked : UnpackedFloat → Exact
  | .notANumber => .nan
  | .infinity s => .infinite (s == .negative)
  | .zero s => .finite (s == .negative) 0 (-1074)
  | .finite s m e _ => .finite (s == .negative) m e

theorem isFinite_ofUnpacked (u : UnpackedFloat) :
    (ofUnpacked u).IsFinite ↔ u.isFinite = true := by
  cases u with
  | finite | zero => exact iff_of_true trivial rfl
  | infinity | notANumber => exact iff_of_false id Bool.false_ne_true

theorem value_ofUnpacked_zero (s : Sign) : (ofUnpacked (.zero s)).value = 0 := by
  show (if s == .negative then -((0 : Nat) : ℚ) else (0 : Nat)) * 2 ^ (-1074 : ℤ) = 0
  simp

theorem value_ofUnpacked_finite (s : Sign) (m : Nat) (e : Int) (hm : 0 < m) :
    (ofUnpacked (.finite s m e hm)).value = (if s == .negative then -(m : ℚ) else m) * 2 ^ e :=
  rfl

end Exact

/-! ### Reading the bits -/

section Bits

variable (b : BitVec Format.binary64.numBits)

theorem toNat_unpackMantissa : (unpackMantissa b).toNat = b.toNat % 2 ^ 52 := by
  simp [unpackMantissa]

theorem toNat_unpackExponent : (unpackExponent b).toNat = b.toNat / 2 ^ 52 % 2 ^ 11 := by
  simp [unpackExponent, Nat.shiftRight_eq_div_pow]

theorem toNat_unpackSign : (unpackSign b).toNat = b.toNat / 2 ^ 63 % 2 := by
  unfold unpackSign
  simp [Nat.shiftRight_eq_div_pow]

theorem ofBitVec_unpackSign :
    (Sign.ofBitVec (unpackSign b) == .negative) = (b.toNat / 2 ^ 63 % 2 == 1) := by
  rw [← toNat_unpackSign]
  generalize unpackSign b = s
  revert s
  decide

/-- The bits mean the same for texts and for computing. -/
theorem ofUnpacked_unpack : Exact.ofUnpacked (unpack Format.binary64 b) = .ofBits b.toNat := by
  have hmantissa := toNat_unpackMantissa b
  have hexponent := toNat_unpackExponent b
  have hsign := ofBitVec_unpackSign b
  have hzero : unpackMantissa b = 0#52 ↔ b.toNat % 2 ^ 52 = 0 := by
    rw [← hmantissa, ← BitVec.toNat_inj]
    rfl
  have hleast : unpackExponent b = 0#11 ↔ b.toNat / 2 ^ 52 % 2 ^ 11 = 0 := by
    rw [← hexponent, ← BitVec.toNat_inj]
    rfl
  have hgreatest : unpackExponent b = -1#11 ↔ b.toNat / 2 ^ 52 % 2 ^ 11 = 2047 := by
    rw [← hexponent, ← BitVec.toNat_inj]
    rfl
  have hwhole : (1#1 ++ unpackMantissa b).toNat = 2 ^ 52 + b.toNat % 2 ^ 52 := by
    rw [BitVec.toNat_append, hmantissa,
      ← Nat.shiftLeft_add_eq_or_of_lt (Nat.mod_lt _ (by norm_num))]
    rfl
  have hbits : Exact.ofBits b.toNat =
      let negative := Sign.ofBitVec (unpackSign b) == .negative
      if unpackExponent b = -1#11 then
        if unpackMantissa b = 0#52 then .infinite negative else .nan
      else if unpackExponent b = 0#11 then .finite negative (unpackMantissa b).toNat (-1074)
      else .finite negative (1#1 ++ unpackMantissa b).toNat
        (((unpackExponent b).toNat : Int) - 1075) := by
    simp only [hgreatest, hleast, hzero, hexponent, hmantissa, hwhole, hsign]
    rfl
  rw [hbits]
  unfold unpack
  dsimp only
  by_cases hall : unpackExponent b = -1#11
  · rw [if_pos hall, if_pos hall]
    by_cases hnone : unpackMantissa b = 0#52
    · rw [if_pos hnone, if_pos hnone]
      rfl
    · rw [if_neg hnone, if_neg hnone]
      rfl
  rw [if_neg hall, if_neg hall]
  by_cases hsmall : unpackExponent b = 0#11
  · rw [if_pos hsmall, if_pos hsmall]
    by_cases hnone : unpackMantissa b = 0#52
    · rw [dif_pos hnone, hnone]
      rfl
    · rw [dif_neg hnone, hsmall]
      rfl
  · rw [if_neg hsmall, if_neg hsmall]
    rfl

end Bits

/-! ### Doubles -/

@[simp] theorem negative_beq_negative : (Sign.negative == .negative) = true := rfl

@[simp] theorem positive_beq_negative : (Sign.positive == .negative) = false := rfl

/-- A finite number that no double exceeds in mantissa or exponent. -/
def Fits : UnpackedFloat → Prop
  | .finite _ m e _ => m < 2 ^ 53 ∧ e ≤ 971
  | _ => True

theorem ofBits_bounds {n m : Nat} {negative : Bool} {q : Int}
    (h : Exact.ofBits n = .finite negative m q) : m < 2 ^ 53 ∧ q ≤ 971 := by
  have hfraction : n % Nat.pow 2 52 < 2 ^ 52 := Nat.mod_lt _ (by decide)
  have hexponent : n / Nat.pow 2 52 % Nat.pow 2 11 < 2 ^ 11 := Nat.mod_lt _ (by decide)
  have hpow : Nat.pow 2 52 = 2 ^ 52 := rfl
  unfold Exact.ofBits at h
  dsimp only at h
  split at h
  · split at h <;> cases h
  · split at h
    · cases h
      omega
    · cases h
      omega

theorem ofFloat_eq (x : Float) : Exact.ofFloat x = .ofUnpacked x.toModel.unpack :=
  (ofUnpacked_unpack _).symm

theorem fits_unpack (x : Float) : Fits x.toModel.unpack := by
  have hbits := ofFloat_eq x
  cases hu : x.toModel.unpack with
  | finite s m e hm =>
    rw [hu] at hbits
    exact ofBits_bounds hbits
  | _ => trivial

/-- A double is finite when its exact form is a number. -/
theorem isFinite_iff {x : Float} : x.isFinite = true ↔ (Exact.ofFloat x).IsFinite := by
  rw [ofFloat_eq, Exact.isFinite_ofUnpacked]
  rfl

/-- The number that a double stands for. -/
def value (x : Float) : ℚ :=
  (Exact.ofFloat x).value

/-- A mantissa that is written out to a lower exponent keeps its value. -/
theorem value_finite {s : Sign} {m : Nat} {e t : Int} (hm : 0 < m) (h : t ≤ e) :
    ((s.apply (m <<< (e - t).toNat : Nat) : Int) : ℚ) * 2 ^ t =
      (Exact.ofUnpacked (.finite s m e hm)).value := by
  have hscaled : (2 : ℚ) ^ e = 2 ^ (e - t).toNat * 2 ^ t := by
    rw [← zpow_natCast, ← zpow_add₀ two_ne_zero]
    congr 1
    omega
  rw [Exact.value_ofUnpacked_finite, hscaled]
  cases s <;> simp [Sign.apply, Nat.shiftLeft_eq, mul_assoc]

end CacheAudit.Decimal
