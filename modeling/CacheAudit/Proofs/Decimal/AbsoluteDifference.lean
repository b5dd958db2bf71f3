import CacheAudit.Decimal.Exact
import Mathlib.Data.Int.Order.Basic

/-!
# The distance of two doubles

The distance of two doubles is the same in both directions, infinities and values that are no
number among them. A difference taken the other way round has the other sign, rounding looks at the
magnitude only, and a packed number keeps its magnitude whatever its sign.
-/

namespace CacheAudit.Decimal

open Float.Model (Format UnpackedFloat)
open Float.Model.UnpackedFloat

variable {spec : Format}

/-- The magnitude of what bits stand for is read off the exponent and the mantissa. -/
theorem abs_unpack_congr {b b' : BitVec spec.numBits} (he : unpackExponent b = unpackExponent b')
    (hm : unpackMantissa b = unpackMantissa b') : (unpack spec b).abs = (unpack spec b').abs := by
  unfold unpack
  dsimp only
  by_cases hgreatest : unpackExponent b' = -1#_
  · rw [if_pos (he.trans hgreatest), if_pos hgreatest]
    by_cases hzero : unpackMantissa b' = 0#_
    · rw [if_pos (hm.trans hzero), if_pos hzero]
      rfl
    · rw [if_neg (hm ▸ hzero), if_neg hzero]
  rw [if_neg (he ▸ hgreatest), if_neg hgreatest]
  by_cases hleast : unpackExponent b' = 0#_
  · rw [if_pos (he.trans hleast), if_pos hleast]
    by_cases hzero : unpackMantissa b' = 0#_
    · rw [dif_pos (hm.trans hzero), dif_pos hzero]
      rfl
    · rw [dif_neg (hm ▸ hzero), dif_neg hzero]
      show finite .positive _ _ _ = finite .positive _ _ _
      rw [finite.injEq, he, hm]
      exact ⟨rfl, rfl, rfl⟩
  · rw [if_neg (he ▸ hleast), if_neg hleast]
    show finite .positive _ _ _ = finite .positive _ _ _
    rw [finite.injEq, he, hm]
    exact ⟨rfl, rfl, rfl⟩

theorem abs_unpack_packComponents (s s' : Sign) (e : BitVec spec.exponentBits)
    (m : BitVec spec.mantissaBitsWithoutImplicit) :
    (unpack spec (packComponents spec s e m)).abs =
      (unpack spec (packComponents spec s' e m)).abs := by
  apply abs_unpack_congr
  · rw [unpackExponent_packComponents, unpackExponent_packComponents]
  · rw [unpackMantissa_packComponents, unpackMantissa_packComponents]

/-- The exponent and the mantissa that a finite number is packed into do not depend on its sign. -/
theorem exists_pack_finite (spec : Format) (m : Nat) (e : Int) (hm : 0 < m) :
    ∃ exponent mantissa, ∀ s,
      pack spec (.finite s m e hm) = packComponents spec s exponent mantissa := by
  by_cases hlarge : 2 ^ spec.exponentBits ≤
      (e + spec.exponentBias + spec.mantissaBitsWithoutImplicit).toNat + 1
  · exact ⟨_, _, fun s => if_pos hlarge⟩
  by_cases hnormal : m.log2 + 1 = spec.mantissaBits
  · exact ⟨_, _, fun s => (if_neg hlarge).trans (if_pos hnormal)⟩
  · exact ⟨_, _, fun s => (if_neg hlarge).trans (if_neg hnormal)⟩

theorem abs_unpack_pack (u : UnpackedFloat) :
    (unpack spec (pack spec u)).abs = (unpack spec (pack spec u.abs)).abs := by
  cases u with
  | notANumber => rfl
  | infinity s => exact abs_unpack_packComponents ..
  | zero s => exact abs_unpack_packComponents ..
  | finite s m e hm =>
    obtain ⟨exponent, mantissa, hpack⟩ := exists_pack_finite spec m e hm
    show (unpack spec (pack spec (.finite s m e hm))).abs =
      (unpack spec (pack spec (.finite .positive m e hm))).abs
    rw [hpack, hpack]
    exact abs_unpack_packComponents ..

theorem abs_round (s s' : Sign) (m : Nat) (e : Int) :
    (round spec s m e).abs = (round spec s' m e).abs := by
  unfold UnpackedFloat.round roundWithAccuracy
  dsimp only
  rw [apply_dite UnpackedFloat.abs, apply_dite UnpackedFloat.abs]
  rfl

theorem abs_normalize_neg (m e : Int) (s : Sign) :
    (normalize spec (-m) e s).abs = (normalize spec m e s).abs := by
  rcases lt_trichotomy m 0 with h | rfl | h
  · have hm : compare m 0 = .lt := compare_lt_iff_lt.2 h
    have hneg : compare (-m) 0 = .gt := compare_gt_iff_gt.2 (Int.neg_pos_of_neg h)
    simp only [UnpackedFloat.normalize, hm, hneg]
    exact abs_round ..
  · rfl
  · have hm : compare m 0 = .gt := compare_gt_iff_gt.2 h
    have hneg : compare (-m) 0 = .lt := compare_lt_iff_lt.2 (Int.neg_neg_of_pos h)
    simp only [UnpackedFloat.normalize, hm, hneg, Int.neg_neg]
    exact abs_round ..

theorem abs_unpacked_sub_comm (a b : UnpackedFloat) :
    (sub spec a b).abs = (sub spec b a).abs := by
  cases a with
  | notANumber => cases b <;> rfl
  | infinity s => cases b with
    | infinity t => cases s <;> cases t <;> rfl
    | _ => rfl
  | zero s => cases b with
    | zero t => cases s <;> cases t <;> rfl
    | _ => rfl
  | finite s m e hm => cases b with
    | finite t n f hn =>
      unfold sub
      dsimp only
      rw [min_comm f e, ← abs_normalize_neg, Int.neg_sub]
    | _ => rfl

/-- Two doubles are as far apart in one direction as in the other. -/
theorem abs_sub_comm (a b : Float) : (a - b).abs = (b - a).abs := by
  show Float.ofModel (Float.Model.pack (unpack _ (pack _ (sub _ _ _))).abs) = _
  rw [abs_unpack_pack, abs_unpacked_sub_comm, ← abs_unpack_pack]
  rfl

end CacheAudit.Decimal
