import CacheAudit.Proofs.Decimal.Overflow
import Mathlib.Tactic.IntervalCases

/-!
# Packing a number into a double and unpacking it again

A double keeps 53 bits of a mantissa, the first of them only by the exponent, which tells numbers
with a leading bit from those below the normal range. A number in that form is packed without
loss, and the bits of every double stand for such a number. So a double that is made from bits
stands for what the bits stand for.
-/

namespace CacheAudit.Decimal

open Float.Model (Format UnpackedFloat)
open Float.Model.UnpackedFloat

/-- A value in the form in which doubles have it: a finite number has a mantissa of 53 bits, or a
shorter one with the least exponent. -/
def Canonical : UnpackedFloat → Prop
  | .finite _ m e _ => m < 2 ^ 53 ∧ -1074 ≤ e ∧ e ≤ 971 ∧ (2 ^ 52 ≤ m ∨ e = -1074)
  | _ => True

/-- The bits of a double stand for a number in canonical form. -/
theorem ofBits_canonical {n m : Nat} {negative : Bool} {q : Int}
    (h : Exact.ofBits n = .finite negative m q) :
    m < 2 ^ 53 ∧ -1074 ≤ q ∧ q ≤ 971 ∧ (2 ^ 52 ≤ m ∨ q = -1074) := by
  have hbounds := ofBits_bounds h
  have hpow : Nat.pow 2 52 = 2 ^ 52 := rfl
  refine ⟨hbounds.1, ?_, hbounds.2, ?_⟩ <;>
  · unfold Exact.ofBits at h
    dsimp only at h
    split at h
    · split at h <;> cases h
    · split at h <;> cases h <;> omega

theorem canonical_unpack (b : BitVec Format.binary64.numBits) :
    Canonical (unpack Format.binary64 b) := by
  have hbits := ofUnpacked_unpack b
  cases hu : unpack Format.binary64 b with
  | finite s m e hm =>
    rw [hu] at hbits
    exact ofBits_canonical hbits.symm
  | _ => trivial

/-! ### Putting bits together -/

/-- A word that is put together from a sign, an exponent and a fraction is taken apart again. -/
theorem ofBits_components (negative : Bool) {exponent fraction : Nat} (he : exponent < 2047)
    (hf : fraction < 2 ^ 52) :
    Exact.ofBits (negative.toNat * 2 ^ 63 + exponent * 2 ^ 52 + fraction) =
      if exponent = 0 then .finite negative fraction (-1074)
      else .finite negative (2 ^ 52 + fraction) (exponent - 1075) := by
  have hsign : negative.toNat < 2 := Bool.toNat_lt negative
  generalize hbits : negative.toNat * 2 ^ 63 + exponent * 2 ^ 52 + fraction = bits
  have hnegative : (bits / Nat.pow 2 63 % 2 == 1) = negative := by
    have hbit : bits / 2 ^ 63 % 2 = negative.toNat := by omega
    rw [Nat.pow_eq, hbit]
    cases negative <;> rfl
  have hexponent : bits / Nat.pow 2 52 % Nat.pow 2 11 = exponent := by
    show bits / 2 ^ 52 % 2 ^ 11 = exponent
    omega
  have hfraction : bits % Nat.pow 2 52 = fraction := by
    show bits % 2 ^ 52 = fraction
    omega
  unfold Exact.ofBits
  dsimp only
  rw [hnegative, hexponent, hfraction, if_neg (by omega)]
  rfl

theorem toNat_packComponents (s : Sign) (exponent : BitVec 11) (mantissa : BitVec 52) :
    (packComponents Format.binary64 s exponent mantissa).toNat =
      (s == .negative).toNat * 2 ^ 63 + exponent.toNat * 2 ^ 52 + mantissa.toNat := by
  have hsign : s.toBitVec.toNat = (s == .negative).toNat := by cases s <;> rfl
  unfold packComponents
  rw [BitVec.toNat_append, BitVec.toNat_append, ← Nat.shiftLeft_add_eq_or_of_lt exponent.isLt,
    ← Nat.shiftLeft_add_eq_or_of_lt mantissa.isLt, hsign, Nat.shiftLeft_eq, Nat.shiftLeft_eq]
  ring

theorem pack_finite (spec : Format) (s : Sign) {m : Nat} (e : Int) (hm : 0 < m) :
    pack spec (.finite s m e hm) =
      if 2 ^ spec.exponentBits ≤
          (e + spec.exponentBias + spec.mantissaBitsWithoutImplicit).toNat + 1 then
        packedInfinity spec s
      else if m.log2 + 1 = spec.mantissaBits then
        packComponents spec s
          (BitVec.ofNat _ (e + spec.exponentBias + spec.mantissaBitsWithoutImplicit).toNat)
          (BitVec.ofNat _ m)
      else packComponents spec s (BitVec.ofNat _ 0) (BitVec.ofNat _ m) :=
  rfl

/-- A number in canonical form is packed without loss. -/
theorem ofUnpacked_unpack_pack {u : UnpackedFloat} (h : Canonical u) :
    Exact.ofUnpacked (unpack Format.binary64 (pack Format.binary64 u)) = .ofUnpacked u := by
  cases u with
  | notANumber => decide
  | infinity s | zero s => cases s <;> decide
  | finite s m e hm =>
    obtain ⟨hlt, hle, hge, hnormal⟩ := h
    have hbiased : (e + Format.binary64.exponentBias +
        Format.binary64.mantissaBitsWithoutImplicit).toNat = (e + 1075).toNat := by
      rw [biasedExponent_eq]
    have hrange : ¬2 ^ Format.binary64.exponentBits ≤ (e + 1075).toNat + 1 := by
      show ¬2048 ≤ (e + 1075).toNat + 1
      omega
    have hbits : Format.binary64.mantissaBits = 53 := rfl
    rw [ofUnpacked_unpack]
    show Exact.ofBits (pack Format.binary64 (.finite s m e hm)).toNat = .finite (s == .negative) m e
    rw [pack_finite, hbiased, if_neg hrange, hbits]
    by_cases hleading : 2 ^ 52 ≤ m
    · have hlog : m.log2 + 1 = 53 := by
        rw [(Nat.log2_eq_iff hm.ne').2 ⟨hleading, hlt⟩]
      rw [if_pos hlog, toNat_packComponents, BitVec.toNat_ofNat, BitVec.toNat_ofNat,
        ofBits_components _ (by omega) (by omega), if_neg (by omega)]
      show Exact.finite _ _ _ = .finite _ _ _
      congr 1 <;> omega
    · have hlog : ¬m.log2 + 1 = 53 := by
        have := (Nat.log2_lt hm.ne').2 (Nat.lt_of_not_le hleading)
        omega
      rw [if_neg hlog, toNat_packComponents, BitVec.toNat_ofNat, BitVec.toNat_ofNat,
        ofBits_components _ (by decide) (by omega), if_pos rfl]
      show Exact.finite _ _ _ = .finite _ _ _
      congr 1 <;> omega

/-- A double that is made from bits stands for what the bits stand for. -/
theorem ofFloat_ofBits (bits : UInt64) :
    Exact.ofFloat (Float.ofBits bits) = .ofBits bits.toNat :=
  calc Exact.ofFloat (Float.ofBits bits)
      = .ofUnpacked (unpack Format.binary64 (pack Format.binary64
          (unpack Format.binary64 bits.toBitVec))) := ofFloat_eq _
    _ = .ofUnpacked (unpack Format.binary64 bits.toBitVec) :=
        ofUnpacked_unpack_pack (canonical_unpack _)
    _ = .ofBits bits.toNat := ofUnpacked_unpack _

/-! ### A double is its value -/

/-- The word that a finite value comes from. -/
def wordOf (negative : Bool) (m : Nat) (q : Int) : Nat :=
  negative.toNat * 2 ^ 63 + if m < 2 ^ 52 then m else (q + 1074).toNat * 2 ^ 52 + m

theorem eq_wordOf {n m : Nat} {negative : Bool} {q : Int} (hn : n < 2 ^ 64)
    (h : Exact.ofBits n = .finite negative m q) : n = wordOf negative m q := by
  have hsign : (n / Nat.pow 2 63 % 2 == 1).toNat = n / 2 ^ 63 := by
    have hbit : n / 2 ^ 63 < 2 := by omega
    show (n / 2 ^ 63 % 2 == 1).toNat = n / 2 ^ 63
    generalize n / 2 ^ 63 = bit at hbit
    interval_cases bit <;> rfl
  have hexponent : n / Nat.pow 2 52 % Nat.pow 2 11 = n / 2 ^ 52 % 2 ^ 11 := rfl
  have hfraction : n % Nat.pow 2 52 = n % 2 ^ 52 := rfl
  have hleading : Nat.pow 2 52 = 2 ^ 52 := rfl
  unfold Exact.ofBits at h
  dsimp only at h
  rw [hexponent, hfraction, hleading] at h
  unfold wordOf
  split at h
  · split at h <;> cases h
  · split at h <;> injection h with hnegative hm hq
    · rw [← hnegative, hsign, ← hm, if_pos (Nat.mod_lt _ (Nat.two_pow_pos 52))]
      omega
    · rw [← hnegative, hsign, ← hm, ← hq, if_neg (by omega)]
      omega

/-- Doubles that stand for the same finite value are the same. -/
theorem eq_of_ofFloat_eq {x y : Float} {negative : Bool} {m : Nat} {q : Int}
    (hx : Exact.ofFloat x = .finite negative m q) (hy : Exact.ofFloat y = .finite negative m q) :
    x = y := by
  have hbits : x.toBits = y.toBits := by
    rw [← UInt64.toNat_inj, eq_wordOf (UInt64.toNat_lt _) hx, eq_wordOf (UInt64.toNat_lt _) hy]
  obtain ⟨⟨xbits, xvalid⟩⟩ := x
  obtain ⟨⟨ybits, yvalid⟩⟩ := y
  cases hbits
  rfl

end CacheAudit.Decimal
