import CacheAudit.Proofs.Decimal.Units

/-!
# When a sum of doubles overflows

A sum of two finite doubles is rounded to the nearest double, and becomes infinite when its exact
value lies half a unit beyond the greatest finite double or further out. A sum with an infinity or
a value that is no number is never finite again. So what a long sum comes to is finite exactly when
no step of it overflows.
-/

namespace CacheAudit.Decimal

open Float.Model (Format UnpackedFloat totalExponent)
open Float.Model.UnpackedFloat

/-- The least magnitude that is rounded to infinity: the greatest finite double and half a unit of
its last place. -/
def overflowBound : ℚ :=
  (2 ^ 54 - 1) * 2 ^ (970 : ℤ)

theorem overflowBound_pos : 0 < overflowBound := by
  have hone : (0 : ℚ) < 2 ^ 54 - 1 := by norm_num
  exact mul_pos hone (zpow_pos two_pos _)

/-! ### Finite results -/

section Finite

variable {m k : Nat} {e : Int} {s : Sign}

/-- The bits of a double stand for a finite number when its exponent is not the greatest. -/
theorem isFinite_unpack (b : BitVec Format.binary64.numBits) :
    (unpack Format.binary64 b).isFinite = true ↔ unpackExponent b ≠ -1#11 := by
  unfold unpack
  dsimp only
  by_cases hexponent : unpackExponent b = -1#11
  · rw [if_pos hexponent]
    refine iff_of_false ?_ (not_not_intro hexponent)
    by_cases hzero : unpackMantissa b = 0#52
    · rw [if_pos hzero]
      exact Bool.false_ne_true
    · rw [if_neg hzero]
      exact Bool.false_ne_true
  · rw [if_neg hexponent]
    refine iff_of_true ?_ hexponent
    by_cases hleast : unpackExponent b = 0#11
    · rw [if_pos hleast, apply_dite UnpackedFloat.isFinite]
      exact ite_self _
    · rw [if_neg hleast]
      rfl

theorem isFinite_unpack_pack_zero (s : Sign) :
    (unpack Format.binary64 (pack Format.binary64 (.zero s))).isFinite = true := by
  cases s <;> decide

theorem biasedExponent_eq (e : Int) :
    e + Format.binary64.exponentBias + (52 : Nat) = e + 1075 := by
  norm_num [Format.exponentBias]
  omega

/-- A number is packed into a finite double when its exponent is at most that of the greatest. -/
theorem isFinite_unpack_pack_finite (s : Sign) (m : Nat) (e : Int) (hm : 0 < m) :
    (unpack Format.binary64 (pack Format.binary64 (.finite s m e hm))).isFinite = true ↔
      e ≤ 971 := by
  rw [isFinite_unpack]
  unfold pack
  dsimp only
  simp only [biasedExponent_eq]
  split
  · rename_i hlarge
    have hlarge : 2048 ≤ (e + 1075).toNat + 1 := hlarge
    simp only [packedInfinity, unpackExponent_packComponents]
    simp
    omega
  · rename_i hsmall
    have hsmall : (e + 1075).toNat < 2047 := by
      have : ¬2048 ≤ (e + 1075).toNat + 1 := hsmall
      omega
    have he : e ≤ 971 := by omega
    have hother (exponent : Nat) (h : exponent < 2047) : BitVec.ofNat 11 exponent ≠ -1#11 := by
      intro heq
      have hnat := congrArg BitVec.toNat heq
      rw [BitVec.toNat_ofNat, Nat.mod_eq_of_lt (by omega)] at hnat
      simp at hnat
      omega
    split
    · simp only [unpackExponent_packComponents]
      exact iff_of_true (hother _ hsmall) he
    · simp only [unpackExponent_packComponents]
      exact iff_of_true (hother 0 (by omega)) he

/-- A rounded number is finite unless its exponent or its mantissa has become too large. -/
theorem isFinite_roundWithAccuracy (he : e ≤ roundingExponent m e)
    (hk : (roundingExponent m e - e).toNat = k) :
    (unpack Format.binary64 (pack Format.binary64
      (roundWithAccuracy Format.binary64 s m e .exact))).isFinite = true ↔
      if (wholeMantissa m >>> k).roundedMantissa < 2 ^ 53 then
        (wholeMantissa m >>> k).roundedMantissa = 0 ∨ roundingExponent m e ≤ 971
      else roundingExponent m e ≤ 970 := by
  have hunits : (wholeMantissa m >>> k).roundedMantissa = roundedUnits m e .exact := by
    rw [← hk]
    rfl
  rw [hunits]
  rcases roundWithAccuracy_cases s .exact he with
    ⟨hzero, hresult⟩ | ⟨hpos, hlt, hresult⟩ | ⟨hpower, hresult⟩
  · rw [hresult, hzero, if_pos (Nat.two_pow_pos 53)]
    exact iff_of_true (isFinite_unpack_pack_zero s) (.inl rfl)
  · rw [hresult, if_pos hlt, isFinite_unpack_pack_finite]
    exact ⟨.inr, fun h => h.resolve_left hpos.ne'⟩
  · rw [hresult, hpower, if_neg (lt_irrefl _), isFinite_unpack_pack_finite]
    omega

/-! ### The threshold -/

/-- A mantissa is rounded to the power of two above it when it lies at most half a unit below. -/
theorem roundedMantissa_lt_iff (hlog : m.log2 = 52 + k) :
    (wholeMantissa m >>> k).roundedMantissa < 2 ^ 53 ↔ 2 * m < (2 ^ 54 - 1) * 2 ^ k := by
  have hlt : m < 2 ^ 53 * 2 ^ k := by
    rw [← Nat.pow_add]
    exact Nat.lt_log2_self.trans_le (Nat.pow_le_pow_right (by omega) (by omega))
  cases k with
  | zero =>
    have hround : (wholeMantissa m >>> 0).roundedMantissa = m := rfl
    rw [hround]
    omega
  | succ j =>
    -- with the first bit left out, the mantissa has 54 bits
    have hbounds := roundedMantissa_bounds (wholeMantissa m >>> (j + 1))
    have hbit := roundBit_shift (wholeMantissa m) j
    have hodd := roundedMantissa_of_odd (wholeMantissa m >>> (j + 1))
    have hwhole : (wholeMantissa m).mantissa = m := rfl
    rw [mantissa_shift, hwhole, Nat.pow_succ, ← Nat.div_div_eq_div_mul] at hbounds hodd
    rw [hwhole] at hbit
    have hbits : 2 * m < (2 ^ 54 - 1) * 2 ^ (j + 1) ↔ m / 2 ^ j < 2 ^ 54 - 1 := by
      rw [Nat.div_lt_iff_lt_mul (Nat.two_pow_pos j), Nat.pow_succ]
      omega
    have hupper : m / 2 ^ j < 2 ^ 54 := by
      rw [Nat.div_lt_iff_lt_mul (Nat.two_pow_pos j)]
      rw [Nat.pow_succ] at hlt
      omega
    rw [hbits]
    generalize m / 2 ^ j = x at hbounds hodd hbit hupper
    by_cases hx : x / 2 = 2 ^ 53 - 1
    · rw [hodd (by omega), hbit, hx]
      rcases Nat.mod_two_eq_zero_or_one x with hlast | hlast
      · simp [hlast]
        omega
      · simp [hlast]
        omega
    · omega

/-- A number of a lower binade than that of the greatest double is below the bound. -/
theorem lt_overflowBound {x : ℚ} {n : ℤ} (hx : x < 2 ^ n) (hn : n ≤ 53 + 970) :
    x < overflowBound := by
  have hone : (2 : ℚ) ^ (53 : ℤ) < 2 ^ 54 - 1 := by norm_num
  calc x < 2 ^ n := hx
    _ ≤ 2 ^ (53 + 970 : ℤ) := zpow_le_zpow_right₀ one_le_two hn
    _ = 2 ^ (53 : ℤ) * 2 ^ (970 : ℤ) := zpow_add₀ two_ne_zero ..
    _ < overflowBound := mul_lt_mul_of_pos_right hone (zpow_pos two_pos _)

/-- A number of a higher binade than that of the greatest double is beyond the bound. -/
theorem overflowBound_lt {x : ℚ} {n : ℤ} (hx : 2 ^ n ≤ x) (hn : 54 + 970 ≤ n) :
    overflowBound < x := by
  have hone : (2 : ℚ) ^ 54 - 1 < 2 ^ (54 : ℤ) := by norm_num
  calc overflowBound < 2 ^ (54 : ℤ) * 2 ^ (970 : ℤ) :=
        mul_lt_mul_of_pos_right hone (zpow_pos two_pos _)
    _ = 2 ^ (54 + 970 : ℤ) := (zpow_add₀ two_ne_zero ..).symm
    _ ≤ 2 ^ n := zpow_le_zpow_right₀ one_le_two hn
    _ ≤ x := hx

/-- In the binade of the greatest double, the mantissa decides. -/
theorem scaled_lt_overflowBound_iff (he : e + k = 1 + 970) :
    (m : ℚ) * 2 ^ e < overflowBound ↔ 2 * m < (2 ^ 54 - 1) * 2 ^ k := by
  have hpow : (0 : ℚ) < 2 ^ k := by positivity
  have hscaled : (m : ℚ) * 2 ^ e * 2 ^ k = 2 * m * 2 ^ (970 : ℤ) :=
    calc (m : ℚ) * 2 ^ e * 2 ^ k = m * 2 ^ (e + k) := by
          rw [mul_assoc, ← zpow_natCast, ← zpow_add₀ two_ne_zero]
      _ = m * (2 * 2 ^ (970 : ℤ)) := by rw [he, zpow_add₀ two_ne_zero, zpow_one]
      _ = 2 * m * 2 ^ (970 : ℤ) := by rw [← mul_assoc, mul_comm (m : ℚ) 2]
  have hbound : overflowBound * 2 ^ k = (2 ^ 54 - 1) * 2 ^ k * 2 ^ (970 : ℤ) :=
    mul_right_comm ..
  rw [← mul_lt_mul_iff_left₀ hpow, hscaled, hbound,
    mul_lt_mul_iff_left₀ (zpow_pos (two_pos : (0 : ℚ) < 2) _)]
  have hcast : ((2 : ℚ) ^ 54 - 1) * 2 ^ k = ((2 ^ 54 - 1) * 2 ^ k : Nat) := by
    push_cast
    norm_num
  rw [hcast]
  exact_mod_cast Iff.rfl

/-- A number lies in the binade of its leading bit. -/
theorem scaled_bounds (hm : 0 < m) :
    (2 : ℚ) ^ (m.log2 + e) ≤ m * 2 ^ e ∧ (m : ℚ) * 2 ^ e < 2 ^ (m.log2 + 1 + e) := by
  constructor
  · rw [zpow_add₀ two_ne_zero, zpow_natCast]
    gcongr
    exact_mod_cast Nat.log2_self_le hm.ne'
  · rw [zpow_add₀ two_ne_zero]
    gcongr
    exact_mod_cast Nat.lt_log2_self

/-- A mantissa that keeps its leading bit is not rounded to zero. -/
theorem roundedMantissa_ne_zero (hm : 0 < m) (hk : k ≤ m.log2) :
    (wholeMantissa m >>> k).roundedMantissa ≠ 0 := by
  have hbounds := (roundedMantissa_bounds (wholeMantissa m >>> k)).1
  have hfloor : 0 < m / 2 ^ k := by
    apply Nat.div_pos _ (Nat.two_pow_pos k)
    exact le_trans (Nat.pow_le_pow_right (by omega) hk) (Nat.log2_self_le hm.ne')
  have hwhole : (wholeMantissa m).mantissa = m := rfl
  rw [mantissa_shift, hwhole] at hbounds
  omega

/-- A number is rounded to a finite double exactly when it is below the bound. -/
theorem isFinite_roundWithAccuracy_iff (hm : 0 < m) (he : e ≤ roundingExponent m e) :
    (unpack Format.binary64 (pack Format.binary64
      (roundWithAccuracy Format.binary64 s m e .exact))).isFinite = true ↔
      (m : ℚ) * 2 ^ e < overflowBound := by
  rw [isFinite_roundWithAccuracy he rfl]
  obtain ⟨k, hk⟩ : ∃ k : Nat, (k : Int) = roundingExponent m e - e :=
    ⟨(roundingExponent m e - e).toNat, by omega⟩
  have hk' : (roundingExponent m e - e).toNat = k := by omega
  rw [hk']
  obtain ⟨hlow, hhigh⟩ := scaled_bounds (e := e) hm
  rcases lt_trichotomy (roundingExponent m e) 971 with hlt | heq | hgt
  · -- below the last binade every number stays finite
    have hsmall : (m : ℚ) * 2 ^ e < overflowBound := by
      apply lt_overflowBound hhigh
      unfold roundingExponent at hlt
      omega
    refine iff_of_true ?_ hsmall
    split
    · exact .inr (by omega)
    · omega
  · -- in the last binade the mantissa decides
    have hlog : m.log2 = 52 + k := by
      unfold roundingExponent at heq hk
      omega
    rw [scaled_lt_overflowBound_iff (k := k) (by omega), ← roundedMantissa_lt_iff hlog, heq]
    split <;> rename_i hround
    · exact iff_of_true (.inr le_rfl) hround
    · exact iff_of_false (by omega) hround
  · -- beyond it nothing stays finite, and nothing is rounded to zero
    have hlarge : overflowBound < m * 2 ^ e := by
      apply overflowBound_lt hlow
      unfold roundingExponent at hgt
      omega
    have hne : (wholeMantissa m >>> k).roundedMantissa ≠ 0 := by
      apply roundedMantissa_ne_zero hm
      unfold roundingExponent at hgt hk
      omega
    refine iff_of_false ?_ hlarge.not_gt
    split
    · omega
    · omega

theorem log2_shiftLeft (hm : 0 < m) (j : Nat) : (m <<< j).log2 = m.log2 + j := by
  induction j with
  | zero => rfl
  | succ j ih =>
    have hpos : m <<< j ≠ 0 := by
      rw [Nat.shiftLeft_eq]
      exact (Nat.mul_pos hm (Nat.two_pow_pos j)).ne'
    rw [Nat.shiftLeft_succ, Nat.log2_two_mul hpos, ih, Nat.add_assoc]

/-- A number of any exponent is brought to the one to which it is rounded, and keeps its value. -/
theorem isFinite_round (hm : 0 < m) :
    (unpack Format.binary64 (pack Format.binary64
      (round Format.binary64 s m e))).isFinite = true ↔ (m : ℚ) * 2 ^ e < overflowBound := by
  have hround : round Format.binary64 s m e = roundWithAccuracy Format.binary64 s
      (m <<< (e - roundingExponent m e).toNat) (e - (e - roundingExponent m e).toNat) .exact := by
    rw [UnpackedFloat.round, targetExponent_eq]
    rfl
  generalize hj : (e - roundingExponent m e).toNat = j at hround
  have hlog : (m <<< j).log2 = m.log2 + j := log2_shiftLeft hm j
  have hsame : roundingExponent (m <<< j) (e - j) = roundingExponent m e := by
    rw [roundingExponent, hlog, roundingExponent]
    congr 1
    push_cast
    omega
  have hpos : 0 < m <<< j := by
    rw [Nat.shiftLeft_eq]
    exact Nat.mul_pos hm (Nat.two_pow_pos j)
  have hvalue : ((m <<< j : Nat) : ℚ) * 2 ^ (e - j) = m * 2 ^ e := by
    rw [Nat.shiftLeft_eq, zpow_sub₀ two_ne_zero, zpow_natCast]
    push_cast
    field_simp
  rw [hround, isFinite_roundWithAccuracy_iff hpos (by rw [hsame]; omega), hvalue]

theorem isFinite_normalize (M e : Int) (s : Sign) :
    (unpack Format.binary64 (pack Format.binary64
      (normalize Format.binary64 M e s))).isFinite = true ↔
      |(M : ℚ) * 2 ^ e| < overflowBound := by
  have habs : |(M : ℚ) * 2 ^ e| = (M.natAbs : ℚ) * 2 ^ e := by
    rw [abs_mul, abs_of_pos (zpow_pos (two_pos : (0 : ℚ) < 2) e), Nat.cast_natAbs, Int.cast_abs]
  rw [habs]
  rcases lt_trichotomy M 0 with h | rfl | h
  · have hcompare : compare M 0 = .lt := compare_lt_iff_lt.2 h
    have hnat : (-M).toNat = M.natAbs := by omega
    simp only [UnpackedFloat.normalize, hcompare, hnat]
    exact isFinite_round (by omega)
  · refine iff_of_true (isFinite_unpack_pack_zero s) ?_
    simp [overflowBound_pos]
  · have hcompare : compare M 0 = .gt := compare_gt_iff_gt.2 h
    have hnat : M.toNat = M.natAbs := by omega
    simp only [UnpackedFloat.normalize, hcompare, hnat]
    exact isFinite_round (by omega)

end Finite

/-! ### Sums -/

/-- What fits into a double is below the bound. -/
theorem abs_value_lt_of_fits {u : UnpackedFloat} (h : Fits u) :
    |(Exact.ofUnpacked u).value| < overflowBound := by
  cases u with
  | finite s m e hm =>
    obtain ⟨hmantissa, hexponent⟩ := h
    have habs : |(if s == .negative then -(m : ℚ) else m) * 2 ^ e| = m * 2 ^ e := by
      cases s <;> simp [abs_mul]
    have hone : (m : ℚ) * 2 < 2 ^ 54 - 1 := by
      have hle : m * 2 + 2 ≤ 2 ^ 54 := by omega
      have hcast : (m : ℚ) * 2 + 2 ≤ 2 ^ 54 := by exact_mod_cast hle
      linarith
    rw [Exact.value_ofUnpacked_finite, habs]
    calc (m : ℚ) * 2 ^ e
      _ ≤ m * 2 ^ (1 + 970 : ℤ) := by
        gcongr
        · norm_num
        · exact hexponent
      _ = m * 2 * 2 ^ (970 : ℤ) := by rw [zpow_add₀ two_ne_zero, zpow_one, mul_assoc]
      _ < overflowBound := mul_lt_mul_of_pos_right hone (zpow_pos two_pos _)
  | zero s =>
    rw [Exact.value_ofUnpacked_zero, abs_zero]
    exact overflowBound_pos
  | infinity | notANumber =>
    show |(0 : ℚ)| < overflowBound
    rw [abs_zero]
    exact overflowBound_pos

theorem isFinite_unpack_pack_of_fits {u : UnpackedFloat} (h : Fits u) :
    (unpack Format.binary64 (pack Format.binary64 u)).isFinite = u.isFinite := by
  cases u with
  | notANumber => decide
  | infinity s => cases s <;> decide
  | zero s => exact isFinite_unpack_pack_zero s
  | finite s m e hm => exact (isFinite_unpack_pack_finite s m e hm).2 h.2

/-- A sum with a value that is not finite is not finite. -/
theorem isFinite_add_of_not {a b : UnpackedFloat} (h : ¬(a.isFinite = true ∧ b.isFinite = true)) :
    Fits (add Format.binary64 a b) ∧ (add Format.binary64 a b).isFinite = false := by
  cases a with
  | notANumber => exact ⟨trivial, rfl⟩
  | infinity s =>
    cases b with
    | infinity t => cases s <;> cases t <;> exact ⟨trivial, rfl⟩
    | _ => exact ⟨trivial, rfl⟩
  | _ =>
    cases b with
    | notANumber | infinity t => exact ⟨trivial, rfl⟩
    | _ => exact absurd ⟨rfl, rfl⟩ h

theorem isFinite_unpack_pack_add {a b : UnpackedFloat} (ha : Fits a) (hb : Fits b)
    (hafinite : a.isFinite = true) (hbfinite : b.isFinite = true) :
    (unpack Format.binary64 (pack Format.binary64 (add Format.binary64 a b))).isFinite = true ↔
      |(Exact.ofUnpacked a).value + (Exact.ofUnpacked b).value| < overflowBound := by
  have hzero := Exact.value_ofUnpacked_zero
  cases a with
  | notANumber | infinity s => cases hafinite
  | zero s =>
    cases b with
    | notANumber | infinity t => cases hbfinite
    | zero t =>
      have hsum : ∃ sign, add Format.binary64 (.zero s) (.zero t) = .zero sign := by
        cases s <;> cases t <;> exact ⟨_, rfl⟩
      obtain ⟨sign, hsum⟩ := hsum
      rw [hsum, hzero, hzero, add_zero, abs_zero]
      exact iff_of_true (isFinite_unpack_pack_zero sign) overflowBound_pos
    | finite t n f hn =>
      have hsum : add Format.binary64 (.zero s) (.finite t n f hn) = .finite t n f hn := rfl
      rw [hsum, hzero, zero_add, isFinite_unpack_pack_of_fits hb]
      exact iff_of_true rfl (abs_value_lt_of_fits hb)
  | finite s m e hm =>
    cases b with
    | notANumber | infinity t => cases hbfinite
    | zero t =>
      have hsum : add Format.binary64 (.finite s m e hm) (.zero t) = .finite s m e hm := rfl
      rw [hsum, hzero, add_zero, isFinite_unpack_pack_of_fits ha]
      exact iff_of_true rfl (abs_value_lt_of_fits ha)
    | finite t n f hn =>
      rw [← value_finite hm (min_le_left e f), ← value_finite hn (min_le_right e f), ← add_mul,
        ← Int.cast_add]
      exact isFinite_normalize ..

/-- A sum of two doubles is finite when both are and their exact sum is below the bound. -/
theorem isFinite_add (x y : Float) :
    (x + y).isFinite = true ↔
      x.isFinite = true ∧ y.isFinite = true ∧ |value x + value y| < overflowBound := by
  rw [value, value, ofFloat_eq, ofFloat_eq, ← and_assoc]
  show (unpack Format.binary64 (pack Format.binary64
    (add Format.binary64 x.toModel.unpack y.toModel.unpack))).isFinite = true ↔
      (x.toModel.unpack.isFinite = true ∧ y.toModel.unpack.isFinite = true) ∧ _
  by_cases hfinite : x.toModel.unpack.isFinite = true ∧ y.toModel.unpack.isFinite = true
  · rw [isFinite_unpack_pack_add (fits_unpack _) (fits_unpack _) hfinite.1 hfinite.2,
      and_iff_right hfinite]
  · obtain ⟨hfits, hnot⟩ := isFinite_add_of_not hfinite
    rw [isFinite_unpack_pack_of_fits hfits, hnot]
    exact iff_of_false Bool.false_ne_true fun h => hfinite h.1

/-- No step overflows when doubles are added to a sum one after the other. -/
def NoOverflow (sum : Float) : List Float → Prop
  | [] => True
  | x :: rest => |value sum + value x| < overflowBound ∧ NoOverflow (sum + x) rest

/-- Once a sum is not finite it stays so, so a sum of numbers ends finite only if no step of it
overflows. -/
theorem isFinite_foldl_add {sum : Float} {xs : List Float} (h : ∀ x ∈ xs, x.isFinite = true) :
    (xs.foldl (· + ·) sum).isFinite = true ↔ sum.isFinite = true ∧ NoOverflow sum xs := by
  induction xs generalizing sum with
  | nil => exact (and_iff_left trivial).symm
  | cons x rest ih =>
    have hx : x.isFinite = true := h x List.mem_cons_self
    have hrest : ∀ y ∈ rest, y.isFinite = true := fun y hy => h y (List.mem_cons_of_mem x hy)
    rw [List.foldl_cons, ih hrest, isFinite_add, NoOverflow, and_iff_right hx, and_assoc]

/-! ### Differences -/

theorem isFinite_round_unpacked (s : Sign) (m : Nat) (e : Int) :
    (round Format.binary64 s m e).isFinite = true := by
  unfold UnpackedFloat.round roundWithAccuracy
  dsimp only
  rw [apply_dite UnpackedFloat.isFinite]
  exact ite_self _

theorem isFinite_sub_unpacked {a b : UnpackedFloat} (ha : a.isFinite = true)
    (hb : b.isFinite = true) : (sub Format.binary64 a b).isFinite = true := by
  cases a with
  | notANumber | infinity s => cases ha
  | zero s =>
    cases b with
    | notANumber | infinity t => cases hb
    | zero t => cases s <;> cases t <;> rfl
    | finite t n f hn => rfl
  | finite s m e hm =>
    cases b with
    | notANumber | infinity t => cases hb
    | zero t => rfl
    | finite t n f hn =>
      unfold sub UnpackedFloat.normalize
      dsimp only
      split
      · exact isFinite_round_unpacked ..
      · rfl
      · exact isFinite_round_unpacked ..

theorem isNaN_of_isFinite {u : UnpackedFloat} (h : u.isFinite = true) : u.isNaN = false := by
  cases u <;> first | rfl | cases h

/-- A number is packed into a number or into an infinity. -/
theorem isNaN_unpack_pack {u : UnpackedFloat} (h : u.isFinite = true) :
    (unpack Format.binary64 (pack Format.binary64 u)).isNaN = false := by
  cases u with
  | notANumber | infinity s => cases h
  | zero s => exact isNaN_of_isFinite (isFinite_unpack_pack_zero s)
  | finite s m e hm =>
    by_cases he : e ≤ 971
    · exact isNaN_of_isFinite ((isFinite_unpack_pack_finite s m e hm).2 he)
    · have hpack : pack Format.binary64 (.finite s m e hm) = packedInfinity Format.binary64 s := by
        apply if_pos
        rw [biasedExponent_eq]
        show 2048 ≤ _
        omega
      rw [hpack]
      cases s <;> decide

/-- The difference of two numbers is never something that is no number. -/
theorem isNaN_sub {x y : Float} (hx : x.isFinite = true) (hy : y.isFinite = true) :
    (x - y).isNaN = false :=
  isNaN_unpack_pack (isFinite_sub_unpacked hx hy)

end CacheAudit.Decimal
