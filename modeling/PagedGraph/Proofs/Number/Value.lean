import PagedGraph.Proofs.Number.Rounding

/-!
# The values of doubles

Every double but the infinities and the not-a-numbers has a rational number as its value
(`Double.value?`).  The double of a size is that size rounded (`Double.value?_ofNat`), and the
quotient of two such doubles is the quotient of their values rounded
(`Double.value?_div_ofNat`).  Sizes are below `2 ^ 64`, so no quotient of them is near the smallest
or the largest double, and every number on the way has full precision (`Binary64.Normal`).

The bounds on a quotient are those of rounding (`Double.isRatio_div_ofNat`).
-/

namespace PagedGraph

namespace Binary64

open Float.Model Float.Model.UnpackedFloat

/-- The rational number that an unpacked number is. -/
def value? : UnpackedFloat → Option ℚ
  | .zero _ => some 0
  | .finite .positive m e _ => some (m * 2 ^ e)
  | .finite .negative m e _ => some (-(m * 2 ^ e))
  | .infinity _ => none
  | .notANumber => none

/-- A positive number of full precision, and its value. -/
inductive Normal : UnpackedFloat → ℚ → Prop where
  | finite {m : ℕ} {e : ℤ} (hm : 0 < m) (hlog : m.log2 = 52) (hlow : -1074 ≤ e) (hhigh : e ≤ 971) :
    Normal (.finite .positive m e hm) (m * 2 ^ e)

variable {u v : UnpackedFloat} {x y : ℚ}

theorem Normal.value? (h : Normal u x) : value? u = some x := by
  cases h
  rfl

/-- Packing loses nothing of a number of full precision. -/
theorem Normal.unpack_pack (h : Normal u x) :
    UnpackedFloat.unpack .binary64 (UnpackedFloat.pack .binary64 u) = u := by
  cases h with
  | @finite m e hm hlog hlow hhigh =>
    have hsign : Sign.ofBitVec (Sign.positive.toBitVec) = .positive := rfl
    have hbias : (Format.binary64.exponentBias : Int) = 1023 := rfl
    have hexp : 2 ^ Format.binary64.exponentBits = 2048 := rfl
    have hbits : (Format.binary64.mantissaBitsWithoutImplicit : Int) = 52 := rfl
    have hwidth : m.log2 + 1 = Format.binary64.mantissaBits := congrArg (· + 1) hlog
    have hbounds := (Nat.log2_eq_iff hm.ne').mp hlog
    have hfield : (BitVec.ofNat 11 (e + 1023 + 52).toNat).toNat = (e + 1075).toNat := by
      rw [BitVec.toNat_ofNat]
      omega
    have hmantissa : (1#1 ++ BitVec.ofNat 52 m).toNat = m := by
      rw [toNat_one_append, BitVec.toNat_ofNat]
      omega
    rw [UnpackedFloat.pack.eq_4, if_pos hwidth, hexp, hbias, hbits, if_neg (by omega)]
    simp only [UnpackedFloat.unpack, unpackExponent_packComponents,
      unpackMantissa_packComponents, unpackSign_packComponents, hsign, hbias]
    rw [if_neg, if_neg]
    · congr 1
      rw [hfield]
      omega
    · intro hzero
      have hzero : _ = 0 := hfield.symm.trans (congrArg BitVec.toNat hzero)
      omega
    · intro hspecial
      have hspecial : _ = 2047 := hfield.symm.trans (congrArg BitVec.toNat hspecial)
      omega

/-! ## Rounding -/

/-- A number that the mantissa is the whole part of begins at the leading bit of the mantissa. -/
theorem log_eq {m : ℕ} (hm : 0 < m) (hle : (m : ℚ) ≤ x) (hlt : x < m + 1) (e : ℤ) :
    Int.log 2 (x * 2 ^ e) = m.log2 + e := by
  have hpos : (0 : ℚ) < 2 ^ e := zpow_pos two_pos e
  have hx : 0 < x := (Nat.cast_pos.mpr hm).trans_le hle
  have hlow : (2 ^ m.log2 : ℚ) ≤ m := by exact_mod_cast Nat.log2_self_le hm.ne'
  have hhigh : (m + 1 : ℚ) ≤ 2 ^ (m.log2 + 1) := by exact_mod_cast Nat.lt_log2_self
  apply le_antisymm
  · rw [← Int.lt_add_one_iff]
    refine (Int.lt_zpow_iff_log_lt one_lt_two (mul_pos hx hpos)).mp ?_
    push_cast
    rw [add_right_comm, zpow_add₀ two_ne_zero]
    refine mul_lt_mul_of_pos_right (hlt.trans_le ?_) hpos
    exact_mod_cast hhigh
  · refine (Int.zpow_le_iff_le_log one_lt_two (mul_pos hx hpos)).mp ?_
    push_cast
    rw [zpow_add₀ two_ne_zero]
    refine mul_le_mul_of_nonneg_right (le_trans ?_ (hlow.trans hle)) hpos.le
    exact_mod_cast le_rfl

/-- A mantissa that was rounded up to one more place ends in zero, so shifting it to 53 places again
loses nothing. -/
theorem exists_shiftToTargetExponent_exact {m : ℕ} {e : ℤ} (hlow : 2 ^ 52 ≤ m) (hhigh : m ≤ 2 ^ 53)
    (he : -1074 ≤ e) : ∃ em e', shiftToTargetExponent .binary64 m e .exact = (em, e') ∧
      em.mantissa.log2 = 52 ∧ (em.mantissa * 2 ^ e' : ℚ) = m * 2 ^ e ∧ e ≤ e' ∧ e' ≤ e + 1 := by
  obtain hlt | rfl := Nat.lt_or_eq_of_le hhigh
  · have hlog : m.log2 = 52 := (Nat.log2_eq_iff (by omega)).mpr ⟨hlow, hlt⟩
    refine ⟨_, _, shiftToTargetExponent_eq (by omega) (by omega) .exact, ?_⟩
    rw [mantissa_shiftRight, mantissa_ofMantissaAndAccuracy, hlog]
    refine ⟨?_, ?_, by omega, by omega⟩
    · simpa using hlog
    · simp
  · have hlog : (2 ^ 53).log2 = 53 := Nat.log2_two_pow
    refine ⟨_, _, shiftToTargetExponent_eq (by omega) (by omega) .exact, ?_⟩
    rw [mantissa_shiftRight, mantissa_ofMantissaAndAccuracy, hlog]
    refine ⟨(Nat.log2_two_pow : (2 ^ 52).log2 = 52), ?_, by omega, by omega⟩
    rw [show e + (53 - 52 : ℕ) = e + 1 from rfl, zpow_add_one₀ two_ne_zero]
    norm_num
    ring

/-- Rounding shifts to 53 places and rounds there. -/
theorem normal_roundWithAccuracy {m : ℕ} {e : ℤ} {acc : Accuracy}
    (h : StandsFor (.ofMantissaAndAccuracy m acc) x) (hm : 52 ≤ m.log2)
    (hlow : -1022 ≤ m.log2 + e) (hhigh : m.log2 + e ≤ 1022) :
    Normal (roundWithAccuracy .binary64 .positive m e acc) (rounded (x * 2 ^ e)) := by
  have hmpos : 0 < m := Nat.pos_of_ne_zero fun h => by simp [h] at hm
  have hfloor := h.floor_eq
  rw [mantissa_ofMantissaAndAccuracy, Int.floor_eq_iff] at hfloor
  have hplace : lastPlace (x * 2 ^ e) = 2 ^ (e + (m.log2 - 52 : ℕ)) := by
    rw [lastPlace, log_eq hmpos hfloor.1 hfloor.2 e]
    congr 1
    omega
  have hscaled : x * 2 ^ e / 2 ^ (e + (m.log2 - 52 : ℕ)) = x / 2 ^ (m.log2 - 52) := by
    rw [zpow_add₀ two_ne_zero, zpow_natCast, mul_comm x, mul_div_mul_left _ _ (by positivity)]
  rw [roundWithAccuracy, shiftToTargetExponent_eq hm hlow, rounded, hplace, hscaled,
    ← (h.shiftRight (m.log2 - 52)).roundedMantissa, Int.cast_natCast]
  have hle := roundedMantissa_le (ExtendedMantissa.ofMantissaAndAccuracy m acc >>> (m.log2 - 52))
  have hge := le_roundedMantissa (ExtendedMantissa.ofMantissaAndAccuracy m acc >>> (m.log2 - 52))
  have hwidth : (ExtendedMantissa.ofMantissaAndAccuracy m acc >>> (m.log2 - 52)).mantissa.log2
      = 52 := by
    rw [mantissa_shiftRight, mantissa_ofMantissaAndAccuracy, log2_div_two_pow]
    omega
  generalize ExtendedMantissa.ofMantissaAndAccuracy m acc >>> (m.log2 - 52) = em at *
  have hbounds := (Nat.log2_eq_iff fun h => by simp [h] at hwidth).mp hwidth
  obtain ⟨em', e', hshift, hlog, hvalue, hle', hge'⟩ := exists_shiftToTargetExponent_exact
    (m := em.roundedMantissa) (e := e + (m.log2 - 52 : ℕ)) (by omega) (by omega) (by omega)
  dsimp only
  rw [hshift, ← hvalue]
  split
  case isTrue hzero =>
    rw [hzero] at hlog
    cases hlog
  case isFalse => exact .finite _ hlog (by omega) (by omega)

/-! ## Operations -/

/-- A natural number is rounded. -/
theorem normal_ofNat {n : ℕ} (h0 : 0 < n) (hn : n < 2 ^ 64) :
    Normal (UnpackedFloat.ofNat .binary64 n) (rounded n) := by
  have hmin : Format.binary64.minExponent = -1074 := rfl
  have hbits : Format.binary64.mantissaBits = 53 := rfl
  have hlog : n.log2 < 64 := (Nat.log2_lt h0.ne').mpr hn
  have hshift : (0 - Format.binary64.targetExponent (totalExponent n 0)).toNat = 52 - n.log2 := by
    rw [Format.targetExponent, totalExponent, hmin, hbits]
    omega
  have hlogk := log2_shiftLeft h0 (52 - n.log2)
  have hvalue : (n : ℚ) = (n <<< (52 - n.log2) : ℕ) * 2 ^ (0 - (52 - n.log2 : ℕ) : ℤ) := by
    rw [Nat.shiftLeft_eq, Nat.cast_mul, Nat.cast_pow, Nat.cast_ofNat, zero_sub, zpow_neg,
      zpow_natCast, mul_assoc, mul_inv_cancel₀ (by positivity), mul_one]
  rw [UnpackedFloat.ofNat, UnpackedFloat.ofInt, UnpackedFloat.normalize]
  split
  case h_1 h => exact absurd (Int.compare_eq_lt.mp h) (by omega)
  case h_2 h => exact absurd (Int.compare_eq_eq.mp h) (by omega)
  case h_3 =>
    rw [Int.toNat_natCast, UnpackedFloat.round, hvalue]
    simp only [decreaseExponent, hshift]
    exact normal_roundWithAccuracy (standsFor_exact _) (by omega) (by omega) (by omega)

/-- The exponent of a number between one and `2 ^ 64`. -/
theorem exponent_bounds {m : ℕ} {e : ℤ} (hm : m.log2 = 52) (hlow : (1 : ℚ) ≤ m * 2 ^ e)
    (hhigh : (m * 2 ^ e : ℚ) ≤ 2 ^ 64) : -52 ≤ e ∧ e ≤ 12 := by
  have hne : m ≠ 0 := fun h => by simp [h] at hm
  obtain ⟨hle, hlt⟩ := (Nat.log2_eq_iff hne).mp hm
  have hle : (2 ^ 52 : ℚ) ≤ m := by exact_mod_cast hle
  have hlt : (m : ℚ) < 2 ^ 53 := by exact_mod_cast hlt
  have hpos : (0 : ℚ) < 2 ^ e := zpow_pos two_pos e
  constructor
  · have hpow : (2 : ℚ) ^ (-53 : ℤ) < 2 ^ e := by
      have h : (1 : ℚ) < 2 ^ 53 * 2 ^ e := hlow.trans_lt (mul_lt_mul_of_pos_right hlt hpos)
      rw [zpow_neg, inv_lt_iff_one_lt_mul₀ (by positivity)]
      exact_mod_cast mul_comm (2 ^ 53 : ℚ) _ ▸ h
    have := (zpow_lt_zpow_iff_right₀ one_lt_two).mp hpow
    omega
  · have hpow : (2 : ℚ) ^ e ≤ 2 ^ (12 : ℤ) := by
      have h : (2 ^ 52 * 2 ^ e : ℚ) ≤ 2 ^ 64 :=
        (mul_le_mul_of_nonneg_right hle hpos.le).trans hhigh
      norm_num at h ⊢
      linarith
    exact (zpow_le_zpow_iff_right₀ one_lt_two).mp hpow

/-- The quotient of numbers between one and `2 ^ 64` is rounded. -/
theorem Normal.div (hu : Normal u x) (hv : Normal v y) (hx : 1 ≤ x) (hx' : x ≤ 2 ^ 64)
    (hy : 1 ≤ y) (hy' : y ≤ 2 ^ 64) :
    Normal (UnpackedFloat.div .binary64 u v) (rounded (x / y)) := by
  cases hu with
  | @finite m e hm hlog _ _ =>
  cases hv with
  | @finite n f hn hlog' _ _ =>
    have hmin : Format.binary64.minExponent = -1074 := rfl
    have hbits : Format.binary64.mantissaBits = 53 := rfl
    have he := exponent_bounds hlog hx hx'
    have hf := exponent_bounds hlog' hy hy'
    have htarget : min (e - f) (Format.binary64.targetExponent
        (totalExponent m e - totalExponent n f)) = e - f - 53 := by
      rw [Format.targetExponent, totalExponent, totalExponent, hmin, hbits, hlog, hlog']
      omega
    have hshift : (e - f - (e - f - 53)).toNat = 53 := by omega
    have hwide : 52 ≤ (m <<< 53 / n).log2 ∧ (m <<< 53 / n).log2 ≤ 53 := by
      have hm' := (Nat.log2_eq_iff hm.ne').mp hlog
      have hn' := (Nat.log2_eq_iff hn.ne').mp hlog'
      rw [Nat.shiftLeft_eq]
      have hlow : 2 ^ 52 ≤ m * 2 ^ 53 / n := (Nat.le_div_iff_mul_le hn).mpr (by omega)
      have hhigh : m * 2 ^ 53 / n < 2 ^ 54 := Nat.div_lt_of_lt_mul (by omega)
      constructor
      · exact (Nat.le_log2 (by omega)).mpr hlow
      · exact Nat.lt_succ_iff.mp ((Nat.log2_lt (by omega)).mpr hhigh)
    have hvalue : (m * 2 ^ e / (n * 2 ^ f) : ℚ) = (m <<< 53 : ℕ) / n * 2 ^ (e - f - 53) := by
      rw [Nat.shiftLeft_eq, zpow_sub₀ two_ne_zero, zpow_sub₀ two_ne_zero]
      push_cast
      field_simp
    have hsign : Sign.positive / Sign.positive = .positive := rfl
    simp only [UnpackedFloat.div, divCore, htarget, hshift, hsign, hvalue]
    generalize m <<< 53 = k at hwide
    exact normal_roundWithAccuracy (standsFor_div hn) hwide.1 (by omega) (by omega)

end Binary64

namespace Double

open Binary64 Float.Model Float.Model.UnpackedFloat

/-- The rational number that a double is.  There is none for an infinity and for what is not a
number. -/
def value? (x : Double) : Option ℚ := Binary64.value? x.unpacked

theorem value?_zero : zero.value? = some 0 := rfl

theorem normal_ofNat {n : ℕ} (h0 : 0 < n) (hn : n < 2 ^ 64) :
    Normal (ofNat n).unpacked (rounded n) := by
  have h : ofNat n = ofUnpacked (.ofNat .binary64 n.toUInt64.toNat) := rfl
  have hnormal := Binary64.normal_ofNat h0 hn
  rw [h, unpacked_ofUnpacked, toNat_toUInt64 hn, hnormal.unpack_pack]
  exact hnormal

/-- The double of a size is that size rounded. -/
theorem value?_ofNat {n : ℕ} (hn : n < 2 ^ 64) : (ofNat n).value? = some (rounded n) := by
  obtain rfl | h0 := n.eq_zero_or_pos
  · rw [Nat.cast_zero, rounded_zero]
    rfl
  · exact (normal_ofNat h0 hn).value?

theorem one_le_rounded {n : ℕ} (h0 : 0 < n) : 1 ≤ rounded n := by
  have h : rounded (2 ^ (0 : ℤ)) ≤ rounded n := by
    rw [zpow_zero]
    exact rounded_mono one_pos (Nat.one_le_cast.mpr h0)
  rwa [rounded_zpow, zpow_zero] at h

theorem rounded_le_two_pow {n : ℕ} (h0 : 0 < n) (hn : n < 2 ^ 64) : rounded n ≤ 2 ^ 64 := by
  have h : rounded n ≤ rounded (2 ^ (64 : ℤ)) := by
    refine rounded_mono (Nat.cast_pos.mpr h0) ?_
    exact_mod_cast hn.le
  rw [rounded_zpow] at h
  exact_mod_cast h

/-- The quotient of two sizes is the quotient of the rounded sizes, rounded. -/
theorem value?_div_ofNat {n d : ℕ} (h0 : 0 < d) (hn : n < 2 ^ 64) (hd : d < 2 ^ 64) :
    ((ofNat n).div (ofNat d)).value? = some (rounded (rounded n / rounded d)) := by
  obtain rfl | hpos := n.eq_zero_or_pos
  · rw [Nat.cast_zero, rounded_zero, zero_div, rounded_zero,
      (nonnegative_ofNat d).div_eq_zero (Bool.eq_false_iff.mpr fun h => ?_), value?_zero]
    exact h0.ne' ((isZero_ofNat_iff hd).mp h)
  · have hnormal := (normal_ofNat hpos hn).div (normal_ofNat h0 hd) (one_le_rounded hpos)
      (rounded_le_two_pow hpos hn) (one_le_rounded h0) (rounded_le_two_pow h0 hd)
    have h : (ofNat n).div (ofNat d) =
      ofUnpacked (.div .binary64 (ofNat n).unpacked (ofNat d).unpacked) := rfl
    rw [h, value?, unpacked_ofUnpacked, hnormal.unpack_pack]
    exact hnormal.value?

/-- A double between zero and one that is a ratio, up to one part in `2 ^ 51`. -/
def IsRatio (x : Double) (n d : ℕ) : Prop :=
  ∃ q, x.value? = some q ∧ 0 ≤ q ∧ q ≤ 1 ∧ |q - n / d| ≤ n / d / 2 ^ 51

theorem isRatio_zero (n : ℕ) : zero.IsRatio n 0 :=
  ⟨0, value?_zero, le_rfl, zero_le_one, by simp⟩

/-- Two sizes and their quotient are rounded, which is off by less than four times one part in
`2 ^ 53`. -/
theorem isRatio_div_ofNat {n d : ℕ} (h0 : 0 < d) (hnd : n ≤ d) (hd : d < 2 ^ 64) :
    ((ofNat n).div (ofNat d)).IsRatio n d := by
  have hvalue := value?_div_ofNat h0 (hnd.trans_lt hd) hd
  obtain rfl | hpos := n.eq_zero_or_pos
  · rw [Nat.cast_zero, rounded_zero, zero_div, rounded_zero] at hvalue
    exact ⟨0, hvalue, le_rfl, zero_le_one, by simp⟩
  · have hn' : (0 : ℚ) < n := Nat.cast_pos.mpr hpos
    have hd' : (0 : ℚ) < d := Nat.cast_pos.mpr h0
    have hle : rounded n ≤ rounded d := rounded_mono hn' (Nat.cast_le.mpr hnd)
    have hratio := div_pos (rounded_pos hn') (rounded_pos hd')
    refine ⟨_, hvalue, (rounded_pos hratio).le, ?_, abs_le.mpr ⟨?_, ?_⟩⟩
    · have h := rounded_mono hratio ((div_le_one (rounded_pos hd')).mpr hle)
      have hone := rounded_zpow 0
      rw [zpow_zero] at hone
      rwa [hone] at h
    · have h := div_le_div₀ (rounded_pos hn').le (mul_le_rounded hn') (rounded_pos hd')
        (rounded_le_mul hd')
      rw [mul_div_mul_comm] at h
      have h' := mul_le_rounded hratio
      have := div_pos hn' hd'
      norm_num at h h' ⊢
      linarith
    · have h := div_le_div₀ (by positivity) (rounded_le_mul hn') (by positivity)
        (mul_le_rounded hd')
      rw [mul_div_mul_comm] at h
      have h' := rounded_le_mul hratio
      have := div_pos hn' hd'
      norm_num at h h' ⊢
      linarith

end Double

end PagedGraph
