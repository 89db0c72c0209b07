import PagedGraph.Proofs.Number.Double

/-!
# Sizes that are not rounded to zero

A size that is not zero is at least one, and so are products of such sizes and their
roots.  Rounding keeps it that way: a number of 53 bits or more that is at least one becomes
one of 53 bits exactly, or infinity (`Binary64.atLeastOne_roundWithAccuracy`), and packing
does not lose any of these bits (`Binary64.AtLeastOne.unpack_pack`).

So the double of a size is zero only for size zero (`Double.isZero_ofNat_iff`), and the
geometric mean of two sizes only if one of them is zero
(`Double.isZero_sqrt_mul_ofNat_iff`).
-/

namespace PagedGraph

namespace Binary64

open Float.Model Float.Model.UnpackedFloat

/-- Infinity, or a positive number of full precision that is at least one. -/
inductive AtLeastOne : UnpackedFloat → Prop where
  | infinity : AtLeastOne (.infinity .positive)
  | finite {m : Nat} {e : Int} (hm : 0 < m) (hlog : m.log2 = 52) (he : -52 ≤ e) :
    AtLeastOne (.finite .positive m e hm)

/-! ## Leading bits -/

theorem log2_mono {m n : Nat} (h : m ≤ n) : m.log2 ≤ n.log2 := by
  rw [Nat.log2_eq_log_two, Nat.log2_eq_log_two]
  exact Nat.log_mono_right h

theorem log2_div_two_pow (m k : Nat) : (m / 2 ^ k).log2 = m.log2 - k := by
  rw [Nat.log2_eq_log_two, Nat.log_div_base_pow, ← Nat.log2_eq_log_two]

theorem log2_shiftLeft {m : Nat} (hm : 0 < m) (k : Nat) : (m <<< k).log2 = m.log2 + k := by
  have hlow := Nat.log2_self_le hm.ne'
  have hhigh := @Nat.lt_log2_self m
  rw [Nat.shiftLeft_eq, Nat.log2_eq_iff (by positivity), Nat.add_right_comm, Nat.pow_add,
    Nat.pow_add]
  exact ⟨Nat.mul_le_mul_right _ hlow, Nat.mul_lt_mul_of_pos_right hhigh (Nat.two_pow_pos k)⟩

theorem le_log2_mul {m n : Nat} (hm : 0 < m) (hn : 0 < n) :
    m.log2 + n.log2 ≤ (m * n).log2 := by
  rw [Nat.le_log2 (Nat.mul_pos hm hn).ne', Nat.pow_add]
  exact Nat.mul_le_mul (Nat.log2_self_le hm.ne') (Nat.log2_self_le hn.ne')

theorem le_log2_sqrt {n : Nat} (hn : 0 < n) : n.log2 / 2 ≤ n.sqrt.log2 := by
  rw [Nat.le_log2 (Nat.sqrt_pos.mpr hn).ne', Nat.le_sqrt, ← Nat.pow_add]
  exact (Nat.pow_le_pow_right (by decide) (by omega)).trans (Nat.log2_self_le hn.ne')

/-! ## Rounding -/

theorem le_roundedMantissa (em : ExtendedMantissa) : em.mantissa ≤ em.roundedMantissa := by
  rw [ExtendedMantissa.roundedMantissa]
  rcases em.accuracy with _ | _ | _ | _ <;> simp only [Accuracy.roundToNearestEven] <;> omega

/-- A number of full precision or more is shifted to full precision, unless it is too small. -/
theorem shiftToTargetExponent_eq {m : Nat} {e : Int} (hm : 52 ≤ m.log2) (he : -1022 ≤ m.log2 + e)
    (acc : Accuracy) : shiftToTargetExponent .binary64 m e acc =
      (ExtendedMantissa.ofMantissaAndAccuracy m acc >>> (m.log2 - 52),
        e + (m.log2 - 52 : Nat)) := by
  have hmin : Format.binary64.minExponent = -1074 := rfl
  have hbits : Format.binary64.mantissaBits = 53 := rfl
  have hshift :
      (Format.binary64.targetExponent (totalExponent m e) - e).toNat = m.log2 - 52 := by
    rw [Format.targetExponent, totalExponent, hmin, hbits]
    omega
  simp only [shiftToTargetExponent, shiftToExponent, hshift]

/-- A number of full precision or more is shifted to full precision, and stays at least one. -/
theorem log2_shiftToTargetExponent {m : Nat} {e : Int} (hm : 52 ≤ m.log2) (he : 0 ≤ m.log2 + e)
    (acc : Accuracy) :
    (shiftToTargetExponent .binary64 m e acc).1.mantissa.log2 = 52 ∧
      -52 ≤ (shiftToTargetExponent .binary64 m e acc).2 := by
  rw [shiftToTargetExponent_eq hm (by omega)]
  constructor
  · rw [mantissa_shiftRight, mantissa_ofMantissaAndAccuracy, log2_div_two_pow]
    omega
  · dsimp only
    omega

/-- Rounding up may take one more bit, which the second shift takes away again. -/
theorem atLeastOne_roundWithAccuracy {m : Nat} {e : Int} (hm : 52 ≤ m.log2)
    (he : 0 ≤ m.log2 + e) (acc : Accuracy) :
    AtLeastOne (roundWithAccuracy .binary64 .positive m e acc) := by
  obtain ⟨hlog1, he1⟩ := log2_shiftToTargetExponent hm he acc
  rw [roundWithAccuracy]
  generalize shiftToTargetExponent .binary64 m e acc = first at hlog1 he1
  obtain ⟨em, e1⟩ := first
  dsimp only at hlog1 he1 ⊢
  have hr : 52 ≤ em.roundedMantissa.log2 := hlog1.ge.trans (log2_mono (le_roundedMantissa em))
  have htotal : 0 ≤ em.roundedMantissa.log2 + e1 := by omega
  obtain ⟨hlog2, he2⟩ := log2_shiftToTargetExponent hr htotal .exact
  split
  case isTrue hzero =>
    rw [hzero] at hlog2
    cases hlog2
  case isFalse => exact .finite _ hlog2 he2

/-! ## Packing -/

/-- The leading bit of a mantissa stands before its fraction. -/
theorem toNat_one_append (f : BitVec 52) : (1#1 ++ f).toNat = 2 ^ 52 + f.toNat := by
  rw [BitVec.toNat_append, ← Nat.shiftLeft_add_eq_or_of_lt f.isLt]
  rfl

/-- A double whose exponent is neither special nor that of a number below one. -/
theorem atLeastOne_unpack {x : BitVec 11} (hx : x ≠ -1#11) (hone : 1023 ≤ x.toNat)
    (f : BitVec 52) : AtLeastOne
      (UnpackedFloat.unpack .binary64 (packComponents .binary64 .positive x f)) := by
  have hsign : Sign.ofBitVec (Sign.positive.toBitVec) = .positive := rfl
  have hbias : (Format.binary64.exponentBias : Int) = 1023 := rfl
  have hzero : x ≠ 0#11 := by
    rintro rfl
    exact absurd hone (by decide)
  have hf := f.isLt
  simp only [UnpackedFloat.unpack, unpackExponent_packComponents, unpackMantissa_packComponents,
    unpackSign_packComponents, hsign, hbias]
  rw [if_neg hx, if_neg hzero]
  refine .finite _ ?_ (by omega)
  rw [toNat_one_append, Nat.log2_eq_iff (by omega)]
  omega

theorem AtLeastOne.unpack_pack {u : UnpackedFloat} (h : AtLeastOne u) :
    AtLeastOne (UnpackedFloat.unpack .binary64 (UnpackedFloat.pack .binary64 u)) := by
  have hinfinity : AtLeastOne (UnpackedFloat.unpack .binary64
      (packComponents .binary64 .positive (-1#11) 0#52)) := by
    rw [unpack_infinity]
    exact .infinity
  cases h with
  | infinity => exact hinfinity
  | @finite m e hm hlog he =>
    have hbias : (Format.binary64.exponentBias : Int) = 1023 := rfl
    have hexp : 2 ^ Format.binary64.exponentBits = 2048 := rfl
    have hbits : (Format.binary64.mantissaBitsWithoutImplicit : Int) = 52 := rfl
    have hwidth : m.log2 + 1 = Format.binary64.mantissaBits := congrArg (· + 1) hlog
    rw [UnpackedFloat.pack.eq_4, if_pos hwidth]
    split
    case isTrue => exact hinfinity
    case isFalse hx =>
      rw [hexp, hbias, hbits] at hx
      have hfield : (BitVec.ofNat 11 (e + 1023 + 52).toNat).toNat = (e + 1075).toNat := by
        rw [BitVec.toNat_ofNat]
        omega
      refine atLeastOne_unpack (x := .ofNat 11 (e + 1023 + 52).toNat) (fun hspecial => ?_) ?_ _
      · have hspecial : BitVec.toNat _ = 2047 := congrArg BitVec.toNat hspecial
        omega
      · rw [hfield]
        omega

/-! ## Operations -/

theorem atLeastOne_ofNat {n : Nat} (hn : 0 < n) :
    AtLeastOne (UnpackedFloat.ofNat .binary64 n) := by
  rw [UnpackedFloat.ofNat, UnpackedFloat.ofInt, UnpackedFloat.normalize]
  split
  case h_1 h => exact absurd (Int.compare_eq_lt.mp h) (by omega)
  case h_2 h => exact absurd (Int.compare_eq_eq.mp h) (by omega)
  case h_3 =>
    have hmin : Format.binary64.minExponent = -1074 := rfl
    have hbits : Format.binary64.mantissaBits = 53 := rfl
    have hshift :
        (0 - Format.binary64.targetExponent (totalExponent n 0)).toNat = 52 - n.log2 := by
      rw [Format.targetExponent, totalExponent, hmin, hbits]
      omega
    have hlog := log2_shiftLeft hn (52 - n.log2)
    rw [Int.toNat_natCast, UnpackedFloat.round]
    simp only [decreaseExponent, hshift]
    exact atLeastOne_roundWithAccuracy (by omega) (by omega) .exact

theorem AtLeastOne.mul {u v : UnpackedFloat} (hu : AtLeastOne u) (hv : AtLeastOne v) :
    AtLeastOne (UnpackedFloat.mul .binary64 u v) := by
  cases hu with
  | infinity =>
    cases hv with
    | infinity => exact .infinity
    | finite => exact .infinity
  | finite hm hlog he =>
    cases hv with
    | infinity => exact .infinity
    | finite hm' hlog' he' =>
      have hmul := le_log2_mul hm hm'
      exact atLeastOne_roundWithAccuracy (by omega) (by omega) .exact

/-- The radicand is shifted so far that its root has full precision. -/
theorem AtLeastOne.sqrt {u : UnpackedFloat} (hu : AtLeastOne u) :
    AtLeastOne (UnpackedFloat.sqrt .binary64 u) := by
  cases hu with
  | infinity => exact .infinity
  | @finite m e hm hlog he =>
    have hmin : Format.binary64.minExponent = -1074 := rfl
    have hbits : Format.binary64.mantissaBits = 53 := rfl
    have hhalf : ∀ a : Int, a.ediv 2 = a / 2 := fun _ => rfl
    simp only [UnpackedFloat.sqrt, sqrtCore]
    generalize htarget : min (e.ediv 2)
      (Format.binary64.targetExponent ((totalExponent m e + 1).ediv 2)) = target
    have hle : target ≤ (54 + e) / 2 - 53 := by
      rw [Format.targetExponent, totalExponent, hmin, hbits, hlog, hhalf, hhalf] at htarget
      omega
    generalize hshift : (e - 2 * target).toNat = k
    have hlogk := log2_shiftLeft hm k
    have hpos : 0 < m <<< k := by
      rw [Nat.shiftLeft_eq]
      positivity
    have hroot := le_log2_sqrt hpos
    exact atLeastOne_roundWithAccuracy (by omega) (by omega) _

theorem Bounded.zero_mul {top : Int} {u : UnpackedFloat} (h : Bounded top u) :
    UnpackedFloat.mul .binary64 (.zero .positive) u = .zero .positive := by
  cases h with
  | zero => rfl
  | finite => rfl

theorem Bounded.mul_zero {top : Int} {u : UnpackedFloat} (h : Bounded top u) :
    UnpackedFloat.mul .binary64 u (.zero .positive) = .zero .positive := by
  cases h with
  | zero => rfl
  | finite => rfl

end Binary64

theorem toNat_toUInt64 {n : Nat} (h : n < 2 ^ 64) : n.toUInt64.toNat = n := by
  rw [Nat.toUInt64_eq, UInt64.toNat_ofNat_of_lt' h]

namespace Double

open Binary64 Float.Model Float.Model.UnpackedFloat

/-- The double of a number that is at least one. -/
def AtLeastOne (x : Double) : Prop := ∃ u, Binary64.AtLeastOne u ∧ x = ofUnpacked u

theorem AtLeastOne.unpacked {x : Double} (h : x.AtLeastOne) :
    Binary64.AtLeastOne x.unpacked := by
  obtain ⟨u, hu, rfl⟩ := h
  rw [unpacked_ofUnpacked]
  exact hu.unpack_pack

theorem atLeastOne_ofNat {n : Nat} (h0 : 0 < n) (hn : n < 2 ^ 64) : (ofNat n).AtLeastOne := by
  refine ⟨.ofNat .binary64 n.toUInt64.toNat, Binary64.atLeastOne_ofNat ?_, rfl⟩
  rwa [toNat_toUInt64 hn]

theorem AtLeastOne.mul {x y : Double} (hx : x.AtLeastOne) (hy : y.AtLeastOne) :
    (x.mul y).AtLeastOne :=
  ⟨.mul .binary64 x.unpacked y.unpacked, hx.unpacked.mul hy.unpacked, rfl⟩

theorem AtLeastOne.sqrt {x : Double} (hx : x.AtLeastOne) : x.sqrt.AtLeastOne :=
  ⟨.sqrt .binary64 x.unpacked, hx.unpacked.sqrt, rfl⟩

/-- Apart from the sign a zero has no bits. -/
theorem unpacked_of_isZero {x : Double} (h : x.isZero = true) :
    ∃ s, x.unpacked = .zero s := by
  obtain ⟨bits⟩ := x
  have hlt := bits.toNat_lt
  have hmod : bits.toNat % 9223372036854775808 = 0 := of_decide_eq_true h
  have hbits : bits = 0 ∨ bits = 0x8000000000000000 := by
    rw [← UInt64.toNat_inj, ← UInt64.toNat_inj]
    show bits.toNat = 0 ∨ bits.toNat = 9223372036854775808
    omega
  rcases hbits with rfl | rfl
  · exact ⟨.positive, rfl⟩
  · exact ⟨.negative, rfl⟩

theorem AtLeastOne.isZero_eq_false {x : Double} (h : x.AtLeastOne) : x.isZero = false := by
  have hx := h.unpacked
  rw [Bool.eq_false_iff]
  intro hzero
  obtain ⟨s, hs⟩ := unpacked_of_isZero hzero
  rw [hs] at hx
  cases hx

/-- Only the size zero becomes zero. -/
theorem isZero_ofNat_iff {n : Nat} (hn : n < 2 ^ 64) : (ofNat n).isZero = true ↔ n = 0 := by
  constructor
  · intro hzero
    by_contra h0
    rw [(atLeastOne_ofNat (Nat.pos_of_ne_zero h0) hn).isZero_eq_false] at hzero
    cases hzero
  · rintro rfl
    decide +kernel

theorem mul_ofNat_eq_zero {m n : Nat} (h : m = 0 ∨ n = 0) : (ofNat m).mul (ofNat n) = zero := by
  have hzero : (ofNat 0).unpacked = .zero .positive := rfl
  have hpack : ofUnpacked (.zero .positive) = zero := by decide +kernel
  show ofUnpacked (.mul .binary64 (ofNat m).unpacked (ofNat n).unpacked) = zero
  rcases h with rfl | rfl
  · rw [hzero, (bounded_unpacked_ofNat n).zero_mul, hpack]
  · rw [hzero, (bounded_unpacked_ofNat m).mul_zero, hpack]

/-- The geometric mean of two sizes is zero only if one of them is. -/
theorem isZero_sqrt_mul_ofNat_iff {m n : Nat} (hm : m < 2 ^ 64) (hn : n < 2 ^ 64) :
    ((ofNat m).mul (ofNat n)).sqrt.isZero = true ↔ m * n = 0 := by
  rw [Nat.mul_eq_zero]
  constructor
  · intro hzero
    by_contra! h0
    have hmean := ((atLeastOne_ofNat (Nat.pos_of_ne_zero h0.1) hm).mul
      (atLeastOne_ofNat (Nat.pos_of_ne_zero h0.2) hn)).sqrt
    rw [hmean.isZero_eq_false] at hzero
    cases hzero
  · intro h0
    rw [mul_ofNat_eq_zero h0]
    decide +kernel

end Double

end PagedGraph
