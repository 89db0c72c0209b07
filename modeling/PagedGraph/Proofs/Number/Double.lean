import Mathlib
import PagedGraph.Number.Double

/-!
# Quotients of sizes

Binary64 arithmetic is done on unpacked numbers: an operation unpacks its operands, rounds
its result and packs it.  A number that is not negative stays so when it is packed and
unpacked (`Binary64.Nonnegative.unpack_pack`).

Sizes are natural numbers below `2 ^ 64`, far below the largest double.  Their product and
its root may be rounded to infinity but are never negative and never not-a-number.  Zero
divided by such a number is zero, unless that is zero itself
(`Double.Nonnegative.div_eq_zero`).
-/

namespace PagedGraph

namespace Binary64

open Float.Model Float.Model.UnpackedFloat

/-! ## Numbers that are not negative -/

/-- Zero or a positive number with an exponent of at most `top`. -/
inductive Bounded (top : Int) : UnpackedFloat → Prop where
  | zero : Bounded top (.zero .positive)
  | finite {m : Nat} {e : Int} (hm : 0 < m) (he : e ≤ top) :
    Bounded top (.finite .positive m e hm)

/-- Neither negative nor not-a-number. -/
def Nonnegative (u : UnpackedFloat) : Prop :=
  u = .infinity .positive ∨ ∃ top, Bounded top u

theorem Bounded.mono {top top' : Int} {u : UnpackedFloat} (h : Bounded top u)
    (htop : top ≤ top') : Bounded top' u := by
  cases h with
  | zero => exact .zero
  | finite hm he => exact .finite hm (by omega)

theorem unpack_infinity :
    UnpackedFloat.unpack .binary64 (packComponents .binary64 .positive (-1#11) 0#52) =
      .infinity .positive := by
  simp [UnpackedFloat.unpack]

/-- A double whose exponent is not special is bounded. -/
theorem bounded_unpack {x : BitVec 11} (hx : x ≠ -1#11) (f : BitVec 52) :
    Bounded 971 (UnpackedFloat.unpack .binary64 (packComponents .binary64 .positive x f)) := by
  have hsign : Sign.ofBitVec (Sign.positive.toBitVec) = .positive := rfl
  have hbias : (Format.binary64.exponentBias : Int) = 1023 := rfl
  simp only [UnpackedFloat.unpack, unpackExponent_packComponents, unpackMantissa_packComponents,
    unpackSign_packComponents, hsign, hbias]
  rw [if_neg hx]
  split
  case isTrue hzero =>
    subst hzero
    split
    case isTrue => exact .zero
    case isFalse => exact .finite _ (by decide)
  case isFalse =>
    have hlt := x.isLt
    have hne : x.toNat ≠ 2047 := fun h => hx (BitVec.eq_of_toNat_eq h)
    exact .finite _ (by omega)

/-- A number whose exponent is too large for a double becomes infinity, any other keeps an
exponent that is not special. -/
theorem Bounded.pack_eq {top : Int} {u : UnpackedFloat} (h : Bounded top u) :
    971 < top ∧ UnpackedFloat.pack .binary64 u = packComponents .binary64 .positive (-1#11) 0#52 ∨
      ∃ x f, x ≠ -1#11 ∧
        UnpackedFloat.pack .binary64 u = packComponents .binary64 .positive x f := by
  cases h with
  | zero => exact .inr ⟨0#11, 0#52, nofun, rfl⟩
  | @finite m e hm he =>
    have hbias : (Format.binary64.exponentBias : Int) = 1023 := rfl
    have hexp : 2 ^ Format.binary64.exponentBits = 2048 := rfl
    have hbits : Format.binary64.mantissaBitsWithoutImplicit = 52 := rfl
    rw [UnpackedFloat.pack.eq_4]
    split
    case isTrue hx => exact .inl ⟨by omega, rfl⟩
    case isFalse hx =>
      right
      split
      case isTrue =>
        refine ⟨_, _, fun h => ?_, rfl⟩
        have h : _ % 2048 = 2047 := congrArg BitVec.toNat h
        omega
      case isFalse => exact ⟨0#11, _, nofun, rfl⟩

theorem Bounded.unpack_pack {u : UnpackedFloat} (h : Bounded 971 u) :
    Bounded 971 (UnpackedFloat.unpack .binary64 (UnpackedFloat.pack .binary64 u)) := by
  obtain ⟨h, -⟩ | ⟨x, f, hx, h⟩ := h.pack_eq
  · omega
  · rw [h]
    exact bounded_unpack hx f

theorem Nonnegative.unpack_pack {u : UnpackedFloat} (h : Nonnegative u) :
    Nonnegative (UnpackedFloat.unpack .binary64 (UnpackedFloat.pack .binary64 u)) := by
  obtain rfl | ⟨top, h⟩ := h
  · exact .inl unpack_infinity
  · obtain ⟨-, h⟩ | ⟨x, f, hx, h⟩ := h.pack_eq
    · rw [h]
      exact .inl unpack_infinity
    · rw [h]
      exact .inr ⟨971, bounded_unpack hx f⟩

/-! ## Rounding -/

theorem roundedMantissa_le (em : ExtendedMantissa) : em.roundedMantissa ≤ em.mantissa + 1 := by
  rw [ExtendedMantissa.roundedMantissa]
  rcases em.accuracy with _ | _ | _ | _ <;> simp only [Accuracy.roundToNearestEven] <;> omega

theorem mantissa_shiftRight (em : ExtendedMantissa) (n : Nat) :
    (em >>> n).mantissa = em.mantissa / 2 ^ n := by
  show (n.repeat ExtendedMantissa.shiftRightOne em).mantissa = _
  induction n with
  | zero => exact (Nat.div_one _).symm
  | succ n ih =>
    rw [Nat.pow_succ, ← Nat.div_div_eq_div_mul, ← ih]
    rfl

theorem mantissa_shiftRight_le (em : ExtendedMantissa) (n : Nat) :
    (em >>> n).mantissa ≤ em.mantissa := by
  rw [mantissa_shiftRight]
  exact Nat.div_le_self _ _

theorem mantissa_ofMantissaAndAccuracy (m : Nat) (acc : Accuracy) :
    (ExtendedMantissa.ofMantissaAndAccuracy m acc).mantissa = m := by
  rcases acc with _ | _ | _ | _ <;> rfl

theorem shiftToTargetExponent_le {m bits : Nat} (hm : m < 2 ^ (bits + 1)) (e : Int)
    (acc : Accuracy) :
    (shiftToTargetExponent .binary64 m e acc).1.mantissa ≤ m ∧
      (shiftToTargetExponent .binary64 m e acc).2 ≤ max e (-1074) + bits := by
  constructor
  · have h := mantissa_shiftRight_le (.ofMantissaAndAccuracy m acc)
      (Format.binary64.targetExponent (totalExponent m e) - e).toNat
    rwa [mantissa_ofMantissaAndAccuracy] at h
  · have hlog : m.log2 < bits + 1 := by
      rcases Nat.eq_zero_or_pos m with rfl | h0
      · exact Nat.succ_pos bits
      · exact (Nat.log2_lt (by omega)).mpr hm
    have hmin : Format.binary64.minExponent = -1074 := rfl
    have hbits : Format.binary64.mantissaBits = 53 := rfl
    simp only [shiftToTargetExponent, shiftToExponent, Format.targetExponent, totalExponent, hmin,
      hbits]
    omega

/-- Rounding shifts twice: once to the width of a double, and once more when the rounded
mantissa became too wide. -/
theorem bounded_roundWithAccuracy {m bits : Nat} (hm : m < 2 ^ (bits + 1)) (e : Int)
    (acc : Accuracy) :
    Bounded (max e (-1074) + (2 * bits + 1 : Nat))
      (roundWithAccuracy .binary64 .positive m e acc) := by
  obtain ⟨hm1, he1⟩ := shiftToTargetExponent_le hm e acc
  rw [roundWithAccuracy]
  generalize shiftToTargetExponent .binary64 m e acc = first at hm1 he1
  obtain ⟨em, e1⟩ := first
  dsimp only at hm1 he1 ⊢
  have hr : em.roundedMantissa < 2 ^ (bits + 1 + 1) := by
    have := roundedMantissa_le em
    have : 0 < 2 ^ (bits + 1) := Nat.two_pow_pos _
    have : 2 ^ (bits + 1 + 1) = 2 * 2 ^ (bits + 1) := Nat.pow_succ'
    omega
  obtain ⟨-, he2⟩ := shiftToTargetExponent_le hr e1 .exact
  split
  case isTrue => exact .zero
  case isFalse => exact .finite _ (by omega)

theorem nonnegative_roundWithAccuracy (m : Nat) (e : Int) (acc : Accuracy) :
    Nonnegative (roundWithAccuracy .binary64 .positive m e acc) :=
  have hm : m < 2 ^ (m + 1) := Nat.lt_trans Nat.lt_two_pow_self (Nat.pow_lt_pow_succ (by decide))
  .inr ⟨_, bounded_roundWithAccuracy hm e acc⟩

/-! ## Operations -/

theorem bounded_ofNat {n : Nat} (hn : n < 2 ^ 64) :
    Bounded 971 (UnpackedFloat.ofNat .binary64 n) := by
  rw [UnpackedFloat.ofNat, UnpackedFloat.ofInt, UnpackedFloat.normalize]
  split
  case h_1 h => exact absurd (Int.compare_eq_lt.mp h) (by omega)
  case h_2 => exact .zero
  case h_3 =>
    rw [Int.toNat_natCast, UnpackedFloat.round]
    dsimp only [decreaseExponent]
    generalize hk : (0 - Format.binary64.targetExponent (totalExponent n 0)).toNat = k
    have hk : k ≤ 52 := by
      have hmin : Format.binary64.minExponent = -1074 := rfl
      have hbits : Format.binary64.mantissaBits = 53 := rfl
      rw [Format.targetExponent, totalExponent, hmin, hbits] at hk
      omega
    have hshift : n <<< k < 2 ^ (115 + 1) := by
      rw [Nat.shiftLeft_eq]
      calc n * 2 ^ k
        _ < 2 ^ 64 * 2 ^ k := Nat.mul_lt_mul_of_pos_right hn (Nat.two_pow_pos k)
        _ ≤ 2 ^ 64 * 2 ^ 52 := Nat.mul_le_mul_left _ (Nat.pow_le_pow_right (by decide) hk)
    have h := bounded_roundWithAccuracy hshift (0 - k) .exact
    exact h.mono (by omega)

theorem Bounded.nonnegative_mul {top : Int} {u v : UnpackedFloat} (hu : Bounded top u)
    (hv : Bounded top v) : Nonnegative (UnpackedFloat.mul .binary64 u v) := by
  cases hu with
  | zero =>
    cases hv with
    | zero => exact .inr ⟨0, .zero⟩
    | finite => exact .inr ⟨0, .zero⟩
  | finite =>
    cases hv with
    | zero => exact .inr ⟨0, .zero⟩
    | finite => exact nonnegative_roundWithAccuracy _ _ _

theorem Nonnegative.sqrt {u : UnpackedFloat} (hu : Nonnegative u) :
    Nonnegative (UnpackedFloat.sqrt .binary64 u) := by
  obtain rfl | ⟨top, hu⟩ := hu
  · exact .inl rfl
  · cases hu with
    | zero => exact .inr ⟨0, .zero⟩
    | finite => exact nonnegative_roundWithAccuracy _ _ _

theorem Nonnegative.div_eq_zero {u : UnpackedFloat} (hu : Nonnegative u)
    (hne : u ≠ .zero .positive) :
    UnpackedFloat.div .binary64 (.zero .positive) u = .zero .positive := by
  obtain rfl | ⟨top, hu⟩ := hu
  · rfl
  · cases hu with
    | zero => exact absurd rfl hne
    | finite => rfl

end Binary64

namespace Double

open Binary64 Float.Model Float.Model.UnpackedFloat

/-- The number a double stands for. -/
def unpacked (x : Double) : UnpackedFloat := x.toFloat.toModel.unpack

/-- The double that a rounded number is packed into. -/
def ofUnpacked (u : UnpackedFloat) : Double := .ofFloat (.ofModel (.pack u))

theorem unpacked_ofUnpacked (u : UnpackedFloat) :
    (ofUnpacked u).unpacked = UnpackedFloat.unpack .binary64 (UnpackedFloat.pack .binary64 u) := by
  show Float.Model.unpack (Float.ofBits (Float.ofModel (.pack u)).toBits).toModel = _
  rw [Float.ofBits_toBits]
  rfl

theorem isZero_ofUnpacked {u : UnpackedFloat} (h : (ofUnpacked u).unpacked = .zero .positive) :
    (ofUnpacked u).isZero = true := by
  rw [unpacked_ofUnpacked, unpack_eq_zero_iff_of_valid valid_pack] at h
  show decide ((UnpackedFloat.pack .binary64 u).toNat % signBit = 0) = true
  rw [h]
  decide +kernel

/-- Neither negative nor not-a-number. -/
def Nonnegative (x : Double) : Prop := ∃ u, Binary64.Nonnegative u ∧ x = ofUnpacked u

theorem nonnegative_ofNat (n : Nat) : (ofNat n).Nonnegative :=
  ⟨.ofNat .binary64 n.toUInt64.toNat, .inr ⟨_, bounded_ofNat n.toUInt64.toNat_lt⟩, rfl⟩

theorem bounded_unpacked_ofNat (n : Nat) : Bounded 971 (ofNat n).unpacked := by
  have h : ofNat n = ofUnpacked (.ofNat .binary64 n.toUInt64.toNat) := rfl
  rw [h, unpacked_ofUnpacked]
  exact (bounded_ofNat n.toUInt64.toNat_lt).unpack_pack

theorem nonnegative_mul_ofNat (m n : Nat) : ((ofNat m).mul (ofNat n)).Nonnegative :=
  ⟨.mul .binary64 (ofNat m).unpacked (ofNat n).unpacked,
    (bounded_unpacked_ofNat m).nonnegative_mul (bounded_unpacked_ofNat n), rfl⟩

theorem Nonnegative.unpacked {x : Double} (h : x.Nonnegative) :
    Binary64.Nonnegative x.unpacked := by
  obtain ⟨u, hu, rfl⟩ := h
  rw [unpacked_ofUnpacked]
  exact hu.unpack_pack

theorem Nonnegative.sqrt {x : Double} (h : x.Nonnegative) : x.sqrt.Nonnegative :=
  ⟨.sqrt .binary64 x.unpacked, h.unpacked.sqrt, rfl⟩

/-- Zero divided by a number that is not negative is zero, unless that is zero. -/
theorem Nonnegative.div_eq_zero {x : Double} (h : x.Nonnegative) (hx : x.isZero = false) :
    (ofNat 0).div x = zero := by
  have hzero : (ofNat 0).unpacked = .zero .positive := rfl
  have hne : x.unpacked ≠ .zero .positive := by
    intro hx0
    obtain ⟨u, -, rfl⟩ := h
    rw [isZero_ofUnpacked hx0] at hx
    exact Bool.noConfusion hx
  calc (ofNat 0).div x
    _ = ofUnpacked (.div .binary64 (ofNat 0).unpacked x.unpacked) := rfl
    _ = ofUnpacked (.zero .positive) := by rw [hzero, h.unpacked.div_eq_zero hne]
    _ = zero := by decide +kernel

theorem blt_iff {x y : Double} : x.blt y = true ↔ x.unpacked.lt y.unpacked = true := by
  rw [blt, decide_eq_true_iff]
  exact decide_eq_true_iff

theorem ble_iff {x y : Double} : x.ble y = true ↔ x.unpacked.le y.unpacked = true := by
  rw [ble, decide_eq_true_iff]
  exact decide_eq_true_iff

/-- What zero is below is not at most zero. -/
theorem ble_zero_eq_false {x : Double} (h : zero.blt x = true) : x.ble zero = false := by
  have hzero : zero.unpacked = .zero .positive := rfl
  rw [blt_iff, hzero] at h
  rw [Bool.eq_false_iff, ne_eq, ble_iff, hzero]
  intro hle
  cases hx : x.unpacked with
  | notANumber =>
    rw [hx] at h
    exact Bool.noConfusion h
  | zero s =>
    rw [hx] at h
    exact Bool.noConfusion h
  | infinity s =>
    rw [hx] at h hle
    cases s with
    | positive => exact Bool.noConfusion hle
    | negative => exact Bool.noConfusion h
  | finite s m e hm =>
    rw [hx] at h hle
    cases s with
    | positive => exact Bool.noConfusion hle
    | negative => exact Bool.noConfusion h

end Double

end PagedGraph
