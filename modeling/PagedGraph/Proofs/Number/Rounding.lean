import PagedGraph.Proofs.Number.AtLeastOne

/-!
# Rounding to the nearest double

A rational number is rounded to 53 binary places: it is scaled so that its whole part has that
many, that is rounded to the nearest integer, with ties to even, and scaled back (`rounded`).
Rounding is monotone (`rounded_mono`), keeps powers of two (`rounded_zpow`) and is off by one
part in `2 ^ 53` at most (`abs_rounded_sub_le`).

Binary64 arithmetic shifts mantissas to the right and keeps a round bit and a sticky bit for what
falls off.  These two bits tell where between two integers a number is (`Binary64.StandsFor`), and
that is enough to round it (`Binary64.StandsFor.roundedMantissa`).
-/

namespace PagedGraph

/-! ## Rounding -/

/-- The nearest integer.  Of two that are equally near it is the even one. -/
def nearest (x : ℚ) : ℤ :=
  if Int.fract x < 1 / 2 then ⌊x⌋
  else if 1 / 2 < Int.fract x then ⌊x⌋ + 1
  else ⌊x⌋ + ⌊x⌋ % 2

theorem floor_le_nearest (x : ℚ) : ⌊x⌋ ≤ nearest x := by
  rw [nearest]
  split_ifs <;> omega

theorem nearest_le_floor_add_one (x : ℚ) : nearest x ≤ ⌊x⌋ + 1 := by
  rw [nearest]
  split_ifs <;> omega

theorem nearest_intCast (n : ℤ) : nearest n = n := by
  simp [nearest]

theorem nearest_mono {x y : ℚ} (h : x ≤ y) : nearest x ≤ nearest y := by
  obtain hlt | heq := (Int.floor_le_floor h).lt_or_eq
  · exact (nearest_le_floor_add_one x).trans (hlt.trans_le (floor_le_nearest y) : ⌊x⌋ < nearest y)
  · have hx := Int.floor_add_fract x
    have hy := Int.floor_add_fract y
    rw [heq] at hx
    have hfract : Int.fract x ≤ Int.fract y := by linarith
    rw [nearest, nearest, heq]
    split_ifs <;> first | omega | (exfalso; linarith)

theorem abs_nearest_sub_le (x : ℚ) : |nearest x - x| ≤ 1 / 2 := by
  have hx := Int.floor_add_fract x
  have hnonneg := Int.fract_nonneg x
  have hlt := Int.fract_lt_one x
  rw [abs_le, nearest]
  split_ifs with hlow hhigh
  · constructor <;> linarith
  · push_cast
    constructor <;> linarith
  · obtain heven | hodd : ⌊x⌋ % 2 = 0 ∨ ⌊x⌋ % 2 = 1 := by omega
    · rw [heven]
      push_cast
      constructor <;> linarith
    · rw [hodd]
      push_cast
      constructor <;> linarith

/-- The weight of the last of 53 binary places of a number. -/
def lastPlace (x : ℚ) : ℚ := 2 ^ (Int.log 2 x - 52)

/-- A number rounded to 53 binary places. -/
def rounded (x : ℚ) : ℚ := nearest (x / lastPlace x) * lastPlace x

theorem lastPlace_pos (x : ℚ) : 0 < lastPlace x := zpow_pos two_pos _

theorem two_pow_mul_lastPlace (x : ℚ) : 2 ^ 52 * lastPlace x = 2 ^ Int.log 2 x := by
  rw [lastPlace, ← zpow_natCast, ← zpow_add₀ two_ne_zero]
  congr 1
  omega

theorem le_div_lastPlace {x : ℚ} (hx : 0 < x) : 2 ^ 52 ≤ x / lastPlace x := by
  rw [le_div_iff₀ (lastPlace_pos x), two_pow_mul_lastPlace]
  exact_mod_cast Int.zpow_log_le_self one_lt_two hx

theorem div_lastPlace_lt (x : ℚ) : x / lastPlace x < 2 ^ 53 := by
  have hlt : x < 2 ^ (Int.log 2 x + 1) := by
    exact_mod_cast Int.lt_zpow_succ_log_self one_lt_two x
  rw [div_lt_iff₀ (lastPlace_pos x)]
  rw [zpow_add_one₀ two_ne_zero, ← two_pow_mul_lastPlace] at hlt
  linarith

theorem le_rounded {x : ℚ} (hx : 0 < x) : 2 ^ Int.log 2 x ≤ rounded x := by
  have h := nearest_mono (x := ((2 ^ 52 : ℤ) : ℚ)) (by exact_mod_cast le_div_lastPlace hx)
  rw [nearest_intCast] at h
  rw [rounded, ← two_pow_mul_lastPlace]
  exact mul_le_mul_of_nonneg_right (by exact_mod_cast h) (lastPlace_pos x).le

theorem rounded_le (x : ℚ) : rounded x ≤ 2 ^ (Int.log 2 x + 1) := by
  have h := nearest_mono (y := ((2 ^ 53 : ℤ) : ℚ)) (by exact_mod_cast (div_lastPlace_lt x).le)
  rw [nearest_intCast] at h
  rw [rounded, zpow_add_one₀ two_ne_zero, ← two_pow_mul_lastPlace]
  have h : (nearest (x / lastPlace x) : ℚ) ≤ 2 ^ 53 := by exact_mod_cast h
  calc nearest (x / lastPlace x) * lastPlace x
    _ ≤ 2 ^ 53 * lastPlace x := mul_le_mul_of_nonneg_right h (lastPlace_pos x).le
    _ = 2 ^ 52 * lastPlace x * 2 := by ring

theorem rounded_pos {x : ℚ} (hx : 0 < x) : 0 < rounded x :=
  (zpow_pos two_pos _).trans_le (le_rounded hx)

/-- Numbers with one last place are rounded to integers of it.  Numbers with different last places
have a power of two between them, also when they are rounded. -/
theorem rounded_mono {x y : ℚ} (hx : 0 < x) (h : x ≤ y) : rounded x ≤ rounded y := by
  obtain hlt | heq := (Int.log_mono_right hx h : Int.log 2 x ≤ Int.log 2 y).lt_or_eq
  · calc rounded x
      _ ≤ 2 ^ (Int.log 2 x + 1) := rounded_le x
      _ ≤ 2 ^ Int.log 2 y := zpow_le_zpow_right₀ one_le_two hlt
      _ ≤ rounded y := le_rounded (hx.trans_le h)
  · have hplace : lastPlace x = lastPlace y := by rw [lastPlace, lastPlace, heq]
    rw [rounded, rounded, hplace]
    have hle := nearest_mono (div_le_div_of_nonneg_right h (lastPlace_pos y).le)
    exact mul_le_mul_of_nonneg_right (by exact_mod_cast hle) (lastPlace_pos y).le

theorem rounded_zero : rounded 0 = 0 := by
  have h := nearest_intCast 0
  rw [Int.cast_zero] at h
  rw [rounded, zero_div, h, Int.cast_zero, zero_mul]

theorem rounded_zpow (k : ℤ) : rounded (2 ^ k) = 2 ^ k := by
  have hlog : Int.log 2 ((2 : ℚ) ^ k) = k := by
    have h := Int.log_zpow (R := ℚ) one_lt_two k
    rwa [Nat.cast_ofNat] at h
  have hdiv : 2 ^ k / lastPlace (2 ^ k) = ((2 ^ 52 : ℤ) : ℚ) := by
    rw [div_eq_iff (lastPlace_pos _).ne', Int.cast_pow, Int.cast_ofNat, two_pow_mul_lastPlace, hlog]
  rw [rounded, hdiv, nearest_intCast, Int.cast_pow, Int.cast_ofNat, two_pow_mul_lastPlace, hlog]

theorem abs_rounded_sub_le {x : ℚ} (hx : 0 < x) : |rounded x - x| ≤ x / 2 ^ 53 := by
  have hplace := lastPlace_pos x
  have hscaled : rounded x - x = (nearest (x / lastPlace x) - x / lastPlace x) * lastPlace x := by
    rw [sub_mul, div_mul_cancel₀ _ hplace.ne', rounded]
  have hle := (le_div_iff₀ hplace).mp (le_div_lastPlace hx)
  rw [hscaled, abs_mul, abs_of_pos hplace]
  calc |nearest (x / lastPlace x) - x / lastPlace x| * lastPlace x
    _ ≤ 1 / 2 * lastPlace x := mul_le_mul_of_nonneg_right (abs_nearest_sub_le _) hplace.le
    _ ≤ x / 2 ^ 53 := by linarith

/-- Rounding makes a number larger by one part in `2 ^ 53` at most. -/
theorem rounded_le_mul {x : ℚ} (hx : 0 < x) : rounded x ≤ x * (1 + 1 / 2 ^ 53) := by
  have h := (abs_le.mp (abs_rounded_sub_le hx)).2
  linarith

/-- Rounding makes a number smaller by one part in `2 ^ 53` at most. -/
theorem mul_le_rounded {x : ℚ} (hx : 0 < x) : x * (1 - 1 / 2 ^ 53) ≤ rounded x := by
  have h := (abs_le.mp (abs_rounded_sub_le hx)).1
  linarith

namespace Binary64

open Float.Model Float.Model.UnpackedFloat

/-! ## Round bit and sticky bit -/

/-- The mantissa of a number is its whole part, the round bit its first binary place, and the sticky
bit tells whether anything is left. -/
def StandsFor (em : ExtendedMantissa) (x : ℚ) : Prop :=
  if em.roundBit then
    if em.stickyBit then em.mantissa + 1 / 2 < x ∧ x < em.mantissa + 1
    else x = em.mantissa + 1 / 2
  else
    if em.stickyBit then em.mantissa < x ∧ x < em.mantissa + 1 / 2
    else x = em.mantissa

namespace StandsFor

variable {em : ExtendedMantissa} {x : ℚ}

theorem floor_eq (h : StandsFor em x) : ⌊x⌋ = em.mantissa := by
  rw [Int.floor_eq_iff, Int.cast_natCast]
  rw [StandsFor] at h
  split_ifs at h <;> constructor <;> linarith

/-- Rounding an extended mantissa rounds the number it stands for. -/
theorem roundedMantissa (h : StandsFor em x) : (em.roundedMantissa : ℤ) = nearest x := by
  have hfloor := h.floor_eq
  have hfract : Int.fract x = x - em.mantissa := by
    rw [Int.fract, hfloor, Int.cast_natCast]
  rw [nearest, hfract, hfloor]
  obtain ⟨m, round, sticky⟩ := em
  rw [StandsFor] at h
  cases round <;> cases sticky <;>
    simp only [Bool.false_eq_true, if_true, if_false] at h <;>
    simp only [ExtendedMantissa.roundedMantissa, ExtendedMantissa.accuracy,
      Accuracy.roundToNearestEven]
  case false.false => rw [if_pos (by linarith)]
  case false.true => rw [if_pos (by linarith)]
  case true.false =>
    rw [if_neg (by linarith), if_neg (by linarith), Nat.cast_add]
    rfl
  case true.true => rw [if_neg (by linarith), if_pos (by linarith), Nat.cast_add, Nat.cast_one]

theorem shiftRightOne (h : StandsFor em x) : StandsFor em.shiftRightOne (x / 2) := by
  obtain ⟨m, round, sticky⟩ := em
  have hm : ((m % 2 : ℕ) : ℚ) + 2 * ((m / 2 : ℕ) : ℚ) = m := by exact_mod_cast Nat.mod_add_div m 2
  obtain heven | hodd := Nat.mod_two_eq_zero_or_one m
  · rw [heven, Nat.cast_zero, zero_add] at hm
    cases round <;> cases sticky <;>
      simp only [StandsFor, ExtendedMantissa.shiftRightOne, heven, Bool.false_eq_true, if_true,
        if_false, bne_self_eq_false, Bool.or_false, Bool.or_true] at h ⊢ <;>
      first | linarith | constructor <;> linarith
  · rw [hodd, Nat.cast_one] at hm
    cases round <;> cases sticky <;>
      simp [StandsFor, ExtendedMantissa.shiftRightOne, hodd] at h ⊢ <;>
      first | linarith | constructor <;> linarith

theorem shiftRight (h : StandsFor em x) (n : ℕ) : StandsFor (em >>> n) (x / 2 ^ n) := by
  show StandsFor (n.repeat ExtendedMantissa.shiftRightOne em) _
  induction n with
  | zero => rwa [pow_zero, div_one]
  | succ n ih =>
    rw [pow_succ, ← div_div]
    exact ih.shiftRightOne

end StandsFor

theorem standsFor_exact (m : ℕ) : StandsFor (.ofMantissaAndAccuracy m .exact) m := rfl

/-- A quotient of natural numbers is told by the quotient without rest and by comparing twice the
rest with the divisor. -/
theorem standsFor_div {n d : ℕ} (hd : 0 < d) :
    StandsFor (.ofMantissaAndAccuracy (n / d) (accuracyOfFraction (n % d) d)) (n / d : ℚ) := by
  have hd' : (0 : ℚ) < d := Nat.cast_pos.mpr hd
  have hn : (n / d : ℚ) = (n / d : ℕ) + (n % d : ℕ) / d := by
    rw [eq_comm, ← mul_left_inj' hd'.ne', add_mul, div_mul_cancel₀ _ hd'.ne',
      div_mul_cancel₀ _ hd'.ne']
    exact_mod_cast Nat.div_add_mod' n d
  have hlt : ((n % d : ℕ) : ℚ) < d := Nat.cast_lt.mpr (Nat.mod_lt n hd)
  rw [hn]
  generalize n % d = r at hlt
  rw [accuracyOfFraction]
  split_ifs with hr
  · rw [hr, Nat.cast_zero, zero_div, add_zero]
    exact standsFor_exact _
  · have hpos : (0 : ℚ) < r := Nat.cast_pos.mpr (Nat.pos_of_ne_zero hr)
    have hone : (r / d : ℚ) < 1 := (div_lt_one hd').mpr hlt
    have hzero : (0 : ℚ) < r / d := div_pos hpos hd'
    cases hcompare : compare (2 * r) d with
    | lt =>
      have h : (2 * r : ℚ) < d := by exact_mod_cast Nat.compare_eq_lt.mp hcompare
      have hhalf : (r / d : ℚ) < 1 / 2 := by
        rw [div_lt_iff₀ hd']
        linarith
      constructor <;> dsimp only [ExtendedMantissa.ofMantissaAndAccuracy] <;> linarith
    | eq =>
      have h : (2 * r : ℚ) = d := by exact_mod_cast Nat.compare_eq_eq.mp hcompare
      have hhalf : (r / d : ℚ) = 1 / 2 := by
        rw [div_eq_iff hd'.ne']
        linarith
      rw [hhalf]
      rfl
    | gt =>
      have h : (d : ℚ) < 2 * r := by exact_mod_cast Nat.compare_eq_gt.mp hcompare
      have hhalf : (1 / 2 : ℚ) < r / d := by
        rw [lt_div_iff₀ hd']
        linarith
      constructor <;> dsimp only [ExtendedMantissa.ofMantissaAndAccuracy] <;> linarith

end Binary64

end PagedGraph
