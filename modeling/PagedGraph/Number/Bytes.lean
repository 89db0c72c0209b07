/-!
# Numbers as bytes

A number of fixed width is written lowest byte first.  `ofLittleEndian` reads it
back: `ofLittleEndian_littleEndian` says that the digits kept are those below
`256` to the power `width`.
-/

namespace PagedGraph

/-- The `width` low bytes of a number, lowest first. -/
def littleEndian : Nat → Nat → List UInt8
  | 0, _ => []
  | width + 1, n => (n % 256).toUInt8 :: littleEndian width (n / 256)

/-- The number a list of bytes spells, lowest byte first. -/
def ofLittleEndian : List UInt8 → Nat
  | [] => 0
  | b :: bs => b.toNat + 256 * ofLittleEndian bs

@[simp] theorem length_littleEndian (width n : Nat) : (littleEndian width n).length = width := by
  induction width generalizing n with
  | zero => rfl
  | succ w ih => simp [littleEndian, ih]

/-- Reading back keeps the digits that fit the width. -/
theorem ofLittleEndian_littleEndian (width n : Nat) :
    ofLittleEndian (littleEndian width n) = n % Nat.pow 256 width := by
  induction width generalizing n with
  | zero => simp [littleEndian, ofLittleEndian, Nat.mod_one]
  | succ w ih =>
    have hb : (n % 256).toUInt8.toNat = n % 256 := by
      simp [Nat.mod_eq_of_lt (show n % 256 < 256 from Nat.mod_lt _ (by decide))]
    have hpow : Nat.pow 256 (w + 1) = 256 * Nat.pow 256 w := Nat.pow_succ'
    rw [littleEndian, ofLittleEndian, ih, hb, hpow, Nat.mod_mul]

end PagedGraph
