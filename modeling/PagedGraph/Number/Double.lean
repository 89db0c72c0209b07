import PagedGraph.Number.Bytes

/-!
# Doubles

A `Double` is a binary64 number held as its 64 bits, so two not-a-numbers with
different bits stay apart.  Arithmetic rounds to nearest, ties to even.

Three comparisons are in use and they differ.

* Equality is equality of bits.  It tells `0` from `-0`.
* `ble` and `blt` compare values.  Every comparison with a not-a-number is false.
* `orderKey` is the total order of binary64: the negative not-a-numbers first, then
  the numbers with `-0` before `0`, then the positive not-a-numbers.
-/

namespace PagedGraph

/-- A binary64 number, held as its bits. -/
structure Double where
  /-- Sign, eleven bits of exponent, fifty-two bits of fraction. -/
  bits : UInt64
deriving DecidableEq, Repr, Inhabited

namespace Double

/-- The machine number with the same bits. -/
def toFloat (x : Double) : Float := Float.ofBits x.bits

/-- The bits of a machine number. -/
def ofFloat (x : Float) : Double := ⟨x.toBits⟩

/-- Positive zero. -/
def zero : Double := ⟨0⟩

/-- The number one. -/
def one : Double := ⟨0x3ff0000000000000⟩

/-- The not-a-number that stands for a value nobody gave. -/
def nan : Double := ⟨0x7ff8000000000000⟩

/-- The bit of the sign. -/
def signBit : Nat := 0x8000000000000000

/-- The bits of positive infinity: all exponent bits, and no fraction. -/
def infinityBits : Nat := 0x7ff0000000000000

/-- One more than the largest fraction. -/
def fractionSize : Nat := 0x10000000000000

/-- All exponent bits set and a fraction: not a number. -/
def isNaN (x : Double) : Bool := x.bits.toNat % signBit > infinityBits

/-- Whether the sign is set. -/
def isNegative (x : Double) : Bool := x.bits.toNat ≥ signBit

/-- The same number with the other sign. -/
def neg (x : Double) : Double := ⟨x.bits ^^^ 0x8000000000000000⟩

/-- The nearest double of a natural number below `2 ^ 64`. -/
def ofNat (n : Nat) : Double := ofFloat n.toUInt64.toFloat

/-- The nearest double of an integer of absolute value below `2 ^ 64`. -/
def ofInt (n : Int) : Double := if n < 0 then neg (ofNat n.natAbs) else ofNat n.natAbs

/-- Sum. -/
def add (x y : Double) : Double := ofFloat (x.toFloat + y.toFloat)

/-- Product. -/
def mul (x y : Double) : Double := ofFloat (x.toFloat * y.toFloat)

/-- Quotient. -/
def div (x y : Double) : Double := ofFloat (x.toFloat / y.toFloat)

/-- Square root. -/
def sqrt (x : Double) : Double := ofFloat x.toFloat.sqrt

/-- Whether the value is zero, of either sign. -/
def isZero (x : Double) : Bool := x.bits.toNat % signBit = 0

/-- At most, as values. -/
def ble (x y : Double) : Bool := x.toFloat ≤ y.toFloat

/-- Below, as values. -/
def blt (x y : Double) : Bool := x.toFloat < y.toFloat

/-- The smaller of two.  A not-a-number gives way to the other operand. -/
def min (x y : Double) : Double :=
  if x.isNaN then y else if y.isNaN then x else if blt y x then y else x

/-- The larger of two.  A not-a-number gives way to the other operand. -/
def max (x y : Double) : Double :=
  if x.isNaN then y else if y.isNaN then x else if blt x y then y else x

/-- The place of a double in the total order of binary64. -/
def orderKey (x : Double) : Int :=
  if x.bits.toNat < signBit then x.bits.toNat else (signBit : Int) - 1 - x.bits.toNat

/-- The total order. -/
def compareTotal (x y : Double) : Ordering := compare x.orderKey y.orderKey

/-- Doubles with one key have the same bits. -/
theorem eq_of_orderKey_eq {x y : Double} (h : x.orderKey = y.orderKey) : x = y := by
  have hx := x.bits.toNat_lt
  have hy := y.bits.toNat_lt
  obtain ⟨x⟩ := x
  obtain ⟨y⟩ := y
  have hs : signBit = 9223372036854775808 := rfl
  simp only [orderKey] at h hx hy
  congr 1
  apply UInt64.toNat_inj.mp
  by_cases hxs : x.toNat < signBit <;> by_cases hys : y.toNat < signBit <;>
    simp only [hxs, hys, if_true, if_false] at h <;> omega

/-- The eight bytes of a double, lowest first. -/
def toBytes (x : Double) : List UInt8 := littleEndian 8 x.bits.toNat

/-- The double eight bytes spell. -/
def ofBytes (bytes : List UInt8) : Double := ⟨(ofLittleEndian bytes).toUInt64⟩

@[simp] theorem length_toBytes (x : Double) : x.toBytes.length = 8 := by simp [toBytes]

/-- A double survives being written and read. -/
@[simp] theorem ofBytes_toBytes (x : Double) : ofBytes x.toBytes = x := by
  have h := x.bits.toNat_lt
  obtain ⟨b⟩ := x
  simp only [ofBytes, toBytes, ofLittleEndian_littleEndian]
  congr 1
  rw [Nat.mod_eq_of_lt (by simpa using h)]
  simp

end Double

end PagedGraph
