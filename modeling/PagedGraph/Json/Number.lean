import PagedGraph.Number.Double

/-!
# Numbers in JSON texts

An integer that is written without point and exponent keeps its value when it fits
64 bits: from zero to `2 ^ 64 - 1`, or below zero down to `-2 ^ 63`.  Every other number,
`-0` among them, is a double, and is out of range when it would be infinite.

A double is read as follows.  The digits form a significand as long as it stays below
`2 ^ 64`.  Integer digits that do not fit count as zeros, and places behind the
point that do not fit are ignored.  The significand is rounded to a double and
multiplied or divided by a power of ten, which is rounded too.  So the result can
differ in the last place from the double next to the written number.
-/

namespace PagedGraph

/-- A number of a JSON text. -/
inductive JsonNumber where
  /-- An integer from zero to `2 ^ 64 - 1`. -/
  | natural (n : Nat)
  /-- The integer `-n`, at least `-2 ^ 63`. -/
  | negative (n : Nat)
  | real (x : Double)
  /-- Too large for a double. -/
  | outOfRange
deriving DecidableEq, Repr, Inhabited

/-- The parts of a written number. -/
structure NumberText where
  /-- Whether it starts with a minus. -/
  negated : Bool
  /-- Digits in front of the point. -/
  whole : List Nat
  /-- Digits behind the point, none without a point. -/
  places : Option (List Nat)
  /-- Whether the exponent is negative, and its digits. -/
  exponent : Option (Bool × List Nat)
deriving DecidableEq, Repr, Inhabited

namespace NumberText

/-- The largest significand. -/
def maxSignificand : Nat := UInt64.size - 1

/-- The largest exponent that is looked at. -/
def maxExponent : Nat := 0x7fffffff

/-- The number that decimal digits stand for. -/
def ofDigits (digits : List Nat) : Nat := digits.foldl (fun n d => n * 10 + d) 0

/-- A significand with the number of digits taken into it and left out of it. -/
structure Significand where
  value : Nat
  taken : Nat := 0
  dropped : Nat := 0
deriving DecidableEq, Repr, Inhabited

/-- Take a digit if no digit was left out before and it fits. -/
def Significand.push (s : Significand) (digit : Nat) : Significand :=
  if s.dropped = 0 ∧ s.value * 10 + digit ≤ maxSignificand then
    { s with value := s.value * 10 + digit, taken := s.taken + 1 }
  else { s with dropped := s.dropped + 1 }

/-- Scale a double by a power of ten in steps of at most 308.  None when the result is
infinite. -/
def scale : Nat → Double → Int → Option Double
  | 0, x, _ => some x
  | fuel + 1, x, exponent =>
    if exponent.natAbs ≤ 308 then
      let power := Double.ofFloat (Float.ofScientific 1 false exponent.natAbs)
      if exponent < 0 then some (x.div power)
      else
        let y := x.mul power
        if y.toFloat.isInf then none else some y
    else if x.isZero then some x
    else if exponent ≥ 0 then none
    else scale fuel (x.div (Double.ofFloat (Float.ofScientific 1 false 308))) (exponent + 308)

/-- A double, or its opposite behind a minus. -/
def signed (negated : Bool) (x : Double) : Double := if negated then x.neg else x

/-- A significand times a power of ten, behind a minus or not. -/
def toReal (negated : Bool) (significand : Nat) (exponent : Int) : JsonNumber :=
  match scale (exponent.natAbs / 308 + 1) (.ofNat significand) exponent with
  | some x => .real (signed negated x)
  | none => .outOfRange

/-- The value of a number with a point or an exponent, or too long for an integer. -/
def realValue (t : NumberText) : JsonNumber :=
  let whole := t.whole.foldl Significand.push ⟨0, 0, 0⟩
  let all := (t.places.getD []).foldl Significand.push ⟨whole.value, 0, 0⟩
  let exponent : Int := (whole.dropped : Int) - all.taken
  match t.exponent with
  | none => toReal t.negated all.value exponent
  | some (down, digits) =>
    let e := ofDigits digits
    if e > maxExponent then
      if all.value ≠ 0 ∧ !down then .outOfRange else .real (signed t.negated .zero)
    else toReal t.negated all.value (if down then exponent - e else exponent + e)

/-- The number that a text stands for. -/
def value (t : NumberText) : JsonNumber :=
  if t.places.isSome || t.exponent.isSome then t.realValue
  else
    let n := ofDigits t.whole
    if n > maxSignificand then t.realValue
    else if !t.negated then .natural n
    else if n = 0 ∨ n > 0x8000000000000000 then .real (Double.ofNat n).neg
    else .negative n

end NumberText

end PagedGraph
