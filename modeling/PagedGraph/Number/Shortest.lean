import PagedGraph.Number.Double

/-!
# The shortest decimal text of a double

`Double.render` writes the fewest decimal digits that read back to the same
number, in positional form and never with an exponent.  Of two texts of that
length the nearer one is written, and of two equally near ones the upper.  Whole
numbers carry no point.

A finite double is `m * 2 ^ q`.  The reals that round to it form an interval
with ends half a unit below and above it.  Below a power of two the
lower unit is half as wide.  The ends belong to the interval when `m` is even.
The search looks at the grids `10 ^ e` from coarse to fine.  On each it tests the two neighbours
of the number, and the first grid with a hit wins.  All of it is exact arithmetic on
natural numbers: `m`, the ends and the grid points are compared after scaling by
a common denominator.
-/

namespace PagedGraph

/-- The rounding interval of a positive double over one denominator:
`low / den` to `high / den` around `mid / den`. -/
structure RoundingInterval where
  /-- Numerator of the lower end. -/
  low : Nat
  /-- Numerator of the number itself. -/
  mid : Nat
  /-- Numerator of the upper end. -/
  high : Nat
  /-- The common denominator. -/
  den : Nat
  /-- Whether the ends round to the number too. -/
  closed : Bool

/-- The interval of the double with the given exponent and fraction fields. -/
def RoundingInterval.ofFields (exponent fraction : Nat) : RoundingInterval :=
  let m := if exponent = 0 then fraction else Double.fractionSize + fraction
  let e := Nat.max exponent 1
  -- the number is `m * 2 ^ (e - 1075)`; everything is scaled by four
  let up := if e ≥ 1075 then 1 <<< (e - 1075) else 1
  let den := if e ≥ 1075 then 4 else 4 <<< (1075 - e)
  let below := if fraction = 0 ∧ exponent > 1 then 1 else 2
  { low := (4 * m - below) * up, mid := 4 * m * up, high := (4 * m + 2) * up, den := den,
    closed := m % 2 = 0 }

/-- Whether `n / scale` lies in the interval. -/
def RoundingInterval.holds (i : RoundingInterval) (n scale : Nat) : Bool :=
  if i.closed then i.low * scale ≤ n * i.den && n * i.den ≤ i.high * scale
  else i.low * scale < n * i.den && n * i.den < i.high * scale

/-- The multiple of `unit / scale` that is written when that grid is fine enough.
The lower and the upper neighbour are tested, and of two hits the nearer wins. -/
def RoundingInterval.onGrid? (i : RoundingInterval) (unit scale : Nat) : Option Nat :=
  let below := i.mid * scale / (i.den * unit)
  let above := below + 1
  let hitBelow := below > 0 && i.holds (below * unit) scale
  let hitAbove := i.holds (above * unit) scale
  if hitBelow && hitAbove then
    let toBelow := i.mid * scale - below * unit * i.den
    let toAbove := above * unit * i.den - i.mid * scale
    some (if toBelow < toAbove then below else above)
  else if hitBelow then some below
  else if hitAbove then some above
  else none

/-- A power of ten. -/
def tenTo (e : Nat) : Nat := Nat.pow 10 e

/-- Grids `10 ^ e` for whole powers, from `10 ^ e` down to one. -/
def RoundingInterval.onWholeGrids? (i : RoundingInterval) : Nat → Option (Nat × Nat)
  | 0 => (i.onGrid? 1 1).map (·, 0)
  | e + 1 =>
    match i.onGrid? (tenTo (e + 1)) 1 with
    | some n => some (n, e + 1)
    | none => i.onWholeGrids? e

/-- Grids `10 ^ -p`, from `p` on, for at most `fuel` steps. -/
def RoundingInterval.onFineGrids (i : RoundingInterval) : Nat → Nat → Nat × Nat
  | 0, p => (i.mid * tenTo p / i.den, p)
  | fuel + 1, p =>
    match i.onGrid? 1 (tenTo p) with
    | some n => (n, p)
    | none => i.onFineGrids fuel (p + 1)

/-- A decimal text: `digits` is the number in units of `10 ^ -places`. -/
def renderPlaces (digits places : Nat) : String :=
  let text := toString digits
  if places = 0 then text
  else
    let padded := List.replicate (places + 1 - text.length) '0' ++ text.toList
    let whole := padded.take (padded.length - places)
    let rest := padded.drop (padded.length - places)
    String.ofList (whole ++ '.' :: rest)

/-- No double is a whole multiple of a larger power of ten. -/
def maxDecimalExponent : Nat := 308

/-- Every double is exact in this many decimal places. -/
def maxDecimalPlaces : Nat := 1074

/-- The shortest text of a double. -/
def Double.render (x : Double) : String :=
  let low := x.bits.toNat % signBit
  let sign := if x.isNegative then "-" else ""
  if x.isNaN then "NaN"
  else if low = infinityBits then sign ++ "inf"
  else if low = 0 then sign ++ "0"
  else
    let interval := RoundingInterval.ofFields (low / fractionSize) (low % fractionSize)
    match interval.onWholeGrids? maxDecimalExponent with
    | some (n, e) => sign ++ toString (n * tenTo e)
    | none =>
      let (n, p) := interval.onFineGrids maxDecimalPlaces 1
      sign ++ renderPlaces n p

/-! ## Tests -/

example : (Double.mk 0x3fb999999999999a).render = "0.1" := by decide +kernel
example : (Double.mk 0x3ff0000000000000).render = "1" := by decide +kernel
example : (Double.mk 0x8000000000000000).render = "-0" := by decide +kernel
example : (Double.mk 0x444b1ae4d6e2ef50).render = "1000000000000000000000" := by decide +kernel
example : (Double.mk 0x3e7ad7f29abcaf48).render = "0.0000001" := by decide +kernel

end PagedGraph
