import StyledMap.Decimal.Binary64

/-! The fewest decimal digits that read back as a double. The doubles' neighbours bound an interval
of numbers that round to it; of the grids with one, two, … digits the first that has a point in the
interval gives the digits, and of two points the nearer one. -/
namespace StyledMap.Decimal

/-- Where a number exactly between two grid points goes. -/
inductive Tie where
  | up
  | even
  deriving Repr, DecidableEq

/-- The number `digits * 10 ^ exponent`. -/
structure Scientific where
  digits : Nat
  exponent : Int
  deriving Repr, DecidableEq

/-- A value and the bounds of its interval, as multiples of one quarter of `2 ^ exponent`. -/
structure Interval where
  low : Nat
  value : Nat
  high : Nat
  exponent : Int
  closed : Bool

/-- The numbers that round to `mantissa * 2 ^ exponent`. The gap below a power of two is half as wide. -/
def Interval.around (mantissa : Nat) (exponent : Int) : Interval where
  low := if mantissa = 2 ^ 52 ∧ -1074 < exponent then 4 * mantissa - 1 else 4 * mantissa - 2
  value := 4 * mantissa
  high := 4 * mantissa + 2
  exponent := exponent - 2
  closed := mantissa % 2 = 0

/-- The exponent `e` with `10 ^ e ≤ num / den < 10 ^ (e + 1)`. -/
def leadingExponent (num den : Nat) : Int :=
  let guess := ((num.log2 : Int) - den.log2) * 1233 / 4096
  let reaches (e : Int) : Bool := power 10 e * den ≤ num * power 10 (-e)
  if reaches (guess + 1) then guess + 1 else if reaches guess then guess else guess - 1

/-- The step of the grid of multiples of `10 ^ g`, in the unit of `scale`. -/
def Interval.step (i : Interval) (g : Int) : Nat := power 10 g * power 2 (-i.exponent)

/-- A multiple of `2 ^ exponent` in a unit that divides the grid's step as well. -/
def Interval.scale (i : Interval) (g : Int) (n : Nat) : Nat :=
  n * power 2 i.exponent * power 10 (-g)

/-- Whether `c * 10 ^ g` belongs to the interval. -/
def Interval.inside (i : Interval) (g : Int) (c : Nat) : Bool :=
  let point := c * i.step g
  if i.closed then i.scale g i.low ≤ point && point ≤ i.scale g i.high
  else i.scale g i.low < point && point < i.scale g i.high

/-- The last point of the grid that is not above the value. -/
def Interval.below (i : Interval) (g : Int) : Nat := i.scale g i.value / i.step g

/-- Of the points around the value the one closer to it. -/
def Interval.nearer (i : Interval) (tie : Tie) (g : Int) : Nat :=
  let below := i.below g
  let belowGap := i.scale g i.value - below * i.step g
  let aboveGap := (below + 1) * i.step g - i.scale g i.value
  if belowGap < aboveGap then below
  else if aboveGap < belowGap then below + 1
  else match tie with
    | .up => below + 1
    | .even => if below % 2 = 0 then below else below + 1

/-- The point of the grid of multiples of `10 ^ g` that stands for the interval, if one does. -/
def Interval.pick (i : Interval) (tie : Tie) (g : Int) : Option Nat :=
  match i.inside g (i.below g), i.inside g (i.below g + 1) with
  | true, true => some (i.nearer tie g)
  | true, false => some (i.below g)
  | false, true => some (i.below g + 1)
  | false, false => none

/-- Tries grids ever finer, `left` of them after the one of multiples of `10 ^ g`. -/
def Interval.search (i : Interval) (tie : Tie) (g : Int) : Nat → Scientific
  | 0 => ⟨(i.pick tie g).getD 0, g⟩
  | left + 1 => match i.pick tie g with
    | some c => ⟨c, g⟩
    | none => i.search tie (g - 1) left

/-- The digits of a positive `mantissa * 2 ^ exponent`. Seventeen digits are always enough. -/
def shortest (tie : Tie) (mantissa : Nat) (exponent : Int) : Scientific :=
  let e := leadingExponent (mantissa * power 2 exponent) (power 2 (-exponent))
  let found := (Interval.around mantissa exponent).search tie e 16
  if found.digits % 10 = 0 then ⟨found.digits / 10, found.exponent + 1⟩ else found

end StyledMap.Decimal
