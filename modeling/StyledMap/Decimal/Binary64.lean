import StyledMap.Text.Power

/-! Doubles as exact numbers. `Binary64.ofFloat` takes a double apart, `nearest` puts the double
closest to a fraction together; both work on whole numbers, so no rounding happens out of sight. -/
namespace StyledMap.Decimal

/-- A double: a finite one is `mantissa * 2 ^ exponent`, negated if `negative`. -/
inductive Binary64 where
  | nan
  | infinite (negative : Bool)
  | finite (negative : Bool) (mantissa : Nat) (exponent : Int)
  deriving Repr, DecidableEq

def Binary64.ofFloat (x : Float) : Binary64 :=
  let bits := x.toBits.toNat
  let negative := decide (2 ^ 63 ≤ bits)
  let field : Nat := bits / 2 ^ 52 % 2 ^ 11
  let fraction : Nat := bits % 2 ^ 52
  if field = 2047 then (if fraction = 0 then .infinite negative else .nan)
  else if field = 0 then .finite negative fraction (-1074)
  else .finite negative (2 ^ 52 + fraction) ((field : Int) - 1075)

def signed (negative : Bool) (x : Float) : Float := if negative then -x else x

def infinity : Float := Float.ofBits 0x7FF0000000000000

def power (base : Nat) (e : Int) : Nat := base ^ e.toNat

/-- The quotient `num / den` to the nearest whole number, a half to the even neighbour. -/
def roundHalfEven (num den : Nat) : Nat :=
  let q := num / den
  let r := num % den
  if 2 * r < den then q
  else if den < 2 * r then q + 1
  else if q % 2 = 0 then q else q + 1

/-- The power of two that leaves 53 bits before the point, or the least one there is. -/
def scaleOf (num den : Nat) : Int :=
  let e : Int := (num.log2 : Int) - den.log2 - 52
  let whole := num * power 2 (-e) / (den * power 2 e)
  max (if whole < 2 ^ 52 then e - 1 else e) (-1074)

/-- The double closest to `num / den`, a tie going to the even mantissa; too large is infinite. -/
def nearest (num den : Nat) : Float :=
  if num = 0 then 0 else
  let e := scaleOf num den
  let m := roundHalfEven (num * power 2 (-e)) (den * power 2 e)
  let bits := (e + 1074).toNat * 2 ^ 52 + m
  if 2047 * 2 ^ 52 ≤ bits then infinity else Float.ofBits bits.toUInt64

end StyledMap.Decimal
