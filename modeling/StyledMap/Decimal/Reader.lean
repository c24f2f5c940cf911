import StyledMap.Decimal.Binary64
import StyledMap.Text.Digits

/-! Reading a decimal number as the nearest double: an optional sign, digits with an optional point
and exponent, or a word for infinity or no number. -/
namespace StyledMap.Decimal
open StyledMap.Text (digit? digitsOnto digits?)

def lower (c : Char) : Char := if 'A' ≤ c ∧ c ≤ 'Z' then Char.ofNat (c.toNat + 32) else c

/-- The double nearest to `digits * 10 ^ exponent`. Sizes far outside the range of doubles are decided
without writing the number out. -/
def scaled (digits : Nat) (exponent : Int) : Float :=
  let size : Int := (digits.log2 : Int) * 1233 / 4096 + exponent
  if digits = 0 ∨ size < -400 then 0
  else if 400 < size then infinity
  else nearest (digits * 10 ^ exponent.toNat) (10 ^ (-exponent).toNat)

def isDigit (c : Char) : Bool := (digit? c).isSome

/-- The value of an exponent field, sign included. -/
def exponent? : List Char → Option Int
  | '-' :: cs => (digits? cs).map (fun n => -(n : Int))
  | '+' :: cs => (digits? cs).map Int.ofNat
  | cs => (digits? cs).map Int.ofNat

/-- Digits, an optional fraction and an optional exponent; one digit at least stands before the
exponent, on either side of the point. -/
def unsignedFloat? (cs : List Char) : Option Float :=
  let whole := cs.takeWhile isDigit
  let afterWhole := cs.dropWhile isDigit
  let (fraction, rest) := match afterWhole with
    | '.' :: r => (r.takeWhile isDigit, r.dropWhile isDigit)
    | r => ([], r)
  match digits? (whole ++ fraction) with
  | none => none
  | some n => match rest with
    | [] => some (scaled n (-(fraction.length : Int)))
    | c :: r => if lower c = 'e' then (exponent? r).map (fun e => scaled n (e - fraction.length)) else none

def magnitude? (cs : List Char) : Option Float :=
  let word := cs.map lower
  if word = "inf".toList ∨ word = "infinity".toList then some infinity
  else if word = "nan".toList then some (0 / 0)
  else unsignedFloat? cs

def float? : List Char → Option Float
  | '-' :: cs => (magnitude? cs).map (fun x => -x)
  | '+' :: cs => magnitude? cs
  | cs => magnitude? cs

end StyledMap.Decimal
