import StyledMap.Decimal.Shortest
import StyledMap.Text.Digits

/-! Written forms of doubles. A `Layout` says which exponents are written positionally and what a
whole number ends in; `fixed` writes a set number of places instead. -/
namespace StyledMap.Decimal
open StyledMap.Text (ofNat)

/-- How the digits of a double are laid out. `positional` bounds the exponents of the leading digit
that are written without an exponent; without bounds all of them are. -/
structure Layout where
  tie : Tie
  positional : Option (Int × Int)
  wholePart : List Char
  deriving Repr

/-- All digits, never an exponent, nothing after a whole number. -/
def Layout.plain : Layout := ⟨.up, none, []⟩

/-- Exponents from -5 to 15 are positional, and a whole number ends in `.0`. -/
def Layout.data : Layout := ⟨.even, some (-5, 15), ['.', '0']⟩

def zeros (n : Nat) : List Char := List.replicate n '0'

/-- The digits `ds` with the point after `p` digits, counted from their start. -/
def Layout.place (l : Layout) (ds : List Char) (p : Int) : List Char :=
  if p ≤ 0 then '0' :: '.' :: (zeros (-p).toNat ++ ds)
  else if ds.length ≤ p.toNat then ds ++ zeros (p.toNat - ds.length) ++ l.wholePart
  else ds.take p.toNat ++ '.' :: ds.drop p.toNat

/-- One digit before the point, and an exponent that always has a sign. -/
def raised (ds : List Char) (e : Int) : List Char :=
  let fraction := match ds.drop 1 with
    | [] => []
    | more => '.' :: more
  ds.take 1 ++ fraction ++ ['e', if e < 0 then '-' else '+'] ++ ofNat e.natAbs

def Layout.digits (l : Layout) (s : Scientific) : List Char :=
  let ds := ofNat s.digits
  let p : Int := ds.length + s.exponent
  match l.positional with
  | none => l.place ds p
  | some (least, most) => if least ≤ p - 1 ∧ p - 1 ≤ most then l.place ds p else raised ds (p - 1)

def minus (negative : Bool) (cs : List Char) : List Char := if negative then '-' :: cs else cs

def Layout.text (l : Layout) (x : Float) : String :=
  match Binary64.ofFloat x with
  | .nan => "NaN"
  | .infinite negative => String.ofList (minus negative ['i', 'n', 'f'])
  | .finite negative m e => String.ofList (minus negative
      (if m = 0 then '0' :: l.wholePart else l.digits (shortest l.tie m e)))

/-- The number with all its digits before the point. -/
def plainText (x : Float) : String := Layout.plain.text x

/-- The number to `places` places, a half to the even digit; zero has no sign. -/
def fixed (places : Nat) (x : Float) : String :=
  match Binary64.ofFloat x with
  | .nan => "NaN"
  | .infinite negative => String.ofList (minus negative ['i', 'n', 'f'])
  | .finite negative m e =>
    let n := roundHalfEven (m * power 2 e * 10 ^ places) (power 2 (-e))
    String.ofList (minus (negative && n != 0)
      (ofNat (n / 10 ^ places) ++ '.' :: Text.padded 10 places n))

end StyledMap.Decimal
