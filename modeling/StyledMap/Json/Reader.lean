import StyledMap.Json.Basic
import StyledMap.Json.Tree

/-! What the spellings of a JSON text denote. Strings must be valid text, numbers must be in range and
depth is limited. -/
namespace StyledMap.Json

/-- The character of a code unit and those after it, if they start with one; a pair of surrogates is
one character, half a pair is none. -/
def pieceChar? : List Piece → Option (Char × List Piece)
  | [] => none
  | .char c :: ps => some (c, ps)
  | .unit u :: ps =>
    if u < 0xD800 ∨ 0xDFFF < u then some (Char.ofNat u, ps)
    else if 0xDBFF < u then none
    else match ps with
      | .unit v :: ps => if 0xDC00 ≤ v ∧ v ≤ 0xDFFF
          then some (Char.ofNat (0x10000 + (u - 0xD800) * 0x400 + (v - 0xDC00)), ps) else none
      | _ => none

theorem pieceChar?_shorter {ps rest : List Piece} {c : Char} (h : pieceChar? ps = some (c, rest)) :
    rest.length < ps.length := by
  unfold pieceChar? at h
  split at h
  · simp at h
  · simp only [Option.some.injEq, Prod.mk.injEq] at h; obtain ⟨_, rfl⟩ := h; simp
  · split at h
    · simp only [Option.some.injEq, Prod.mk.injEq] at h; obtain ⟨_, rfl⟩ := h; simp
    · split at h
      · simp at h
      · split at h
        · split at h
          · simp only [Option.some.injEq, Prod.mk.injEq] at h
            obtain ⟨_, rfl⟩ := h
            simp only [List.length_cons]; omega
          · simp at h
        · simp at h

/-- The characters of a string, after those in `done`, latest first. -/
def charsOnto (done : List Char) (ps : List Piece) : Option (List Char) :=
  match ps with
  | [] => some done.reverse
  | p :: ps => match h : pieceChar? (p :: ps) with
    | some (c, rest) =>
      have : rest.length < ps.length + 1 := pieceChar?_shorter h
      charsOnto (c :: done) rest
    | none => none
termination_by ps.length

def text? (ps : List Piece) : Option String := (charsOnto [] ps).map String.ofList

/-- Appends digits to `n` as long as the result fits into 64 bits; the others are left. -/
def gather (n : Nat) : List Nat → Nat × List Nat
  | [] => (n, [])
  | d :: ds => if 10 * n + d ≤ Text.maxUnsigned64 then gather (10 * n + d) ds else (n, d :: ds)

def tenTo (k : Nat) : Float := Decimal.nearest (10 ^ k) 1

/-- The product `x * 10 ^ k`, unless that is infinite. -/
def raise (x : Float) (k : Nat) : Option Float :=
  if k ≤ 308 then (if (x * tenTo k).isInf then none else some (x * tenTo k))
  else if x == 0 then some x else none

/-- The quotient `x / 10 ^ k`, in steps of 308 places. -/
def lower (x : Float) (k : Nat) : Float :=
  if k ≤ 308 then x / tenTo k
  else if x == 0 then x
  else lower (x / tenTo 308) (k - 308)
termination_by k

/-- The double of a significand and an exponent, by one multiplication or division with a power of ten. -/
def ofParts? (negative : Bool) (significand : Nat) (exponent : Int) : Option Float :=
  let x := Decimal.nearest significand 1
  (if 0 ≤ exponent then raise x exponent.toNat else some (lower x exponent.natAbs)).map
    (Decimal.signed negative)

/-- The number of a numeral. The significand takes digits until one does not fit; after that, digits
before the point raise the exponent and digits behind it are dropped. -/
def Numeral.number? (n : Numeral) : Option Number :=
  let (whole, excess) := gather 0 n.whole
  if n.fraction = [] ∧ n.exponent = none ∧ excess = [] ∧ ¬ n.negative then some (.natural whole)
  else if n.fraction = [] ∧ n.exponent = none ∧ excess = [] ∧ 0 < whole ∧ whole ≤ 2 ^ 63 then
    some (.below whole)
  else
    let (significand, dropped) := gather whole n.fraction
    let places : Int := (excess.length : Int) - (n.fraction.length - dropped.length : Nat)
    (ofParts? n.negative significand (places + n.exponent.getD 0)).map .float

def Leaf.value? : Leaf → Option Json
  | .null => some .null
  | .bool b => some (.bool b)
  | .numeral n => n.number?.map .number
  | .string s => (text? s).map .string

mutual

/-- The value of a tree in which at most `depth` containers are open inside each other. -/
def Tree.value? (depth : Nat) : Tree → Option Json
  | .leaf l => l.value?
  | .array items => match depth with
    | 0 => none
    | d + 1 => (Tree.values? d [] items).map .array
  | .object members => match depth with
    | 0 => none
    | d + 1 => (Tree.memberValues? d [] members).map (fun ms => .object (merged ms))

def Tree.values? (depth : Nat) (done : List Json) : List Tree → Option (List Json)
  | [] => some done.reverse
  | t :: ts => match Tree.value? depth t with
    | some v => Tree.values? depth (v :: done) ts
    | none => none

def Tree.memberValues? (depth : Nat) (done : List (String × Json)) :
    List (List Piece × Tree) → Option (List (String × Json))
  | [] => some done.reverse
  | (s, t) :: ts => match text? s, Tree.value? depth t with
    | some name, some v => Tree.memberValues? depth ((name, v) :: done) ts
    | _, _ => none

end

/-- The value of a whole text. -/
def parse? (s : String) : Option Json := (Tree.parse? s).bind (Tree.value? depthLimit)

end StyledMap.Json
