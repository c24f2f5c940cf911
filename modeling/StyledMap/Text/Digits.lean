import StyledMap.Text.Power

/-! Unsigned numbers as digits. `ofNat` writes a number, `unsigned?` reads one with an optional
plus sign and refuses it above a limit. -/
namespace StyledMap.Text

def digit? (c : Char) : Option Nat :=
  if '0' ≤ c ∧ c ≤ '9' then some (c.toNat - 48) else none

/-- The character of a digit below sixteen, letters in lower case. -/
def digitChar (d : Nat) : Char :=
  if d < 10 then Char.ofNat (48 + d) else Char.ofNat (87 + d)

/-- Appends digits to a number read so far; anything but a digit refuses the text. -/
def digitsOnto (n : Nat) : List Char → Option Nat
  | [] => some n
  | c :: cs => match digit? c with
    | some d => digitsOnto (10 * n + d) cs
    | none => none

/-- One digit or more, and nothing else. -/
def digits? : List Char → Option Nat
  | [] => none
  | cs => digitsOnto 0 cs

def dropPlus : List Char → List Char
  | '+' :: cs => cs
  | cs => cs

/-- Digits after at most one plus sign, of a value up to `limit`. -/
def unsigned? (limit : Nat) (cs : List Char) : Option Nat :=
  match digits? (dropPlus cs) with
  | some n => if n ≤ limit then some n else none
  | none => none

/-- Decimal digits of `n`, in front of `tail`. -/
def ofNatOnto (n : Nat) (tail : List Char) : List Char :=
  if n < 10 then digitChar n :: tail else ofNatOnto (n / 10) (digitChar (n % 10) :: tail)

def ofNat (n : Nat) : List Char := ofNatOnto n []

/-- A number in the digits of `base`, no shorter than `width`. -/
def padded (base width n : Nat) : List Char :=
  match width with
  | 0 => []
  | w + 1 => padded base w (n / base) ++ [digitChar (n % base)]

def nat (n : Nat) : String := String.ofList (ofNat n)

def int (i : Int) : String :=
  if i < 0 then "-" ++ nat i.natAbs else nat i.natAbs

def maxUnsigned8 : Nat := 2 ^ 8 - 1
def maxUnsigned16 : Nat := 2 ^ 16 - 1
def maxUnsigned32 : Nat := 2 ^ 32 - 1
def maxUnsigned64 : Nat := 2 ^ 64 - 1

theorem digit?_digitChar {d : Nat} (h : d < 10) : digit? (digitChar d) = some d := by
  match d, h with
  | 0, _ | 1, _ | 2, _ | 3, _ | 4, _ | 5, _ | 6, _ | 7, _ | 8, _ | 9, _ => decide

theorem digitsOnto_ofNatOnto (n k : Nat) (t : List Char) :
    ∃ p, digitsOnto k (ofNatOnto n t) = digitsOnto (k * p + n) t := by
  induction n, t using ofNatOnto.induct with
  | case1 n t h =>
    refine ⟨10, ?_⟩
    rw [ofNatOnto, if_pos h, digitsOnto, digit?_digitChar h]
    simp [Nat.mul_comm]
  | case2 n t h ih =>
    obtain ⟨p, hp⟩ := ih
    refine ⟨10 * p, ?_⟩
    rw [ofNatOnto, if_neg h, hp, digitsOnto, digit?_digitChar (Nat.mod_lt _ (by decide))]
    dsimp only
    congr 1
    rw [Nat.mul_add, ← Nat.mul_assoc, Nat.mul_comm 10 k, Nat.mul_assoc]
    omega

/-- Reading gives back a number that was written. -/
theorem digitsOnto_ofNat (n : Nat) : digitsOnto 0 (ofNat n) = some n := by
  obtain ⟨p, hp⟩ := digitsOnto_ofNatOnto n 0 []
  simpa [digitsOnto, ofNat] using hp

theorem ofNat_ne_nil (n : Nat) : ofNat n ≠ [] := by
  have key : ∀ (n : Nat) (t : List Char), ofNatOnto n t ≠ [] := by
    intro n t
    induction n, t using ofNatOnto.induct with
    | case1 n t h => rw [ofNatOnto, if_pos h]; simp
    | case2 n t h ih => rw [ofNatOnto, if_neg h]; exact ih
  exact key n []

theorem digits?_ofNat (n : Nat) : digits? (ofNat n) = some n := by
  have h := digitsOnto_ofNat n
  cases hs : ofNat n with
  | nil => exact absurd hs (ofNat_ne_nil n)
  | cons c cs => rw [hs] at h; exact h

end StyledMap.Text
