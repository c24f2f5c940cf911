import StyledMap.Text.Digits

/-! The tokens of a JSON text: marks, words, numerals and strings as they are spelled. A string keeps
its escapes and a numeral its digits, so what they denote is decided only where it is needed. -/
namespace StyledMap.Json
open StyledMap.Text (digit?)

/-- One place of a string: a character, or the code unit of a `\u` escape. -/
inductive Piece where
  | char (c : Char)
  | unit (u : Nat)
  deriving Repr, DecidableEq

/-- The digits of a number, and its exponent if one is written. -/
structure Numeral where
  negative : Bool
  whole : List Nat
  fraction : List Nat
  exponent : Option Int
  deriving Repr, DecidableEq

inductive Leaf where
  | null
  | bool (b : Bool)
  | numeral (n : Numeral)
  | string (s : List Piece)
  deriving Repr, DecidableEq

inductive Token where
  | arrayStart
  | arrayEnd
  | objectStart
  | objectEnd
  | comma
  | colon
  | leaf (l : Leaf)
  deriving Repr, DecidableEq

def isSpace (c : Char) : Bool := c == ' ' || c == '\t' || c == '\n' || c == '\r'

def hexDigit? (c : Char) : Option Nat :=
  if 'a' ≤ c ∧ c ≤ 'f' then some (c.toNat - 87)
  else if 'A' ≤ c ∧ c ≤ 'F' then some (c.toNat - 55)
  else digit? c

/-- The code unit of four hexadecimal digits. -/
def unit? (a b c d : Char) : Option Nat := do
  return 4096 * (← hexDigit? a) + 256 * (← hexDigit? b) + 16 * (← hexDigit? c) + (← hexDigit? d)

/-- The character of a one-letter escape. -/
def escaped? : Char → Option Char
  | '\"' => some '\"'
  | '\\' => some '\\'
  | '/' => some '/'
  | 'b' => some '\x08'
  | 'f' => some '\x0c'
  | 'n' => some '\n'
  | 'r' => some '\r'
  | 't' => some '\t'
  | _ => none

/-- The pieces up to the closing quote and what follows it; `done` holds those read, latest first. -/
def stringBody (done : List Piece) : List Char → Option (List Piece × List Char)
  | [] => none
  | '\"' :: rest => some (done.reverse, rest)
  | '\\' :: 'u' :: a :: b :: c :: d :: rest => match unit? a b c d with
    | some u => stringBody (.unit u :: done) rest
    | none => none
  | '\\' :: c :: rest => match escaped? c with
    | some e => stringBody (.char e :: done) rest
    | none => none
  | c :: rest => if c.toNat < 0x20 then none else stringBody (.char c :: done) rest

def digitsOf (cs : List Char) : List Nat × List Char :=
  ((cs.takeWhile (fun c => (digit? c).isSome)).filterMap digit?,
    cs.dropWhile (fun c => (digit? c).isSome))

/-- The fraction after the digits of a number; a point needs a digit behind it. -/
def fractionOf : List Char → Option (List Nat × List Char)
  | '.' :: cs => match digitsOf cs with
    | ([], _) => none
    | found => some found
  | cs => some ([], cs)

def exponentDigits (negative : Bool) (cs : List Char) : Option (Option Int × List Char) :=
  match digitsOf cs with
  | ([], _) => none
  | (ds, rest) =>
    let size : Int := (ds.foldl (fun n d => 10 * n + d) 0 : Nat)
    some (some (if negative then -size else size), rest)

def exponentOf : List Char → Option (Option Int × List Char)
  | c :: cs =>
    if c = 'e' ∨ c = 'E' then match cs with
      | '-' :: r => exponentDigits true r
      | '+' :: r => exponentDigits false r
      | r => exponentDigits false r
    else some (none, c :: cs)
  | [] => some (none, [])

/-- A numeral without its sign. A zero in front of other digits is refused. -/
def numeralOf (negative : Bool) (cs : List Char) : Option (Numeral × List Char) := do
  let (whole, rest) := digitsOf cs
  if whole = [] ∨ (whole.head? = some 0 ∧ whole.length ≠ 1) then none
  let (fraction, rest) ← fractionOf rest
  let (exponent, rest) ← exponentOf rest
  return (⟨negative, whole, fraction, exponent⟩, rest)

/-- The first token of a text that does not start with a space, and what follows it. -/
def token? : List Char → Option (Token × List Char)
  | [] => none
  | '[' :: cs => some (.arrayStart, cs)
  | ']' :: cs => some (.arrayEnd, cs)
  | '\x7b' :: cs => some (.objectStart, cs)
  | '\x7d' :: cs => some (.objectEnd, cs)
  | ',' :: cs => some (.comma, cs)
  | ':' :: cs => some (.colon, cs)
  | '\"' :: cs => (stringBody [] cs).map (fun (s, r) => (.leaf (.string s), r))
  | '-' :: cs => (numeralOf true cs).map (fun (n, r) => (.leaf (.numeral n), r))
  | 'n' :: 'u' :: 'l' :: 'l' :: cs => some (.leaf .null, cs)
  | 't' :: 'r' :: 'u' :: 'e' :: cs => some (.leaf (.bool true), cs)
  | 'f' :: 'a' :: 'l' :: 's' :: 'e' :: cs => some (.leaf (.bool false), cs)
  | cs => (numeralOf false cs).map (fun (n, r) => (.leaf (.numeral n), r))

/-- The tokens of a text. `left` bounds their number; every token takes a character at least, so the
length of the text is enough. -/
def tokensUpTo (left : Nat) (done : List Token) (cs : List Char) : Option (List Token) :=
  match cs.dropWhile isSpace with
  | [] => some done.reverse
  | c :: r => match left with
    | 0 => none
    | n + 1 => match token? (c :: r) with
      | some (t, rest) => tokensUpTo n (t :: done) rest
      | none => none

def tokens? (cs : List Char) : Option (List Token) := tokensUpTo cs.length [] cs

end StyledMap.Json
