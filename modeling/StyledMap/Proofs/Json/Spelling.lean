import StyledMap.Json.Tree

/-! The grammar of JSON texts. A tree is written as a sequence of tokens, a token as one of its
spellings, and spaces may stand around every token. Nothing here says how a text is read. -/
namespace StyledMap.Json
open Text (digit?)

/-- The spellings of one place of a string. -/
inductive Piece.Spelled : Piece → List Char → Prop where
  | plain {c : Char} (quote : c ≠ '\"') (backslash : c ≠ '\\') (control : 0x20 ≤ c.toNat) :
      Spelled (.char c) [c]
  | escaped {letter c : Char} (h : escaped? letter = some c) : Spelled (.char c) ['\\', letter]
  | unit {a b c d : Char} {u : Nat} (h : unit? a b c d = some u) :
      Spelled (.unit u) ['\\', 'u', a, b, c, d]

/-- What stands between the quotes of a string. -/
inductive Body : List Piece → List Char → Prop where
  | nil : Body [] []
  | cons {p : Piece} {ps : List Piece} {word cs : List Char} (hp : p.Spelled word) (h : Body ps cs) :
      Body (p :: ps) (word ++ cs)

/-- Digits, one character each. -/
def Digits (ds : List Nat) (cs : List Char) : Prop := cs.map digit? = ds.map some

/-- The number that digits stand for. -/
def numberOf (ds : List Nat) : Nat := ds.foldl (fun n d => 10 * n + d) 0

inductive Fraction : List Nat → List Char → Prop where
  | absent : Fraction [] []
  | present {ds : List Nat} {cs : List Char} (hne : ds ≠ []) (h : Digits ds cs) :
      Fraction ds ('.' :: cs)

inductive Sign : Bool → List Char → Prop where
  | absent : Sign false []
  | plus : Sign false ['+']
  | minus : Sign true ['-']

inductive Exponent : Option Int → List Char → Prop where
  | absent : Exponent none []
  | present {letter : Char} {negative : Bool} {sign cs : List Char} {ds : List Nat}
      (hl : letter = 'e' ∨ letter = 'E') (hs : Sign negative sign) (hne : ds ≠ [])
      (h : Digits ds cs) :
      Exponent (some (if negative then -(numberOf ds : Int) else numberOf ds))
        (letter :: (sign ++ cs))

/-- A numeral without its sign: a zero stands in front of no other digit. -/
inductive Numeral.Unsigned : Numeral → List Char → Prop where
  | mk {n : Numeral} {whole fraction exponent : List Char} (hne : n.whole ≠ [])
      (hz : n.whole.head? = some 0 → n.whole.length = 1) (hw : Digits n.whole whole)
      (hf : Fraction n.fraction fraction) (he : Exponent n.exponent exponent) :
      Unsigned n (whole ++ (fraction ++ exponent))

inductive Numeral.Spelled : Numeral → List Char → Prop where
  | positive {n : Numeral} {cs : List Char} (hn : n.negative = false) (h : n.Unsigned cs) :
      Spelled n cs
  | negative {n : Numeral} {cs : List Char} (hn : n.negative = true) (h : n.Unsigned cs) :
      Spelled n ('-' :: cs)

inductive Token.Spelled : Token → List Char → Prop where
  | arrayStart : Spelled .arrayStart ['[']
  | arrayEnd : Spelled .arrayEnd [']']
  | objectStart : Spelled .objectStart ['\x7b']
  | objectEnd : Spelled .objectEnd ['\x7d']
  | comma : Spelled .comma [',']
  | colon : Spelled .colon [':']
  | null : Spelled (.leaf .null) ['n', 'u', 'l', 'l']
  | yes : Spelled (.leaf (.bool true)) ['t', 'r', 'u', 'e']
  | no : Spelled (.leaf (.bool false)) ['f', 'a', 'l', 's', 'e']
  | numeral {n : Numeral} {cs : List Char} (h : n.Spelled cs) : Spelled (.leaf (.numeral n)) cs
  | string {ps : List Piece} {cs : List Char} (h : Body ps cs) :
      Spelled (.leaf (.string ps)) ('\"' :: (cs ++ ['\"']))

def Spaces (cs : List Char) : Prop := ∀ c ∈ cs, isSpace c = true

/-- Tokens one after the other, with any spaces around them. -/
inductive Spelling : List Token → List Char → Prop where
  | spaces {cs : List Char} (h : Spaces cs) : Spelling [] cs
  | token {k : Token} {ks : List Token} {spaces word cs : List Char} (hs : Spaces spaces)
      (hw : k.Spelled word) (h : Spelling ks cs) : Spelling (k :: ks) (spaces ++ (word ++ cs))

mutual

/-- The tokens that a tree is written with. -/
def Tree.tokens : Tree → List Token
  | .leaf l => [.leaf l]
  | .array [] => [.arrayStart, .arrayEnd]
  | .array (t :: ts) => .arrayStart :: (t.tokens ++ Tree.itemTokens ts)
  | .object [] => [.objectStart, .objectEnd]
  | .object ((s, t) :: ms) =>
    .objectStart :: .leaf (.string s) :: .colon :: (t.tokens ++ Tree.memberTokens ms)

/-- What stands behind the first item of an array. -/
def Tree.itemTokens : List Tree → List Token
  | [] => [.arrayEnd]
  | t :: ts => .comma :: (t.tokens ++ Tree.itemTokens ts)

def Tree.memberTokens : List (List Piece × Tree) → List Token
  | [] => [.objectEnd]
  | (s, t) :: ms =>
    .comma :: .leaf (.string s) :: .colon :: (t.tokens ++ Tree.memberTokens ms)

end

/-- The text holds a tree and nothing else. -/
def Tree.Spells (t : Tree) (cs : List Char) : Prop := Spelling t.tokens cs

/-- Trees by their containers. -/
@[elab_as_elim]
theorem Tree.inductionOn {P : Tree → Prop} (t : Tree) (leaf : ∀ l, P (.leaf l))
    (array : ∀ ts, (∀ t ∈ ts, P t) → P (.array ts))
    (object : ∀ ms, (∀ m ∈ ms, P m.2) → P (.object ms)) : P t :=
  match t with
  | .leaf l => leaf l
  | .array ts => array ts (fun t _ => Tree.inductionOn t leaf array object)
  | .object ms => object ms (fun m _ => Tree.inductionOn m.2 leaf array object)
termination_by sizeOf t
decreasing_by
  · have := List.sizeOf_lt_of_mem ‹_›
    simp only [Tree.array.sizeOf_spec]
    omega
  · have := List.sizeOf_lt_of_mem ‹_›
    obtain ⟨s, t⟩ := m
    simp only [Tree.object.sizeOf_spec, Prod.mk.sizeOf_spec] at *
    omega

theorem Spaces.append {cs ds : List Char} (h : Spaces cs) (hd : Spaces ds) : Spaces (cs ++ ds) :=
  List.forall_mem_append.2 ⟨h, hd⟩

theorem spaces_nil : Spaces [] := by simp [Spaces]

theorem Spelling.spaced {ks : List Token} {spaces cs : List Char} (hs : Spaces spaces)
    (h : Spelling ks cs) : Spelling ks (spaces ++ cs) := by
  cases h with
  | spaces h => exact .spaces (hs.append h)
  | token hs' hw h =>
    rw [← List.append_assoc]
    exact .token (hs.append hs') hw h

theorem Spelling.append {ks ls : List Token} {cs ds : List Char} (h : Spelling ks cs)
    (hd : Spelling ls ds) : Spelling (ks ++ ls) (cs ++ ds) := by
  induction h with
  | spaces hs => exact hd.spaced hs
  | token hs hw _ ih =>
    rw [List.append_assoc, List.append_assoc]
    exact .token hs hw ih

/-- A token that is written without spaces. -/
theorem Token.Spelled.spelling {k : Token} {ks : List Token} {word cs : List Char}
    (hw : k.Spelled word) (h : Spelling ks cs) : Spelling (k :: ks) (word ++ cs) :=
  Spelling.token spaces_nil hw h

end StyledMap.Json
