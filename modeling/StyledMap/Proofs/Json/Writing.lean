import StyledMap.Json.Printer
import StyledMap.Proofs.Json.Values

/-! What the printer writes, in terms of the grammar: strings with their escapes, and containers with
the same spaces in front of every item. -/
namespace StyledMap.Json

/-- The place of a string that a character is written as. -/
def pieceOf (c : Char) : Piece :=
  if c.toNat < 0x20 ∧ c ∉ ['\x08', '\x0c', '\n', '\r', '\t'] then .unit c.toNat else .char c

def pieces (s : String) : List Piece := s.toList.map pieceOf

theorem spelled_control {n : Nat} (h : n < 0x20) :
    (Piece.unit n).Spelled ('\\' :: 'u' :: Text.padded 16 4 n) := by
  have hall : ∀ n < 0x20, ∃ a b c d, Text.padded 16 4 n = [a, b, c, d] ∧ unit? a b c d = some n := by
    intro n hn
    refine ⟨_, _, _, _, rfl, ?_⟩
    revert n
    decide
  obtain ⟨a, b, c, d, hp, hu⟩ := hall n h
  rw [hp]
  exact .unit hu

/-- The letters of the short escapes that are written, and what they stand for. -/
def escapes : List (Char × Char) :=
  [('\"', '\"'), ('\\', '\\'), ('b', '\x08'), ('f', '\x0c'), ('n', '\n'), ('r', '\r'), ('t', '\t')]

theorem spelled_pieceOf (c : Char) : (pieceOf c).Spelled (escapeChar c) := by
  have short : ∀ e ∈ escapes,
      pieceOf e.2 = .char e.2 ∧ escapeChar e.2 = ['\\', e.1] ∧ escaped? e.1 = some e.2 := by decide
  by_cases hc : c ∈ escapes.map (·.2)
  · obtain ⟨e, he, rfl⟩ := List.mem_map.1 hc
    obtain ⟨hp, hw, hl⟩ := short e he
    rw [hp, hw]
    exact .escaped hl
  · simp only [escapes, List.map_cons, List.map_nil, List.mem_cons, List.not_mem_nil, or_false,
      not_or] at hc
    obtain ⟨hq, hb, h8, h12, hn, hr, ht⟩ := hc
    unfold escapeChar pieceOf
    by_cases hlow : c.toNat < 0x20
    · simp only [hq, hb, h8, h12, hn, hr, ht, hlow, ↓reduceIte, List.mem_cons, List.not_mem_nil,
        or_false, not_false_eq_true, and_self]
      exact spelled_control hlow
    · simp only [hq, hb, h8, h12, hn, hr, ht, hlow, ↓reduceIte, false_and]
      exact .plain hq hb (Nat.not_lt.1 hlow)

theorem body_pieces (s : String) : Body (pieces s) (s.toList.flatMap escapeChar) := by
  unfold pieces
  induction s.toList with
  | nil => exact .nil
  | cons c cs ih => exact .cons (spelled_pieceOf c) ih

theorem characters_pieces (s : String) : Characters (pieces s) s.toList := by
  unfold pieces
  induction s.toList with
  | nil => exact .nil
  | cons c cs ih =>
    rw [List.map_cons]
    unfold pieceOf
    split
    · rename_i h
      have hunit := Characters.unit (u := c.toNat) (by omega) ih
      rwa [Char.ofNat_toNat] at hunit
    · exact .char c ih

theorem text?_pieces (s : String) : text? (pieces s) = some s :=
  text?_eq_some.2 (characters_pieces s)

/-- A string as it is written. -/
theorem spelled_quoted (s : String) : (Token.leaf (.string (pieces s))).Spelled (quoted s) :=
  .string (body_pieces s)

/-! A container is written with the same spaces in front of every item, and others before its end. -/

/-- What stands behind the first item of a container. -/
def writeRest (stop : Char) (gap last : List Char) : List (List Char) → List Char
  | [] => last ++ [stop]
  | w :: ws => ',' :: (gap ++ (w ++ writeRest stop gap last ws))

def writeAll (start stop : Char) (gap last : List Char) : List (List Char) → List Char
  | [] => [start, stop]
  | w :: ws => start :: (gap ++ (w ++ writeRest stop gap last ws))

theorem writeAll_enclosed (start stop : Char) (gap last : List Char) (ws : List (List Char)) :
    ∃ cs, writeAll start stop gap last ws = start :: (cs ++ [stop]) := by
  have rest (ws : List (List Char)) : ∃ cs, writeRest stop gap last ws = cs ++ [stop] := by
    induction ws with
    | nil => exact ⟨last, rfl⟩
    | cons w ws ih =>
      obtain ⟨cs, hcs⟩ := ih
      exact ⟨',' :: (gap ++ (w ++ cs)), by simp [writeRest, hcs]⟩
  cases ws with
  | nil => exact ⟨[], rfl⟩
  | cons w ws =>
    obtain ⟨cs, hcs⟩ := rest ws
    exact ⟨gap ++ (w ++ cs), by simp [writeAll, hcs]⟩

/-- A member, with spaces behind its colon. -/
def writeMember (space : List Char) (name : String) (w : List Char) : List Char :=
  quoted name ++ ':' :: (space ++ w)

def restTokens (stop : Token) : List (List Token) → List Token
  | [] => [stop]
  | ks :: kss => .comma :: (ks ++ restTokens stop kss)

def allTokens (start stop : Token) : List (List Token) → List Token
  | [] => [start, stop]
  | ks :: kss => start :: (ks ++ restTokens stop kss)

theorem tokens_items (ts : List Tree) :
    (Tree.array ts).tokens = allTokens .arrayStart .arrayEnd (ts.map Tree.tokens) := by
  have rest (ts : List Tree) : Tree.itemTokens ts = restTokens .arrayEnd (ts.map Tree.tokens) := by
    induction ts with
    | nil => rfl
    | cons t ts ih => simp [Tree.itemTokens, restTokens, ih]
  cases ts with
  | nil => rfl
  | cons t ts => rw [Tree.tokens, rest, List.map_cons, allTokens]

def Tree.memberHead (m : List Piece × Tree) : List Token := .leaf (.string m.1) :: .colon :: m.2.tokens

theorem tokens_members (ms : List (List Piece × Tree)) :
    (Tree.object ms).tokens = allTokens .objectStart .objectEnd (ms.map Tree.memberHead) := by
  have rest (ms : List (List Piece × Tree)) :
      Tree.memberTokens ms = restTokens .objectEnd (ms.map Tree.memberHead) := by
    induction ms with
    | nil => rfl
    | cons m ms ih => simp [Tree.memberTokens, restTokens, Tree.memberHead, ih]
  cases ms with
  | nil => rfl
  | cons m ms => simp [Tree.tokens, rest, allTokens, Tree.memberHead]

variable {start stop : Char} {first end_ : Token} {gap last : List Char}

theorem spelling_rest (hstop : end_.Spelled [stop]) (hg : Spaces gap) (hl : Spaces last)
    {kss : List (List Token)} {ws : List (List Char)} (h : List.Forall₂ Spelling kss ws) :
    Spelling (restTokens end_ kss) (writeRest stop gap last ws) := by
  induction h with
  | nil => exact .token hl hstop (.spaces spaces_nil)
  | cons hk _ ih => exact Token.Spelled.comma.spelling ((hk.append ih).spaced hg)

theorem spelling_all (hstart : first.Spelled [start]) (hstop : end_.Spelled [stop])
    (hg : Spaces gap) (hl : Spaces last) {kss : List (List Token)} {ws : List (List Char)}
    (h : List.Forall₂ Spelling kss ws) :
    Spelling (allTokens first end_ kss) (writeAll start stop gap last ws) := by
  cases h with
  | nil => exact hstart.spelling (hstop.spelling (.spaces spaces_nil))
  | cons hk h => exact hstart.spelling ((hk.append (spelling_rest hstop hg hl h)).spaced hg)

theorem spelling_member {space : List Char} (hs : Spaces space) (name : String) {t : Tree}
    {w : List Char} (h : t.Spells w) :
    Spelling (Tree.memberHead (pieces name, t)) (writeMember space name w) :=
  (spelled_quoted name).spelling (Token.Spelled.colon.spelling (h.spaced hs))

theorem compactChars_array (vs : List Json) :
    compactChars (.array vs) = writeAll '[' ']' [] [] (vs.map compactChars) := by
  have rest (vs : List Json) : compactItems vs = writeRest ']' [] [] (vs.map compactChars) := by
    induction vs with
    | nil => rfl
    | cons v vs ih => simp [compactItems, writeRest, ih]
  cases vs with
  | nil => rfl
  | cons v vs => simp [compactChars, writeAll, rest]

theorem compactChars_object (ms : List (String × Json)) :
    compactChars (.object ms) =
      writeAll '\x7b' '\x7d' [] [] (ms.map (fun m => writeMember [] m.1 (compactChars m.2))) := by
  have rest (ms : List (String × Json)) : compactMembers ms =
      writeRest '\x7d' [] [] (ms.map (fun m => writeMember [] m.1 (compactChars m.2))) := by
    induction ms with
    | nil => rfl
    | cons m ms ih => simp [compactMembers, writeRest, writeMember, ih]
  cases ms with
  | nil => rfl
  | cons m ms => simp [compactChars, writeAll, writeMember, rest]

theorem indentedChars_array (depth : Nat) (vs : List Json) :
    indentedChars depth (.array vs) = writeAll '[' ']' (lineBreak (depth + 1)) (lineBreak depth)
      (vs.map (indentedChars (depth + 1))) := by
  have rest (vs : List Json) : indentedItems depth vs = writeRest ']' (lineBreak (depth + 1))
      (lineBreak depth) (vs.map (indentedChars (depth + 1))) := by
    induction vs with
    | nil => rfl
    | cons v vs ih => simp [indentedItems, writeRest, ih]
  cases vs with
  | nil => rfl
  | cons v vs => simp [indentedChars, writeAll, rest]

theorem indentedChars_object (depth : Nat) (ms : List (String × Json)) :
    indentedChars depth (.object ms) = writeAll '\x7b' '\x7d' (lineBreak (depth + 1)) (lineBreak depth)
      (ms.map (fun m => writeMember [' '] m.1 (indentedChars (depth + 1) m.2))) := by
  have rest (ms : List (String × Json)) : indentedMembers depth ms =
      writeRest '\x7d' (lineBreak (depth + 1)) (lineBreak depth)
        (ms.map (fun m => writeMember [' '] m.1 (indentedChars (depth + 1) m.2))) := by
    induction ms with
    | nil => rfl
    | cons m ms ih => simp [indentedMembers, writeRest, writeMember, ih]
  cases ms with
  | nil => rfl
  | cons m ms => simp [indentedChars, writeAll, writeMember, rest]

theorem spaces_lineBreak (depth : Nat) : Spaces (lineBreak depth) := by
  intro c hc
  rcases List.mem_cons.1 hc with rfl | hc
  · rfl
  · rw [List.eq_of_mem_replicate hc]
    rfl

theorem spaces_blank : Spaces [' '] := by simp [Spaces, isSpace]

theorem spells_leaf {l : Leaf} {cs : List Char} (h : (Token.leaf l).Spelled cs) :
    (Tree.leaf l).Spells cs := by
  have hs := h.spelling (.spaces spaces_nil)
  rwa [List.append_nil] at hs

end StyledMap.Json
