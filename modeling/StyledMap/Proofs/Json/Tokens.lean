import Mathlib.Data.List.Chain
import StyledMap.Proofs.Json.Spelling

/-! Reading tokens. A token is read from each of its spellings and from nothing else, provided a
numeral ends where its spelling does; so a text has the tokens it spells. -/
namespace StyledMap.Json
open Text (digit?)

/-- No character of a kind at the start. -/
def Stops (f : Char → Bool) (cs : List Char) : Prop := ∀ c, cs.head? = some c → f c = false

theorem stops_nil (f : Char → Bool) : Stops f [] := by simp [Stops]

theorem stops_cons {f : Char → Bool} {c : Char} {cs : List Char} : Stops f (c :: cs) ↔ f c = false := by
  simp [Stops]

def isDigit (c : Char) : Bool := (digit? c).isSome

def continues (c : Char) : Bool := isDigit c || c == '.' || c == 'e' || c == 'E'

theorem Stops.digit {cs : List Char} (h : Stops continues cs) : Stops isDigit cs := by
  intro c hc
  have hn := h c hc
  simp only [continues, Bool.or_eq_false_iff] at hn
  exact hn.1.1.1

theorem Stops.point {cs : List Char} (h : Stops continues cs) : Stops (· == '.') cs := by
  intro c hc
  have hn := h c hc
  simp only [continues, Bool.or_eq_false_iff] at hn
  exact hn.1.1.2

theorem Digits.isDigit {ds : List Nat} {cs : List Char} (h : Digits ds cs) :
    ∀ c ∈ cs, isDigit c = true := by
  intro c hc
  have hmem : digit? c ∈ ds.map some := by
    rw [← show cs.map digit? = ds.map some from h]
    exact List.mem_map_of_mem hc
  obtain ⟨d, -, hd⟩ := List.mem_map.1 hmem
  rw [Json.isDigit, ← hd]
  rfl

theorem Digits.filterMap {ds : List Nat} {cs : List Char} (h : Digits ds cs) :
    cs.filterMap digit? = ds := by
  have hid := congrArg (List.filterMap id) (show cs.map digit? = ds.map some from h)
  simpa [List.filterMap_map] using hid

theorem digits_filterMap {cs : List Char} (h : ∀ c ∈ cs, isDigit c = true) :
    Digits (cs.filterMap digit?) cs := by
  induction cs with
  | nil => rfl
  | cons c cs ih =>
    rw [List.forall_mem_cons] at h
    obtain ⟨d, hd⟩ := Option.isSome_iff_exists.1 h.1
    have hrest : cs.map digit? = (cs.filterMap digit?).map some := ih h.2
    simp [Digits, hd, hrest]

theorem digitsOf_append {ds : List Nat} {cs rest : List Char} (h : Digits ds cs)
    (hr : Stops isDigit rest) : digitsOf (cs ++ rest) = (ds, rest) := by
  have hstop : rest.takeWhile isDigit = [] ∧ rest.dropWhile isDigit = rest := by
    cases rest with
    | nil => simp
    | cons c rest => simp [hr c rfl]
  change ((cs ++ rest).takeWhile isDigit |>.filterMap digit?, (cs ++ rest).dropWhile isDigit) = _
  rw [List.takeWhile_append_of_pos h.isDigit, List.dropWhile_append_of_pos h.isDigit, hstop.1,
    hstop.2, List.append_nil, h.filterMap]

theorem digitsOf_sound {cs rest : List Char} {ds : List Nat} (h : digitsOf cs = (ds, rest)) :
    ∃ word, cs = word ++ rest ∧ Digits ds word := by
  obtain ⟨rfl, rfl⟩ := Prod.mk.inj h
  exact ⟨_, List.takeWhile_append_dropWhile.symm,
    digits_filterMap (fun c hc => List.all_eq_true.1 List.all_takeWhile c hc)⟩

theorem fractionOf_append {ds : List Nat} {cs rest : List Char} (h : Fraction ds cs)
    (hd : Stops isDigit rest) (hp : Stops (· == '.') rest) :
    fractionOf (cs ++ rest) = some (ds, rest) := by
  cases h with
  | absent =>
    cases rest with
    | nil => rfl
    | cons c rest =>
      have hc : c ≠ '.' := by simpa [stops_cons] using hp
      simp [fractionOf, hc]
  | @present ds cs hne h =>
    obtain ⟨d, ds, rfl⟩ := List.exists_cons_of_ne_nil hne
    simp [fractionOf, digitsOf_append h hd]

theorem digitsOf_cases (cs : List Char) :
    (∃ rest, digitsOf cs = ([], rest)) ∨ ∃ d ds word rest, cs = word ++ rest ∧
      Digits (d :: ds) word ∧ digitsOf cs = (d :: ds, rest) := by
  cases hd : digitsOf cs with
  | mk ds rest =>
    cases ds with
    | nil => exact .inl ⟨rest, rfl⟩
    | cons d ds =>
      obtain ⟨word, hcs, hw⟩ := digitsOf_sound hd
      exact .inr ⟨d, ds, word, rest, hcs, hw, rfl⟩

theorem fractionOf_sound {cs rest : List Char} {ds : List Nat}
    (h : fractionOf cs = some (ds, rest)) : ∃ word, cs = word ++ rest ∧ Fraction ds word := by
  unfold fractionOf at h
  split at h
  · rename_i cs
    obtain ⟨r, hd⟩ | ⟨d, ds, word, r, rfl, hw, hd⟩ := digitsOf_cases cs
    · simp [hd] at h
    · obtain ⟨rfl, rfl⟩ : d :: ds = _ ∧ r = rest := by simpa [hd] using h
      exact ⟨'.' :: word, rfl, .present (List.cons_ne_nil d ds) hw⟩
  · obtain ⟨rfl, rfl⟩ : [] = ds ∧ cs = rest := by simpa using h
    exact ⟨[], rfl, .absent⟩

theorem exponentDigits_append {negative : Bool} {ds : List Nat} {cs rest : List Char} (hne : ds ≠ [])
    (h : Digits ds cs) (hr : Stops isDigit rest) : exponentDigits negative (cs ++ rest) =
      some (some (if negative then -(numberOf ds : Int) else numberOf ds), rest) := by
  obtain ⟨d, ds, rfl⟩ := List.exists_cons_of_ne_nil hne
  simp [exponentDigits, digitsOf_append h hr, numberOf]

theorem exponentDigits_sound {negative : Bool} {cs rest : List Char} {e : Option Int}
    (h : exponentDigits negative cs = some (e, rest)) :
    ∃ ds word, cs = word ++ rest ∧ ds ≠ [] ∧ Digits ds word ∧
      e = some (if negative then -(numberOf ds : Int) else numberOf ds) := by
  unfold exponentDigits at h
  obtain ⟨r, hd⟩ | ⟨d, ds, word, r, rfl, hw, hd⟩ := digitsOf_cases cs
  · simp [hd] at h
  · obtain ⟨rfl, rfl⟩ := by simpa [hd] using h
    exact ⟨d :: ds, word, rfl, List.cons_ne_nil d ds, hw, by simp [numberOf]⟩

theorem Digits.exists_cons {ds : List Nat} {cs : List Char} (h : Digits ds cs) (hne : ds ≠ []) :
    ∃ c rest, cs = c :: rest ∧ Json.isDigit c = true := by
  cases cs with
  | nil =>
    have hnil : ds.map some = [] := h.symm
    exact absurd (List.map_eq_nil_iff.1 hnil) hne
  | cons c cs => exact ⟨c, cs, rfl, h.isDigit c List.mem_cons_self⟩

theorem exponentOf_append {e : Option Int} {cs rest : List Char} (h : Exponent e cs)
    (hr : Stops continues rest) : exponentOf (cs ++ rest) = some (e, rest) := by
  cases h with
  | absent =>
    cases rest with
    | nil => rfl
    | cons c rest =>
      simp [stops_cons, continues] at hr
      simp [exponentOf, hr]
  | @present letter negative sign cs ds hl hs hne h =>
    have hexp : exponentDigits negative (cs ++ rest) = _ := exponentDigits_append hne h hr.digit
    cases hs with
    | absent =>
      obtain ⟨c, cs, rfl, hc⟩ := h.exists_cons hne
      have hminus : c ≠ '-' := by rintro rfl; revert hc; decide
      have hplus : c ≠ '+' := by rintro rfl; revert hc; decide
      simp [exponentOf, hl, hminus, hplus] at hexp ⊢
      exact hexp
    | plus => simp [exponentOf, hl] at hexp ⊢; exact hexp
    | minus => simp [exponentOf, hl] at hexp ⊢; exact hexp

theorem exponentOf_sound {cs rest : List Char} {e : Option Int}
    (h : exponentOf cs = some (e, rest)) : ∃ word, cs = word ++ rest ∧ Exponent e word := by
  unfold exponentOf at h
  split at h
  · rename_i letter cs
    split at h
    · rename_i hl
      split at h
      · rename_i r
        obtain ⟨ds, word, rfl, hne, hw, rfl⟩ := exponentDigits_sound h
        exact ⟨letter :: (['-'] ++ word), rfl, .present hl .minus hne hw⟩
      · obtain ⟨ds, word, rfl, hne, hw, rfl⟩ := exponentDigits_sound h
        exact ⟨letter :: (['+'] ++ word), rfl, .present hl .plus hne hw⟩
      · obtain ⟨ds, word, rfl, hne, hw, rfl⟩ := exponentDigits_sound h
        exact ⟨letter :: ([] ++ word), rfl, .present hl .absent hne hw⟩
    · obtain ⟨rfl, rfl⟩ : none = e ∧ letter :: cs = rest := by simpa using h
      exact ⟨[], rfl, .absent⟩
  · obtain ⟨rfl, rfl⟩ : none = e ∧ [] = rest := by simpa using h
    exact ⟨[], rfl, .absent⟩


/-- What stands behind the digits of a numeral is neither a digit nor, behind a fraction, a point. -/
theorem Exponent.stops {e : Option Int} {cs rest : List Char} (h : Exponent e cs)
    (hr : Stops continues rest) : Stops isDigit (cs ++ rest) ∧ Stops (· == '.') (cs ++ rest) := by
  cases h with
  | absent => exact ⟨hr.digit, hr.point⟩
  | present hl hs hne h =>
    obtain rfl | rfl := hl <;> exact ⟨stops_cons.2 (by decide), stops_cons.2 (by decide)⟩

theorem Fraction.stops {ds : List Nat} {cs rest : List Char} (h : Fraction ds cs)
    (hr : Stops isDigit rest) : Stops isDigit (cs ++ rest) := by
  cases h with
  | absent => exact hr
  | present hne h => exact stops_cons.2 (by decide)

theorem numeralOf_append {n : Numeral} {cs rest : List Char} (h : n.Unsigned cs)
    (hr : Stops continues rest) : numeralOf n.negative (cs ++ rest) = some (n, rest) := by
  obtain ⟨hne, hz, hw, hf, he⟩ := h
  rename_i whole fraction exponent
  have hexp := he.stops hr
  have hdigits : digitsOf (whole ++ (fraction ++ (exponent ++ rest))) =
      (n.whole, fraction ++ (exponent ++ rest)) := digitsOf_append hw (hf.stops hexp.1)
  have hzero : ¬ (n.whole = [] ∨ n.whole.head? = some 0 ∧ n.whole.length ≠ 1) := by
    rintro (h | ⟨h0, h1⟩)
    · exact hne h
    · exact h1 (hz h0)
  simp only [numeralOf, List.append_assoc, hdigits, hzero, ↓reduceIte, Option.bind_eq_bind,
    fractionOf_append hf hexp.1 hexp.2, exponentOf_append he hr, Option.bind_some, Option.pure_def]

theorem numeralOf_sound {negative : Bool} {cs rest : List Char} {n : Numeral}
    (h : numeralOf negative cs = some (n, rest)) :
    n.negative = negative ∧ ∃ word, cs = word ++ rest ∧ n.Unsigned word := by
  simp only [numeralOf, Option.bind_eq_bind] at h
  split at h
  · cases h
  · rename_i hzero
    obtain ⟨⟨fraction, r⟩, hf, h⟩ := Option.bind_eq_some_iff.1 h
    obtain ⟨⟨exponent, r'⟩, he, h⟩ := Option.bind_eq_some_iff.1 h
    obtain ⟨rfl, rfl⟩ := Prod.mk.inj (Option.some.inj h)
    obtain ⟨w, hcs, hw⟩ := digitsOf_sound (Prod.eta (digitsOf cs)).symm
    obtain ⟨f, hf', hf⟩ := fractionOf_sound hf
    obtain ⟨e, he', he⟩ := exponentOf_sound he
    dsimp only at he'
    refine ⟨rfl, w ++ (f ++ e), ?_, .mk (fun h => hzero (.inl h)) ?_ hw hf he⟩
    · rw [hcs, hf', he']
      simp
    · intro h0
      exact Decidable.byContradiction (fun h1 => hzero (.inr ⟨h0, h1⟩))

theorem stringBody_append {ps : List Piece} {cs : List Char} (h : Body ps cs) (done : List Piece)
    (rest : List Char) : stringBody done (cs ++ '\"' :: rest) = some (done.reverse ++ ps, rest) := by
  induction h generalizing done with
  | nil => simp [stringBody]
  | @cons p ps word cs hp h ih =>
    rw [List.append_assoc]
    have hnext := ih (p :: done)
    rw [List.reverse_cons, List.append_assoc] at hnext
    cases hp with
    | plain quote backslash control =>
      simpa [stringBody, backslash, Nat.not_lt.2 control] using hnext
    | @escaped letter c h =>
      have hu : letter ≠ 'u' := by rintro rfl; cases h
      simpa [stringBody, hu, h] using hnext
    | unit h => simpa [stringBody, h] using hnext

/-- A piece that was read is the first of those that a body holds. -/
theorem Body.onto {p : Piece} {word cs rest : List Char} {done ps : List Piece} (hp : p.Spelled word)
    (h : ∃ qs body, ps = (p :: done).reverse ++ qs ∧ cs = body ++ '\"' :: rest ∧ Body qs body) :
    ∃ qs body, ps = done.reverse ++ qs ∧ word ++ cs = body ++ '\"' :: rest ∧ Body qs body := by
  obtain ⟨qs, body, rfl, rfl, hb⟩ := h
  exact ⟨p :: qs, word ++ body, by simp, by simp, .cons hp hb⟩

theorem stringBody_sound {done ps : List Piece} {cs rest : List Char}
    (h : stringBody done cs = some (ps, rest)) :
    ∃ qs word, ps = done.reverse ++ qs ∧ cs = word ++ '\"' :: rest ∧ Body qs word := by
  induction done, cs using stringBody.induct with
  | case1 done => simp [stringBody] at h
  | case2 done r =>
    obtain ⟨rfl, rfl⟩ : done.reverse = ps ∧ r = rest := by simpa [stringBody] using h
    exact ⟨[], [], by simp, rfl, .nil⟩
  | case3 done a b c d r u hu ih =>
    rw [stringBody, hu] at h
    exact Body.onto (.unit hu) (ih h)
  | case4 done a b c d r hu => simp [stringBody, hu] at h
  | case5 done letter r hn c hc ih =>
    rw [stringBody, hc] at h
    · exact Body.onto (.escaped hc) (ih h)
    · exact hn
  | case6 done letter r hn hc =>
    rw [stringBody, hc] at h
    · cases h
    · exact hn
  | case7 done c r hq hu hb hc =>
    rw [stringBody, if_pos hc] at h
    · cases h
    all_goals assumption
  | case8 done c r hq hu hb hc ih =>
    rw [stringBody, if_neg hc] at h
    · have hbackslash : c ≠ '\\' := by
        rintro rfl
        cases r with
        | nil => cases h
        | cons d r => exact hb d r rfl rfl
      exact Body.onto (.plain hq hbackslash (Nat.not_lt.1 hc)) (ih h)
    all_goals assumption

def Token.isMark : Token → Bool
  | .leaf _ => false
  | _ => true

/-- A token that starts with a digit is a numeral. -/
theorem token?_digit {c : Char} (hc : isDigit c = true) (cs : List Char) :
    token? (c :: cs) = (numeralOf false (c :: cs)).map (fun (n, r) => (.leaf (.numeral n), r)) := by
  unfold token?
  split
  all_goals first
    | rfl
    | rename_i heq
      obtain ⟨rfl, -⟩ := List.cons.inj heq
      exact absurd hc (by decide)
    | rename_i heq
      cases heq

theorem Numeral.Unsigned.exists_cons {n : Numeral} {cs : List Char} (h : n.Unsigned cs) :
    ∃ c rest, cs = c :: rest ∧ Json.isDigit c = true := by
  cases h with
  | mk hne hz hw hf he =>
    obtain ⟨c, rest, rfl, hc⟩ := hw.exists_cons hne
    exact ⟨c, _, rfl, hc⟩

theorem token?_numeral {n : Numeral} {word rest : List Char} (h : n.Spelled word)
    (hr : Stops continues rest) : token? (word ++ rest) = some (.leaf (.numeral n), rest) := by
  cases h with
  | positive hn h =>
    have hnum := numeralOf_append h hr
    obtain ⟨c, cs, rfl, hc⟩ := h.exists_cons
    rw [hn] at hnum
    rw [List.cons_append, token?_digit hc, ← List.cons_append, hnum]
    rfl
  | negative hn h =>
    have hnum := numeralOf_append h hr
    rw [hn] at hnum
    simp [token?, hnum]

/-- A mark ends by itself, a leaf where nothing follows that could be more of it. -/
theorem token?_append {k : Token} {word rest : List Char} (h : k.Spelled word)
    (hr : k.isMark = true ∨ Stops continues rest) : token? (word ++ rest) = some (k, rest) := by
  cases h with
  | numeral h => exact token?_numeral h (hr.resolve_left (by simp [Token.isMark]))
  | string h => simp [token?, stringBody_append h]
  | _ => rfl

theorem token?_sound {cs rest : List Char} {k : Token} (h : token? cs = some (k, rest)) :
    ∃ word, cs = word ++ rest ∧ k.Spelled word := by
  unfold token? at h
  split at h
  case h_1 => cases h
  case h_8 =>
    obtain ⟨⟨ps, r⟩, hb, h⟩ := Option.map_eq_some_iff.1 h
    obtain ⟨rfl, rfl⟩ := Prod.mk.inj h
    obtain ⟨qs, word, rfl, rfl, hw⟩ := stringBody_sound hb
    exact ⟨'\"' :: (word ++ ['\"']), by simp, .string hw⟩
  case h_9 =>
    obtain ⟨⟨n, r⟩, hn, h⟩ := Option.map_eq_some_iff.1 h
    obtain ⟨rfl, rfl⟩ := Prod.mk.inj h
    obtain ⟨hneg, word, rfl, hw⟩ := numeralOf_sound hn
    exact ⟨'-' :: word, rfl, .numeral (.negative hneg hw)⟩
  case h_13 =>
    obtain ⟨⟨n, r⟩, hn, h⟩ := Option.map_eq_some_iff.1 h
    obtain ⟨rfl, rfl⟩ := Prod.mk.inj h
    obtain ⟨hneg, word, rfl, hw⟩ := numeralOf_sound hn
    exact ⟨word, rfl, .numeral (.positive hneg hw)⟩
  all_goals
    obtain ⟨rfl, rfl⟩ := Prod.mk.inj (Option.some.inj h)
    exact ⟨_, rfl, by constructor⟩

/-- A word of a token is not empty, and does not start with a space. -/
theorem Token.Spelled.exists_cons {k : Token} {word : List Char} (h : k.Spelled word) :
    ∃ c cs, word = c :: cs ∧ isSpace c = false ∧ (k.isMark = true → continues c = false) := by
  cases h with
  | numeral h =>
    cases h with
    | positive hn h =>
      obtain ⟨c, cs, rfl, hc⟩ := h.exists_cons
      refine ⟨c, cs, rfl, ?_, fun hm => by cases hm⟩
      rw [Bool.eq_false_iff]
      intro hs
      simp only [isSpace, Bool.or_eq_true, beq_iff_eq] at hs
      obtain ((rfl | rfl) | rfl) | rfl := hs <;> revert hc <;> decide
    | negative hn h => exact ⟨'-', _, rfl, by decide, fun hm => by cases hm⟩
  | string h => exact ⟨'\"', _, rfl, by decide, fun hm => by cases hm⟩
  | _ => exact ⟨_, _, rfl, by decide, by decide⟩

theorem token?_shorter {cs rest : List Char} {k : Token} (h : token? cs = some (k, rest)) :
    rest.length < cs.length := by
  obtain ⟨word, rfl, hw⟩ := token?_sound h
  obtain ⟨c, w, rfl, -⟩ := hw.exists_cons
  simp only [List.cons_append, List.length_cons, List.length_append]
  omega

theorem tokensUpTo_done (n : Nat) (done : List Token) (cs : List Char) :
    tokensUpTo n done cs = (tokensUpTo n [] cs).map (done.reverse ++ ·) := by
  induction n generalizing done cs with
  | zero =>
    unfold tokensUpTo
    cases cs.dropWhile isSpace <;> simp
  | succ n ih =>
    unfold tokensUpTo
    cases cs.dropWhile isSpace with
    | nil => simp
    | cons c r =>
      cases ht : token? (c :: r) with
      | none => simp [ht]
      | some found =>
        simp only [ht]
        rw [ih (found.1 :: done), ih [found.1], Option.map_map]
        simp [Function.comp_def]

/-- The length of a text is a bound for its tokens, and no bound changes what they are. -/
theorem tokensUpTo_eq {n : Nat} {cs : List Char} (hn : cs.length ≤ n) (done : List Token) :
    tokensUpTo n done cs = (tokens? cs).map (done.reverse ++ ·) := by
  have enough {n m : Nat} {cs : List Char} (hn : cs.length ≤ n) (hm : cs.length ≤ m)
      (done : List Token) : tokensUpTo n done cs = tokensUpTo m done cs := by
    induction n generalizing m done cs with
    | zero =>
      obtain rfl := List.eq_nil_of_length_eq_zero (Nat.le_zero.1 hn)
      cases m <;> rfl
    | succ n ih =>
      have hlen := (List.dropWhile_sublist isSpace (l := cs)).length_le
      unfold tokensUpTo
      cases hd : cs.dropWhile isSpace with
      | nil => rfl
      | cons c r =>
        rw [hd, List.length_cons] at hlen
        obtain ⟨m, rfl⟩ := Nat.exists_eq_add_one.2 (Nat.lt_of_lt_of_le (by omega) hm)
        dsimp only
        cases ht : token? (c :: r) with
        | none => rfl
        | some found =>
          have hshort := token?_shorter ht
          rw [List.length_cons] at hshort
          exact ih (by omega) (by omega) _
  rw [enough hn (Nat.le_refl _) done, tokensUpTo_done]
  rfl

/-- Spaces in front of a text hold no tokens. -/
theorem tokens?_spaces {spaces : List Char} (h : Spaces spaces) (cs : List Char) :
    tokens? (spaces ++ cs) = tokens? cs := by
  have hd : (spaces ++ cs).dropWhile isSpace = cs.dropWhile isSpace :=
    List.dropWhile_append_of_pos h
  have hlen : cs.length ≤ (spaces ++ cs).length := by simp
  calc
    tokens? (spaces ++ cs) = tokensUpTo (spaces ++ cs).length [] cs := by
      unfold tokens? tokensUpTo
      rw [hd]
    _ = tokens? cs := by
      rw [tokensUpTo_eq hlen]
      simp

theorem tokens?_nil : tokens? [] = some [] := rfl

/-- The first token of a text that does not start with a space, and the others. -/
theorem tokens?_cons {c : Char} (hc : isSpace c = false) (cs : List Char) : tokens? (c :: cs) =
    (token? (c :: cs)).bind (fun found => (tokens? found.2).map (found.1 :: ·)) := by
  unfold tokens?
  rw [List.length_cons, tokensUpTo, List.dropWhile_cons_of_neg (by simp [hc])]
  cases ht : token? (c :: cs) with
  | none => simp [ht]
  | some found =>
    have hshort := token?_shorter ht
    rw [List.length_cons] at hshort
    simp only [ht, Option.bind_some]
    rw [tokensUpTo_eq (by omega)]
    rfl

theorem tokens?_sound {cs : List Char} {ks : List Token} (h : tokens? cs = some ks) :
    Spelling ks cs := by
  induction hn : cs.length using Nat.strongRecOn generalizing cs ks with
  | ind n ih =>
    subst hn
    have hsplit : cs.takeWhile isSpace ++ cs.dropWhile isSpace = cs := List.takeWhile_append_dropWhile
    have hs : Spaces (cs.takeWhile isSpace) := List.all_eq_true.1 List.all_takeWhile
    have hhead := List.head?_dropWhile_not isSpace cs
    cases hd : cs.dropWhile isSpace with
    | nil =>
      rw [hd, List.append_nil] at hsplit
      have hnil := tokens?_spaces hs []
      rw [List.append_nil, hsplit, h] at hnil
      obtain rfl := Option.some.inj hnil
      rw [hsplit] at hs
      exact .spaces hs
    | cons c r =>
      rw [hd] at hsplit hhead
      rw [← hsplit, tokens?_spaces hs, tokens?_cons hhead] at h
      obtain ⟨⟨k, rest⟩, ht, h⟩ := Option.bind_eq_some_iff.1 h
      obtain ⟨ls, hls, rfl⟩ := Option.map_eq_some_iff.1 h
      have hshort := token?_shorter ht
      obtain ⟨word, hword, hw⟩ := token?_sound ht
      have hlen := congrArg List.length hsplit
      rw [List.length_append] at hlen
      rw [← hsplit, hword]
      exact .token hs hw (ih rest.length (by omega) hls rfl)

/-- Two tokens side by side, one of which is a mark. -/
def Separated (ks : List Token) : Prop := ks.IsChain (fun a b => a.isMark = true ∨ b.isMark = true)

theorem continues_of_space {c : Char} (h : isSpace c = true) : continues c = false := by
  simp only [isSpace, Bool.or_eq_true, beq_iff_eq] at h
  obtain ((rfl | rfl) | rfl) | rfl := h <;> decide

theorem Spaces.stops {cs rest : List Char} (h : Spaces cs) (hr : Stops continues rest) :
    Stops continues (cs ++ rest) := by
  cases cs with
  | nil => exact hr
  | cons c cs => exact stops_cons.2 (continues_of_space (h c List.mem_cons_self))

/-- What a spelling starts with is no part of a numeral before it, if it starts with a mark. -/
theorem Spelling.stops {k : Token} {ks : List Token} {cs rest : List Char} (h : Spelling (k :: ks) cs)
    (hk : k.isMark = true) : Stops continues (cs ++ rest) := by
  cases h with
  | token hs hw h =>
    obtain ⟨c, word, rfl, -, hc⟩ := hw.exists_cons
    rw [List.append_assoc]
    exact hs.stops (stops_cons.2 (hc hk))

/-- Separated tokens are read from every spelling, whatever comes behind it. -/
theorem tokens?_append {ks : List Token} {cs rest : List Char} (h : Spelling ks cs)
    (hk : Separated ks) (hr : Stops continues rest) :
    tokens? (cs ++ rest) = (tokens? rest).map (ks ++ ·) := by
  induction h with
  | spaces hs => rw [tokens?_spaces hs]; simp
  | @token k ks spaces word cs hs hw h ih =>
    obtain ⟨c, w, rfl, hc, -⟩ := hw.exists_cons
    have hnext : k.isMark = true ∨ Stops continues (cs ++ rest) := by
      cases h with
      | spaces hs => exact .inr (hs.stops hr)
      | token hs' hw' h' =>
        exact (List.isChain_cons_cons.1 hk).1.imp_right (Spelling.stops (.token hs' hw' h'))
    have ht := token?_append hw hnext
    rw [List.cons_append] at ht
    rw [List.append_assoc, List.append_assoc, List.cons_append, tokens?_spaces hs, tokens?_cons hc, ht,
      Option.bind_some, ih hk.tail, Option.map_map]
    rfl

end StyledMap.Json
