import StyledMap.Proofs.Json.Trees
import StyledMap.Proofs.Text.Firm

/-! Texts without the blanks at their ends. No token starts or ends with a blank, so a text that is
trimmed still spells what it spelled. -/
namespace StyledMap.Json
open Text (isBlank trim trimLeft trimRight Firm firm_of_forall firm_enclosed)

theorem isBlank_of_isSpace {c : Char} (h : isSpace c = true) : isBlank c = true := by
  simp only [isSpace, Bool.or_eq_true, beq_iff_eq] at h
  obtain ((rfl | rfl) | rfl) | rfl := h <;> decide

theorem bounds_of_isDigit {c : Char} (h : isDigit c = true) : 48 ≤ c.toNat ∧ c.toNat ≤ 57 := by
  unfold isDigit Text.digit? at h
  split at h
  · rename_i hc
    exact hc
  · cases h

theorem not_isBlank_of_isDigit {c : Char} (h : isDigit c = true) : isBlank c = false := by
  have bounds := bounds_of_isDigit h
  simp only [isBlank, Bool.or_eq_false_iff, Bool.and_eq_false_iff, beq_eq_false_iff_ne,
    decide_eq_false_iff_not]
  omega

theorem Digits.not_isBlank {ds : List Nat} {cs : List Char} (h : Digits ds cs) :
    ∀ c ∈ cs, isBlank c = false :=
  fun c hc => not_isBlank_of_isDigit (h.isDigit c hc)

theorem Fraction.not_isBlank {ds : List Nat} {cs : List Char} (h : Fraction ds cs) :
    ∀ c ∈ cs, isBlank c = false := by
  cases h with
  | absent => simp
  | present _ h => exact List.forall_mem_cons.2 ⟨by decide, h.not_isBlank⟩

theorem Exponent.not_isBlank {e : Option Int} {cs : List Char} (h : Exponent e cs) :
    ∀ c ∈ cs, isBlank c = false := by
  cases h with
  | absent => simp
  | present hl hs _ h =>
    refine List.forall_mem_cons.2 ⟨?_, List.forall_mem_append.2 ⟨?_, h.not_isBlank⟩⟩
    · obtain rfl | rfl := hl <;> decide
    · cases hs with
      | absent => simp
      | plus | minus => decide

theorem Numeral.Unsigned.not_isBlank {n : Numeral} {cs : List Char} (h : n.Unsigned cs) :
    ∀ c ∈ cs, isBlank c = false := by
  obtain ⟨-, -, hw, hf, he⟩ := h
  simp only [List.forall_mem_append]
  exact ⟨hw.not_isBlank, hf.not_isBlank, he.not_isBlank⟩

theorem Token.Spelled.firm {k : Token} {word : List Char} (h : k.Spelled word) : Firm word := by
  cases h with
  | string h => exact firm_enclosed (by decide) (by decide) _
  | numeral h =>
    cases h with
    | positive _ h =>
      obtain ⟨c, ds, rfl, -⟩ := h.exists_cons
      exact firm_of_forall (List.cons_ne_nil c ds) h.not_isBlank
    | negative _ h =>
      exact firm_of_forall (List.cons_ne_nil _ _)
        (List.forall_mem_cons.2 ⟨by decide, h.not_isBlank⟩)
  | arrayStart | arrayEnd | objectStart | objectEnd | comma | colon | null | yes | no =>
    exact firm_of_forall (List.cons_ne_nil _ _) (by decide)

theorem Spaces.skip {spaces : List Char} (h : Spaces spaces) (cs : List Char) :
    (spaces ++ cs).dropWhile isBlank = cs.dropWhile isBlank :=
  List.dropWhile_append_of_pos (fun c hc => isBlank_of_isSpace (h c hc))

theorem Spelling.trimLeft {ks : List Token} {cs : List Char} (h : Spelling ks cs) :
    Spelling ks (trimLeft cs) := by
  cases h with
  | spaces h =>
    rw [Text.trimLeft, ← List.append_nil cs, h.skip]
    exact .spaces spaces_nil
  | token hs hw h =>
    rw [Text.trimLeft, hs.skip, ← Text.trimLeft, hw.firm.trimLeft]
    exact hw.spelling h

theorem Spelling.trimRight {ks : List Token} {cs : List Char} (h : Spelling ks cs) :
    Spelling ks (trimRight cs) := by
  induction h with
  | @spaces cs h =>
    have back : Spaces cs.reverse := fun c hc => h c (List.mem_reverse.1 hc)
    rw [Text.trimRight, ← List.append_nil cs.reverse, back.skip]
    exact .spaces spaces_nil
  | token hs hw _ ih =>
    rw [hw.firm.trimRight]
    exact .token hs hw ih

/-- A text spells the same without the blanks around it. -/
theorem Tree.Spells.trim {t : Tree} {cs : List Char} (h : t.Spells cs) : t.Spells (trim cs) :=
  Spelling.trimRight (Spelling.trimLeft h)

theorem Tree.parse?_trimmed {text : String} {t : Tree} (h : Tree.parse? text = some t) :
    Tree.parse? (Text.trimmed text) = some t := by
  rw [Tree.parse?_eq_some] at h ⊢
  rw [Text.trimmed, String.toList_ofList]
  exact h.trim

end StyledMap.Json
