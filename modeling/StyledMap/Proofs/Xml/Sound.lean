import StyledMap.Proofs.Text.Firm
import StyledMap.Xml.Character
import StyledMap.Xml.Outline

/-! Items that may stand in a document, and the characters that are written of them: legal ones,
and no carriage return, so that no line end changes on the way to a reader. -/
namespace StyledMap.Xml

/-- The legal characters are those of the `Char` production. -/
theorem isLegal_iff (c : Char) :
    isLegal c = true ↔ c ∈ ['\t', '\n', '\r'] ∨ (0x20 ≤ c.toNat ∧ c.toNat ≤ 0xD7FF) ∨
      (0xE000 ≤ c.toNat ∧ c.toNat ≤ 0xFFFD) ∨ (0x10000 ≤ c.toNat ∧ c.toNat ≤ 0x10FFFF) := by
  have hvalid : c.toNat < 0xD800 ∨ (0xDFFF < c.toNat ∧ c.toNat < 0x110000) := c.valid
  have hranges : (0x20 ≤ c.toNat ∧ c.toNat ≠ 0xFFFE) ∧ c.toNat ≠ 0xFFFF ↔
      (0x20 ≤ c.toNat ∧ c.toNat ≤ 0xD7FF) ∨ (0xE000 ≤ c.toNat ∧ c.toNat ≤ 0xFFFD) ∨
        (0x10000 ≤ c.toNat ∧ c.toNat ≤ 0x10FFFF) := by
    omega
  rw [← hranges]
  simp [isLegal, or_assoc]

/-- Text of characters that a document can carry. -/
def Legal (cs : List Char) : Prop := ∀ c ∈ cs, isLegal c = true

/-- Text as it is written into a document. -/
def Clean (cs : List Char) : Prop := ∀ c ∈ cs, isLegal c = true ∧ c ≠ '\r'

instance (cs : List Char) : Decidable (Legal cs) := decidableForallMem cs _
instance (cs : List Char) : Decidable (Clean cs) := decidableForallMem cs _

theorem Clean.legal {cs : List Char} (h : Clean cs) : Legal cs := fun c hc => (h c hc).1

@[simp] theorem clean_nil : Clean [] := by simp [Clean]

@[simp] theorem clean_cons {c : Char} {cs : List Char} :
    Clean (c :: cs) ↔ (isLegal c = true ∧ c ≠ '\r') ∧ Clean cs := by
  simp [Clean]

@[simp] theorem clean_append {s t : List Char} : Clean (s ++ t) ↔ Clean s ∧ Clean t :=
  List.forall_mem_append

theorem clean_escapeChar {c : Char} (h : isLegal c = true) : Clean (escapeChar c) := by
  unfold escapeChar
  by_cases hr : c = '\r'
  · subst hr
    decide
  · have hc : Clean [c] := by simp [h, hr]
    repeat' split
    all_goals first | exact hc | decide

theorem clean_escape {cs : List Char} (h : Legal cs) : Clean (escape cs) := by
  intro c hc
  obtain ⟨d, hd, hc⟩ := List.mem_flatMap.1 hc
  exact clean_escapeChar (h d hd) c hc

theorem isNameChar_clean {c : Char} (h : isNameChar c = true) : isLegal c = true ∧ c ≠ '\r' := by
  have hbounds : 0x2D ≤ c.toNat ∧ c.toNat ≠ 0xFFFE ∧ c.toNat ≠ 0xFFFF := by
    simp only [isNameChar, isNameStart, within, nameStartRanges, nameMoreRanges, List.any_cons,
      List.any_nil, Bool.or_eq_true, Bool.and_eq_true, decide_eq_true_eq, Bool.or_false] at h
    omega
  refine ⟨?_, ?_⟩
  · have hspace : 0x20 ≤ c.toNat := by omega
    simp [isLegal, hspace, hbounds.2]
  · rintro rfl
    exact absurd hbounds.1 (by decide)

theorem isNameChar_of_isName {cs : List Char} (h : isName cs = true) :
    ∀ c ∈ cs, isNameChar c = true := by
  cases cs with
  | nil => simp
  | cons c cs =>
    simp only [isName, Bool.and_eq_true, List.all_eq_true] at h
    intro d hd
    obtain rfl | hd := List.mem_cons.1 hd
    · simp [isNameChar, h.1]
    · exact h.2 d hd

theorem clean_of_isName {cs : List Char} (h : isName cs = true) : Clean cs :=
  fun c hc => isNameChar_clean (isNameChar_of_isName h c hc)

/-- A tag that can be read back: names that are names, each attribute once, legal values. -/
structure SoundTag (name : String) (attributes : List (String × String)) : Prop where
  name : isName name.toList = true
  names : ∀ a ∈ attributes, isName a.1.toList = true
  values : ∀ a ∈ attributes, Legal a.2.toList
  distinct : (attributes.map (·.1)).Nodup

/-- An item whose tags and texts can be read back, with references only to `entities`. -/
inductive Item.Sound (entities : List String) : Item → Prop where
  | bare {name : String} {attributes : List (String × String)} (tag : SoundTag name attributes) :
      Sound entities (.bare name attributes)
  | field {name : String} {attributes : List (String × String)} {content : String}
      (tag : SoundTag name attributes) (legal : Legal content.toList) :
      Sound entities (.field name attributes content)
  | group {name : String} {attributes : List (String × String)} {items : List Item}
      (tag : SoundTag name attributes) (sound : ∀ i ∈ items, i.Sound entities) :
      Sound entities (.group name attributes items)
  | reference {entity : String} (declared : entity ∈ entities) :
      Sound entities (.reference entity)

def Mark.text : Mark → List Char
  | .line t | .opens t | .closes t => t

theorem clean_tagStart {name : String} {attributes : List (String × String)}
    (h : SoundTag name attributes) : Clean (tagStart name attributes) := by
  have hattributes : Clean (attributes.flatMap attributeText) := by
    intro c hc
    obtain ⟨a, ha, hc⟩ := List.mem_flatMap.1 hc
    have hname := clean_of_isName (h.names a ha)
    have hvalue := clean_escape (h.values a ha)
    have hall : Clean (attributeText a) := by
      simp [attributeText, hname, hvalue, isLegal]
    exact hall c hc
  have hname := clean_of_isName h.name
  simp [tagStart, hname, hattributes, isLegal]

theorem clean_tagEnd {name : String} (h : isName name.toList = true) : Clean (tagEnd name) := by
  have hname := clean_of_isName h
  simp [tagEnd, hname, isLegal]

theorem mem_allMarks {m : Mark} {items : List Item} :
    m ∈ Item.allMarks items ↔ ∃ i ∈ items, m ∈ i.marks := by
  induction items with
  | nil => simp [Item.allMarks]
  | cons i items ih => simp [Item.allMarks, ih]

theorem Item.Sound.clean {entities : List String} (he : ∀ e ∈ entities, isName e.toList = true)
    {i : Item} (h : i.Sound entities) : ∀ m ∈ i.marks, Clean m.text := by
  induction h with
  | bare tag =>
    have ht := clean_tagStart tag
    simp [Item.marks, Mark.text, ht, isLegal]
  | @field name attributes content tag legal =>
    have ht := clean_tagStart tag
    have hc := clean_escape legal
    have hend := clean_tagEnd tag.name
    simp [Item.marks, Mark.text, ht, hc, hend, isLegal]
  | @group name attributes items tag sound ih =>
    have ht : Clean (tagStart name attributes ++ ['>']) := by
      simp [clean_tagStart tag, isLegal]
    intro m hm
    simp only [Item.marks, List.mem_cons, List.mem_append, List.not_mem_nil, or_false] at hm
    obtain rfl | hm | rfl := hm
    · exact ht
    · obtain ⟨i, hi, hm⟩ := mem_allMarks.1 hm
      exact ih i hi m hm
    · exact clean_tagEnd tag.name
  | @reference entity declared =>
    have hname := clean_of_isName (he entity declared)
    simp [Item.marks, Mark.text, hname, isLegal]

theorem clean_line (depth : Nat) {text : List Char} (h : Clean text) : Clean (line depth text) := by
  have hspaces : Clean (List.replicate (2 * depth) ' ') := by
    intro c hc
    obtain rfl := List.eq_of_mem_replicate hc
    decide
  simp [line, hspaces, h, isLegal]

theorem clean_layout (depth : Nat) {ms : List Mark} (h : ∀ m ∈ ms, Clean m.text) :
    Clean (layout depth ms) := by
  induction ms generalizing depth with
  | nil => exact clean_nil
  | cons m ms ih =>
    have hm : ∀ depth, Clean (line depth m.text) :=
      fun depth => clean_line depth (h m List.mem_cons_self)
    have hms : ∀ depth, Clean (layout depth ms) :=
      fun depth => ih depth (fun m hm => h m (List.mem_cons_of_mem _ hm))
    cases m with
    | line t | opens t | closes t => exact clean_append.2 ⟨hm _, hms _⟩

end StyledMap.Xml
