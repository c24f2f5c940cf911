import StyledMap.Proofs.Xml.Reader
import StyledMap.Proofs.Xml.Sound

/-! Scanning what was written. Scanning goes from place to place, so a text is scanned in parts;
each part of a tag comes back as it went in, the escaped ones included. -/
namespace StyledMap.Xml

theorem scan_cons {p q r : Place} {c : Char} {cs : List Char} {ts us : List Token}
    (h : p.step c = some (q, ts)) (hs : scan q cs = some (r, us)) :
    scan p (c :: cs) = some (r, ts ++ us) := by
  simp [scan, h, hs]

theorem scan_append {p q r : Place} {cs ds : List Char} {ts us : List Token}
    (h : scan p cs = some (q, ts)) (hs : scan q ds = some (r, us)) :
    scan p (cs ++ ds) = some (r, ts ++ us) := by
  induction cs generalizing p ts with
  | nil =>
    obtain ⟨rfl, rfl⟩ : p = q ∧ [] = ts := by simpa [scan] using h
    exact hs
  | cons c cs ih =>
    simp only [scan, Option.bind_eq_bind, Option.bind_eq_some_iff, Option.pure_def,
      Option.some.injEq, Prod.mk.injEq, Prod.exists] at h
    obtain ⟨p', ts', hc, q', ts'', hcs, rfl, rfl⟩ := h
    rw [List.append_assoc]
    exact scan_cons hc (ih hcs)

/-- A place that keeps every character of a kind has kept a word of them at its end. -/
theorem scan_word {f : List Char → Place} {P : Char → Bool}
    (hf : ∀ word c, P c = true → (f word).step c = some (f (word ++ [c]), []))
    {cs : List Char} (h : ∀ c ∈ cs, P c = true) (word : List Char) :
    scan (f word) cs = some (f (word ++ cs), []) := by
  induction cs generalizing word with
  | nil => simp [scan]
  | cons c cs ih =>
    rw [List.forall_mem_cons] at h
    have hrest := ih h.2 (word ++ [c])
    rw [List.append_assoc] at hrest
    exact scan_cons (hf word c h.1) hrest

theorem isNameStart_of_isName {cs : List Char} (h : isName cs = true) :
    ∃ c ds, cs = c :: ds ∧ isNameStart c = true ∧ ∀ d ∈ ds, isNameChar d = true := by
  cases cs with
  | nil => cases h
  | cons c ds =>
    simp only [isName, Bool.and_eq_true, List.all_eq_true] at h
    exact ⟨c, ds, rfl, h.1, h.2⟩

def escapedChars : List Char := ['&', '<', '>', '\"', '\'', '\t', '\n', '\r']

/-- An escaped character is a reference to it, or still itself and then nothing that could be
mistaken for markup. -/
theorem escapeChar_cases (c : Char) :
    (∃ word, escapeChar c = '&' :: (word ++ [';']) ∧ character? word = some c ∧
      ∀ d ∈ word, isReferenceChar d = true) ∨
    (escapeChar c = [c] ∧ c ∉ escapedChars) := by
  by_cases h : c ∈ escapedChars
  · left
    simp only [escapedChars, List.mem_cons, List.not_mem_nil, or_false] at h
    obtain rfl | rfl | rfl | rfl | rfl | rfl | rfl | rfl := h
    · exact ⟨['a', 'm', 'p'], by decide, by decide, by decide⟩
    · exact ⟨['l', 't'], by decide, by decide, by decide⟩
    · exact ⟨['g', 't'], by decide, by decide, by decide⟩
    · exact ⟨['q', 'u', 'o', 't'], by decide, by decide, by decide⟩
    · exact ⟨['a', 'p', 'o', 's'], by decide, by decide, by decide⟩
    · exact ⟨['#', '9'], by decide, by decide, by decide⟩
    · exact ⟨['#', '1', '0'], by decide, by decide, by decide⟩
    · exact ⟨['#', '1', '3'], by decide, by decide, by decide⟩
  · refine .inr ⟨?_, h⟩
    simp only [escapedChars, List.mem_cons, List.not_mem_nil, or_false, not_or] at h
    simp [escapeChar, h]

section
variable (t : Tag) (name : List Char) {mark : Char}

theorem scan_value_escapeChar (hm : mark = '\"' ∨ mark = '\'') (c : Char) (text : List Char) :
    scan (.value t name mark text) (escapeChar c) = some (.value t name mark (text ++ [c]), []) := by
  have hmark : mark ∈ escapedChars ∧ '&' ≠ mark := by
    obtain rfl | rfl := hm <;> decide
  obtain ⟨word, hc, hchar, hword⟩ | ⟨hc, hplain⟩ := escapeChar_cases c
  · rw [hc]
    have hamp : (Place.value t name mark text).step '&' =
        some (.valueReference t name mark text [], []) := by
      simp [Place.step, hmark.2]
    have hscan := scan_word (f := .valueReference t name mark text) (P := isReferenceChar)
      (fun w d hd => by simp [Place.step, hd]) hword []
    have hend : scan (.valueReference t name mark text word) [';'] =
        some (.value t name mark (text ++ [c]), []) := by
      have hsemicolon : isReferenceChar ';' = false := by decide
      simp [scan, Place.step, hsemicolon, hchar]
    exact scan_cons hamp (scan_append hscan hend)
  · rw [hc]
    have hne : c ≠ mark := fun he => hplain (he ▸ hmark.1)
    simp only [escapedChars, List.mem_cons, List.not_mem_nil, or_false, not_or] at hplain
    by_cases hs : c = ' '
    · subst hs
      simp [scan, Place.step, isSpace, hne]
    · simp [scan, Place.step, isSpace, hplain, hs, hne]

/-- A value is read as it was before it was escaped, whichever quotes are around it. -/
theorem scan_value_escape (hm : mark = '\"' ∨ mark = '\'') (cs text : List Char) :
    scan (.value t name mark text) (escape cs) = some (.value t name mark (text ++ cs), []) := by
  induction cs generalizing text with
  | nil => simp [scan]
  | cons c cs ih =>
    have hrest := ih (text ++ [c])
    rw [List.append_assoc] at hrest
    exact scan_append (scan_value_escapeChar t name hm c text) hrest

end

/-- The place behind the name and the attributes of a tag. -/
def behind (name : String) : List (String × String) → Place
  | [] => .tagName false name.toList
  | a :: as => .inTag ⟨false, name, a :: as⟩ false

theorem step_behind {name : String} (hn : isName name.toList = true)
    (attributes : List (String × String)) {c : Char} (hc : isNameChar c = false) :
    (behind name attributes).step c = tagStep ⟨false, name, attributes⟩ c := by
  cases attributes with
  | nil => simp [behind, Place.step, hc, hn]
  | cons a as => simp [behind, Place.step]

theorem scan_attribute {name : String} (hn : isName name.toList = true)
    (before : List (String × String)) {a : String × String} (ha : isName a.1.toList = true) :
    scan (behind name before) (attributeText a) = some (behind name (before ++ [a]), []) := by
  obtain ⟨c, ds, hname, hc, hds⟩ := isNameStart_of_isName ha
  have hspace : (behind name before).step ' ' = some (.inTag ⟨false, name, before⟩ true, []) := by
    rw [step_behind hn before (by decide)]
    simp [tagStep, isSpace]
  have hstart : (Place.inTag ⟨false, name, before⟩ true).step c =
      some (.attribute ⟨false, name, before⟩ [c], []) := by
    simp [Place.step, hc]
  have hword := scan_word (f := .attribute ⟨false, name, before⟩) (P := isNameChar)
    (fun w d hd => by simp [Place.step, hd]) hds [c]
  have hequals : (Place.attribute ⟨false, name, before⟩ a.1.toList).step '=' =
      some (.quote ⟨false, name, before⟩ a.1.toList, []) := by
    have hnot : isNameChar '=' = false := by decide
    simp [Place.step, hnot]
  have hquote : (Place.quote ⟨false, name, before⟩ a.1.toList).step '\"' =
      some (.value ⟨false, name, before⟩ a.1.toList '\"' [], []) := by
    simp [Place.step]
  have hvalue := scan_value_escape ⟨false, name, before⟩ a.1.toList (.inl rfl) a.2.toList []
  have hend : scan (.value ⟨false, name, before⟩ a.1.toList '\"' a.2.toList) ['\"'] =
      some (behind name (before ++ [a]), []) := by
    have hbehind : behind name (before ++ [a]) = .inTag ⟨false, name, before ++ [a]⟩ false := by
      cases before <;> rfl
    simp [scan, Place.step, hbehind]
  have hrest := scan_cons hequals (scan_cons hquote (scan_append hvalue hend))
  unfold attributeText
  rw [hname] at hrest ⊢
  exact scan_cons hspace (scan_cons hstart (scan_append hword hrest))

theorem scan_attributes {name : String} (hn : isName name.toList = true)
    {attributes : List (String × String)} (h : ∀ a ∈ attributes, isName a.1.toList = true)
    (before : List (String × String)) :
    scan (behind name before) (attributes.flatMap attributeText) =
      some (behind name (before ++ attributes), []) := by
  induction attributes generalizing before with
  | nil => simp [scan]
  | cons a as ih =>
    rw [List.forall_mem_cons] at h
    have hrest := ih h.2 (before ++ [a])
    rw [List.append_assoc] at hrest
    rw [List.flatMap_cons]
    exact scan_append (scan_attribute hn before h.1) hrest

theorem scan_tagStart {name : String} {attributes : List (String × String)}
    (h : SoundTag name attributes) :
    scan .content (tagStart name attributes) = some (behind name attributes, []) := by
  obtain ⟨c, ds, hname, hc, hds⟩ := isNameStart_of_isName h.name
  have hopen : Place.content.step '<' = some (.markup, []) := by decide
  have hstart : Place.markup.step c = some (.tagName false [c], []) := by
    have hne : c ≠ '/' ∧ c ≠ '?' ∧ c ≠ '!' := by
      refine ⟨?_, ?_, ?_⟩ <;> rintro rfl <;> revert hc <;> decide
    simp [Place.step, hne, hc]
  have hword : scan (.tagName false [c]) ds = some (behind name [], []) := by
    rw [behind, hname]
    exact scan_word (f := .tagName false) (fun w d hd => by simp [Place.step, hd]) hds [c]
  have hattributes := scan_attributes h.name h.names []
  unfold tagStart
  rw [hname]
  exact scan_cons hopen (scan_cons hstart (scan_append hword hattributes))

theorem scan_opens {name : String} {attributes : List (String × String)}
    (h : SoundTag name attributes) :
    scan .content (tagStart name attributes ++ ['>']) =
      some (.content, [.opens name attributes]) := by
  have hend : (behind name attributes).step '>' = some (.content, [.opens name attributes]) := by
    rw [step_behind h.name attributes (by decide)]
    simp [tagStep, isSpace]
  exact scan_append (scan_tagStart h) (scan_cons hend rfl)

theorem scan_bare {name : String} {attributes : List (String × String)}
    (h : SoundTag name attributes) :
    scan .content (tagStart name attributes ++ ['/', '>']) =
      some (.content, [.bare name attributes]) := by
  have hslash : (behind name attributes).step '/' =
      some (.expect ['>'] .content, [.bare name attributes]) := by
    rw [step_behind h.name attributes (by decide)]
    simp [tagStep, isSpace]
  have hend : (Place.expect ['>'] .content).step '>' = some (.content, []) := by decide
  exact scan_append (scan_tagStart h) (scan_cons hslash (scan_cons hend rfl))

theorem scan_closes {name : String} (h : isName name.toList = true) :
    scan .content (tagEnd name) = some (.content, [.closes name]) := by
  have hopen : Place.content.step '<' = some (.markup, []) := by decide
  have hslash : Place.markup.step '/' = some (.endName [], []) := by decide
  have hword := scan_word (f := .endName) (P := isNameChar)
    (fun w d hd => by simp [Place.step, hd]) (isNameChar_of_isName h) []
  have hend : (Place.endName name.toList).step '>' = some (.content, [.closes name]) := by
    have hnot : isNameChar '>' = false := by decide
    simp [Place.step, hnot, named, h]
  exact scan_cons hopen (scan_cons hslash (scan_append hword (scan_cons hend rfl)))

theorem scan_reference {word : List Char} (h : ∀ c ∈ word, isReferenceChar c = true) :
    scan .content ('&' :: (word ++ [';'])) = some (.content, [.reference word]) := by
  have hamp : Place.content.step '&' = some (.reference [], []) := by decide
  have hword := scan_word (f := .reference) (P := isReferenceChar)
    (fun w d hd => by simp [Place.step, hd]) h []
  have hend : (Place.reference word).step ';' = some (.content, [.reference word]) := by
    have hnot : isReferenceChar ';' = false := by decide
    simp [Place.step, hnot]
  exact scan_cons hamp (scan_append hword (scan_cons hend rfl))

theorem scan_char {c : Char} (h : c ∉ ['<', '&', '>']) :
    scan .content [c] = some (.content, [.char c]) := by
  simp only [List.mem_cons, List.not_mem_nil, or_false, not_or] at h
  simp [scan, Place.step, h]

end StyledMap.Xml
