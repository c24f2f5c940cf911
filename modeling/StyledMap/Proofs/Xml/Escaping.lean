import Mathlib.Data.List.Basic
import StyledMap.Proofs.Xml.Reading

/-! Escaping and back. Each character is replaced on its own, so that texts can be escaped in parts or in
two passes; an ampersand that is left begins one of the replacements, and reading gives the text as it was,
whatever it looks like. -/
namespace StyledMap.Xml

/-- What the characters of markup are replaced with. -/
def predefined : List (Char × String) :=
  [('&', "&amp;"), ('<', "&lt;"), ('>', "&gt;"), ('\"', "&quot;"), ('\'', "&apos;")]

/-- What tabs and line ends are replaced with. -/
def numeric : List (Char × String) := [('\t', "&#9;"), ('\n', "&#10;"), ('\r', "&#13;")]

def substitutes : List (Char × String) := predefined ++ numeric

/-- A character of a table is replaced, any other is left alone. -/
def substitute (table : List (Char × String)) (c : Char) : List Char :=
  match table.lookup c with
  | some r => r.toList
  | none => [c]

theorem lookup_of_not_mem {table : List (Char × String)} {c : Char} (h : c ∉ table.map (·.1)) :
    table.lookup c = none := by
  rw [List.lookup_eq_none_iff]
  intro p hp
  have hne : c ≠ p.1 := fun he => h (he ▸ List.mem_map_of_mem hp)
  simpa using hne

theorem substitute_of_not_mem {table : List (Char × String)} {c : Char} (h : c ∉ table.map (·.1)) :
    substitute table c = [c] := by
  rw [substitute, lookup_of_not_mem h]

theorem substitute_of_mem {c : Char} (h : c ∈ substitutes.map (·.1)) :
    ∃ p ∈ substitutes, substitute substitutes c = p.2.toList := by
  have hall : ∀ p ∈ substitutes, substitute substitutes p.1 = p.2.toList := by decide
  obtain ⟨p, hp, rfl⟩ := List.mem_map.1 h
  exact ⟨p, hp, hall p hp⟩

theorem escapeChar_eq (c : Char) : escapeChar c = substitute substitutes c := by
  by_cases h : c ∈ substitutes.map (·.1)
  · have hall : ∀ c ∈ substitutes.map (·.1), escapeChar c = substitute substitutes c := by decide
    exact hall c h
  · rw [substitute_of_not_mem h]
    simp only [substitutes, predefined, numeric, List.cons_append, List.nil_append, List.map_cons,
      List.map_nil, List.mem_cons, List.not_mem_nil, or_false, not_or] at h
    simp [escapeChar, h]

/-- Escaping is one replacement for each character, by a table of eight. -/
theorem escape_eq (cs : List Char) : escape cs = cs.flatMap (substitute substitutes) :=
  congrArg cs.flatMap (funext escapeChar_eq)

/-- An ampersand in a replacement is its first character. -/
theorem eq_nil_of_substitute {c : Char} {before after : List Char}
    (h : substitute substitutes c = before ++ '&' :: after) :
    before = [] ∧ ∃ p ∈ substitutes, p.2.toList = '&' :: after := by
  have htails : ∀ p ∈ substitutes, '&' ∉ p.2.toList.tail := by decide
  by_cases hc : c ∈ substitutes.map (·.1)
  · obtain ⟨p, hp, hword⟩ := substitute_of_mem hc
    rw [hword] at h
    cases before with
    | nil => exact ⟨rfl, p, hp, h⟩
    | cons b before =>
      have htail := htails p hp
      simp [h] at htail
  · have hamp : c ≠ '&' := by
      rintro rfl
      exact hc (by decide)
    rw [substitute_of_not_mem hc] at h
    cases before with
    | nil => exact absurd (List.cons.inj h).1 hamp
    | cons b before => simp at h

theorem ampersand_begins {s before after : List Char} (h : escape s = before ++ '&' :: after) :
    ∃ p ∈ substitutes, p.2.toList <+: '&' :: after := by
  induction s generalizing before with
  | nil => simp at h
  | cons c s ih =>
    rw [escape_cons, escapeChar_eq, List.append_eq_append_iff] at h
    -- The ampersand stands behind the first replacement, or in it.
    obtain ⟨between, -, hrest⟩ | ⟨between, hc, hrest⟩ := h
    · exact ih hrest
    · cases between with
      | nil =>
        have hfirst : escape s = [] ++ '&' :: after := hrest.symm
        exact ih hfirst
      | cons b between =>
        obtain rfl := (List.cons.inj hrest).1
        obtain ⟨-, p, hp, hword⟩ := eq_nil_of_substitute hc
        rw [hrest, ← hword]
        exact ⟨p, hp, List.prefix_append _ _⟩

/-- A first pass that replaces markup and nothing else. -/
def EscapesMarkup (f : List Char → List Char) : Prop :=
  ∀ cs, f cs = cs.flatMap (substitute predefined)

/-- The second pass. -/
def escapeBreaks (cs : List Char) : List Char := cs.flatMap (substitute numeric)

/-- Escaping in two passes. The second is left out if there is nothing to do in it. -/
def escapeBy (f : List Char → List Char) (cs : List Char) : List Char :=
  if (f cs).any (fun c => c == '\t' || c == '\n' || c == '\r') then escapeBreaks (f cs) else f cs

theorem substitute_twice (c : Char) :
    (substitute predefined c).flatMap (substitute numeric) = substitute substitutes c := by
  by_cases h : c ∈ predefined.map (·.1)
  · have hall : ∀ c ∈ predefined.map (·.1),
        (substitute predefined c).flatMap (substitute numeric) = substitute substitutes c := by decide
    exact hall c h
  · rw [substitute_of_not_mem h, List.flatMap_singleton, substitute, substitute, substitutes,
      List.lookup_append, lookup_of_not_mem h, Option.none_or]

section
variable {f : List Char → List Char} (h : EscapesMarkup f)
include h

theorem EscapesMarkup.escapeBreaks_eq (cs : List Char) : escapeBreaks (f cs) = escape cs := by
  rw [h cs, escapeBreaks, List.flatMap_assoc, escape_eq]
  exact congrArg cs.flatMap (funext substitute_twice)

/-- Left out or not, the second pass makes no difference where it has nothing to do. -/
theorem EscapesMarkup.escapeBy_eq (cs : List Char) : escapeBy f cs = escape cs := by
  have hboth := h.escapeBreaks_eq cs
  unfold escapeBy
  split
  · exact hboth
  · rename_i hnone
    have hplain : ∀ c ∈ f cs, substitute numeric c = [c] := by
      intro c hc
      refine substitute_of_not_mem fun hmem => hnone (List.any_eq_true.2 ⟨c, hc, ?_⟩)
      have hall : ∀ c ∈ numeric.map (·.1), (c == '\t' || c == '\n' || c == '\r') = true := by decide
      exact hall c hmem
    rw [← hboth, escapeBreaks, List.flatMap_congr hplain, List.flatMap_singleton']

end

/-- What stands between two quotes, as the value of an attribute: line ends are made alike, blanks become
spaces, and references are resolved. -/
def attributeValue? (mark : Char) (cs : List Char) : Option (List Char) :=
  match scan (.value ⟨false, "", []⟩ [] mark []) (lineEnds false cs) with
  | some (.value _ _ _ text, _) => some text
  | _ => none

def Piece.char? : Piece → Option Char
  | .char c => some c
  | .element _ => none

/-- What stands between two tags, as the text of an element that holds nothing else. -/
def elementText? (entities : Entities) (cs : List Char) : Option (List Char) :=
  match scan .content (lineEnds false cs) with
  | some (.content, ts) => do
    let inside ← ts.foldlM (fill entities) ⟨[], [⟨"", [], []⟩]⟩
    if inside.frames.length = 1 then inside.pieces.mapM Piece.char? else none
  | _ => none

theorem mapM_char? (cs : List Char) : (cs.map Piece.char).mapM Piece.char? = some cs := by
  induction cs with
  | nil => rfl
  | cons c cs ih => simp [List.mapM_cons, Piece.char?, ih]

theorem lineEnds_escape (s : List Char) : lineEnds false (escape s) = escape s :=
  lineEnds_of_not_mem (not_mem_escape (by decide) s)

theorem attributeValue?_escape {mark : Char} (hm : mark = '\"' ∨ mark = '\'') (s : List Char) :
    attributeValue? mark (escape s) = some s := by
  rw [attributeValue?, lineEnds_escape, scan_value_escape _ _ hm]
  rfl

theorem elementText?_escape (entities : Entities) (s : List Char) :
    elementText? entities (escape s) = some s := by
  have hreads : Reads entities (escape s) ⟨[], [⟨"", [], []⟩]⟩ ⟨s.map .char, [⟨"", [], []⟩]⟩ :=
    reads_escape (List.cons_ne_nil _ _) s
  obtain ⟨ts, hscan, hfill⟩ := hreads
  rw [elementText?, lineEnds_escape, hscan]
  dsimp only
  rw [hfill]
  exact mapM_char? s

-- Without escaping, blanks and line ends would not come back as they are.
example : attributeValue? '\"' "a\tb\r\n".toList = some "a b ".toList := by decide
example : elementText? [] "a\tb\r\n".toList = some "a\tb\n".toList := by decide

/-- Escaping replaces eight characters, each on its own. What is left of them is ampersands, and each of these
begins a replacement. A first pass over the markup and a second over tabs and line ends come to the same,
also if the second is only made where it is needed. As the value of an attribute or as the text of an
element the text is read again, whichever entities are declared. -/
theorem escape_reversible :
    (∀ s, escape s = s.flatMap (substitute substitutes)) ∧
    (∀ s t, escape (s ++ t) = escape s ++ escape t) ∧
    (∀ s, ∀ c ∈ replaced, c ∉ escape s) ∧
    (∀ s before after, escape s = before ++ '&' :: after →
      ∃ p ∈ substitutes, p.2.toList <+: '&' :: after) ∧
    (∀ f, EscapesMarkup f → ∀ s, escapeBreaks (f s) = escape s ∧ escapeBy f s = escape s) ∧
    (∀ mark, mark = '\"' ∨ mark = '\'' → ∀ s, attributeValue? mark (escape s) = some s) ∧
    ∀ entities s, elementText? entities (escape s) = some s :=
  ⟨escape_eq, escape_append, fun s _ hc => not_mem_escape hc s, fun _ _ _ => ampersand_begins,
    fun _ hf s => ⟨hf.escapeBreaks_eq s, hf.escapeBy_eq s⟩, fun _ => attributeValue?_escape,
    elementText?_escape⟩

/-- A text that looks like references, one of them to an entity that is declared. -/
theorem escape_reversible_lookalikes :
    let f := fun cs => cs.flatMap (substitute predefined)
    let s := "&maxscale_zoom0;\t&amp;".toList
    EscapesMarkup f ∧ escapeBy f s = escape s ∧
      escape s = "&amp;maxscale_zoom0;".toList ++ '&' :: "#9;&amp;amp;".toList ∧
      (∃ p ∈ substitutes, p.2.toList <+: '&' :: "#9;&amp;amp;".toList) ∧
      attributeValue? '\"' (escape s) = some s ∧
      elementText? [("maxscale_zoom0", [.char 'x'])] (escape s) = some s := by
  intro f s
  have hf : EscapesMarkup f := fun _ => rfl
  have hs : escape s = "&amp;maxscale_zoom0;".toList ++ '&' :: "#9;&amp;amp;".toList := by decide
  obtain ⟨-, -, -, hbegins, htwice, hvalue, htext⟩ := escape_reversible
  exact ⟨hf, (htwice f hf s).2, hs, hbegins s _ _ hs, hvalue _ (.inl rfl) s, htext _ s⟩

end StyledMap.Xml
