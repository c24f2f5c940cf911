import StyledMap.Proofs.Xml.Lines

/-! Elements inside each other, told from the marks alone: an opening tag puts its name on top of those
that are open, and a closing tag takes the top one off. A writer is always as deep in as there are open
elements, so each mark is one line with two spaces for each element around it. -/
namespace StyledMap.Xml

/-- The name in an opening tag. -/
def tagName (tag : List Char) : String := String.ofList ((tag.drop 1).takeWhile isNameChar)

/-- The elements that are open behind a mark, the innermost first. -/
def Mark.opened (names : List String) : Mark → List String
  | .line _ => names
  | .opens t => tagName t :: names
  | .closes _ => names.tail

/-- The elements around a line. A closing tag stands outside of what it closes. -/
def Mark.around (names : List String) : Mark → List String
  | .line _ | .opens _ => names
  | .closes _ => names.tail

/-- The elements that are open behind marks. -/
def openBehind (ms : List Mark) : List String := ms.foldl Mark.opened []

/-- Only the innermost element is closed, by the tag of its name. -/
def Mark.Fits (names : List String) : Mark → Prop
  | .line _ | .opens _ => True
  | .closes t => ∃ name outer, names = name :: outer ∧ t = tagEnd name

def Nested : List String → List Mark → Prop
  | _, [] => True
  | names, m :: ms => m.Fits names ∧ Nested (m.opened names) ms

theorem nested_append {names : List String} {ms ns : List Mark} :
    Nested names (ms ++ ns) ↔ Nested names ms ∧ Nested (ms.foldl Mark.opened names) ns := by
  induction ms generalizing names with
  | nil => simp [Nested]
  | cons m ms ih => simp [Nested, ih, and_assoc]

/-- Marks that close what they open and nothing else, wherever they stand. -/
def Whole (ms : List Mark) : Prop := ∀ names, Nested names ms ∧ ms.foldl Mark.opened names = names

theorem Whole.nil : Whole [] := fun _ => ⟨trivial, rfl⟩

theorem Whole.line (t : List Char) : Whole [.line t] := fun _ => ⟨⟨trivial, trivial⟩, rfl⟩

theorem Whole.append {ms ns : List Mark} (h : Whole ms) (hn : Whole ns) : Whole (ms ++ ns) := by
  intro names
  obtain ⟨hnested, hback⟩ := h names
  rw [nested_append, List.foldl_append, hback]
  exact ⟨⟨hnested, (hn names).1⟩, (hn names).2⟩

theorem tagName_tagStart {name : String} (h : isName name.toList = true)
    (attributes : List (String × String)) : tagName (tagStart name attributes ++ ['>']) = name := by
  -- Behind the name comes the space of the first attribute, or the end of the tag.
  have hend : (attributes.flatMap attributeText ++ ['>']).takeWhile isNameChar = [] := by
    cases attributes with
    | nil => decide
    | cons a as =>
      have hspace : isNameChar ' ' = false := by decide
      simp [attributeText, hspace]
  have hword : (name.toList ++ (attributes.flatMap attributeText ++ ['>'])).takeWhile isNameChar =
      name.toList := by
    rw [List.takeWhile_append_of_pos (isNameChar_of_isName h), hend, List.append_nil]
  simp only [tagName, tagStart, List.cons_append, List.append_assoc, List.drop_succ_cons, List.drop_zero]
  rw [hword, String.ofList_toList]

theorem Whole.group {name : String} (hn : isName name.toList = true)
    (attributes : List (String × String)) {ms : List Mark} (h : Whole ms) :
    Whole (.opens (tagStart name attributes ++ ['>']) :: (ms ++ [.closes (tagEnd name)])) := by
  intro names
  obtain ⟨hnested, hback⟩ := h (name :: names)
  have hname := tagName_tagStart hn attributes
  have hcloses : Nested (name :: names) [.closes (tagEnd name)] := ⟨⟨name, names, rfl, rfl⟩, trivial⟩
  have hinside : Nested (name :: names) (ms ++ [.closes (tagEnd name)]) := by
    rw [nested_append, hback]
    exact ⟨hnested, hcloses⟩
  refine ⟨⟨trivial, ?_⟩, ?_⟩
  · rw [Mark.opened, hname]
    exact hinside
  · rw [List.foldl_cons, Mark.opened, hname, List.foldl_append, hback]
    rfl

/-- An item whose names are names. Its values and texts may hold any characters. -/
inductive Item.Named : Item → Prop where
  | bare {name : String} {attributes : List (String × String)} (h : isName name.toList = true)
      (ha : ∀ a ∈ attributes, isName a.1.toList = true) : Named (.bare name attributes)
  | field {name content : String} {attributes : List (String × String)}
      (h : isName name.toList = true) (ha : ∀ a ∈ attributes, isName a.1.toList = true) :
      Named (.field name attributes content)
  | group {name : String} {attributes : List (String × String)} {items : List Item}
      (h : isName name.toList = true) (ha : ∀ a ∈ attributes, isName a.1.toList = true)
      (hi : ∀ i ∈ items, Named i) : Named (.group name attributes items)
  | reference {entity : String} (h : isName entity.toList = true) : Named (.reference entity)

theorem lineEnd_not_mem_of_isName {cs : List Char} (h : isName cs = true) : '\n' ∉ cs := by
  intro hmem
  exact absurd (isNameChar_of_isName h '\n' hmem) (by decide)

theorem Item.Named.lined {i : Item} (h : i.Named) : i.Lined := by
  induction h with
  | bare h ha => exact .bare (lineEnd_not_mem_of_isName h) (fun a hm => lineEnd_not_mem_of_isName (ha a hm))
  | field h ha => exact .field (lineEnd_not_mem_of_isName h) (fun a hm => lineEnd_not_mem_of_isName (ha a hm))
  | group h ha _ ih =>
    exact .group (lineEnd_not_mem_of_isName h) (fun a hm => lineEnd_not_mem_of_isName (ha a hm)) ih
  | reference h => exact .reference (lineEnd_not_mem_of_isName h)

theorem whole_allMarks {items : List Item} (h : ∀ i ∈ items, Whole i.marks) :
    Whole (Item.allMarks items) := by
  induction items with
  | nil => exact .nil
  | cons i is ih =>
    rw [List.forall_mem_cons] at h
    exact h.1.append (ih h.2)

theorem Item.Named.whole {i : Item} (h : i.Named) : Whole i.marks := by
  induction h with
  | bare | field | reference => exact .line _
  | @group _ attributes _ h _ _ ih => exact .group h attributes (whole_allMarks ih)

namespace Writer

/-- One call keeps the depth at the number of open elements. -/
theorem depth_write {w : Writer} {names : List String} (h : w.depth = names.length) (m : Mark) :
    (w.write m).depth = (m.opened names).length := by
  cases m with
  | line t => exact h
  | opens t => simp [write, Mark.opened, h]
  | closes t => simp [write, line, Mark.opened, h]

/-- So it stays there in every run. -/
theorem depth_foldl_write (ms : List Mark) {w : Writer} {names : List String}
    (h : w.depth = names.length) : (ms.foldl write w).depth = (ms.foldl Mark.opened names).length := by
  induction ms generalizing w names with
  | nil => exact h
  | cons m ms ih => exact ih (depth_write h m)

theorem text_foldl_write (ms : List Mark) (w : Writer) :
    (ms.foldl write w).text = w.text ++ layout w.depth ms := by
  induction ms generalizing w with
  | nil => simp [layout]
  | cons m ms ih => cases m <;> simp [ih, write, line, layout]

end Writer

/-- The line of a mark among open elements. -/
def Mark.row (names : List String) (m : Mark) : List Char :=
  List.replicate (2 * (m.around names).length) ' ' ++ m.text

theorem rows_cons (names : List String) (m : Mark) (ms : List Mark) :
    rows names.length (m :: ms) = m.row names :: rows (m.opened names).length ms := by
  cases m with
  | line t | opens t => rfl
  | closes t => simp [rows, Mark.row, Mark.around, Mark.opened, Mark.text]

/-- Each mark has its line at its own place. -/
theorem getElem?_rows (before after : List Mark) (m : Mark) (names : List String) :
    (rows names.length (before ++ m :: after))[before.length]? =
      some (m.row (before.foldl Mark.opened names)) := by
  induction before generalizing names with
  | nil => simp [rows_cons]
  | cons b before ih =>
    rw [List.cons_append, rows_cons, List.length_cons, List.getElem?_cons_succ]
    exact ih (b.opened names)

theorem length_rows (depth : Nat) (ms : List Mark) : (rows depth ms).length = ms.length := by
  induction ms generalizing depth with
  | nil => rfl
  | cons m ms ih => cases m <;> simp [rows, ih]

theorem count_lineEnds {rs : List (List Char)} (h : ∀ r ∈ rs, '\n' ∉ r) :
    (rs.flatMap (· ++ ['\n'])).count '\n' = rs.length := by
  induction rs with
  | nil => rfl
  | cons r rs ih =>
    rw [List.forall_mem_cons] at h
    rw [List.flatMap_cons, List.count_append, ih h.2]
    simp [List.count_eq_zero.2 h.1, Nat.add_comm]

/-- What comes of calls to a writer, from an empty text on. -/
structure Orderly (calls : List Mark) (text : List Char) : Prop where
  /-- The calls write the text, and in the end the writer is as far out as it began. -/
  written : calls.foldl Writer.write ⟨[], 0⟩ = ⟨text, 0⟩
  /-- At every point the depth is the number of open elements. -/
  depth : ∀ before after, calls = before ++ after →
    (before.foldl Writer.write ⟨[], 0⟩).depth = (openBehind before).length
  /-- What is closed is the element that was opened last of those still open, so that the depth is not 0. -/
  closes : ∀ before t after, calls = before ++ .closes t :: after →
    (∃ name outer, openBehind before = name :: outer ∧ t = tagEnd name) ∧
      1 ≤ (before.foldl Writer.write ⟨[], 0⟩).depth
  /-- Every element is closed. -/
  closed : openBehind calls = []
  /-- Every call has one line of the text, two spaces in for each element around it. -/
  row : ∀ before m after, calls = before ++ m :: after →
    (lines text)[before.length]? = some (m.row (openBehind before))
  /-- There are no other lines, and the text ends with the last one. -/
  length : (lines text).length = calls.length
  ends : text = (lines text).flatMap (· ++ ['\n'])
  count : text.count '\n' = calls.length

theorem Whole.orderly {ms : List Mark} (h : Whole ms) (hl : ∀ m ∈ ms, '\n' ∉ m.text) :
    Orderly ms (layout 0 ms) := by
  have hstart : (⟨[], 0⟩ : Writer).depth = ([] : List String).length := rfl
  have hdepth (before : List Mark) :
      (before.foldl Writer.write ⟨[], 0⟩).depth = (openBehind before).length :=
    Writer.depth_foldl_write before hstart
  have hclosed : openBehind ms = [] := (h []).2
  have hrows := not_mem_rows hl 0
  have hlines : lines (layout 0 ms) = rows 0 ms := by
    rw [layout_eq, lines_flatMap hrows]
  have hcount : (layout 0 ms).count '\n' = ms.length := by
    rw [layout_eq, count_lineEnds hrows, length_rows]
  refine ⟨?_, fun before _ _ => hdepth before, ?_, hclosed, ?_, ?_, ?_, hcount⟩
  · have hend := hdepth ms
    rw [hclosed] at hend
    have htext := Writer.text_foldl_write ms ⟨[], 0⟩
    exact congrArg₂ Writer.mk htext hend
  · intro before t after hms
    have hnested := (h []).1
    rw [hms, nested_append] at hnested
    obtain ⟨name, outer, hopen, ht⟩ := hnested.2.1
    refine ⟨⟨name, outer, hopen, ht⟩, ?_⟩
    have hnames : openBehind before = name :: outer := hopen
    rw [hdepth, hnames, List.length_cons]
    omega
  · intro before m after hms
    rw [hlines, hms]
    exact getElem?_rows before after m []
  · rw [hlines, length_rows]
  · rw [hlines]
    exact layout_eq 0 ms

end StyledMap.Xml
