import StyledMap.Proofs.Xml.Sound
import StyledMap.Text.Split

/-! Documents line by line. Every mark is one line, as no text in a document has a line end, and what is
opened is closed again, so that items come out the same at every depth but for the spaces in front. -/
namespace StyledMap.Xml

/-- The lines that marks are laid out in, without their ends. -/
def rows (depth : Nat) : List Mark → List (List Char)
  | [] => []
  | .line t :: ms => (List.replicate (2 * depth) ' ' ++ t) :: rows depth ms
  | .opens t :: ms => (List.replicate (2 * depth) ' ' ++ t) :: rows (depth + 1) ms
  | .closes t :: ms => (List.replicate (2 * (depth - 1)) ' ' ++ t) :: rows (depth - 1) ms

/-- The lines of a text that ends with one. -/
def lines (cs : List Char) : List (List Char) := (Text.split '\n' cs).dropLast

/-- A line with spaces in front. -/
def spaced (spaces : Nat) (t : List Char) : List Char := List.replicate spaces ' ' ++ (t ++ ['\n'])

/-- A text with spaces in front of every line of it. -/
def indented (spaces : Nat) (cs : List Char) : List Char := (lines cs).flatMap (spaced spaces)

theorem line_eq (depth : Nat) : line depth = spaced (2 * depth) := rfl

theorem layout_eq (depth : Nat) (ms : List Mark) :
    layout depth ms = (rows depth ms).flatMap (· ++ ['\n']) := by
  induction ms generalizing depth with
  | nil => rfl
  | cons m ms ih => cases m <;> simp [layout, rows, line, ih]

theorem lines_flatMap {rs : List (List Char)} (h : ∀ r ∈ rs, '\n' ∉ r) :
    lines (rs.flatMap (· ++ ['\n'])) = rs := by
  have hsplit : Text.split '\n' (rs.flatMap (· ++ ['\n'])) = rs ++ [[]] := by
    induction rs with
    | nil => rfl
    | cons r rs ih =>
      rw [List.forall_mem_cons] at h
      have hline : (r :: rs).flatMap (· ++ ['\n']) = r ++ '\n' :: rs.flatMap (· ++ ['\n']) := by
        simp
      rw [hline, Text.split_append_sep, Text.split_of_not_mem h.1, ih h.2]
      rfl
  rw [lines, hsplit, List.dropLast_concat]

/-- What was opened last is closed first. -/
inductive Balanced : List Mark → Prop where
  | nil : Balanced []
  | line (t : List Char) {ms : List Mark} (h : Balanced ms) : Balanced (.line t :: ms)
  | group (name : String) (attributes : List (String × String)) {ms rest : List Mark}
      (h : Balanced ms) (hrest : Balanced rest) :
      Balanced (.opens (tagStart name attributes ++ ['>']) :: (ms ++ .closes (tagEnd name) :: rest))

theorem Balanced.append {ms ns : List Mark} (h : Balanced ms) (hn : Balanced ns) :
    Balanced (ms ++ ns) := by
  induction h with
  | nil => exact hn
  | line t _ ih => exact .line t ih
  | group name attributes h _ _ ih =>
    rw [List.cons_append, List.append_assoc, List.cons_append]
    exact .group name attributes h ih

theorem allMarks_append (is js : List Item) :
    Item.allMarks (is ++ js) = Item.allMarks is ++ Item.allMarks js := by
  induction is with
  | nil => rfl
  | cons i is ih => simp [Item.allMarks, ih]

mutual

theorem Item.balanced : (i : Item) → Balanced i.marks
  | .bare _ _ | .field _ _ _ | .reference _ => .line _ .nil
  | .group name attributes items => .group name attributes (Item.balanced_allMarks items) .nil

theorem Item.balanced_allMarks : (is : List Item) → Balanced (Item.allMarks is)
  | [] => .nil
  | i :: is => (Item.balanced i).append (Item.balanced_allMarks is)

end

section
variable {ms ns : List Mark}

theorem Balanced.rows_append (h : Balanced ms) (depth : Nat) :
    rows depth (ms ++ ns) = rows depth ms ++ rows depth ns := by
  induction h generalizing depth ns with
  | nil => rfl
  | line t _ ih => simp [rows, ih]
  | group name attributes _ _ ih ihrest => simp [rows, ih, ihrest]

theorem Balanced.layout_append (h : Balanced ms) (depth : Nat) :
    layout depth (ms ++ ns) = layout depth ms ++ layout depth ns := by
  simp [layout_eq, h.rows_append]

theorem layout_allMarks (depth : Nat) (is : List Item) :
    layout depth (Item.allMarks is) = is.flatMap (fun i => layout depth i.marks) := by
  induction is with
  | nil => rfl
  | cons i is ih => rw [Item.allMarks, i.balanced.layout_append, ih, List.flatMap_cons]

/-- Deeper down, all lines are the same with more spaces in front. -/
theorem Balanced.rows_add (h : Balanced ms) (depth more : Nat) :
    rows (depth + more) ms = (rows depth ms).map (List.replicate (2 * more) ' ' ++ ·) := by
  have hspaces (n : Nat) (t : List Char) : List.replicate (2 * (n + more)) ' ' ++ t =
      List.replicate (2 * more) ' ' ++ (List.replicate (2 * n) ' ' ++ t) := by
    rw [← List.append_assoc, List.replicate_append_replicate, Nat.mul_add, Nat.add_comm]
  induction h generalizing depth with
  | nil => rfl
  | line t _ ih => simp [rows, ih, hspaces]
  | @group name attributes ms rest h _ ih ihrest =>
    have hdeeper : depth + more + 1 = depth + 1 + more := by omega
    simp [rows, h.rows_append, hdeeper, ih, ihrest, hspaces]

theorem not_mem_rows (h : ∀ m ∈ ms, '\n' ∉ m.text) (depth : Nat) : ∀ r ∈ rows depth ms, '\n' ∉ r := by
  have hrow {t : List Char} (ht : '\n' ∉ t) (n : Nat) : '\n' ∉ List.replicate n ' ' ++ t := by
    simp [ht]
  induction ms generalizing depth with
  | nil => simp [rows]
  | cons m ms ih =>
    rw [List.forall_mem_cons] at h
    cases m <;> exact List.forall_mem_cons.2 ⟨hrow h.1 _, ih h.2 _⟩

/-- Laid out at some depth, items are what they are on their own, each line moved in. -/
theorem Balanced.layout_eq_indented (h : Balanced ms) (hm : ∀ m ∈ ms, '\n' ∉ m.text) (depth : Nat) :
    layout depth ms = indented (2 * depth) (layout 0 ms) := by
  have hlines : lines (layout 0 ms) = rows 0 ms := by
    rw [layout_eq, lines_flatMap (not_mem_rows hm 0)]
  have hline : ((· ++ ['\n']) ∘ (List.replicate (2 * depth) ' ' ++ ·)) = spaced (2 * depth) := by
    funext t
    exact List.append_assoc _ _ _
  rw [indented, hlines, layout_eq, ← Nat.zero_add depth, h.rows_add, List.flatMap_map, Nat.zero_add]
  exact congrArg (fun f => (rows 0 ms).flatMap f) hline

end

/-- What stands in no escaped text. -/
def replaced : List Char := ['<', '>', '\"', '\'', '\t', '\n', '\r']

theorem not_mem_escape {d : Char} (hd : d ∈ replaced) (cs : List Char) : d ∉ escape cs := by
  have hmarked : ∀ c ∈ '&' :: replaced, ∀ d ∈ replaced, d ∉ escapeChar c := by decide
  have hchar (c : Char) : d ∉ escapeChar c := by
    by_cases hc : c ∈ '&' :: replaced
    · exact hmarked c hc d hd
    · have hplain : escapeChar c = [c] := by
        simp only [replaced, List.mem_cons, List.not_mem_nil, or_false, not_or] at hc
        simp [escapeChar, hc]
      rw [hplain, List.mem_singleton]
      rintro rfl
      exact hc (List.mem_cons_of_mem _ hd)
  simpa [escape] using fun c _ => hchar c

/-- The names of an item have no line ends. Its values may have some. -/
inductive Item.Lined : Item → Prop where
  | bare {name : String} {attributes : List (String × String)} (h : '\n' ∉ name.toList)
      (ha : ∀ a ∈ attributes, '\n' ∉ a.1.toList) : Lined (.bare name attributes)
  | field {name content : String} {attributes : List (String × String)} (h : '\n' ∉ name.toList)
      (ha : ∀ a ∈ attributes, '\n' ∉ a.1.toList) : Lined (.field name attributes content)
  | group {name : String} {attributes : List (String × String)} {items : List Item}
      (h : '\n' ∉ name.toList) (ha : ∀ a ∈ attributes, '\n' ∉ a.1.toList)
      (hi : ∀ i ∈ items, Lined i) : Lined (.group name attributes items)
  | reference {entity : String} (h : '\n' ∉ entity.toList) : Lined (.reference entity)

theorem lineEnd_not_mem_tagStart {name : String} {attributes : List (String × String)}
    (h : '\n' ∉ name.toList) (ha : ∀ a ∈ attributes, '\n' ∉ a.1.toList) :
    '\n' ∉ tagStart name attributes := by
  have hattribute : ∀ a ∈ attributes, '\n' ∉ attributeText a := by
    intro a hmem
    simp [attributeText, ha a hmem, not_mem_escape (show '\n' ∈ replaced by decide)]
  simpa [tagStart, h] using hattribute

theorem Item.Lined.lineEnd_not_mem {i : Item} (h : i.Lined) : ∀ m ∈ i.marks, '\n' ∉ m.text := by
  have htagEnd {name : String} (h : '\n' ∉ name.toList) : '\n' ∉ tagEnd name := by
    simp [tagEnd, h]
  induction h with
  | bare h ha => simp [Item.marks, Mark.text, lineEnd_not_mem_tagStart h ha]
  | field h ha =>
    simp [Item.marks, Mark.text, lineEnd_not_mem_tagStart h ha, htagEnd h,
      not_mem_escape (show '\n' ∈ replaced by decide)]
  | group h ha _ ih =>
    intro m hm
    simp only [Item.marks, List.mem_cons, List.mem_append, List.not_mem_nil, or_false,
      mem_allMarks] at hm
    obtain rfl | ⟨i, hi, hm⟩ | rfl := hm
    · simp [Mark.text, lineEnd_not_mem_tagStart h ha]
    · exact ih i hi m hm
    · exact htagEnd h
  | reference h => simp [Item.marks, Mark.text, h]

/-- An item is the same inside a document as on its own. -/
theorem Item.Lined.layout_marks {i : Item} (h : i.Lined) (depth : Nat) :
    layout depth i.marks = indented (2 * depth) i.text.toList := by
  rw [Item.text, String.toList_ofList]
  exact i.balanced.layout_eq_indented h.lineEnd_not_mem depth

/-- A text that is being written, and how many groups are open in it. -/
structure Writer where
  text : List Char
  depth : Nat

namespace Writer

def line (w : Writer) (t : List Char) : Writer := ⟨w.text ++ Xml.line w.depth t, w.depth⟩

/-- Writes one line. A group that is opened holds the lines after it, until it is closed. -/
def write (w : Writer) : Mark → Writer
  | .line t => w.line t
  | .opens t => ⟨(w.line t).text, w.depth + 1⟩
  | .closes t => (⟨w.text, w.depth - 1⟩ : Writer).line t

/-- The writer with something more in its text. -/
def add (w : Writer) (cs : List Char) : Writer := ⟨w.text ++ cs, w.depth⟩

/-- Groups that are opened and closed again are laid out at the depth of the writer. -/
theorem foldl_write {ms : List Mark} (h : Balanced ms) (w : Writer) :
    ms.foldl write w = w.add (layout w.depth ms) := by
  induction h generalizing w with
  | nil => simp [layout, add]
  | line t _ ih => simp [ih, write, line, layout, add]
  | group name attributes h _ ih ihrest =>
    simp [ih, ihrest, write, line, layout, add, h.layout_append]

end Writer

end StyledMap.Xml
