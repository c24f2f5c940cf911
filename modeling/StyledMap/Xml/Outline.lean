import StyledMap.Xml.Escape

/-! Documents as items, one tag a line. An item turns into marks: lines, lines that open a group and
lines that close it. Laid out, every mark is one line, indented by two spaces for each open group. -/
namespace StyledMap.Xml

inductive Item where
  /-- An element without content. -/
  | bare (name : String) (attributes : List (String × String))
  /-- An element with text, on one line. -/
  | field (name : String) (attributes : List (String × String)) (content : String)
  /-- An element around others, its tags on lines of their own. -/
  | group (name : String) (attributes : List (String × String)) (items : List Item)
  /-- A reference to an entity that the document declares. -/
  | reference (entity : String)

inductive Mark where
  | line (text : List Char)
  | opens (text : List Char)
  | closes (text : List Char)
  deriving Repr, DecidableEq

def attributeText (a : String × String) : List Char :=
  ' ' :: (a.1.toList ++ '=' :: '\"' :: (escape a.2.toList ++ ['\"']))

/-- A tag from its name on, before the bracket that ends it. -/
def tagStart (name : String) (attributes : List (String × String)) : List Char :=
  '<' :: (name.toList ++ attributes.flatMap attributeText)

def tagEnd (name : String) : List Char := '<' :: '/' :: (name.toList ++ ['>'])

mutual

def Item.marks : Item → List Mark
  | .bare name attributes => [.line (tagStart name attributes ++ ['/', '>'])]
  | .field name attributes content =>
    [.line (tagStart name attributes ++ '>' :: (escape content.toList ++ tagEnd name))]
  | .group name attributes items =>
    .opens (tagStart name attributes ++ ['>']) :: (Item.allMarks items ++ [.closes (tagEnd name)])
  | .reference entity => [.line ('&' :: (entity.toList ++ [';']))]

def Item.allMarks : List Item → List Mark
  | [] => []
  | i :: is => i.marks ++ Item.allMarks is

end

/-- One line at a depth of groups. -/
def line (depth : Nat) (text : List Char) : List Char :=
  List.replicate (2 * depth) ' ' ++ (text ++ ['\n'])

/-- Marks laid out from a depth on. A group is closed at the depth it was opened at. -/
def layout (depth : Nat) : List Mark → List Char
  | [] => []
  | .line t :: ms => line depth t ++ layout depth ms
  | .opens t :: ms => line depth t ++ layout (depth + 1) ms
  | .closes t :: ms => line (depth - 1) t ++ layout (depth - 1) ms

def Item.text (i : Item) : String := String.ofList (layout 0 i.marks)

end StyledMap.Xml
