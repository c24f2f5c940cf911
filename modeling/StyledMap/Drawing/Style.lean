/-! Styles: named lists of rules, each with the symbolizers drawn where its filter holds and the scale
is in its window. -/
namespace StyledMap

/-- The four ways to draw: fill an area, fill it with a pattern, stroke a line, set a label. -/
inductive Symbolizer.Kind where
  | polygon
  | polygonPattern
  | line
  | text
  deriving Repr, DecidableEq

/-- One drawing instruction, its parameters in the order given. -/
structure Symbolizer where
  kind : Symbolizer.Kind
  params : List (String × String)
  deriving Repr, DecidableEq

/-- Both `maxzoom` and `minzoom` name thresholds of the scale table by index. -/
structure Rule where
  filter : Option String
  minzoom : Option Nat
  maxzoom : Option Nat
  symbolizers : List Symbolizer
  deriving Repr, DecidableEq

structure Style where
  name : String
  rules : List Rule
  deriving Repr, DecidableEq

namespace Symbolizer.Kind

/-- The word for a kind in a style text. -/
def keyword : Kind → String
  | .polygon => "polygon"
  | .polygonPattern => "polygon-pattern"
  | .line => "line"
  | .text => "text"

def ofKeyword? (s : String) : Option Kind :=
  if s = "polygon" then some .polygon
  else if s = "polygon-pattern" then some .polygonPattern
  else if s = "line" then some .line
  else if s = "text" then some .text
  else none

theorem ofKeyword?_keyword (k : Kind) : ofKeyword? k.keyword = some k := by
  cases k <;> decide

end Symbolizer.Kind
end StyledMap
