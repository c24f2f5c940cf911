import StyledMap.MapDocument.Fault
import StyledMap.Xml.Character
import StyledMap.Xml.Outline

/-! Symbolizers in a document. Areas and lines list their parameters as elements; patterns and labels
carry them as attributes, whose names must be XML names and differ from each other. -/
namespace StyledMap.MapDocument

def elementName : Symbolizer.Kind → String
  | .polygon => "PolygonSymbolizer"
  | .polygonPattern => "PolygonPatternSymbolizer"
  | .line => "LineSymbolizer"
  | .text => "TextSymbolizer"

inductive ParamStyle where
  | elements
  | attributes
  deriving Repr, DecidableEq

def paramStyle : Symbolizer.Kind → ParamStyle
  | .polygon | .line => .elements
  | .polygonPattern | .text => .attributes

/-- The first name that is no attribute name or stands among `seen` and those before it. -/
def checkNames (kind : Symbolizer.Kind) (seen : List String) : List String → Except Fault Unit
  | [] => .ok ()
  | n :: ns =>
    if !Xml.isName n.toList then .error (.invalidName kind n)
    else if n ∈ seen then .error (.repeatedName kind n)
    else checkNames kind (n :: seen) ns

def paramItem (p : String × String) : Xml.Item := .field "CssParameter" [("name", p.1)] p.2

def symbolizerItem (s : Symbolizer) : Except Fault Xml.Item :=
  let element := elementName s.kind
  match paramStyle s.kind with
  | .elements => .ok (if s.params = [] then .bare element [] else .group element [] (s.params.map paramItem))
  | .attributes => do
    checkNames s.kind [] (s.params.map (·.1))
    return .bare element s.params

/-- A symbolizer as a fragment of its own. -/
def fragment (s : Symbolizer) : Except Fault String := do return (← symbolizerItem s).text

end StyledMap.MapDocument
