import StyledMap.Text.Digits
import StyledMap.Xml.Character

/-! What can be wrong with a description of a map, and the check that its texts can stand in XML. -/
namespace StyledMap.Drawing

inductive Fault where
  /-- The text is not JSON, or JSON of another shape. -/
  | malformed
  /-- A value that cannot be used. -/
  | invalid (field reason : String)
  | unsupportedSymbolizer (kind : String)
  | unknownSource (layer kind : String)
  deriving Repr, DecidableEq

def Fault.message : Fault → String
  | .malformed => "malformed JSON: not a text of the expected shape"
  | .invalid field reason => "invalid " ++ field ++ ": " ++ reason
  | .unsupportedSymbolizer kind => "unsupported symbolizer kind '" ++ kind ++ "'"
  | .unknownSource layer kind => "layer '" ++ layer ++ "' has unknown source kind '" ++ kind ++ "'"

/-- A character by its number, in four upper case digits. -/
def codePoint (c : Char) : String :=
  "U+" ++ String.ofList ((Text.padded 16 4 c.toNat).map Char.toUpper)

/-- Names the first character that no document can carry, escaped or not. -/
def checkText (field value : String) : Except Fault Unit :=
  match value.toList.find? (fun c => !Xml.isLegal c) with
  | some c => .error (.invalid field ("contains " ++ codePoint c ++ ", which XML documents cannot carry"))
  | none => .ok ()

end StyledMap.Drawing
