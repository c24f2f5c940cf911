import StyledMap.Drawing.Style
import StyledMap.Scale.Threshold

/-! Why a description of a map has no document. -/
namespace StyledMap.MapDocument

inductive Fault where
  /-- A rule names a threshold that the table does not hold. -/
  | unknownZoom (style : String) (rule : Nat) (kind : Threshold.Kind) (zoom : Nat)
  | invalidName (kind : Symbolizer.Kind) (name : String)
  | repeatedName (kind : Symbolizer.Kind) (name : String)
  deriving Repr, DecidableEq

def Fault.message : Fault → String
  | .unknownZoom style rule kind zoom =>
    "style '" ++ style ++ "' rule " ++ Text.nat rule ++ " references " ++
      Threshold.nameOf kind zoom ++ ", which the zoom list does not define"
  | .invalidName kind name =>
    kind.keyword ++ " symbolizer parameter '" ++ name ++ "' is not a valid attribute name"
  | .repeatedName kind name =>
    kind.keyword ++ " symbolizer parameter '" ++ name ++ "' is given more than once"

end StyledMap.MapDocument
