import StyledMap.Drawing.Fault
import StyledMap.MapDocument.Fault
import StyledMap.Render.Fault

/-! What can end a request early, and the few kinds of it that a client is told. -/
namespace StyledMap.Request

inductive Fault where
  | missing (name : String)
  | invalid (name reason : String)
  | reading (name : String) (f : Drawing.Fault)
  | document (f : MapDocument.Fault)
  | render (f : Render.Fault)
  | timeout (seconds : Nat)
  | aborted (why : String)
  deriving Repr, DecidableEq

inductive Kind where
  | malformedInput
  | unknownZoomReference
  | unknownLayerSourceKind
  | unsupportedSymbolizerKind
  | renderEngineFailure
  | encodingFailure
  | timeout
  deriving Repr, DecidableEq

def Kind.all : List Kind :=
  [.malformedInput, .unknownZoomReference, .unknownLayerSourceKind, .unsupportedSymbolizerKind,
   .renderEngineFailure, .encodingFailure, .timeout]

def Kind.name : Kind → String
  | .malformedInput => "MalformedInput"
  | .unknownZoomReference => "UnknownZoomReference"
  | .unknownLayerSourceKind => "UnknownLayerSourceKind"
  | .unsupportedSymbolizerKind => "UnsupportedSymbolizerKind"
  | .renderEngineFailure => "RenderEngineFailure"
  | .encodingFailure => "EncodingFailure"
  | .timeout => "Timeout"

/-- The status code of an answer over HTTP. -/
def Kind.status : Kind → Nat
  | .malformedInput | .unknownZoomReference | .unknownLayerSourceKind
  | .unsupportedSymbolizerKind => 400
  | .renderEngineFailure | .encodingFailure => 500
  | .timeout => 504

/-- Whole seconds; none at all is counted in nanoseconds. -/
def secondsText (n : Nat) : String := if n = 0 then "0ns" else Text.nat n ++ "s"

def Fault.message : Fault → String
  | .missing name => "missing required parameter '" ++ name ++ "'"
  | .invalid name reason => "invalid parameter '" ++ name ++ "': " ++ reason
  | .reading name f => "parameter '" ++ name ++ "': " ++ f.message
  | .document f => f.message
  | .render f => f.message
  | .timeout seconds => "request timed out after " ++ secondsText seconds
  | .aborted why => "render task aborted: " ++ why

def Fault.kind : Fault → Kind
  | .missing _ | .invalid _ _ => .malformedInput
  | .reading _ f => match f with
    | .malformed | .invalid _ _ => .malformedInput
    | .unsupportedSymbolizer _ => .unsupportedSymbolizerKind
    | .unknownSource _ _ => .unknownLayerSourceKind
  | .document f => match f with
    | .unknownZoom _ _ _ _ => .unknownZoomReference
    | .invalidName _ _ | .repeatedName _ _ => .malformedInput
  | .render f => match f with
    | .dimensions _ _ => .malformedInput
    | .library _ _ | .engine _ _ => .renderEngineFailure
    | .encoding _ _ => .encodingFailure
  | .timeout _ => .timeout
  | .aborted _ => .renderEngineFailure

end StyledMap.Request
