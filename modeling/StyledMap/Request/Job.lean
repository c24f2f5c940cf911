import StyledMap.Decimal.Reader
import StyledMap.Drawing.LayerReader
import StyledMap.Drawing.StyleReader
import StyledMap.Drawing.Zooms
import StyledMap.Geo.Extent
import StyledMap.Render.Renderer
import StyledMap.Request.Params
import StyledMap.Settings.Basic

/-! Jobs: what a request asks for, once all its parameters are read. -/
namespace StyledMap.Request

structure Job where
  styles : List Style
  zooms : List Float
  layers : List Layer
  srs : String
  background : String
  width : Nat
  height : Nat
  extent : Extent Float

def Job.request (j : Job) : Render.Request := ⟨j.width, j.height, j.extent, j.srs⟩

namespace Params

/-- A parameter without the blanks around it; blanks alone count as missing. -/
def given? (p : Params) (name : String) : Option String := (p.get? name).bind Text.nonblank?

def required (p : Params) (name : String) : Except Fault String :=
  match p.given? name with
  | some v => .ok v
  | none => .error (.missing name)

def coordinate (p : Params) (name : String) : Except Fault Float := do
  let raw ← p.required name
  match Decimal.float? raw.toList with
  | some x => return x
  | none => .error (.invalid name ("'" ++ raw ++ "' is not a number"))

def dimension (p : Params) (name : String) (most : Nat) : Except Fault Nat := do
  let raw ← p.required name
  match Text.unsigned? Text.maxUnsigned32 raw.toList with
  | none => .error (.invalid name ("'" ++ raw ++ "' is not a positive integer"))
  | some n =>
    if n = 0 then .error (.invalid name "must be greater than zero")
    else if most < n then
      .error (.invalid name (Text.nat n ++ " exceeds the limit of " ++ Text.nat most))
    else return n

/-- A parameter that `read` understands. -/
def readWith {α : Type} (p : Params) (name : String) (read : String → Except Drawing.Fault α) :
    Except Fault α := do
  let raw ← p.required name
  (read raw).mapError (.reading name)

def styles (p : Params) : Except Fault (List Style) := do
  let styles ← p.readWith "style" Drawing.readStyles
  if styles.isEmpty then .error (.invalid "style" "at least one style is required") else return styles

def layers (p : Params) : Except Fault (List Layer) := do
  let layers ← p.readWith "layers" Drawing.readLayers
  if layers.isEmpty then .error (.invalid "layers" "at least one layer is required") else return layers

def checked (name value : String) : Except Fault Unit :=
  (Drawing.checkText name value).mapError (.reading name)

def extent (p : Params) : Except Fault (Extent Float) := do
  let lon0 ← p.coordinate "lon0"
  let lat0 ← p.coordinate "lat0"
  let lon1 ← p.coordinate "lon1"
  let lat1 ← p.coordinate "lat1"
  (Extent.make lon0 lat0 lon1 lat1).mapError (fun f => .invalid "bbox" f.message)

/-- The job of a request. Reference system and background may be left to the settings. -/
def job (p : Params) (s : Settings.Render) : Except Fault Job := do
  let styles ← p.styles
  let zooms ← p.readWith "zooms" Drawing.readZooms
  let layers ← p.layers
  let srs := (p.given? "srs").getD s.srs
  let background := (p.given? "bgcolor").getD s.background
  checked "srs" srs
  checked "bgcolor" background
  let width ← p.dimension "width" s.maxWidth
  let height ← p.dimension "height" s.maxHeight
  let extent ← p.extent
  return ⟨styles, zooms, layers, srs, background, width, height, extent⟩

end Params
end StyledMap.Request
