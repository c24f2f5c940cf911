import StyledMap.Geo.Extent
import StyledMap.MapDocument.Compile
import StyledMap.Raster.Png
import StyledMap.Render.Fault

/-! Engines draw documents, encoders turn pictures into files. Both are given as functions. -/
namespace StyledMap.Render

/-- What an engine is asked to do. -/
structure Call where
  resources : String
  document : MapDocument
  width : Nat
  height : Nat
  extent : Extent Float
  canvas : Canvas

/-- How a call ends. The bytes of a drawing go to the start of the canvas. -/
inductive Drawn where
  | filled (bytes : ByteArray)
  | failed (f : Fault)
  | crashed (why : String)

/-- An engine that is not reentrant draws one document at a time. `busy` is the time that a call
takes, in milliseconds. -/
structure Engine where
  name : String
  reentrant : Bool
  busy : Nat
  draw : Call → Drawn

structure EncodedTile where
  bytes : ByteArray
  mediaType : String

structure Encoder where
  format : String
  encode : Image → Except Fault EncodedTile

def Encoder.png : Encoder where
  format := "PNG"
  encode i := .ok ⟨Png.write i, "image/png"⟩

/-- A blank canvas for one drawing. -/
def newCanvas (width height : Nat) : Except Stop Canvas :=
  match Canvas.blank width height with
  | .ok c => .ok c
  | .error .size => .error (.fault (.dimensions width height))
  | .error .memory => .error (.crash "capacity overflow")

end StyledMap.Render
