import StyledMap.Journal.Level
import StyledMap.Render.Engine

/-! Rendering: a blank canvas, one engine call, the rows put in order, and encoding. -/
namespace StyledMap.Render

structure Request where
  width : Nat
  height : Nat
  extent : Extent Float
  srs : String

structure Renderer where
  engine : Engine
  encoder : Encoder
  rowOrder : RowOrder

/-- What is reported of a rendering. How long the parts of it took is left out. -/
inductive Notice where
  | drawing (width height bytes : Nat) (extent : Extent Float) (srs engine : String)
  | failed (f : Fault)
  | finished
  | encoded (format : String) (bytes : Nat)

def Notice.level : Notice → Journal.Level
  | .failed _ => .error
  | _ => .debug

def Notice.text : Notice → String
  | .drawing width height bytes extent srs engine =>
    "Rendering " ++ Text.nat width ++ "x" ++ Text.nat height ++ " (" ++ Text.nat bytes ++
      " byte buffer) over " ++ extent.text ++ " in '" ++ srs ++ "' on engine '" ++ engine ++ "'"
  | .failed f => "Render failed: " ++ f.message
  | .finished => "Engine finished"
  | .encoded format bytes => "Encoded " ++ format ++ " tile: " ++ Text.nat bytes ++ " bytes"

/-- A picture or why there is none, with what was reported and the calls that were made. -/
structure Rasterized where
  notices : List Notice
  calls : List Call
  result : Except Stop Image

def Renderer.rasterize (r : Renderer) (document : MapDocument) (resources : String) (q : Request) :
    Rasterized :=
  match newCanvas q.width q.height with
  | .error s => ⟨[], [], .error s⟩
  | .ok canvas =>
    let call : Call := ⟨resources, document, q.width, q.height, q.extent, canvas⟩
    let start : Notice := .drawing q.width q.height canvas.bytes.size q.extent q.srs r.engine.name
    match r.engine.draw call with
    | .crashed why => ⟨[start], [call], .error (.crash why)⟩
    | .failed f => ⟨[start, .failed f], [call], .error (.fault f)⟩
    | .filled bytes => ⟨[start, .finished], [call], .ok (Image.ofCanvas r.rowOrder (canvas.write bytes))⟩

def Renderer.encode (r : Renderer) (image : Image) : List Notice × Except Fault EncodedTile :=
  match r.encoder.encode image with
  | .error f => ([], .error f)
  | .ok tile => ([.encoded r.encoder.format tile.bytes.size], .ok tile)

end StyledMap.Render
