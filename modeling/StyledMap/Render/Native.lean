import StyledMap.Render.Engine

/-! Engines in shared libraries. A library exports one function that takes two texts without NUL, two
dimensions of 31 bits, an extent and the length of the canvas, and answers with a code, zero for
success. Arguments are checked before it is called. -/
namespace StyledMap.Render

/-- The name under which a library exports its function. -/
def entryName : String := "cartostyle_render_map"

structure ForeignCall where
  resources : String
  document : String
  width : Nat
  height : Nat
  extent : Extent Float
  length : Nat

/-- The function of a library: a code, and the bytes it wrote. -/
abbrev Entry := ForeignCall → Int × ByteArray

/-- What is found under the path of a library. -/
inductive Library where
  | missing
  | withoutEntry
  | entry (f : Entry)

def Native.name : String := "native"

def hasNul (s : String) : Bool := s.toList.contains '\x00'

def dimensionLimit : Nat := 2 ^ 31 - 1

/-- The arguments of a call, if all of them are safe to pass. -/
def ForeignCall.of (c : Call) : Except Fault ForeignCall :=
  if hasNul c.resources then
    .error (.engine Native.name "resource directory contains an interior NUL byte")
  else if hasNul c.document.text then
    .error (.engine Native.name "map document contains an interior NUL byte")
  else if dimensionLimit < c.width ∨ dimensionLimit < c.height then
    .error (.dimensions c.width c.height)
  else if Canvas.length? c.width c.height ≠ some c.canvas.bytes.size then
    .error (.dimensions c.width c.height)
  else .ok ⟨c.resources, c.document.text, c.width, c.height, c.extent, c.canvas.bytes.size⟩

def Native.draw (path : String) (entry : Entry) (c : Call) : Drawn :=
  match ForeignCall.of c with
  | .error f => .failed f
  | .ok args => match entry args with
    | (code, bytes) =>
      if code = 0 then .filled bytes
      else .failed (.engine Native.name (path ++ " returned code " ++ Text.int code))

/-- The engine of the library at a path. -/
def Native.load (find : String → Library) (path : String) (reentrant : Bool) : Except Fault Engine :=
  match find path with
  | .missing => .error (.library path "cannot open shared object file")
  | .withoutEntry => .error (.library path ("undefined symbol " ++ entryName))
  | .entry f => .ok ⟨Native.name, reentrant, 0, Native.draw path f⟩

end StyledMap.Render
