import StyledMap.Geo.Extent
import StyledMap.Text.Blank
import StyledMap.Text.Split

/-! Tiles of the world map: zoom level, column from the west, row from the north. At zoom `z` there
are `2 ^ z` columns and as many rows. -/
namespace StyledMap

structure Tile where
  zoom : Nat
  x : Nat
  y : Nat
  deriving Repr, DecidableEq

namespace Tile
open Geo (Fault)

def make (zoom x y : Nat) : Except Fault Tile :=
  if Geo.deepestZoom < zoom then .error (.zoomTooDeep zoom)
  else if 2 ^ zoom ≤ x ∨ 2 ^ zoom ≤ y then .error (.tileOutOfRange zoom x y)
  else .ok ⟨zoom, x, y⟩

def text (t : Tile) : String := Text.nat t.zoom ++ "/" ++ Text.nat t.x ++ "/" ++ Text.nat t.y

/-- Three numbers between slashes, blanks around them dropped. -/
def read (s : String) : Except Fault Tile :=
  match Text.split '/' (Text.trim s.toList) with
  | [z, x, y] =>
    match Text.unsigned? Text.maxUnsigned8 z, Text.unsigned? Text.maxUnsigned32 x,
        Text.unsigned? Text.maxUnsigned32 y with
    | some zoom, some x, some y => make zoom x y
    | _, _, _ => .error (.notAnAddress s)
  | _ => .error (.notAnAddress s)

end Tile
end StyledMap
