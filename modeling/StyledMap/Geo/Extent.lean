import StyledMap.Decimal.Layout

/-! Extents: two corners of a rectangle along the axes, in the units of some reference system. -/
namespace StyledMap

/-- The corners `(lon0, lat0)` and `(lon1, lat1)`. -/
structure Extent (α : Type) where
  lon0 : α
  lat0 : α
  lon1 : α
  lat1 : α
  deriving Repr

namespace Geo

inductive Fault where
  | zoomTooDeep (zoom : Nat)
  | tileOutOfRange (zoom x y : Nat)
  | notAnAddress (text : String)
  | notFinite (x : Float)
  | noArea
  deriving Repr

/-- The deepest zoom level of tile addresses. -/
def deepestZoom : Nat := 22

def Fault.message : Fault → String
  | .zoomTooDeep zoom => "Invalid zoom level: " ++ Text.nat zoom ++ " (must be between 0 and " ++
      Text.nat deepestZoom ++ ")"
  | .tileOutOfRange zoom x y => "Tile " ++ Text.nat zoom ++ "/" ++ Text.nat x ++ "/" ++ Text.nat y ++
      " does not exist at zoom " ++ Text.nat zoom
  | .notAnAddress text => "Invalid tile address: '" ++ text ++ "' (expected z/x/y)"
  | .notFinite x => "Invalid bounding box coordinate: " ++ Decimal.plainText x
  | .noArea => "Bounding box has zero width or height"

end Geo

namespace Extent
open Geo (Fault)

/-- Corners with finite coordinates that differ in both directions, in either order. -/
def make (lon0 lat0 lon1 lat1 : Float) : Except Fault (Extent Float) :=
  match [lon0, lat0, lon1, lat1].find? (fun x => !x.isFinite) with
  | some x => .error (.notFinite x)
  | none => if lon0 == lon1 || lat0 == lat1 then .error .noArea else .ok ⟨lon0, lat0, lon1, lat1⟩

def text (e : Extent Float) : String :=
  "(" ++ Decimal.plainText e.lon0 ++ ", " ++ Decimal.plainText e.lat0 ++ ") - (" ++
    Decimal.plainText e.lon1 ++ ", " ++ Decimal.plainText e.lat1 ++ ")"

end Extent
end StyledMap
