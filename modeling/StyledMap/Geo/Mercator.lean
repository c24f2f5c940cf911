import StyledMap.Geo.Tile

/-! The spherical Mercator map. The world is a square of pixels, `256 * 2 ^ zoom` on a side, with its
origin in the north-west. What is linear in the pixels is defined over any numbers; only the latitude
needs functions of the sphere. -/
namespace StyledMap.Geo

/-- The edge of a tile in pixels. -/
def tileSize : Nat := 256

section linear
variable {α : Type} [Add α] [Sub α] [Mul α] [Div α]

/-- The function `num` writes whole numbers in the numbers of the map. -/
def worldSize (num : Nat → α) (zoom : Nat) : α := num tileSize * num (2 ^ zoom)

def longitude (num : Nat → α) (px : α) (zoom : Nat) : α :=
  px / worldSize num zoom * num 360 - num 180

/-- How far north a pixel lies: one at the upper edge of the world, minus one at the lower edge. -/
def northing (num : Nat → α) (py : α) (zoom : Nat) : α :=
  num 1 - num 2 * py / worldSize num zoom

/-- The extent of a tile from its south-west to its north-east corner, given latitude by northing. -/
def extentBy (num : Nat → α) (latitude : α → α) (t : Tile) : Extent α where
  lon0 := longitude num (num t.x * num tileSize) t.zoom
  lat0 := latitude (northing num ((num t.y + num 1) * num tileSize) t.zoom)
  lon1 := longitude num ((num t.x + num 1) * num tileSize) t.zoom
  lat1 := latitude (northing num (num t.y * num tileSize) t.zoom)

end linear

def pi : Float := 3.141592653589793
def toRadians (degrees : Float) : Float := degrees * (pi / 180)
def toDegrees (radians : Float) : Float := radians * 57.29577951308232

def latitude (northing : Float) : Float := toDegrees (Float.atan (Float.sinh (pi * northing)))

/-- A whole number as a double. -/
def double (n : Nat) : Float := Decimal.nearest n 1

/-- Longitude and latitude of a pixel, in degrees. -/
def pixelPosition (px py : Float) (zoom : Nat) : Float × Float :=
  (longitude double px zoom, latitude (northing double py zoom))

/-- The latitude at which the map is square. -/
def northernmost : Float := 85.05112878
def southernmost : Float := -85.05112878

/-- The radius of the sphere in metres. -/
def earthRadius : Float := 6378137

def clampLatitude (lat : Float) : Float :=
  if lat < southernmost then southernmost else if northernmost < lat then northernmost else lat

/-- Degrees to metres. -/
def mercator (lon lat : Float) : Float × Float :=
  (earthRadius * toRadians lon,
    earthRadius * Float.log (Float.tan (pi / 4 + toRadians (clampLatitude lat) / 2)))

end StyledMap.Geo

namespace StyledMap

def Tile.extent (t : Tile) : Extent Float := Geo.extentBy Geo.double Geo.latitude t

def Extent.toMercator (e : Extent Float) : Extent Float :=
  let (x0, y0) := Geo.mercator e.lon0 e.lat0
  let (x1, y1) := Geo.mercator e.lon1 e.lat1
  ⟨x0, y0, x1, y1⟩

end StyledMap
