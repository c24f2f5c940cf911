import StyledMap.Geo.Mercator
import StyledMap.Proofs.Decimal.Exact
import StyledMap.Proofs.Geo.Addresses

/-! The tiles of one zoom level cover the world, every place of it once. This holds over all numbers
that are added and divided exactly, whatever function gives the latitude as long as it rises strictly.
Longitudes are exact in doubles as well; latitudes are not, they go through functions of the sphere. -/
namespace StyledMap

/-- The tile exists, at this zoom level. -/
def Tile.At (zoom : Nat) (t : Tile) : Prop := Tile.make zoom t.x t.y = .ok t

theorem Tile.at_iff {zoom : Nat} {t : Tile} :
    t.At zoom ↔ t.zoom = zoom ∧ zoom ≤ 22 ∧ t.x < 2 ^ zoom ∧ t.y < 2 ^ zoom := by
  unfold Tile.At
  rw [Tile.make_eq_ok]
  constructor
  · intro h
    exact ⟨congrArg Tile.zoom h.1, h.2⟩
  · rintro ⟨rfl, h⟩
    exact ⟨rfl, h⟩

namespace Geo
open Decimal (Operation Formula Dyadic number? dyadic_natCast)

section between
variable {β : Type} [LinearOrder β] {f : Nat → β} {x : β}

/-- Rising bounds leave nothing out between the first of them and any later one. -/
theorem exists_between (hlow : f 0 ≤ x) {n : Nat} (hhigh : x < f n) :
    ∃ i < n, f i ≤ x ∧ x < f (i + 1) := by
  induction n with
  | zero => exact absurd hlow hhigh.not_ge
  | succ n ih =>
    obtain hle | hlt := le_or_gt (f n) x
    · exact ⟨n, Nat.lt_succ_self n, hle, hhigh⟩
    · obtain ⟨i, hi, h⟩ := ih hlt
      exact ⟨i, Nat.lt_succ_of_lt hi, h⟩

theorem between_unique (hf : StrictMono f) {i j : Nat} (hi : f i ≤ x ∧ x < f (i + 1))
    (hj : f j ≤ x ∧ x < f (j + 1)) : i = j := by
  have hij := hf.lt_iff_lt.1 (hi.1.trans_lt hj.2)
  have hji := hf.lt_iff_lt.1 (hj.1.trans_lt hi.2)
  omega

/-- Tiles that are counted one way, by columns or by rows, and bounded by that count. -/
theorem exists_count (count : Tile → Nat) {zoom : Nat} (hf : StrictMono f)
    (hcount : ∀ i < 2 ^ zoom, ∃ t, Tile.At zoom t ∧ count t = i) (hlow : f 0 ≤ x)
    (hhigh : x < f (2 ^ zoom)) :
    ∃! i, i < 2 ^ zoom ∧
      ∀ t, Tile.At zoom t → ((f (count t) ≤ x ∧ x < f (count t + 1)) ↔ count t = i) := by
  obtain ⟨i, hi, hin⟩ := exists_between hlow hhigh
  refine ⟨i, ⟨hi, fun t _ => ⟨fun h => between_unique hf h hin, ?_⟩⟩, fun j hj => ?_⟩
  · rintro rfl
    exact hin
  · obtain ⟨t, ht, rfl⟩ := hcount i hi
    exact ((hj.2 t ht).1 hin).symm

end between

section exact
variable {α : Type} [Field α] [LinearOrder α] [IsStrictOrderedRing α]
variable {latitude : α → α} {zoom : Nat}

/-- The longitude where column `x` starts, and the column before it ends. -/
def columnEdge (zoom x : Nat) : α := 360 * x / 2 ^ zoom - 180

/-- The latitude where row `y` starts in the north, and the row above it ends. -/
def rowEdge (latitude : α → α) (zoom y : Nat) : α := latitude (1 - 2 * y / 2 ^ zoom)

theorem extentBy_eq (latitude : α → α) (t : Tile) : extentBy Nat.cast latitude t =
    ⟨columnEdge t.zoom t.x, rowEdge latitude t.zoom (t.y + 1), columnEdge t.zoom (t.x + 1),
      rowEdge latitude t.zoom t.y⟩ := by
  have hlon (c : α) : longitude Nat.cast (c * (tileSize : Nat)) t.zoom =
      360 * c / 2 ^ t.zoom - 180 := by
    simp only [longitude, worldSize, tileSize]
    push_cast
    field_simp
  have hnorth (r : α) : northing Nat.cast (r * (tileSize : Nat)) t.zoom =
      1 - 2 * r / 2 ^ t.zoom := by
    simp only [northing, worldSize, tileSize]
    push_cast
    field_simp
  simp only [extentBy, hlon, hnorth, columnEdge, rowEdge, Nat.cast_add]

theorem strictMono_columnEdge : StrictMono (columnEdge zoom : Nat → α) := by
  intro x y h
  have hcast : (x : α) < y := Nat.cast_lt.2 h
  unfold columnEdge
  gcongr

theorem strictAnti_rowEdge (h : StrictMono latitude) : StrictAnti (rowEdge latitude zoom) := by
  intro x y hxy
  have hcast : (x : α) < y := Nat.cast_lt.2 hxy
  apply h
  gcongr

theorem columnEdge_zero : columnEdge zoom 0 = (-180 : α) := by
  simp [columnEdge]

theorem columnEdge_last : columnEdge zoom (2 ^ zoom) = (180 : α) := by
  unfold columnEdge
  push_cast
  field_simp
  norm_num

theorem rowEdge_zero : rowEdge latitude zoom 0 = latitude 1 := by
  simp [rowEdge]

theorem rowEdge_last : rowEdge latitude zoom (2 ^ zoom) = latitude (-1) := by
  unfold rowEdge
  push_cast
  congr 1
  field_simp
  norm_num

/-- Western edges belong to a tile, eastern ones to its neighbour. -/
def HasLongitude (e : Extent α) (lon : α) : Prop := e.lon0 ≤ lon ∧ lon < e.lon1

/-- Northern edges belong to a tile, southern ones to its neighbour. -/
def HasLatitude (e : Extent α) (lat : α) : Prop := e.lat0 < lat ∧ lat ≤ e.lat1

/-- Boxes that leave nothing of the world out and have nothing of it twice. -/
structure Seamless (zoom : Nat) (latitude : α → α) (box : Tile → Extent α) : Prop where
  corners : ∀ t, t.At zoom → (box t).lon0 < (box t).lon1 ∧ (box t).lat0 < (box t).lat1
  columns : ∀ t u, t.At zoom → u.At zoom → u.x = t.x + 1 → (box t).lon1 = (box u).lon0
  rows : ∀ t u, t.At zoom → u.At zoom → u.y = t.y + 1 → (box t).lat0 = (box u).lat1
  west : ∀ t, t.At zoom → t.x = 0 → (box t).lon0 = -180
  east : ∀ t, t.At zoom → t.x + 1 = 2 ^ zoom → (box t).lon1 = 180
  north : ∀ t, t.At zoom → t.y = 0 → (box t).lat1 = latitude 1
  south : ∀ t, t.At zoom → t.y + 1 = 2 ^ zoom → (box t).lat0 = latitude (-1)
  column : ∀ lon, -180 ≤ lon → lon < 180 →
    ∃! x, x < 2 ^ zoom ∧ ∀ t, t.At zoom → (HasLongitude (box t) lon ↔ t.x = x)
  row : ∀ lat, latitude (-1) < lat → lat ≤ latitude 1 →
    ∃! y, y < 2 ^ zoom ∧ ∀ t, t.At zoom → (HasLatitude (box t) lat ↔ t.y = y)

theorem at_mk {x y : Nat} (hz : zoom ≤ 22) (hx : x < 2 ^ zoom) (hy : y < 2 ^ zoom) :
    Tile.At zoom ⟨zoom, x, y⟩ := Tile.at_iff.2 ⟨rfl, hz, hx, hy⟩

theorem hasLongitude_iff {t : Tile} (ht : t.At zoom) {lon : α} :
    HasLongitude (extentBy Nat.cast latitude t) lon ↔
      columnEdge zoom t.x ≤ lon ∧ lon < columnEdge zoom (t.x + 1) := by
  obtain ⟨rfl, -⟩ := Tile.at_iff.1 ht
  rw [extentBy_eq]
  rfl

theorem hasLatitude_iff {t : Tile} (ht : t.At zoom) {lat : α} :
    HasLatitude (extentBy Nat.cast latitude t) lat ↔
      lat ≤ rowEdge latitude zoom t.y ∧ rowEdge latitude zoom (t.y + 1) < lat := by
  obtain ⟨rfl, -⟩ := Tile.at_iff.1 ht
  rw [extentBy_eq]
  exact and_comm

theorem exists_column (latitude : α → α) (hz : zoom ≤ 22) {lon : α} (hlow : -180 ≤ lon)
    (hhigh : lon < 180) :
    ∃! x, x < 2 ^ zoom ∧ ∀ t, t.At zoom →
      (HasLongitude (extentBy Nat.cast latitude t) lon ↔ t.x = x) := by
  have hfirst : columnEdge zoom 0 ≤ lon := by rwa [columnEdge_zero]
  have hlast : lon < columnEdge zoom (2 ^ zoom) := by rwa [columnEdge_last]
  obtain ⟨x, ⟨hx, hin⟩, hunique⟩ := exists_count Tile.x strictMono_columnEdge
    (fun x hx => ⟨⟨zoom, x, 0⟩, at_mk hz hx (by positivity), rfl⟩) hfirst hlast
  refine ⟨x, ⟨hx, fun t ht => ?_⟩, fun x' hx' => ?_⟩
  · rw [hasLongitude_iff ht]
    exact hin t ht
  · refine hunique x' ⟨hx'.1, fun t ht => ?_⟩
    rw [← hx'.2 t ht, hasLongitude_iff ht]

/-- Rows are counted against the latitude, so the order is turned to find them. -/
theorem exists_row (h : StrictMono latitude) (hz : zoom ≤ 22) {lat : α} (hlow : latitude (-1) < lat)
    (hhigh : lat ≤ latitude 1) :
    ∃! y, y < 2 ^ zoom ∧ ∀ t, t.At zoom →
      (HasLatitude (extentBy Nat.cast latitude t) lat ↔ t.y = y) := by
  have hmono : StrictMono (OrderDual.toDual ∘ rowEdge latitude zoom) := strictAnti_rowEdge h
  have hfirst : lat ≤ rowEdge latitude zoom 0 := by rwa [rowEdge_zero]
  have hlast : rowEdge latitude zoom (2 ^ zoom) < lat := by rwa [rowEdge_last]
  obtain ⟨y, ⟨hy, hin⟩, hunique⟩ := exists_count (x := OrderDual.toDual lat) Tile.y hmono
    (fun y hy => ⟨⟨zoom, 0, y⟩, at_mk hz (by positivity) hy, rfl⟩) hfirst hlast
  refine ⟨y, ⟨hy, fun t ht => ?_⟩, fun y' hy' => ?_⟩
  · rw [hasLatitude_iff ht]
    exact hin t ht
  · refine hunique y' ⟨hy'.1, fun t ht => ?_⟩
    rw [← hy'.2 t ht, hasLatitude_iff ht]
    rfl

theorem seamless_extentBy (h : StrictMono latitude) (hz : zoom ≤ 22) :
    Seamless zoom latitude (extentBy Nat.cast latitude) := by
  refine ⟨fun t _ => ?_, fun t u ht hu hx => ?_, fun t u ht hu hy => ?_, fun t _ hx => ?_,
    fun t ht hx => ?_, fun t _ hy => ?_, fun t ht hy => ?_,
    fun _ => exists_column latitude hz, fun _ => exists_row h hz⟩
  · rw [extentBy_eq]
    exact ⟨strictMono_columnEdge t.x.lt_succ_self, strictAnti_rowEdge h t.y.lt_succ_self⟩
  · have hzoom : t.zoom = u.zoom := (Tile.at_iff.1 ht).1.trans (Tile.at_iff.1 hu).1.symm
    rw [extentBy_eq, extentBy_eq, hx, hzoom]
  · have hzoom : t.zoom = u.zoom := (Tile.at_iff.1 ht).1.trans (Tile.at_iff.1 hu).1.symm
    rw [extentBy_eq, extentBy_eq, hy, hzoom]
  · rw [extentBy_eq, hx]
    exact columnEdge_zero
  · rw [extentBy_eq, hx, (Tile.at_iff.1 ht).1]
    exact columnEdge_last
  · rw [extentBy_eq, hy]
    exact rowEdge_zero
  · rw [extentBy_eq, hy, (Tile.at_iff.1 ht).1]
    exact rowEdge_last

/-- Every place of the world, up to its southern and its eastern edge, lies on exactly one tile. -/
theorem existsUnique_tile (h : StrictMono latitude) (hz : zoom ≤ 22) {lon lat : α}
    (hlon : -180 ≤ lon ∧ lon < 180) (hlat : latitude (-1) < lat ∧ lat ≤ latitude 1) :
    ∃! t, Tile.At zoom t ∧ HasLongitude (extentBy Nat.cast latitude t) lon ∧
      HasLatitude (extentBy Nat.cast latitude t) lat := by
  obtain ⟨x, ⟨hx, hcolumn⟩, -⟩ := exists_column latitude hz hlon.1 hlon.2
  obtain ⟨y, ⟨hy, hrow⟩, -⟩ := exists_row h hz hlat.1 hlat.2
  have ht := at_mk hz hx hy
  refine ⟨⟨zoom, x, y⟩, ⟨ht, (hcolumn _ ht).2 rfl, (hrow _ ht).2 rfl⟩, ?_⟩
  rintro ⟨z, x', y'⟩ ⟨hat, hin⟩
  obtain ⟨rfl, -⟩ := Tile.at_iff.1 hat
  obtain rfl := (hcolumn _ hat).1 hin.1
  obtain rfl := (hrow _ hat).1 hin.2
  rfl

end exact

section doubles

/-- How the longitude at a column's side is computed. -/
def longitudeFormula (column : Formula) (zoom : Nat) : Formula :=
  let world := Formula.op .mul (.num tileSize) (.num (2 ^ zoom))
  .op .sub (.op .mul (.op .div (.op .mul column (.num tileSize)) world) (.num 360)) (.num 180)

def westFormula (t : Tile) : Formula := longitudeFormula (.num t.x) t.zoom

def eastFormula (t : Tile) : Formula := longitudeFormula (.op .add (.num t.x) (.num 1)) t.zoom

theorem extentBy_lon {α : Type} [Add α] [Sub α] [Mul α] [Div α] (num : Nat → α) (latitude : α → α)
    (t : Tile) : (extentBy num latitude t).lon0 = (westFormula t).value num ∧
      (extentBy num latitude t).lon1 = (eastFormula t).value num := ⟨rfl, rfl⟩

/-- On the way to a longitude nothing has more than 53 digits, `zoom` of them after the point: the
world is at most `2 ^ 30` pixels wide. -/
theorem dyadic_longitude {column : Formula} {zoom x : Nat} (hz : zoom ≤ 22) (hx : x ≤ 2 ^ zoom)
    (hvalue : column.exact = x) (hcolumn : ∀ s ∈ column.parts, Dyadic zoom s.exact) :
    ∀ s ∈ (longitudeFormula column zoom).parts, Dyadic zoom s.exact := by
  have hpow : 2 ^ zoom ≤ 2 ^ 22 := Nat.pow_le_pow_right (by decide) hz
  have hwhole {n : Nat} (hn : n ≤ 2 ^ 30) : Dyadic zoom (n : ℚ) := by
    have hmul : n * 2 ^ zoom ≤ 2 ^ 30 * 2 ^ 22 := Nat.mul_le_mul hn hpow
    exact dyadic_natCast.2 (by omega)
  have hpixels : (x : ℚ) * (tileSize : Nat) = (x * tileSize : Nat) := (Nat.cast_mul _ _).symm
  have hworld : ((tileSize : Nat) : ℚ) * (2 ^ zoom : Nat) = (tileSize * 2 ^ zoom : Nat) :=
    (Nat.cast_mul _ _).symm
  have hshare : ((x * tileSize : Nat) : ℚ) / (tileSize * 2 ^ zoom : Nat) =
      (x : Int) / 2 ^ zoom := by
    simp only [tileSize]
    push_cast
    field_simp
  have hdegrees : ((x : Int) : ℚ) / 2 ^ zoom * (360 : Nat) = (360 * x : Int) / 2 ^ zoom := by
    push_cast
    ring
  have hcentred : ((360 * x : Int) : ℚ) / 2 ^ zoom - (180 : Nat) =
      (360 * x - 180 * 2 ^ zoom : Int) / 2 ^ zoom := by
    push_cast
    field_simp
  have hbound : (2 ^ zoom : Int) ≤ 2 ^ 22 := by exact_mod_cast hpow
  have hcolumns : (x : Int) ≤ 2 ^ zoom := by exact_mod_cast hx
  simp only [longitudeFormula, Formula.parts, List.forall_mem_append, List.forall_mem_singleton,
    Formula.exact_num, Formula.exact_op, Operation.apply, hvalue, hpixels, hworld, hshare, hdegrees,
    hcentred, and_assoc]
  exact ⟨hcolumn, hwhole (by decide), hwhole (by unfold tileSize; omega), hwhole (by decide),
    hwhole (by omega), hwhole (by unfold tileSize; omega), ⟨x, rfl, by rw [abs_lt]; omega⟩,
    hwhole (by decide), ⟨360 * x, rfl, by rw [abs_lt]; omega⟩, hwhole (by decide),
    ⟨360 * x - 180 * 2 ^ zoom, rfl, by rw [abs_lt]; omega⟩⟩

theorem defined_longitude (column : Formula) (zoom : Nat) (h : column.Defined) :
    (longitudeFormula column zoom).Defined := by
  simp [longitudeFormula, Formula.Defined, h, Operation.apply, tileSize]

/-- The longitudes of a tile in doubles: each step gives what it gives in exact numbers. -/
structure LongitudesExact (t : Tile) : Prop where
  computed : t.extent.lon0 = (westFormula t).double ∧ t.extent.lon1 = (eastFormula t).double
  dyadic : ∀ s ∈ (westFormula t).parts ++ (eastFormula t).parts, Dyadic t.zoom s.exact
  steps : ∀ s ∈ (westFormula t).parts ++ (eastFormula t).parts, number? s.double = some s.exact
  west : number? t.extent.lon0 = some (extentBy (Nat.cast : Nat → ℚ) id t).lon0
  east : number? t.extent.lon1 = some (extentBy (Nat.cast : Nat → ℚ) id t).lon1

theorem longitudesExact {zoom : Nat} {t : Tile} (ht : t.At zoom) : LongitudesExact t := by
  obtain ⟨rfl, hz, hx, -⟩ := Tile.at_iff.1 ht
  have hplaces : t.zoom ≤ 1074 := by omega
  have hpow : 2 ^ t.zoom ≤ 2 ^ 22 := Nat.pow_le_pow_right (by decide) hz
  have hwhole {n : Nat} (hn : n ≤ 2 ^ t.zoom) : Dyadic t.zoom (n : ℚ) := by
    have hmul : n * 2 ^ t.zoom ≤ 2 ^ 22 * 2 ^ 22 := Nat.mul_le_mul (hn.trans hpow) hpow
    exact dyadic_natCast.2 (by omega)
  have hwest : ∀ s ∈ (westFormula t).parts, Dyadic t.zoom s.exact := by
    refine dyadic_longitude hz hx.le rfl ?_
    simpa [Formula.parts] using hwhole hx.le
  have heast : ∀ s ∈ (eastFormula t).parts, Dyadic t.zoom s.exact := by
    have hsum : ((t.x : Nat) : ℚ) + (1 : Nat) = (t.x + 1 : Nat) := (Nat.cast_add _ _).symm
    refine dyadic_longitude hz hx hsum ?_
    simp only [Formula.parts, List.forall_mem_append, List.forall_mem_singleton,
      Formula.exact_num, Formula.exact_op, Operation.apply, hsum]
    exact ⟨⟨hwhole hx.le, hwhole (by omega)⟩, hwhole hx⟩
  have hwestSteps := Formula.number?_double hplaces
    (defined_longitude (.num t.x) t.zoom trivial) hwest
  have heastSteps := Formula.number?_double hplaces
    (defined_longitude (.op .add (.num t.x) (.num 1)) t.zoom (by simp [Formula.Defined])) heast
  have hlon0 : t.extent.lon0 = (westFormula t).double := rfl
  have hlon1 : t.extent.lon1 = (eastFormula t).double := rfl
  obtain ⟨hexact0, hexact1⟩ := extentBy_lon (Nat.cast : Nat → ℚ) id t
  refine ⟨⟨hlon0, hlon1⟩, List.forall_mem_append.2 ⟨hwest, heast⟩,
    List.forall_mem_append.2 ⟨hwestSteps, heastSteps⟩, ?_, ?_⟩
  · rw [hlon0, hexact0]
    exact hwestSteps _ (Formula.mem_parts_self _)
  · rw [hlon1, hexact1]
    exact heastSteps _ (Formula.mem_parts_self _)

end doubles

/-- The tiles of a zoom level lie side by side without gap or overlap, from -180 to 180 degrees and
from the northernmost latitude to the southernmost one. Doubles compute their longitudes exactly. -/
theorem tiles_seamless {α : Type} [Field α] [LinearOrder α] [IsStrictOrderedRing α]
    {latitude : α → α} (h : StrictMono latitude) {zoom : Nat} (hz : zoom ≤ 22) :
    Seamless zoom latitude (extentBy Nat.cast latitude) ∧ ∀ t, Tile.At zoom t → LongitudesExact t :=
  ⟨seamless_extentBy h hz, fun _ ht => longitudesExact ht⟩

/-- Latitude on the sphere, in degrees. -/
noncomputable def sphereLatitude (northing : ℝ) : ℝ :=
  Real.arctan (Real.sinh (Real.pi * northing)) * (180 / Real.pi)

theorem strictMono_sphereLatitude : StrictMono sphereLatitude := by
  intro a b hab
  have hpi := Real.pi_pos
  have hangle : Real.arctan (Real.sinh (Real.pi * a)) < Real.arctan (Real.sinh (Real.pi * b)) :=
    Real.arctan_strictMono (Real.sinh_strictMono (mul_lt_mul_of_pos_left hab hpi))
  exact mul_lt_mul_of_pos_right hangle (by positivity)

theorem tiles_seamless_on_the_sphere : StrictMono sphereLatitude ∧ 10 ≤ 22 ∧
    Seamless 10 sphereLatitude (extentBy Nat.cast sphereLatitude) ∧
    ∀ t, Tile.At 10 t → LongitudesExact t :=
  ⟨strictMono_sphereLatitude, by decide, tiles_seamless strictMono_sphereLatitude (by decide)⟩

end Geo
end StyledMap
