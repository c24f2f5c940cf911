import StyledMap.Raster.Canvas
import StyledMap.Text.Blank

/-! Images: pixels with red, green, blue and opacity, rows from top to bottom. A canvas is drawn in one
of two row orders. -/
namespace StyledMap

structure Image where
  width : Nat
  height : Nat
  pixels : ByteArray
  size_eq : pixels.size = 4 * (width * height)

/-- Whether the first row of a canvas is the top or the bottom of the picture. -/
inductive RowOrder where
  | topDown
  | bottomUp
  deriving Repr, DecidableEq

namespace RowOrder

def text : RowOrder → String
  | .topDown => "top-down"
  | .bottomUp => "bottom-up"

/-- Words for an order, without regard to letter case and blanks around them. -/
def ofText? (s : String) : Option RowOrder :=
  let word := (Text.trim s.toList).map Char.toLower
  if word = "top-down".toList ∨ word = "topdown".toList then some .topDown
  else if word = "bottom-up".toList ∨ word = "bottomup".toList then some .bottomUp
  else none

end RowOrder

namespace Image

/-- The first `k` rows of `bytes`, each `stride` long, last one first, behind `done`. -/
def rowsBack (bytes : ByteArray) (stride : Nat) (done : ByteArray) : Nat → ByteArray
  | 0 => done
  | k + 1 => rowsBack bytes stride (done ++ bytes.extract (k * stride) ((k + 1) * stride)) k

theorem size_rowsBack (bytes : ByteArray) (stride : Nat) (done : ByteArray) (k : Nat)
    (h : k * stride ≤ bytes.size) :
    (rowsBack bytes stride done k).size = done.size + k * stride := by
  induction k generalizing done with
  | zero => simp [rowsBack]
  | succ k ih =>
    have hk : (k + 1) * stride = k * stride + stride := Nat.succ_mul k stride
    rw [rowsBack, ih _ (by omega)]
    simp only [ByteArray.size_append, ByteArray.size_extract]
    omega

/-- The bytes of `rows` rows, in reverse order of rows. -/
def flipRows (bytes : ByteArray) (stride rows : Nat) : ByteArray :=
  rowsBack bytes stride ByteArray.empty rows

/-- The picture on a canvas. -/
def ofCanvas (order : RowOrder) (c : Canvas) : Image :=
  match order with
  | .topDown => ⟨c.width, c.height, c.bytes, c.size_eq⟩
  | .bottomUp => ⟨c.width, c.height, flipRows c.bytes (4 * c.width) c.height, by
      have h := c.size_eq
      have hs : 4 * (c.width * c.height) = c.height * (4 * c.width) := by
        rw [Nat.mul_comm c.height, Nat.mul_assoc]
      rw [flipRows, size_rowsBack _ _ _ _ (by omega)]
      simp [hs]⟩

end Image
end StyledMap
