import StyledMap.Proofs.Render.Canvases

/-! Rows of pictures. Turning a picture upside down takes its rows from the last to the first and keeps each
as it is, and that leaves no choice of bytes. So it does not matter which library of images is used, nor in
which order an engine draws, as long as the order is known. -/
namespace StyledMap
namespace Image

def row (bytes : ByteArray) (stride y : Nat) : ByteArray := bytes.extract (y * stride) ((y + 1) * stride)

theorem size_row {bytes : ByteArray} {stride y : Nat} (h : (y + 1) * stride ≤ bytes.size) :
    (row bytes stride y).size = stride := by
  rw [Nat.succ_mul] at h
  rw [row, ByteArray.size_extract, Nat.succ_mul]
  omega

/-- Bytes are known by their rows. -/
theorem eq_of_rows {a b : ByteArray} {stride rows : Nat} (ha : a.size = rows * stride)
    (hb : b.size = rows * stride) (h : ∀ y < rows, row a stride y = row b stride y) : a = b := by
  have front (k : Nat) (hk : k ≤ rows) : a.extract 0 (k * stride) = b.extract 0 (k * stride) := by
    induction k with
    | zero => simp
    | succ k ih =>
      have hle : k * stride ≤ (k + 1) * stride := by
        rw [Nat.succ_mul]
        omega
      have hrow : a.extract (k * stride) ((k + 1) * stride) = b.extract (k * stride) ((k + 1) * stride) :=
        h k hk
      rw [ByteArray.extract_eq_extract_append_extract (a := a) (k * stride) (Nat.zero_le _) hle,
        ByteArray.extract_eq_extract_append_extract (a := b) (k * stride) (Nat.zero_le _) hle,
        ih (by omega), hrow]
  have hall := front rows (Nat.le_refl rows)
  rw [← ha, ByteArray.extract_zero_size, ha, ← hb, ByteArray.extract_zero_size] at hall
  exact hall

theorem rowsBack_eq (bytes : ByteArray) (stride : Nat) (done : ByteArray) (k : Nat) :
    rowsBack bytes stride done k = done ++ flipRows bytes stride k := by
  unfold flipRows
  induction k generalizing done with
  | zero => simp [rowsBack]
  | succ k ih =>
    rw [rowsBack, ih, rowsBack, ih (ByteArray.empty ++ _), ByteArray.empty_append, ByteArray.append_assoc]

theorem flipRows_succ (bytes : ByteArray) (stride k : Nat) :
    flipRows bytes stride (k + 1) = row bytes stride k ++ flipRows bytes stride k := by
  rw [flipRows, rowsBack, rowsBack_eq, ByteArray.empty_append]
  rfl

theorem row_append_zero {a : ByteArray} {stride : Nat} (h : a.size = stride) (b : ByteArray) :
    row (a ++ b) stride 0 = a := by
  rw [row, Nat.zero_mul, Nat.zero_add, Nat.one_mul, ByteArray.extract_append_eq_left h.symm]

theorem row_append_succ {a : ByteArray} {stride : Nat} (h : a.size = stride) (b : ByteArray) (y : Nat) :
    row (a ++ b) stride (y + 1) = row b stride y := by
  have hstart : (y + 1) * stride = stride + y * stride := by rw [Nat.succ_mul, Nat.add_comm]
  have hstop : (y + 1 + 1) * stride = stride + (y + 1) * stride := by rw [Nat.succ_mul, Nat.add_comm]
  rw [row, row, hstop, hstart, ByteArray.extract_append_size_add' h.symm]

theorem row_flipRows {bytes : ByteArray} {stride k y : Nat} (h : k * stride ≤ bytes.size) (hy : y < k) :
    row (flipRows bytes stride k) stride y = row bytes stride (k - 1 - y) := by
  induction k generalizing y with
  | zero => omega
  | succ k ih =>
    have hsize := size_row h
    rw [flipRows_succ]
    cases y with
    | zero => rw [row_append_zero hsize, Nat.succ_sub_one, Nat.sub_zero]
    | succ y =>
      rw [Nat.succ_mul] at h
      have hplace : k + 1 - 1 - (y + 1) = k - 1 - y := by omega
      rw [row_append_succ hsize, ih (by omega) (by omega), hplace]

/-- One has the rows of the other, the last one first. -/
structure Mirrored (stride rows : Nat) (a b : ByteArray) : Prop where
  size_eq : b.size = a.size
  row_eq : ∀ y < rows, row b stride y = row a stride (rows - 1 - y)

namespace Mirrored
variable {stride rows : Nat} {a b c : ByteArray}

theorem symm (h : Mirrored stride rows a b) : Mirrored stride rows b a where
  size_eq := h.size_eq.symm
  row_eq y hy := by
    have hback : rows - 1 - (rows - 1 - y) = y := by omega
    rw [h.row_eq _ (by omega), hback]

theorem unique (ha : a.size = rows * stride) (hb : Mirrored stride rows a b)
    (hc : Mirrored stride rows a c) : b = c := by
  refine eq_of_rows (hb.size_eq.trans ha) (hc.size_eq.trans ha) (fun y hy => ?_)
  rw [hb.row_eq y hy, hc.row_eq y hy]

end Mirrored

theorem mirrored_flipRows {bytes : ByteArray} {stride rows : Nat} (h : bytes.size = rows * stride) :
    Mirrored stride rows bytes (flipRows bytes stride rows) where
  size_eq := by
    rw [flipRows, size_rowsBack _ _ _ _ (Nat.le_of_eq h.symm), ByteArray.size_empty, h]
    omega
  row_eq y hy := row_flipRows (Nat.le_of_eq h.symm) hy

theorem area_eq (width height : Nat) : 4 * (width * height) = height * (4 * width) := by
  rw [Nat.mul_comm height, Nat.mul_assoc]

/-- The rows of an image from the last to the first. -/
def upsideDown (i : Image) : Image where
  width := i.width
  height := i.height
  pixels := flipRows i.pixels (4 * i.width) i.height
  size_eq := by
    have h := mirrored_flipRows (i.size_eq.trans (area_eq i.width i.height))
    rw [h.size_eq, i.size_eq]

/-- What is relied on of a library of images. Bytes are taken as they are if there are as many as the image
has, and an image is turned upside down row by row. -/
structure Tools where
  ofBytes? : Nat → Nat → ByteArray → Option Image
  flip : Image → Image
  ofBytes?_pixels : ∀ i : Image, ofBytes? i.width i.height i.pixels = some i
  width_flip : ∀ i, (flip i).width = i.width
  height_flip : ∀ i, (flip i).height = i.height
  flip_mirrored : ∀ i, Mirrored (4 * i.width) i.height i.pixels (flip i).pixels

/-- There is such a library. -/
def Tools.own : Tools where
  ofBytes? width height bytes :=
    if h : bytes.size = 4 * (width * height) then some ⟨width, height, bytes, h⟩ else none
  flip := upsideDown
  ofBytes?_pixels i := dif_pos i.size_eq
  width_flip _ := rfl
  height_flip _ := rfl
  flip_mirrored i := mirrored_flipRows (i.size_eq.trans (area_eq i.width i.height))

/-- The picture on a canvas. Bytes of another size are no picture. -/
def Tools.picture (tools : Tools) (order : RowOrder) (c : Canvas) : Except Render.Fault Image :=
  match tools.ofBytes? c.width c.height c.bytes with
  | none => .error (.dimensions c.width c.height)
  | some i => match order with
    | .topDown => .ok i
    | .bottomUp => .ok (tools.flip i)

theorem ext_pixels {i j : Image} (hw : i.width = j.width) (hh : i.height = j.height)
    (hp : i.pixels = j.pixels) : i = j := by
  cases i
  cases j
  simp_all

namespace Tools
variable (tools : Tools)

theorem flip_eq (i : Image) : tools.flip i = i.upsideDown := by
  refine ext_pixels (tools.width_flip i) (tools.height_flip i) ?_
  have hsize := i.size_eq.trans (area_eq i.width i.height)
  exact (tools.flip_mirrored i).unique hsize (mirrored_flipRows hsize)

theorem flip_flip (i : Image) : tools.flip (tools.flip i) = i := by
  have hback := tools.flip_mirrored (tools.flip i)
  rw [tools.width_flip, tools.height_flip] at hback
  refine ext_pixels ?_ ?_ ?_
  · rw [tools.width_flip, tools.width_flip]
  · rw [tools.height_flip, tools.height_flip]
  · have hthere := tools.flip_mirrored i
    exact hback.unique (hthere.size_eq.trans (i.size_eq.trans (area_eq _ _))) hthere.symm

theorem picture_eq (order : RowOrder) (c : Canvas) : tools.picture order c = .ok (ofCanvas order c) := by
  have htaken := tools.ofBytes?_pixels ⟨c.width, c.height, c.bytes, c.size_eq⟩
  rw [picture, htaken]
  cases order with
  | topDown => rfl
  | bottomUp => exact congrArg Except.ok (tools.flip_eq _)

end Tools

/-- The four bytes of one pixel. -/
def pixel (i : Image) (x y : Nat) : ByteArray :=
  i.pixels.extract (4 * (y * i.width + x)) (4 * (y * i.width + x) + 4)

theorem extract_row {bytes : ByteArray} {width x : Nat} (hx : x < width) (y : Nat) :
    (row bytes (4 * width) y).extract (4 * x) (4 * x + 4) =
      bytes.extract (4 * (y * width + x)) (4 * (y * width + x) + 4) := by
  have hplace : 4 * (y * width + x) = y * (4 * width) + 4 * x := by
    rw [Nat.mul_add, Nat.mul_left_comm]
  rw [row, ByteArray.extract_extract, hplace, Nat.succ_mul y]
  congr 1
  omega

theorem pixel_bottomUp (c : Canvas) {x y : Nat} (hx : x < c.width) (hy : y < c.height) :
    (ofCanvas .bottomUp c).pixel x y =
      c.bytes.extract (4 * ((c.height - 1 - y) * c.width + x))
        (4 * ((c.height - 1 - y) * c.width + x) + 4) := by
  have hsize := c.size_eq.trans (area_eq c.width c.height)
  calc (ofCanvas .bottomUp c).pixel x y
      = (row (flipRows c.bytes (4 * c.width) c.height) (4 * c.width) y).extract (4 * x) (4 * x + 4) :=
        (extract_row hx y).symm
    _ = (row c.bytes (4 * c.width) (c.height - 1 - y)).extract (4 * x) (4 * x + 4) := by
        rw [(mirrored_flipRows hsize).row_eq y hy]
    _ = _ := extract_row hx (c.height - 1 - y)

/-- All bytes of a pixel are there. -/
theorem size_pixel (i : Image) {x y : Nat} (hx : x < i.width) (hy : y < i.height) :
    (i.pixel x y).size = 4 := by
  have hrows : (y + 1) * i.width ≤ i.height * i.width := Nat.mul_le_mul_right _ hy
  rw [Nat.succ_mul, Nat.mul_comm i.height] at hrows
  rw [pixel, ByteArray.size_extract, i.size_eq]
  omega

/-- The bytes of a picture whose rows are laid out in this order. -/
def Lays (i : Image) (bytes : ByteArray) : RowOrder → Prop
  | .topDown => bytes = i.pixels
  | .bottomUp => Mirrored (4 * i.width) i.height i.pixels bytes

theorem Lays.size_eq {i : Image} {bytes : ByteArray} {order : RowOrder} (h : i.Lays bytes order) :
    bytes.size = 4 * (i.width * i.height) := by
  cases order with
  | topDown => exact (congrArg ByteArray.size h).trans i.size_eq
  | bottomUp => exact (Mirrored.size_eq h).trans i.size_eq

theorem ofCanvas_of_lays {i : Image} {c : Canvas} {order : RowOrder} (hw : c.width = i.width)
    (hh : c.height = i.height) (h : i.Lays c.bytes order) : ofCanvas order c = i := by
  cases order with
  | topDown => exact ext_pixels hw hh h
  | bottomUp =>
    refine ext_pixels hw hh ?_
    have hback : Mirrored (4 * i.width) i.height c.bytes i.pixels := Mirrored.symm h
    have hsize := c.size_eq.trans (area_eq c.width c.height)
    rw [← hw, ← hh] at hback
    exact (mirrored_flipRows hsize).unique hsize hback

end Image

/-- What fills a canvas is all that is on it. -/
theorem Canvas.write_full (c : Canvas) {bytes : ByteArray} (h : bytes.size = c.bytes.size) :
    (c.write bytes).bytes = bytes := by
  have hkept : c.bytes.extract bytes.size c.bytes.size = ByteArray.empty := by
    rw [h, ByteArray.extract_same]
  change bytes.extract 0 c.bytes.size ++ c.bytes.extract bytes.size c.bytes.size = bytes
  rw [hkept, ByteArray.append_empty, ← h, ByteArray.extract_zero_size]

namespace Render
open Image (Tools)

/-- An engine may draw in either order if the renderer knows which: the picture is the same. -/
theorem rasterize_lays {r : Renderer} {document : MapDocument} {resources : String} {q : Request}
    {canvas : Canvas} {i : Image} {bytes : ByteArray} (hcanvas : newCanvas q.width q.height = .ok canvas)
    (hw : i.width = q.width) (hh : i.height = q.height)
    (hdraw : r.engine.draw (q.call document resources canvas) = .filled bytes)
    (hlays : i.Lays bytes r.rowOrder) : (r.rasterize document resources q).result = .ok i := by
  obtain ⟨hcw, hch, -⟩ := newCanvas_ok hcanvas
  have hsize : bytes.size = canvas.bytes.size := by
    rw [hlays.size_eq, canvas.size_eq, hcw, hch, hw, hh]
  have hpicture : Image.ofCanvas r.rowOrder (canvas.write bytes) = i := by
    refine Image.ofCanvas_of_lays (hcw.trans hw.symm) (hch.trans hh.symm) ?_
    rwa [Canvas.write_full canvas hsize]
  rw [result_rasterize r document resources q hcanvas, hdraw, Renderer.picture, hpicture]

/-- Every canvas, whatever is drawn on it, is a picture of its size, and each pixel has the four bytes that
its place and the order of rows say. Of an engine that draws in the order that the renderer counts on comes
the picture it drew, whichever order that is; turning a picture upside down twice gives it back. -/
theorem picture_by_rows (tools : Tools) :
    (∀ order c, tools.picture order c = .ok (Image.ofCanvas order c)) ∧
    (∀ order c, (Image.ofCanvas order c).width = c.width ∧ (Image.ofCanvas order c).height = c.height ∧
      ∀ x < c.width, ∀ y < c.height, ((Image.ofCanvas order c).pixel x y).size = 4) ∧
    (∀ c : Canvas, ∀ x < c.width, ∀ y < c.height,
      (Image.ofCanvas .topDown c).pixel x y =
        c.bytes.extract (4 * (y * c.width + x)) (4 * (y * c.width + x) + 4) ∧
      (Image.ofCanvas .bottomUp c).pixel x y =
        c.bytes.extract (4 * ((c.height - 1 - y) * c.width + x))
          (4 * ((c.height - 1 - y) * c.width + x) + 4)) ∧
    (∀ (r : Renderer) document resources q canvas i bytes, newCanvas q.width q.height = .ok canvas →
      i.width = q.width → i.height = q.height →
      r.engine.draw (q.call document resources canvas) = .filled bytes → i.Lays bytes r.rowOrder →
      (r.rasterize document resources q).result = .ok i) ∧
    ∀ i, tools.flip (tools.flip i) = i := by
  refine ⟨tools.picture_eq, fun order c => ?_, fun c x hx y hy => ?_,
    fun _ _ _ _ _ _ _ => rasterize_lays, tools.flip_flip⟩
  · obtain ⟨hw, hh⟩ := size_ofCanvas order c
    exact ⟨hw, hh, fun x hx y hy => Image.size_pixel _ (hw ▸ hx) (hh ▸ hy)⟩
  · exact ⟨rfl, Image.pixel_bottomUp c hx hy⟩

end Render
end StyledMap
