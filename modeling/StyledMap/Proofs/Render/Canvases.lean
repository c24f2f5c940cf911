import StyledMap.Render.Renderer

/-! Canvases for drawings. A size is refused if it is empty or has no length in 64 bits; between the
longest piece of memory and that limit lies a range that is neither drawn nor refused. -/
namespace StyledMap

/-- A length that can be counted, for which there is no piece of memory. -/
def Canvas.Unallocatable (width height : Nat) : Prop :=
  2 ^ 63 ≤ 4 * (width * height) ∧ 4 * (width * height) < 2 ^ 64

theorem Canvas.length?_eq (width height : Nat) :
    length? width height =
      if 4 * (width * height) < 2 ^ 64 then some (4 * (width * height)) else none := by
  unfold length? lengthLimit
  by_cases h : 4 * (width * height) < 2 ^ 64
  · rw [if_pos h, if_pos (by omega)]
  · rw [if_neg h, if_neg (by omega)]

theorem Canvas.blank_eq (width height : Nat) : blank width height =
    if 4 * (width * height) = 0 ∨ 2 ^ 64 ≤ 4 * (width * height) then .error .size
    else if 2 ^ 63 ≤ 4 * (width * height) then .error .memory
    else .ok ⟨width, height, zeros (4 * (width * height)), size_zeros _⟩ := by
  unfold blank allocationLimit
  rw [length?_eq]
  by_cases hl : 4 * (width * height) < 2 ^ 64
  · rw [if_pos hl]
    split
    · rename_i hn
      cases hn
    · rename_i hn
      exact (if_pos (.inl (Option.some.inj hn))).symm
    · rename_i n hne hn
      obtain rfl := Option.some.inj hn
      rw [if_neg (not_or.2 ⟨hne, by omega⟩)]
      by_cases hm : 2 ^ 63 ≤ 4 * (width * height)
      · rw [if_pos hm, if_pos (by omega)]
      · rw [if_neg hm, if_neg (by omega)]
  · rw [if_neg hl, if_pos (by omega)]

theorem Canvas.blank_ok {width height : Nat} {c : Canvas} (h : blank width height = .ok c) :
    c.width = width ∧ c.height = height ∧ c.bytes = zeros (4 * (width * height)) ∧
      4 * (width * height) < 2 ^ 63 := by
  rw [blank_eq] at h
  split at h
  · cases h
  · split at h
    · cases h
    · rename_i hm
      obtain rfl := Except.ok.inj h
      exact ⟨rfl, rfl, rfl, by omega⟩

/-- No canvas can be made exactly for the sizes without memory; all others are refused or drawn on.
-/
theorem Canvas.blank_error_memory_iff (width height : Nat) :
    blank width height = .error .memory ↔ Unallocatable width height := by
  unfold Unallocatable
  rw [blank_eq]
  split
  · rename_i hs
    exact iff_of_false (by simp) (by omega)
  · split
    · rename_i hs hm
      exact iff_of_true rfl (by omega)
    · exact iff_of_false (by simp) (by omega)

/-- A size is refused if it is empty or cannot be counted. -/
theorem Canvas.blank_error_size_iff (width height : Nat) :
    blank width height = .error .size ↔ width = 0 ∨ height = 0 ∨ 2 ^ 64 ≤ 4 * (width * height) := by
  have hempty : 4 * (width * height) = 0 ↔ width = 0 ∨ height = 0 := by
    rw [Nat.mul_eq_zero, Nat.mul_eq_zero]
    simp
  rw [blank_eq, ← or_assoc, ← hempty]
  split
  · rename_i hs
    exact iff_of_true rfl hs
  · rename_i hs
    refine iff_of_false (fun h => ?_) hs
    split at h <;> cases h

/-- A canvas is made exactly for the other sizes, and is all zero. -/
theorem Canvas.blank_ok_iff (width height : Nat) (c : Canvas) :
    blank width height = .ok c ↔ c.width = width ∧ c.height = height ∧
      c.bytes.data = Array.replicate (4 * (width * height)) 0 ∧
      0 < width ∧ 0 < height ∧ 4 * (width * height) < 2 ^ 63 := by
  constructor
  · intro h
    obtain ⟨hw, hh, hbytes, hlt⟩ := blank_ok h
    have hsize : ¬ (width = 0 ∨ height = 0 ∨ 2 ^ 64 ≤ 4 * (width * height)) := by
      rw [← blank_error_size_iff, h]
      simp
    exact ⟨hw, hh, congrArg ByteArray.data hbytes, by omega, by omega, hlt⟩
  · rintro ⟨rfl, rfl, hdata, hw, hh, hlt⟩
    have hpos : 0 < c.width * c.height := Nat.mul_pos hw hh
    rw [blank_eq, if_neg (by omega), if_neg (by omega)]
    obtain ⟨width, height, bytes, hbytes⟩ := c
    obtain rfl : zeros (4 * (width * height)) = bytes := ByteArray.ext hdata.symm
    rfl

namespace Render

theorem newCanvas_eq_ok {width height : Nat} {c : Canvas} :
    newCanvas width height = .ok c ↔ Canvas.blank width height = .ok c := by
  unfold newCanvas
  cases Canvas.blank width height with
  | ok d => simp
  | error r => cases r <;> simp

theorem newCanvas_ok {width height : Nat} {c : Canvas} (h : newCanvas width height = .ok c) :
    c.width = width ∧ c.height = height ∧ c.bytes = Canvas.zeros (4 * (width * height)) := by
  have hc := Canvas.blank_ok (newCanvas_eq_ok.1 h)
  exact ⟨hc.1, hc.2.1, hc.2.2.1⟩

theorem newCanvas_fault {width height : Nat} {f : Fault}
    (h : newCanvas width height = .error (.fault f)) : f = .dimensions width height := by
  unfold newCanvas at h
  split at h <;> simp_all

theorem newCanvas_crash_iff (width height : Nat) :
    (∃ why, newCanvas width height = .error (.crash why)) ↔ Canvas.Unallocatable width height := by
  rw [← Canvas.blank_error_memory_iff]
  unfold newCanvas
  cases hb : Canvas.blank width height with
  | error r => cases r <;> simp
  | ok c => simp

/-- A new canvas has the size that was asked for and is all zero. A size that is empty, or whose length
has no 64 bits, is refused; of the others those are drawn on whose length is below `2 ^ 63`. -/
theorem newCanvas_by_size (width height : Nat) :
    (∀ n, Canvas.length? width height = some n ↔ n = 4 * (width * height) ∧ n < 2 ^ 64) ∧
    (∀ c, newCanvas width height = .ok c ↔ c.width = width ∧ c.height = height ∧
      c.bytes.data = Array.replicate (4 * (width * height)) 0 ∧
      0 < width ∧ 0 < height ∧ 4 * (width * height) < 2 ^ 63) ∧
    (∀ f, newCanvas width height = .error (.fault f) ↔ f = .dimensions width height ∧
      (width = 0 ∨ height = 0 ∨ 2 ^ 64 ≤ 4 * (width * height))) ∧
    ∀ why, newCanvas width height = .error (.crash why) ↔ why = "capacity overflow" ∧
      Canvas.Unallocatable width height := by
  refine ⟨fun n => ?_, ?_⟩
  · rw [Canvas.length?_eq, Option.ite_none_right_eq_some, Option.some.injEq, and_comm]
    exact ⟨fun ⟨hn, h⟩ => ⟨hn.symm, hn ▸ h⟩, fun ⟨hn, h⟩ => ⟨hn.symm, hn ▸ h⟩⟩
  · simp only [← Canvas.blank_ok_iff, ← Canvas.blank_error_size_iff, ← Canvas.blank_error_memory_iff,
      newCanvas]
    cases Canvas.blank width height with
    | ok c => simp
    | error r => cases r <;> simp [eq_comm]

/-- The first length above all pieces of memory is counted, and then the size is neither drawn on nor
refused. -/
theorem newCanvas_neither : Canvas.length? (2 ^ 31) (2 ^ 30) = some (2 ^ 63) ∧
    (∀ c, newCanvas (2 ^ 31) (2 ^ 30) ≠ .ok c) ∧
    ∀ f, newCanvas (2 ^ 31) (2 ^ 30) ≠ .error (.fault f) := by
  have hcrash : ∃ why, newCanvas (2 ^ 31) (2 ^ 30) = .error (.crash why) :=
    (newCanvas_crash_iff _ _).2 ⟨by decide, by decide⟩
  obtain ⟨why, hwhy⟩ := hcrash
  rw [hwhy]
  exact ⟨by decide, by simp, by simp⟩

/-- What the engine is asked, once there is a canvas. -/
def Request.call (q : Request) (document : MapDocument) (resources : String) (canvas : Canvas) :
    Call :=
  ⟨resources, document, q.width, q.height, q.extent, canvas⟩

variable (r : Renderer) (document : MapDocument) (resources : String) (q : Request)

/-- The engine is not asked without a canvas. -/
theorem rasterize_of_error {e : Stop} (h : newCanvas q.width q.height = .error e) :
    r.rasterize document resources q = ⟨[], [], .error e⟩ := by
  simp only [Renderer.rasterize, h]

theorem calls_rasterize {canvas : Canvas} (h : newCanvas q.width q.height = .ok canvas) :
    (r.rasterize document resources q).calls = [q.call document resources canvas] := by
  simp only [Renderer.rasterize, h]
  cases hd : r.engine.draw ⟨resources, document, q.width, q.height, q.extent, canvas⟩ <;> rfl

/-- What comes of a drawing, by the answer of the engine. -/
def Renderer.picture (r : Renderer) (canvas : Canvas) : Drawn → Except Stop Image
  | .filled bytes => .ok (Image.ofCanvas r.rowOrder (canvas.write bytes))
  | .failed f => .error (.fault f)
  | .crashed why => .error (.crash why)

theorem result_rasterize {canvas : Canvas} (h : newCanvas q.width q.height = .ok canvas) :
    (r.rasterize document resources q).result =
      r.picture canvas (r.engine.draw (q.call document resources canvas)) := by
  simp only [Renderer.rasterize, h, Request.call]
  cases hd : r.engine.draw ⟨resources, document, q.width, q.height, q.extent, canvas⟩ <;> rfl

theorem result_encode (image : Image) :
    (r.encode image).2 = r.encoder.encode image := by
  unfold Renderer.encode
  cases r.encoder.encode image <;> rfl

theorem size_ofCanvas (order : RowOrder) (c : Canvas) :
    (Image.ofCanvas order c).width = c.width ∧ (Image.ofCanvas order c).height = c.height := by
  cases order <;> exact ⟨rfl, rfl⟩

end Render
end StyledMap
