import StyledMap.Proofs.Render.Canvases
import StyledMap.Render.Native

/-! Calls into libraries. The function of a library is called once, with arguments that are safe to pass, or
it is not called at all and the first check that fails says why. Directories are taken by the bytes of their
paths here, and these need not be bytes of a text. -/
namespace StyledMap.Render

/-- What an engine in a library is asked to do. -/
structure RawCall where
  directory : ByteArray
  document : MapDocument
  width : Nat
  height : Nat
  extent : Extent Float
  canvas : Canvas

/-- What the function of a library is given. Its texts end in front of their first NUL. -/
structure RawArguments where
  directory : ByteArray
  document : ByteArray
  width : Nat
  height : Nat
  extent : Extent Float
  length : Nat

def Call.raw (c : Call) : RawCall :=
  ⟨c.resources.toUTF8, c.document, c.width, c.height, c.extent, c.canvas⟩

def ForeignCall.raw (a : ForeignCall) : RawArguments :=
  ⟨a.resources.toUTF8, a.document.toUTF8, a.width, a.height, a.extent, a.length⟩

/-- Texts reach to their ends, sides are positive and have 31 bits, and the length is that of the canvas and
of a picture with these sides, in 64 bits. -/
structure RawArguments.Safe (a : RawArguments) (canvas : Canvas) : Prop where
  directory : 0 ∉ a.directory.data
  document : 0 ∉ a.document.data
  width : 1 ≤ a.width ∧ a.width ≤ 2 ^ 31 - 1
  height : 1 ≤ a.height ∧ a.height ≤ 2 ^ 31 - 1
  canvas : a.length = canvas.bytes.size
  picture : a.length = a.width * a.height * 4 ∧ a.width * a.height * 4 < 2 ^ 64

namespace RawCall
variable (c : RawCall)

def arguments : RawArguments :=
  ⟨c.directory, c.document.text.toUTF8, c.width, c.height, c.extent, c.canvas.bytes.size⟩

/-- The canvas has a length that can be counted, and it is that of the picture. -/
def Sized : Prop := c.canvas.bytes.size = c.width * c.height * 4 ∧ c.width * c.height * 4 < 2 ^ 64

instance : Decidable c.Sized := inferInstanceAs (Decidable (_ ∧ _))

/-- What keeps the call from being made. -/
def refusal? : Option Fault :=
  if 0 ∈ c.directory.data then
    some (.engine Native.name "resource directory contains an interior NUL byte")
  else if 0 ∈ c.document.text.toUTF8.data then
    some (.engine Native.name "map document contains an interior NUL byte")
  else if dimensionLimit < c.width then some (.dimensions c.width c.height)
  else if dimensionLimit < c.height then some (.dimensions c.width c.height)
  else if c.Sized then none
  else some (.dimensions c.width c.height)

/-- The first check that fails, and its fault. -/
inductive Refused : Fault → Prop where
  | directory (h : 0 ∈ c.directory.data) :
      Refused (.engine "native" "resource directory contains an interior NUL byte")
  | document (hd : 0 ∉ c.directory.data) (h : 0 ∈ c.document.text.toUTF8.data) :
      Refused (.engine "native" "map document contains an interior NUL byte")
  | width (hd : 0 ∉ c.directory.data) (ht : 0 ∉ c.document.text.toUTF8.data)
      (h : 2 ^ 31 - 1 < c.width) : Refused (.dimensions c.width c.height)
  | height (hd : 0 ∉ c.directory.data) (ht : 0 ∉ c.document.text.toUTF8.data)
      (hw : c.width ≤ 2 ^ 31 - 1) (h : 2 ^ 31 - 1 < c.height) : Refused (.dimensions c.width c.height)
  | size (hd : 0 ∉ c.directory.data) (ht : 0 ∉ c.document.text.toUTF8.data)
      (hw : c.width ≤ 2 ^ 31 - 1) (hh : c.height ≤ 2 ^ 31 - 1) (h : ¬ c.Sized) :
      Refused (.dimensions c.width c.height)

theorem sized_iff : c.Sized ↔ Canvas.length? c.width c.height = some c.canvas.bytes.size := by
  unfold Sized
  rw [Canvas.length?_eq, Nat.mul_comm (c.width * c.height) 4]
  by_cases h : 4 * (c.width * c.height) < 2 ^ 64
  · rw [if_pos h, Option.some.injEq]
    omega
  · rw [if_neg h]
    simp only [reduceCtorEq, iff_false]
    omega

/-- No check fails. -/
structure Clear : Prop where
  directory : 0 ∉ c.directory.data
  document : 0 ∉ c.document.text.toUTF8.data
  width : c.width ≤ 2 ^ 31 - 1
  height : c.height ≤ 2 ^ 31 - 1
  sized : c.Sized

/-- The checks, each made if those before it did not fail. -/
theorem refusal?_cases :
    (c.refusal? = none ∧ c.Clear) ∨ ∃ f, c.refusal? = some f ∧ c.Refused f := by
  unfold refusal? dimensionLimit
  by_cases hd : 0 ∈ c.directory.data
  · exact .inr ⟨_, if_pos hd, .directory hd⟩
  rw [if_neg hd]
  by_cases ht : 0 ∈ c.document.text.toUTF8.data
  · exact .inr ⟨_, if_pos ht, .document hd ht⟩
  rw [if_neg ht]
  by_cases hw : 2 ^ 31 - 1 < c.width
  · exact .inr ⟨_, if_pos hw, .width hd ht hw⟩
  rw [if_neg hw]
  by_cases hh : 2 ^ 31 - 1 < c.height
  · exact .inr ⟨_, if_pos hh, .height hd ht (by omega) hh⟩
  rw [if_neg hh]
  by_cases hs : c.Sized
  · exact .inl ⟨if_pos hs, hd, ht, by omega, by omega, hs⟩
  · exact .inr ⟨_, if_neg hs, .size hd ht (by omega) (by omega) hs⟩

variable {c}

theorem Refused.not_clear {f : Fault} (h : c.Refused f) : ¬ c.Clear := by
  intro hclear
  cases h with
  | directory h => exact hclear.directory h
  | document _ h => exact hclear.document h
  | width _ _ h => exact Nat.not_lt_of_le hclear.width h
  | height _ _ _ h => exact Nat.not_lt_of_le hclear.height h
  | size _ _ _ _ h => exact h hclear.sized

/-- No check asks for sides that are positive, but a picture of the size of a canvas has such sides, as no
new canvas is empty. -/
theorem clear_iff (hcanvas : 0 < c.canvas.bytes.size) : c.Clear ↔ c.arguments.Safe c.canvas := by
  constructor
  · intro h
    have harea : c.width * c.height ≠ 0 := by
      have hsize := h.sized.1
      omega
    have hsides := Nat.mul_ne_zero_iff.1 harea
    exact {
      directory := h.directory
      document := h.document
      width := ⟨Nat.pos_of_ne_zero hsides.1, h.width⟩
      height := ⟨Nat.pos_of_ne_zero hsides.2, h.height⟩
      canvas := rfl
      picture := h.sized }
  · intro h
    exact ⟨h.directory, h.document, h.width.2, h.height.2, h.picture⟩

end RawCall

/-- What was asked of a library, and what came of it. -/
structure Native.Run where
  asked : List RawArguments
  drawn : Drawn

/-- The answer of a library. -/
def Native.answer (path : String) : Int × ByteArray → Drawn
  | (code, bytes) =>
    if code = 0 then .filled bytes
    else .failed (.engine Native.name (path ++ " returned code " ++ Text.int code))

def Native.run (path : String) (entry : RawArguments → Int × ByteArray) (c : RawCall) : Native.Run :=
  match c.refusal? with
  | some f => ⟨[], .failed f⟩
  | none => ⟨[c.arguments], Native.answer path (entry c.arguments)⟩

theorem Native.answer_filled_iff (path : String) (a : Int × ByteArray) :
    (∃ bytes, Native.answer path a = .filled bytes) ↔ a.1 = 0 := by
  obtain ⟨code, bytes⟩ := a
  by_cases h : code = 0 <;> simp [Native.answer, h]

/-! Texts by their bytes. Only NUL has a byte that is zero. -/

theorem zero_mem_utf8EncodeChar (c : Char) : 0 ∈ String.utf8EncodeChar c ↔ c = '\x00' := by
  have hzero (n : Nat) : (0 : UInt8) = UInt8.ofNat n ↔ n % 256 = 0 := by
    rw [← UInt8.toNat_inj, UInt8.toNat_ofNat]
    exact eq_comm
  have hchar : c = '\x00' ↔ c.val.toNat = 0 := by
    rw [← Char.val_inj, ← UInt32.toNat_inj]
    rfl
  rw [hchar]
  unfold String.utf8EncodeChar
  by_cases h1 : c.val.toNat ≤ 127
  · simp only [h1, if_true, List.mem_singleton, hzero]
    omega
  · by_cases h2 : c.val.toNat ≤ 2047
    · simp only [h1, h2, if_true, if_false, List.mem_cons, List.not_mem_nil, or_false, hzero]
      omega
    · by_cases h3 : c.val.toNat ≤ 65535
      · simp only [h1, h2, h3, if_true, if_false, List.mem_cons, List.not_mem_nil, or_false, hzero]
        omega
      · simp only [h1, h2, h3, if_false, List.mem_cons, List.not_mem_nil, or_false, hzero]
        omega

theorem zero_mem_toUTF8 (s : String) : 0 ∈ s.toUTF8.data ↔ hasNul s = true := by
  rw [String.toUTF8_eq_toByteArray, ← String.utf8Encode_toList, List.utf8Encode, List.data_toByteArray,
    List.mem_toArray, List.mem_flatMap, hasNul, List.contains_iff_mem]
  simp only [zero_mem_utf8EncodeChar, exists_eq_right]

/-- The checks of a call are those of its bytes. -/
theorem ForeignCall.of_eq (c : Call) : ForeignCall.of c = match c.raw.refusal? with
    | some f => .error f
    | none =>
      .ok ⟨c.resources, c.document.text, c.width, c.height, c.extent, c.canvas.bytes.size⟩ := by
  have hclean (s : String) (h : 0 ∉ s.toUTF8.data) : ¬ hasNul s = true :=
    fun hnul => h ((zero_mem_toUTF8 s).2 hnul)
  have hsides (hw : c.width ≤ 2 ^ 31 - 1) (hh : c.height ≤ 2 ^ 31 - 1) :
      ¬ (dimensionLimit < c.width ∨ dimensionLimit < c.height) :=
    not_or.2 ⟨Nat.not_lt_of_le hw, Nat.not_lt_of_le hh⟩
  have hsized : c.raw.Sized ↔ Canvas.length? c.width c.height = some c.canvas.bytes.size :=
    c.raw.sized_iff
  obtain ⟨hnone, hclear⟩ | ⟨f, hsome, hrefused⟩ := c.raw.refusal?_cases
  · rw [hnone, ForeignCall.of, if_neg (hclean _ hclear.directory),
      if_neg (hclean c.document.text hclear.document), if_neg (hsides hclear.width hclear.height),
      if_neg (not_not_intro (hsized.1 hclear.sized))]
  · rw [hsome, ForeignCall.of]
    cases hrefused with
    | directory hd => exact if_pos ((zero_mem_toUTF8 _).1 hd)
    | document hd ht =>
      rw [if_neg (hclean _ hd), if_pos ((zero_mem_toUTF8 c.document.text).1 ht)]
      rfl
    | width hd ht hw =>
      rw [if_neg (hclean _ hd), if_neg (hclean c.document.text ht), if_pos (.inl hw)]
      rfl
    | height hd ht hw hh =>
      rw [if_neg (hclean _ hd), if_neg (hclean c.document.text ht), if_pos (.inr hh)]
      rfl
    | size hd ht hw hh hs =>
      rw [if_neg (hclean _ hd), if_neg (hclean c.document.text ht), if_neg (hsides hw hh),
        if_pos (mt hsized.2 hs)]
      rfl

/-- What comes of a call, and what a library is given for it, is what its bytes say. -/
theorem Native.draw_eq_run (path : String) (entry : RawArguments → Int × ByteArray) (c : Call) :
    Native.draw path (fun a => entry a.raw) c = (Native.run path entry c.raw).drawn ∧
      (ForeignCall.of c).toOption.toList.map ForeignCall.raw = (Native.run path entry c.raw).asked := by
  rw [Native.draw, ForeignCall.of_eq, Native.run]
  cases c.raw.refusal? with
  | some f => exact ⟨rfl, rfl⟩
  | none => exact ⟨rfl, rfl⟩

/-- The canvas that a renderer hands on has the size that it asks for. -/
theorem sized_of_mem_calls {r : Renderer} {document : MapDocument} {resources : String} {q : Request}
    {c : Call} (h : c ∈ (r.rasterize document resources q).calls) (directory : ByteArray) :
    { c.raw with directory := directory }.Sized := by
  cases hcanvas : newCanvas q.width q.height with
  | error e =>
    rw [rasterize_of_error r document resources q hcanvas] at h
    cases h
  | ok canvas =>
    rw [calls_rasterize r document resources q hcanvas, List.mem_singleton] at h
    subst h
    have hfits := (Canvas.blank_ok (newCanvas_eq_ok.1 hcanvas)).2.2.2
    obtain ⟨hw, hh, -⟩ := newCanvas_ok hcanvas
    have hsize := canvas.size_eq
    rw [hw, hh] at hsize
    change canvas.bytes.size = q.width * q.height * 4 ∧ q.width * q.height * 4 < 2 ^ 64
    omega

/-- The function of a library is called only with safe arguments. If they are, it is called once and
succeeds exactly with the code zero; otherwise it is not called, and the first check that fails says why. A
renderer's calls never fail the check of the size. -/
theorem foreign_calls_safe (path : String) (entry : RawArguments → Int × ByteArray) (c : RawCall)
    {fresh : Canvas} (hnew : newCanvas c.canvas.width c.canvas.height = .ok fresh) :
    (c.arguments.Safe c.canvas ∧ (Native.run path entry c).asked = [c.arguments] ∧
        ((∃ bytes, (Native.run path entry c).drawn = .filled bytes) ↔ (entry c.arguments).1 = 0) ∨
      ¬ c.arguments.Safe c.canvas ∧ (Native.run path entry c).asked = [] ∧
        ∃ f, c.Refused f ∧ (Native.run path entry c).drawn = .failed f) ∧
    (∀ (r : Renderer) document resources q, ∀ d ∈ (r.rasterize document resources q).calls,
      ∀ directory, { d.raw with directory := directory }.Sized) ∧
    ∀ d : Call, Native.draw path (fun a => entry a.raw) d = (Native.run path entry d.raw).drawn ∧
      (ForeignCall.of d).toOption.toList.map ForeignCall.raw = (Native.run path entry d.raw).asked := by
  have hcanvas : 0 < c.canvas.bytes.size := by
    have hblank := (Canvas.blank_ok_iff _ _ _).1 (newCanvas_eq_ok.1 hnew)
    have harea := Nat.mul_pos hblank.2.2.2.1 hblank.2.2.2.2.1
    have hsize := c.canvas.size_eq
    omega
  refine ⟨?_, fun _ _ _ _ _ hd => sized_of_mem_calls hd, Native.draw_eq_run path entry⟩
  rw [← RawCall.clear_iff hcanvas, Native.run]
  obtain ⟨hnone, hclear⟩ | ⟨f, hsome, hrefused⟩ := c.refusal?_cases
  · rw [hnone]
    exact .inl ⟨hclear, rfl, Native.answer_filled_iff path _⟩
  · rw [hsome]
    exact .inr ⟨hrefused.not_clear, rfl, f, hrefused, rfl⟩

/-- A picture of one pixel. -/
def RawCall.dot (directory : ByteArray) : RawCall :=
  ⟨directory, ⟨"<Map/>"⟩, 1, 1, ⟨0, 0, 1, 1⟩, ⟨1, 1, Canvas.zeros 4, Canvas.size_zeros 4⟩⟩

/-- Bytes of a directory that are no text are passed on, too. -/
theorem foreign_calls_safe_bytes :
    newCanvas 1 1 = .ok ⟨1, 1, Canvas.zeros 4, Canvas.size_zeros 4⟩ ∧
      (Native.run "engine.so" (fun _ => (0, ByteArray.empty)) (RawCall.dot ⟨#[0x72, 0xE9]⟩)).asked =
        [(RawCall.dot ⟨#[0x72, 0xE9]⟩).arguments] := by
  have hnew : newCanvas 1 1 = .ok ⟨1, 1, Canvas.zeros 4, Canvas.size_zeros 4⟩ := rfl
  have hsafe : (RawCall.dot ⟨#[0x72, 0xE9]⟩).arguments.Safe (RawCall.dot ⟨#[0x72, 0xE9]⟩).canvas :=
    ⟨by simp [RawCall.arguments, RawCall.dot], mt (zero_mem_toUTF8 "<Map/>").1 (by decide), by decide,
      by decide, rfl, by decide⟩
  refine ⟨hnew, ?_⟩
  obtain ⟨-, hasked, -⟩ | ⟨hrisky, -⟩ := (foreign_calls_safe "engine.so"
    (fun _ => (0, ByteArray.empty)) (RawCall.dot ⟨#[0x72, 0xE9]⟩) hnew).1
  · exact hasked
  · exact absurd hsafe hrisky

end StyledMap.Render
