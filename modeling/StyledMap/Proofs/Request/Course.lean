import StyledMap.Proofs.Render.Canvases
import StyledMap.Request.Service

/-! The courses that a request can take. There are six, by the step that ends it; each leaves its
own trail, and they say all that the other modules need to know of how a request is handled. -/
namespace StyledMap.Request
open Render (Call)

def Job.compile (j : Job) : List MapDocument.Notice × Except MapDocument.Fault MapDocument :=
  MapDocument.compile j.styles j.zooms j.layers j.srs j.background

namespace Trail

def atReading : Trail := start.enter .reading

def atCompiling (notices : List MapDocument.Notice) : Trail :=
  (atReading.enter .compiling).note (notices.map .document)

def atRendering (notices : List MapDocument.Notice) (document : MapDocument)
    (drawing : List Render.Notice) : Trail :=
  (((atCompiling notices).note [.documentSize document.size]).enter .rendering).note
    (drawing.map .render)

def atEncoding (t : Trail) (encoding : List Render.Notice) : Trail :=
  (t.enter .encoding).note (encoding.map .render)

end Trail

namespace Service

def drawing (s : Service) (j : Job) (document : MapDocument) : Render.Rasterized :=
  s.renderer.rasterize document s.resources j.request

/-- The ways through the stages, by where they end. -/
inductive Course (s : Service) (p : Params) : Handled → Prop where
  | unread (f : Fault) (hj : p.job s.settings = .error f) :
      Course s p (Trail.atReading.refuse f [] [])
  | uncompiled (job : Job) (notices : List MapDocument.Notice) (f : MapDocument.Fault)
      (hj : p.job s.settings = .ok job) (hc : job.compile = (notices, .error f)) :
      Course s p ((Trail.atCompiling notices).refuse (.document f) [] [])
  | undrawn (job : Job) (notices : List MapDocument.Notice) (document : MapDocument)
      (f : Render.Fault) (hj : p.job s.settings = .ok job)
      (hc : job.compile = (notices, .ok document))
      (hd : (s.drawing job document).result = .error (.fault f)) :
      Course s p ((Trail.atRendering notices document (s.drawing job document).notices).refuse
        (.render f) (s.drawing job document).calls [])
  | crashed (job : Job) (notices : List MapDocument.Notice) (document : MapDocument) (why : String)
      (hj : p.job s.settings = .ok job) (hc : job.compile = (notices, .ok document))
      (hd : (s.drawing job document).result = .error (.crash why)) :
      Course s p ⟨.crash why, Trail.atRendering notices document (s.drawing job document).notices,
        (s.drawing job document).calls, []⟩
  | unencoded (job : Job) (notices : List MapDocument.Notice) (document : MapDocument)
      (image : Image) (encoding : List Render.Notice) (f : Render.Fault)
      (hj : p.job s.settings = .ok job) (hc : job.compile = (notices, .ok document))
      (hd : (s.drawing job document).result = .ok image)
      (he : s.renderer.encode image = (encoding, .error f)) :
      Course s p (((Trail.atRendering notices document (s.drawing job document).notices).atEncoding
        encoding).refuse (.render f) (s.drawing job document).calls [image])
  | answered (job : Job) (notices : List MapDocument.Notice) (document : MapDocument)
      (image : Image) (encoding : List Render.Notice) (tile : Render.EncodedTile)
      (hj : p.job s.settings = .ok job) (hc : job.compile = (notices, .ok document))
      (hd : (s.drawing job document).result = .ok image)
      (he : s.renderer.encode image = (encoding, .ok tile)) :
      Course s p (((Trail.atRendering notices document (s.drawing job document).notices).atEncoding
        encoding).answer tile (s.drawing job document).calls [image])

theorem course (s : Service) (p : Params) : Course s p (s.handle p) := by
  unfold handle
  cases hj : p.job s.settings with
  | error f => exact .unread f hj
  | ok job =>
    simp only [compile]
    cases hc : job.compile with
    | mk notices result =>
      have hc' := hc
      unfold Job.compile at hc'
      cases result with
      | error f =>
        simp only [hc']
        exact .uncompiled job notices f hj hc
      | ok document =>
        simp only [hc', render]
        cases hd : (s.drawing job document).result with
        | error stop =>
          have hd' := hd
          unfold drawing at hd'
          cases stop with
          | fault f =>
            simp only [hd']
            exact .undrawn job notices document f hj hc hd
          | crash why =>
            simp only [hd']
            exact .crashed job notices document why hj hc hd
        | ok image =>
          have hd' := hd
          unfold drawing at hd'
          simp only [hd', encode]
          cases he : s.renderer.encode image with
          | mk encoding result =>
            cases result with
            | error f => exact .unencoded job notices document image encoding f hj hc hd he
            | ok tile => exact .answered job notices document image encoding tile hj hc hd he

/-- A request that no reply comes of: its document is compiled, and then there is no memory for the
canvas or the engine takes everything down. -/
def Unanswerable (s : Service) (p : Params) : Prop :=
  ∃ job document, p.job s.settings = .ok job ∧ job.compile.2 = .ok document ∧
    (Canvas.Unallocatable job.width job.height ∨
      ∃ canvas why, Render.newCanvas job.width job.height = .ok canvas ∧
        s.renderer.engine.draw (job.request.call document s.resources canvas) = .crashed why)

theorem drawing_crash_iff (s : Service) (job : Job) (document : MapDocument) :
    (∃ why, (s.drawing job document).result = .error (.crash why)) ↔
      (Canvas.Unallocatable job.width job.height ∨
        ∃ canvas why, Render.newCanvas job.width job.height = .ok canvas ∧
          s.renderer.engine.draw (job.request.call document s.resources canvas) = .crashed why) := by
  rw [← Render.newCanvas_crash_iff]
  unfold drawing
  cases hn : Render.newCanvas job.width job.height with
  | error e =>
    rw [Render.rasterize_of_error s.renderer document s.resources job.request hn]
    simp
  | ok canvas =>
    rw [Render.result_rasterize s.renderer document s.resources job.request hn]
    cases hd : s.renderer.engine.draw (job.request.call document s.resources canvas) <;>
      simp [Render.Renderer.picture, hd]

/-- Once a document is there, only the drawing decides whether a reply comes. -/
theorem unanswerable_iff_crash {s : Service} {p : Params} {job : Job}
    {notices : List MapDocument.Notice} {document : MapDocument} (hj : p.job s.settings = .ok job)
    (hc : job.compile = (notices, .ok document)) :
    s.Unanswerable p ↔ ∃ why, (s.drawing job document).result = .error (.crash why) := by
  rw [drawing_crash_iff]
  constructor
  · rintro ⟨job', document', hj', hc', h⟩
    obtain rfl : job = job' := Except.ok.inj (hj.symm.trans hj')
    rw [hc] at hc'
    obtain rfl : document = document' := Except.ok.inj hc'
    exact h
  · intro h
    exact ⟨job, document, hj, by rw [hc], h⟩

theorem Course.unanswerable_iff {s : Service} {p : Params} {h : Handled} (c : Course s p h) :
    s.Unanswerable p ↔ ∃ why, h.outcome = .crash why := by
  cases c with
  | unread f hj =>
    constructor
    · rintro ⟨job, document, hj', -⟩
      rw [hj] at hj'
      cases hj'
    · rintro ⟨why, hw⟩
      cases hw
  | uncompiled job notices f hj hc =>
    constructor
    · rintro ⟨job', document, hj', hc', -⟩
      obtain rfl : job = job' := Except.ok.inj (hj.symm.trans hj')
      rw [hc] at hc'
      cases hc'
    · rintro ⟨why, hw⟩
      cases hw
  | undrawn job notices document f hj hc hd =>
    rw [unanswerable_iff_crash hj hc, hd]
    simp [Trail.refuse]
  | crashed job notices document why hj hc hd =>
    rw [unanswerable_iff_crash hj hc, hd]
    simp
  | unencoded job notices document image encoding f hj hc hd he =>
    rw [unanswerable_iff_crash hj hc, hd]
    simp [Trail.refuse]
  | answered job notices document image encoding tile hj hc hd he =>
    rw [unanswerable_iff_crash hj hc, hd]
    simp [Trail.answer]

/- The settings bound each side of a tile, not their product, so the sizes without memory can be
asked for: here `2 ^ 64 - 2 ^ 33` bytes, with both sides below the greatest bound there is. -/

def hugeTile : Params := Params.ofPairs
  [("style", "[[\"s\"]]"), ("zooms", "[]"),
   ("layers", "[[\"l\",\"s\",\"x\",true,\x7b\"kind\":\"file\",\"type\":\"t\",\"path\":\"p\"\x7d]]"),
   ("width", "2147483648"), ("height", "2147483647"),
   ("lon0", "0"), ("lat0", "0"), ("lon1", "1"), ("lat1", "1")]

def widestSettings : Settings.Render := ⟨"x", "white", 2 ^ 32 - 1, 2 ^ 32 - 1, 30⟩

/-- A service with the widest bounds, whose engine draws nothing and always succeeds. -/
def blankService : Service :=
  ⟨⟨⟨"blank", true, 0, fun _ => .filled ByteArray.empty⟩, .png, .topDown⟩, "resources",
    widestSettings⟩

theorem job_hugeTile : ∃ job document, hugeTile.job blankService.settings = .ok job ∧
    job.compile.2 = .ok document ∧ job.width = 2 ^ 31 ∧ job.height = 2 ^ 31 - 1 := by
  have h : (match hugeTile.job blankService.settings with
      | .ok job => job.compile.2.isOk && job.width == 2 ^ 31 && job.height == 2 ^ 31 - 1
      | .error _ => false) = true := by decide +kernel
  cases hj : hugeTile.job blankService.settings with
  | error f => rw [hj] at h; cases h
  | ok job =>
    rw [hj] at h
    simp only [Bool.and_eq_true, beq_iff_eq] at h
    obtain ⟨⟨hc, hw⟩, hh⟩ := h
    cases hd : job.compile.2 with
    | error f => rw [hd] at hc; cases hc
    | ok document => exact ⟨job, document, rfl, hd, hw, hh⟩

theorem unanswerable_hugeTile : blankService.Unanswerable hugeTile := by
  obtain ⟨job, document, hj, hc, hw, hh⟩ := job_hugeTile
  refine ⟨job, document, hj, hc, .inl ?_⟩
  rw [hw, hh]
  exact ⟨by decide, by decide⟩

end Service
end StyledMap.Request
