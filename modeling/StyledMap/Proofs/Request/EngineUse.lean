import StyledMap.Proofs.Request.Course
import StyledMap.Proofs.Request.Parameters

/-! What a request asks of the engine and the encoder. The engine is called once if the parameters
are read, the document is compiled and a canvas is made, and not at all otherwise; the encoder gets
what the engine drew; the reply is the tile or a report, and the report says whose fault it was. -/
namespace StyledMap.Request
open Render (Call)
open Steps

/-- The call that a request comes to, if every step before it succeeds. -/
def Service.Due (s : Service) (p : Params) (c : Call) : Prop :=
  ∃ job document canvas, p.job s.settings = .ok job ∧ job.compile.2 = .ok document ∧
    Render.newCanvas job.width job.height = .ok canvas ∧
    c = ⟨s.resources, document, job.width, job.height, job.extent, canvas⟩

/-- The picture that a call leads to. -/
def Service.Drew (s : Service) (c : Call) (i : Image) : Prop :=
  ∃ bytes, s.renderer.engine.draw c = .filled bytes ∧
    i = Image.ofCanvas s.renderer.rowOrder (c.canvas.write bytes)

structure EngineUse (s : Service) (p : Params) (h : Handled) : Prop where
  calledOnce : h.calls.length ≤ 1
  called_iff : h.calls.length = 1 ↔ ∃ c, s.Due p c
  mem_calls_iff : ∀ c, c ∈ h.calls ↔ s.Due p c
  canvas : ∀ c ∈ h.calls, c.canvas.bytes = Canvas.zeros (c.width * c.height * 4) ∧
    c.canvas.bytes.size = c.width * c.height * 4
  encodedOnce : h.images.length ≤ 1
  mem_images_iff : ∀ i, i ∈ h.images ↔ ∃ c ∈ h.calls, s.Drew c i
  image : ∀ c ∈ h.calls, ∀ i ∈ h.images, i.width = c.width ∧ i.height = c.height
  tile_iff : ∀ tile, h.outcome = .reply (.image tile) ↔
    ∃ i ∈ h.images, s.renderer.encoder.encode i = .ok tile
  replied_iff : (∃ r, h.outcome = .reply r) ↔ ¬ s.Unanswerable p
  status : ∀ report, h.outcome = .reply (.report report) →
    report.kind.status = 400 ∨ report.kind.status = 500
  badRequest : ∀ report, h.outcome = .reply (.report report) → report.kind.status = 400 →
    h.calls = [] ∨
    (∃ c ∈ h.calls, ∃ w k, s.renderer.engine.draw c = .failed (.dimensions w k)) ∨
    ∃ i ∈ h.images, ∃ w k, s.renderer.encoder.encode i = .error (.dimensions w k)
  unread : ∀ f, p.job s.settings = .error f →
    ∃ report, h.outcome = .reply (.report report) ∧ report.kind.status = 400
  uncompiled : ∀ job f, p.job s.settings = .ok job → job.compile.2 = .error f →
    ∃ report, h.outcome = .reply (.report report) ∧ report.kind.status = 400

theorem status_document (f : MapDocument.Fault) : (Fault.document f).kind.status = 400 := by
  cases f <;> rfl

theorem status_render (f : Render.Fault) :
    (Fault.render f).kind.status = 400 ∧ (∃ w k, f = .dimensions w k) ∨
      (Fault.render f).kind.status = 500 := by
  cases f with
  | dimensions w k => exact .inl ⟨rfl, w, k, rfl⟩
  | library | engine | encoding => exact .inr rfl

namespace Service
variable {s : Service} {p : Params} {job : Job} {notices : List MapDocument.Notice}
  {document : MapDocument}

theorem due_of_canvas (hj : p.job s.settings = .ok job) (hc : job.compile = (notices, .ok document))
    {canvas : Canvas} (hn : Render.newCanvas job.width job.height = .ok canvas) (c : Call) :
    s.Due p c ↔ c = job.request.call document s.resources canvas := by
  constructor
  · rintro ⟨job', document', canvas', hj', hc', hn', rfl⟩
    obtain rfl : job = job' := Except.ok.inj (hj.symm.trans hj')
    rw [hc] at hc'
    obtain rfl : document = document' := Except.ok.inj hc'
    obtain rfl : canvas = canvas' := Except.ok.inj (hn.symm.trans hn')
    rfl
  · rintro rfl
    exact ⟨job, document, canvas, hj, by rw [hc], hn, rfl⟩

theorem not_due_of_no_canvas (hj : p.job s.settings = .ok job) {e : Render.Stop}
    (hn : Render.newCanvas job.width job.height = .error e) (c : Call) : ¬ s.Due p c := by
  rintro ⟨job', document', canvas, hj', hc', hn', -⟩
  obtain rfl : job = job' := Except.ok.inj (hj.symm.trans hj')
  rw [hn] at hn'
  cases hn'

/-- After compiling, either there is no canvas and no call, or there is one of each and the engine
decides what comes of it. -/
theorem drawing_cases (s : Service) (job : Job) (document : MapDocument) :
    (∃ e, Render.newCanvas job.width job.height = .error e ∧
      (s.drawing job document).calls = [] ∧ (s.drawing job document).result = .error e) ∨
    ∃ canvas, Render.newCanvas job.width job.height = .ok canvas ∧
      (s.drawing job document).calls = [job.request.call document s.resources canvas] ∧
      (s.drawing job document).result = s.renderer.picture canvas
        (s.renderer.engine.draw (job.request.call document s.resources canvas)) := by
  unfold drawing
  cases hn : Render.newCanvas job.width job.height with
  | error e =>
    have hr := Render.rasterize_of_error s.renderer document s.resources job.request hn
    exact .inl ⟨e, rfl, by rw [hr], by rw [hr]⟩
  | ok canvas =>
    have hcalls := Render.calls_rasterize s.renderer document s.resources job.request hn
    have hr := Render.result_rasterize s.renderer document s.resources job.request hn
    exact .inr ⟨canvas, rfl, hcalls, hr⟩

/-- The calls of a compiled request are those that are due, and there is no second one. -/
theorem calls_drawing (hj : p.job s.settings = .ok job)
    (hc : job.compile = (notices, .ok document)) :
    (s.drawing job document).calls.length ≤ 1 ∧
      ∀ c, c ∈ (s.drawing job document).calls ↔ s.Due p c := by
  obtain ⟨e, hn, hcalls, -⟩ | ⟨canvas, hn, hcalls, -⟩ := drawing_cases s job document
  · rw [hcalls]
    refine ⟨Nat.zero_le 1, fun c => ?_⟩
    simp [not_due_of_no_canvas hj hn c]
  · rw [hcalls]
    refine ⟨Nat.le_refl 1, fun c => ?_⟩
    rw [due_of_canvas hj hc hn c]
    simp

/-- An image comes exactly of a call whose drawing succeeded. -/
theorem result_drawing_ok_iff (s : Service) (job : Job) (document : MapDocument) (i : Image) :
    (s.drawing job document).result = .ok i ↔
      ∃ c ∈ (s.drawing job document).calls, s.Drew c i := by
  obtain ⟨e, hn, hcalls, hr⟩ | ⟨canvas, hn, hcalls, hr⟩ := drawing_cases s job document
  · rw [hcalls, hr]
    simp
  · rw [hcalls, hr]
    simp only [List.mem_singleton, exists_eq_left, Drew]
    cases hd : s.renderer.engine.draw (job.request.call document s.resources canvas) with
    | filled bytes =>
      simp only [Render.Renderer.picture, Except.ok.injEq, Render.Drawn.filled.injEq,
        exists_eq_left']
      exact eq_comm
    | failed f => simp [Render.Renderer.picture]
    | crashed why => simp [Render.Renderer.picture]

/-- A fault in drawing is about the size, without a call, or the answer of the engine. -/
theorem result_drawing_fault {f : Render.Fault}
    (hd : (s.drawing job document).result = .error (.fault f)) :
    (s.drawing job document).calls = [] ∧ (∃ w k, f = .dimensions w k) ∨
      ∃ c ∈ (s.drawing job document).calls, s.renderer.engine.draw c = .failed f := by
  obtain ⟨e, hn, hcalls, hr⟩ | ⟨canvas, hn, hcalls, hr⟩ := drawing_cases s job document
  · rw [hr] at hd
    obtain rfl := Except.error.inj hd
    exact .inl ⟨hcalls, job.width, job.height, Render.newCanvas_fault hn⟩
  · right
    rw [hr] at hd
    refine ⟨_, by rw [hcalls]; exact List.mem_singleton.2 rfl, ?_⟩
    cases he : s.renderer.engine.draw (job.request.call document s.resources canvas) with
    | filled bytes => rw [he] at hd; cases hd
    | failed g => rw [he] at hd; cases hd; rfl
    | crashed why => rw [he] at hd; cases hd

theorem Due.canvas {c : Call} (h : s.Due p c) :
    c.canvas.width = c.width ∧ c.canvas.height = c.height ∧
      c.canvas.bytes = Canvas.zeros (c.width * c.height * 4) := by
  obtain ⟨job, document, canvas, -, -, hn, rfl⟩ := h
  have hs := Render.newCanvas_ok hn
  exact ⟨hs.1, hs.2.1, by rw [hs.2.2, Nat.mul_comm 4]⟩

theorem Drew.size {c : Call} {i : Image} (h : s.Drew c i) :
    i.width = c.canvas.width ∧ i.height = c.canvas.height := by
  obtain ⟨bytes, -, rfl⟩ := h
  exact Render.size_ofCanvas s.renderer.rowOrder (c.canvas.write bytes)

namespace Course
variable {h : Handled}

/-- The calls are those that are due, also when a step before the drawing fails. -/
theorem calls_due (c : Course s p h) : h.calls.length ≤ 1 ∧ ∀ k, k ∈ h.calls ↔ s.Due p k := by
  cases c with
  | unread f hj =>
    refine ⟨Nat.zero_le 1, fun k => ⟨fun hk => (by cases hk), ?_⟩⟩
    rintro ⟨job, document, canvas, hj', -⟩
    rw [hj] at hj'
    cases hj'
  | uncompiled job notices f hj hc =>
    refine ⟨Nat.zero_le 1, fun k => ⟨fun hk => (by cases hk), ?_⟩⟩
    rintro ⟨job', document, canvas, hj', hc', -⟩
    obtain rfl : job = job' := Except.ok.inj (hj.symm.trans hj')
    rw [hc] at hc'
    cases hc'
  | undrawn job notices document f hj hc hd => exact calls_drawing hj hc
  | crashed job notices document why hj hc hd => exact calls_drawing hj hc
  | unencoded job notices document image encoding f hj hc hd he => exact calls_drawing hj hc
  | answered job notices document image encoding tile hj hc hd he => exact calls_drawing hj hc

/-- The encoder gets what the engine drew, and nothing if it drew nothing. -/
theorem images_drawn (c : Course s p h) :
    h.images.length ≤ 1 ∧ ∀ i, i ∈ h.images ↔ ∃ k ∈ h.calls, s.Drew k i := by
  cases c with
  | unread f hj => exact ⟨Nat.zero_le 1, fun i => by simp [Trail.refuse]⟩
  | uncompiled job notices f hj hc => exact ⟨Nat.zero_le 1, fun i => by simp [Trail.refuse]⟩
  | undrawn job notices document f hj hc hd =>
    refine ⟨Nat.zero_le 1, fun i => ?_⟩
    have hi := result_drawing_ok_iff s job document i
    rw [hd] at hi
    simpa [Trail.refuse] using hi
  | crashed job notices document why hj hc hd =>
    refine ⟨Nat.zero_le 1, fun i => ?_⟩
    have hi := result_drawing_ok_iff s job document i
    rw [hd] at hi
    simpa using hi
  | unencoded job notices document image encoding f hj hc hd he =>
    refine ⟨Nat.le_refl 1, fun i => ?_⟩
    have hi := result_drawing_ok_iff s job document i
    rw [hd, Except.ok.injEq, eq_comm] at hi
    simpa [Trail.refuse] using hi
  | answered job notices document image encoding tile hj hc hd he =>
    refine ⟨Nat.le_refl 1, fun i => ?_⟩
    have hi := result_drawing_ok_iff s job document i
    rw [hd, Except.ok.injEq, eq_comm] at hi
    simpa [Trail.answer] using hi

theorem tile_iff (c : Course s p h) (tile : Render.EncodedTile) :
    h.outcome = .reply (.image tile) ↔ ∃ i ∈ h.images, s.renderer.encoder.encode i = .ok tile := by
  cases c with
  | unread | uncompiled | undrawn => simp [Trail.refuse]
  | crashed => simp
  | unencoded job notices document image encoding f hj hc hd he =>
    have hf : s.renderer.encoder.encode image = .error f := by
      rw [← Render.result_encode, he]
    simp [Trail.refuse, hf]
  | answered job notices document image encoding tile' hj hc hd he =>
    have ht : s.renderer.encoder.encode image = .ok tile' := by
      rw [← Render.result_encode, he]
    simp [Trail.answer, ht]

/-- What a report can be about, with the step that it comes of. -/
theorem report_cases (c : Course s p h) {report : Report}
    (hr : h.outcome = .reply (.report report)) :
    (h.calls = [] ∧ report.kind.status = 400) ∨
    ∃ f, report = Report.ofFault (.render f) ∧
      ((h.calls = [] ∧ ∃ w k, f = .dimensions w k) ∨
      (∃ k ∈ h.calls, s.renderer.engine.draw k = .failed f) ∨
      ∃ i ∈ h.images, s.renderer.encoder.encode i = .error f) := by
  cases c with
  | unread f hj =>
    obtain rfl : Report.ofFault f = report := by simpa [Trail.refuse] using hr
    exact .inl ⟨rfl, (p.job_fails s.settings f hj).status⟩
  | uncompiled job notices f hj hc =>
    obtain rfl : Report.ofFault (.document f) = report := by simpa [Trail.refuse] using hr
    exact .inl ⟨rfl, status_document f⟩
  | undrawn job notices document f hj hc hd =>
    obtain rfl : Report.ofFault (.render f) = report := by simpa [Trail.refuse] using hr
    refine .inr ⟨f, rfl, ?_⟩
    obtain hnone | hfail := result_drawing_fault hd
    · exact .inl hnone
    · exact .inr (.inl hfail)
  | crashed job notices document why hj hc hd => cases hr
  | unencoded job notices document image encoding f hj hc hd he =>
    obtain rfl : Report.ofFault (.render f) = report := by simpa [Trail.refuse] using hr
    refine .inr ⟨f, rfl, .inr (.inr ⟨image, List.mem_singleton.2 rfl, ?_⟩)⟩
    rw [← Render.result_encode, he]
  | answered job notices document image encoding tile hj hc hd he => cases hr

theorem status_report (c : Course s p h) {report : Report}
    (hr : h.outcome = .reply (.report report)) :
    report.kind.status = 400 ∨ report.kind.status = 500 := by
  obtain ⟨-, h400⟩ | ⟨f, rfl, -⟩ := c.report_cases hr
  · exact .inl h400
  · obtain ⟨h400, -⟩ | h500 := status_render f
    · exact .inl h400
    · exact .inr h500

/-- A bad request has called nothing, or its size was refused further on. -/
theorem badRequest_cases (c : Course s p h) {report : Report}
    (hr : h.outcome = .reply (.report report)) (h400 : report.kind.status = 400) :
    h.calls = [] ∨
    (∃ k ∈ h.calls, ∃ width height, s.renderer.engine.draw k = .failed (.dimensions width height)) ∨
    ∃ i ∈ h.images, ∃ width height,
      s.renderer.encoder.encode i = .error (.dimensions width height) := by
  obtain ⟨hnone, -⟩ | ⟨f, rfl, hf⟩ := c.report_cases hr
  · exact .inl hnone
  · obtain ⟨width, height, rfl⟩ : ∃ width height, f = .dimensions width height := by
      obtain ⟨-, hsize⟩ | h500 := status_render f
      · exact hsize
      · exact absurd (h400.symm.trans h500) (by decide)
    obtain ⟨hnone, -⟩ | ⟨k, hk, hd⟩ | ⟨i, hi, he⟩ := hf
    · exact .inl hnone
    · exact .inr (.inl ⟨k, hk, width, height, hd⟩)
    · exact .inr (.inr ⟨i, hi, width, height, he⟩)

/-- The image has the size of the one call that it comes of. -/
theorem size_image (c : Course s p h) {k : Call} (hk : k ∈ h.calls) {i : Image}
    (hi : i ∈ h.images) : i.width = k.width ∧ i.height = k.height := by
  obtain ⟨honce, hdue⟩ := c.calls_due
  obtain ⟨k', hk', hdrew⟩ := (c.images_drawn.2 i).1 hi
  obtain ⟨only, honly⟩ : ∃ only, h.calls = [only] := by
    have hpos := List.length_pos_of_mem hk
    exact List.length_eq_one_iff.1 (by omega)
  rw [honly] at hk hk'
  obtain rfl := List.mem_singleton.1 hk
  obtain rfl := List.mem_singleton.1 hk'
  have hcanvas := ((hdue k').1 (by rw [honly]; exact hk)).canvas
  have hsize := hdrew.size
  exact ⟨hsize.1.trans hcanvas.1, hsize.2.trans hcanvas.2.1⟩

end Course
end Service

/-- Every request uses the engine and the encoder as it should, unless it cannot be answered: then
it has no reply, and all the rest still holds. -/
theorem handle_uses_engine (s : Service) (p : Params) : EngineUse s p (s.handle p) := by
  have c := s.course p
  obtain ⟨honce, hdue⟩ := c.calls_due
  obtain ⟨hone, hdrawn⟩ := c.images_drawn
  constructor
  case calledOnce => exact honce
  case mem_calls_iff => exact hdue
  case encodedOnce => exact hone
  case mem_images_iff => exact hdrawn
  case tile_iff => exact c.tile_iff
  case called_iff =>
    constructor
    · intro h
      obtain ⟨k, hk⟩ := List.length_eq_one_iff.1 h
      exact ⟨k, (hdue k).1 (by rw [hk]; exact List.mem_singleton.2 rfl)⟩
    · rintro ⟨k, hk⟩
      have hpos := List.length_pos_of_mem ((hdue k).2 hk)
      omega
  case canvas =>
    intro k hk
    have hbytes := ((hdue k).1 hk).canvas.2.2
    exact ⟨hbytes, by rw [hbytes, Canvas.size_zeros]⟩
  case image => exact fun k hk i hi => c.size_image hk hi
  case replied_iff =>
    rw [c.unanswerable_iff]
    cases (s.handle p).outcome with
    | reply r => simp
    | crash why => simp
  case status => exact fun report hr => c.status_report hr
  case badRequest => exact fun report hr h400 => c.badRequest_cases hr h400
  case unread =>
    intro f hj
    refine ⟨Report.ofFault f, ?_, (p.job_fails s.settings f hj).status⟩
    simp only [Service.handle, hj]
    rfl
  case uncompiled =>
    intro job f hj hc
    refine ⟨Report.ofFault (.document f), ?_, status_document f⟩
    cases hcompile : MapDocument.compile job.styles job.zooms job.layers job.srs job.background with
    | mk notices result =>
      obtain rfl : result = .error f := by
        unfold Job.compile at hc
        rw [hcompile] at hc
        exact hc
      simp only [Service.handle, hj, Service.compile, hcompile]
      rfl

/-- Parameters that are read and compiled can get no reply, although the engine takes nothing down:
it is not even called. -/
theorem hugeTile_not_reported :
    (∃ job document, Service.hugeTile.job Service.blankService.settings = .ok job ∧
      job.compile.2 = .ok document) ∧
    (∀ c why, Service.blankService.renderer.engine.draw c ≠ .crashed why) ∧
    (Service.blankService.handle Service.hugeTile).calls = [] ∧
    ¬ ∃ r, (Service.blankService.handle Service.hugeTile).outcome = .reply r := by
  have c := Service.blankService.course Service.hugeTile
  obtain ⟨job, document, hj, hc, hw, hh⟩ := Service.job_hugeTile
  have hmem : Canvas.Unallocatable job.width job.height := by
    rw [hw, hh]
    exact ⟨by decide, by decide⟩
  obtain ⟨e, hn⟩ := (Render.newCanvas_crash_iff job.width job.height).2 hmem
  refine ⟨⟨job, document, hj, hc⟩, fun _ _ h => (by cases h), ?_, ?_⟩
  · rw [List.eq_nil_iff_forall_not_mem]
    intro k hk
    exact Service.not_due_of_no_canvas hj hn k ((c.calls_due.2 k).1 hk)
  · rintro ⟨r, hr⟩
    obtain ⟨why, hw⟩ := c.unanswerable_iff.1 Service.unanswerable_hugeTile
    rw [hr] at hw
    cases hw

end StyledMap.Request
