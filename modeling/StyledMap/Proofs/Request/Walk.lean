import Mathlib.Data.List.Chain
import StyledMap.Proofs.Request.Course

/-! The walk of a request through its stages. Every trail is legal and logged step by step; one
that ends in a reply goes from idle to responding, over a failed stage exactly if the reply reports
a fault. The only requests without a reply are those that take everything down. -/
namespace StyledMap.Request

/-- The stages up to the reply, as long as nothing fails. -/
def Stage.mainPath : List Stage := [.idle, .reading, .compiling, .rendering, .encoding]

def Stage.isFailed : Stage → Bool
  | .failed _ => true
  | _ => false

/-- An entry that tells of no step. -/
def Entry.Quiet (e : Entry) : Prop := e.level ≠ .trace ∧ ∀ a b, e ≠ .unexpected a b

theorem Entry.quiet_document (n : MapDocument.Notice) : (Entry.document n).Quiet := by
  cases n <;> simp [Quiet, level, MapDocument.Notice.level]

theorem Entry.quiet_render (n : Render.Notice) : (Entry.render n).Quiet := by
  cases n <;> simp [Quiet, level, Render.Notice.level]

/-- What holds of a trail after any number of legal steps. -/
structure Trail.Faithful (t : Trail) : Prop where
  starts : t.visited.head? = some .idle
  stands : t.visited.getLast? = some t.stage
  legal : t.visited.IsChain (fun a b => a.mayPrecede b = true)
  logged : t.journal.filter (fun e => e.level = .trace) =
    (t.visited.zip t.visited.tail).map (fun ab => .step ab.1 ab.2)
  expected : ∀ e ∈ t.journal, ∀ a b, e ≠ .unexpected a b

theorem zip_tail_append {α : Type} {l : List α} {a : α} (h : l.getLast? = some a) (b : α) :
    (l ++ [b]).zip (l ++ [b]).tail = l.zip l.tail ++ [(a, b)] := by
  induction l with
  | nil => simp at h
  | cons x l ih =>
    cases l with
    | nil =>
      obtain rfl : x = a := by simpa using h
      rfl
    | cons y l =>
      have hl : (y :: l).getLast? = some a := by simpa [List.getLast?_cons_cons] using h
      simpa using ih hl

namespace Trail.Faithful

theorem start : Trail.start.Faithful where
  starts := rfl
  stands := rfl
  legal := List.isChain_singleton _
  logged := rfl
  expected := by simp [Trail.start]

theorem note {t : Trail} (h : t.Faithful) {entries : List Entry} (hq : ∀ e ∈ entries, e.Quiet) :
    (t.note entries).Faithful where
  starts := h.starts
  stands := h.stands
  legal := h.legal
  logged := by
    have he : entries.filter (fun e => e.level = .trace) = [] := by
      simpa using fun e hm => (hq e hm).1
    rw [journal_note, List.filter_append, he, List.append_nil]
    exact h.logged
  expected := by
    intro e hm
    obtain hm | hm := List.mem_append.1 hm
    · exact h.expected e hm
    · exact (hq e hm).2

/-- A legal step leads from a faithful trail to a faithful one. -/
theorem enter {t : Trail} (h : t.Faithful) {next : Stage} (hn : t.stage.mayPrecede next = true) :
    (t.enter next).Faithful where
  starts := by rw [visited_enter, List.head?_append, h.starts]; rfl
  stands := by simp
  legal := by
    rw [visited_enter]
    apply h.legal.append (List.isChain_singleton _)
    intro a ha b hb
    rw [h.stands] at ha
    obtain rfl : t.stage = a := by simpa using ha
    obtain rfl : next = b := by simpa using hb
    exact hn
  logged := by
    rw [journal_enter hn, List.filter_append, h.logged, visited_enter, zip_tail_append h.stands]
    simp [Entry.level]
  expected := by
    rw [journal_enter hn]
    intro e hm
    obtain hm | hm := List.mem_append.1 hm
    · exact h.expected e hm
    · obtain rfl := List.mem_singleton.1 hm
      simp

theorem note_documents {t : Trail} (h : t.Faithful) (notices : List MapDocument.Notice) :
    (t.note (notices.map .document)).Faithful := by
  apply h.note
  intro e hm
  obtain ⟨n, -, rfl⟩ := List.mem_map.1 hm
  exact Entry.quiet_document n

theorem note_renders {t : Trail} (h : t.Faithful) (notices : List Render.Notice) :
    (t.note (notices.map .render)).Faithful := by
  apply h.note
  intro e hm
  obtain ⟨n, -, rfl⟩ := List.mem_map.1 hm
  exact Entry.quiet_render n

theorem note_one {t : Trail} (h : t.Faithful) {e : Entry} (he : e.Quiet) :
    (t.note [e]).Faithful := by
  apply h.note
  intro e' hm
  obtain rfl := List.mem_singleton.1 hm
  exact he

theorem atReading : Trail.atReading.Faithful := start.enter rfl

theorem atCompiling (notices : List MapDocument.Notice) : (Trail.atCompiling notices).Faithful :=
  (atReading.enter rfl).note_documents notices

theorem atRendering (notices : List MapDocument.Notice) (document : MapDocument)
    (drawing : List Render.Notice) : (Trail.atRendering notices document drawing).Faithful := by
  have hs : ((Trail.atCompiling notices).note [.documentSize document.size]).Faithful :=
    (atCompiling notices).note_one ⟨by simp [Entry.level], by simp⟩
  exact (hs.enter rfl).note_renders drawing

theorem atEncoding {t : Trail} (h : t.Faithful) (ht : t.stage = .rendering)
    (encoding : List Render.Notice) : (t.atEncoding encoding).Faithful :=
  (h.enter (by rw [ht]; rfl)).note_renders encoding

theorem logged_text {t : Trail} (h : t.Faithful) :
    (t.journal.filter (fun e => e.level = .trace)).map Entry.text =
      (t.visited.zip t.visited.tail).map
        (fun ab => "Request state " ++ ab.1.text ++ " -> " ++ ab.2.text) := by
  rw [h.logged, List.map_map]
  rfl

end Trail.Faithful

/-- The stage that a request fails in, and why. What earlier stages answer is part of it. -/
inductive Service.FailsAt (s : Service) (p : Params) : Stage → Fault → Prop where
  | reading (f : Fault) (hj : p.job s.settings = .error f) : FailsAt s p .reading f
  | compiling (job : Job) (f : MapDocument.Fault) (hj : p.job s.settings = .ok job)
      (hc : job.compile.2 = .error f) : FailsAt s p .compiling (.document f)
  | rendering (job : Job) (document : MapDocument) (f : Render.Fault)
      (hj : p.job s.settings = .ok job) (hc : job.compile.2 = .ok document)
      (hd : (s.drawing job document).result = .error (.fault f)) :
      FailsAt s p .rendering (.render f)
  | encoding (job : Job) (document : MapDocument) (image : Image) (f : Render.Fault)
      (hj : p.job s.settings = .ok job) (hc : job.compile.2 = .ok document)
      (hd : (s.drawing job document).result = .ok image)
      (he : (s.renderer.encode image).2 = .error f) : FailsAt s p .encoding (.render f)

/-- A legal way from idle to a reply, and what is logged of it. -/
structure Walk (s : Service) (p : Params) (t : Trail) (r : Reply) : Prop where
  starts : t.visited.head? = some .idle
  ends : t.visited.getLast? = some .responding
  endsOnce : .responding ∉ t.visited.dropLast
  legal : t.visited.IsChain (fun a b => a.mayPrecede b = true)
  expected : ∀ e ∈ t.journal, ∀ a b, e ≠ .unexpected a b
  logged : (t.journal.filter (fun e => e.level = .trace)).map Entry.text =
    (t.visited.zip t.visited.tail).map
      (fun ab => "Request state " ++ ab.1.text ++ " -> " ++ ab.2.text)
  failed_iff : (∃ k, .failed k ∈ t.visited) ↔ ∃ report, r = .report report
  answered : ∀ tile, r = .image tile → t.visited = Stage.mainPath ++ [.responding]
  refused : ∀ report, r = .report report → ∃ path stage f,
    s.FailsAt p stage f ∧ report = Report.ofFault f ∧ path <+: Stage.mainPath ∧
    path.getLast? = some stage ∧ t.visited = path ++ [.failed report.kind, .responding] ∧
    t.visited.filter Stage.isFailed = [.failed report.kind]

theorem Stage.of_mem_mainPath {a : Stage} (h : a ∈ mainPath) :
    a.isFailed = false ∧ a ≠ .responding ∧ ∀ k, a.mayPrecede (.failed k) = true := by
  simp only [mainPath, List.mem_cons, List.not_mem_nil, or_false] at h
  rcases h with rfl | rfl | rfl | rfl | rfl <;> exact ⟨rfl, by decide, fun _ => rfl⟩

theorem filter_isFailed_eq_nil {path : List Stage} (h : path <+: Stage.mainPath) :
    path.filter Stage.isFailed = [] := by
  rw [List.filter_eq_nil_iff]
  intro a ha
  simp [(Stage.of_mem_mainPath (h.subset ha)).1]

/-- A trail along the main path that meets a fault ends as it should. -/
theorem Trail.Faithful.walk_refuse {s : Service} {p : Params} {t : Trail} {f : Fault}
    (h : t.Faithful) (hp : t.visited <+: Stage.mainPath) (hf : s.FailsAt p t.stage f)
    (calls : List Render.Call) (images : List Image) :
    Walk s p (t.refuse f calls images).trail (.report (Report.ofFault f)) := by
  have hstage := Stage.of_mem_mainPath (hp.subset (List.mem_of_getLast? h.stands))
  have hfail : (t.enter (.failed f.kind)).Faithful := h.enter (hstage.2.2 f.kind)
  have hreply : ((t.enter (.failed f.kind)).enter .responding).Faithful := hfail.enter rfl
  have hend : (t.refuse f calls images).trail.Faithful :=
    hreply.note_one ⟨by simp [Entry.level], by simp⟩
  have hv : (t.refuse f calls images).trail.visited =
      t.visited ++ [.failed f.kind, .responding] := by
    simp [Trail.refuse]
  have hnot (a : Stage) (ha : a ∈ t.visited) := Stage.of_mem_mainPath (hp.subset ha)
  constructor
  case starts => exact hend.starts
  case ends => exact hend.stands
  case legal => exact hend.legal
  case expected => exact hend.expected
  case logged => exact hend.logged_text
  case endsOnce =>
    rw [hv, show [Stage.failed f.kind, .responding] = [.failed f.kind] ++ [.responding] from rfl,
      ← List.append_assoc, List.dropLast_concat]
    intro hm
    obtain hm | hm := List.mem_append.1 hm
    · exact (hnot _ hm).2.1 rfl
    · simp at hm
  case failed_iff =>
    rw [hv]
    exact ⟨fun _ => ⟨_, rfl⟩, fun _ => ⟨f.kind, by simp⟩⟩
  case answered =>
    intro tile ht
    cases ht
  case refused =>
    intro report hr
    obtain rfl := Reply.report.inj hr
    refine ⟨t.visited, t.stage, f, hf, rfl, hp, h.stands, hv, ?_⟩
    rw [hv, List.filter_append, filter_isFailed_eq_nil hp]
    rfl

theorem Trail.Faithful.walk_answer {s : Service} {p : Params} {t : Trail} (h : t.Faithful)
    (hv : t.visited = Stage.mainPath) (hs : t.stage = .encoding) (tile : Render.EncodedTile)
    (calls : List Render.Call) (images : List Image) :
    Walk s p (t.answer tile calls images).trail (.image tile) := by
  have hreply : (t.enter .responding).Faithful := h.enter (by rw [hs]; rfl)
  have hend : (t.answer tile calls images).trail.Faithful :=
    hreply.note_one ⟨by simp [Entry.level], by simp⟩
  have hw : (t.answer tile calls images).trail.visited = Stage.mainPath ++ [.responding] := by
    simp [Trail.answer, hv]
  constructor
  case starts => exact hend.starts
  case ends => exact hend.stands
  case legal => exact hend.legal
  case expected => exact hend.expected
  case logged => exact hend.logged_text
  case endsOnce =>
    rw [hw, List.dropLast_concat]
    decide
  case failed_iff =>
    rw [hw]
    constructor
    · rintro ⟨k, hk⟩
      simp [Stage.mainPath] at hk
    · rintro ⟨report, hr⟩
      cases hr
  case answered => exact fun _ _ => hw
  case refused =>
    intro report hr
    cases hr

theorem Service.Course.walk {s : Service} {p : Params} {h : Handled} (c : s.Course p h) {r : Reply}
    (hr : h.outcome = .reply r) : Walk s p h.trail r := by
  cases c with
  | unread f hj =>
    obtain rfl := Outcome.reply.inj hr
    exact Trail.Faithful.atReading.walk_refuse (by decide) (.reading f hj) _ _
  | uncompiled job notices f hj hc =>
    obtain rfl := Outcome.reply.inj hr
    exact (Trail.Faithful.atCompiling notices).walk_refuse ⟨_, rfl⟩
      (.compiling job f hj (by rw [hc])) _ _
  | undrawn job notices document f hj hc hd =>
    obtain rfl := Outcome.reply.inj hr
    exact (Trail.Faithful.atRendering notices document _).walk_refuse ⟨_, rfl⟩
      (.rendering job document f hj (by rw [hc]) hd) _ _
  | crashed job notices document why hj hc hd => cases hr
  | unencoded job notices document image encoding f hj hc hd he =>
    obtain rfl := Outcome.reply.inj hr
    exact ((Trail.Faithful.atRendering notices document _).atEncoding rfl encoding).walk_refuse
      ⟨_, rfl⟩ (.encoding job document image f hj (by rw [hc]) hd (by rw [he])) _ _
  | answered job notices document image encoding tile hj hc hd he =>
    obtain rfl := Outcome.reply.inj hr
    exact ((Trail.Faithful.atRendering notices document _).atEncoding rfl encoding).walk_answer
      rfl rfl tile _ _

/-- A crash comes while rendering, on a trail that is legal so far. -/
theorem Service.Course.visited_crash {s : Service} {p : Params} {h : Handled} (c : s.Course p h)
    {why : String} (hw : h.outcome = .crash why) :
    h.trail.visited = [.idle, .reading, .compiling, .rendering] := by
  cases c with
  | crashed job notices document why hj hc hd => rfl
  | _ => cases hw

/-- Every request walks a legal path to its reply, unless none can come: then it stops while
rendering. -/
theorem handle_walks (s : Service) (p : Params) :
    match (s.handle p).outcome with
    | .reply r => ¬ s.Unanswerable p ∧ Walk s p (s.handle p).trail r
    | .crash _ => s.Unanswerable p ∧
      (s.handle p).trail.visited = [.idle, .reading, .compiling, .rendering] := by
  have c := s.course p
  cases ho : (s.handle p).outcome with
  | reply r =>
    refine ⟨?_, c.walk ho⟩
    rw [c.unanswerable_iff, ho]
    simp
  | crash why => exact ⟨c.unanswerable_iff.2 ⟨why, ho⟩, c.visited_crash ho⟩

/-- Although its engine always succeeds, there is a service that leaves a request without a reply.
-/
theorem hugeTile_never_responds :
    (∀ c why, Service.blankService.renderer.engine.draw c ≠ .crashed why) ∧
    (∀ r, (Service.blankService.handle Service.hugeTile).outcome ≠ .reply r) ∧
    .responding ∉ (Service.blankService.handle Service.hugeTile).trail.visited := by
  have c := Service.blankService.course Service.hugeTile
  obtain ⟨why, hw⟩ := c.unanswerable_iff.1 Service.unanswerable_hugeTile
  refine ⟨fun _ _ h => (by cases h), fun r hr => ?_, ?_⟩
  · rw [hw] at hr
    cases hr
  · rw [c.visited_crash hw]
    decide

end StyledMap.Request
