import StyledMap.Proofs.Request.EngineUse
import StyledMap.Request.Pool

/-! Tasks, each on its own. Wherever a task is, the way it still has to go ends in what `handle` gives for
the end of its own call; it is answered once, with that or with the timeout. -/
namespace StyledMap.Request
open Render (Call Drawn)

/-- The service with an engine that ends every call alike. -/
def Service.answering (s : Service) (d : Drawn) : Service :=
  { s with renderer := { s.renderer with engine := { s.renderer.engine with draw := fun _ => d } } }

/-- The rest of a request after its call has ended. -/
def Service.conclude (s : Service) (t : Trail) (c : Call) : Drawn → Handled
  | .filled bytes =>
    s.encode (t.note [.render .finished]) (Image.ofCanvas s.renderer.rowOrder (c.canvas.write bytes)) [c]
  | .failed f => (t.note [.render (.failed f)]).refuse (.render f) [c] []
  | .crashed why => ⟨.crash why, t, [c], []⟩

/-- What a phase leads to, if the call that is still to end ends with `d`. -/
def Phase.outlook (s : Service) (p : Params) (d : Drawn) : Phase → Handled
  | .queued => (s.answering d).handle p
  | .read t job => (s.answering d).compile t job
  | .compiled t job document => (s.answering d).render t job document
  | .ready t c | .admitted t c | .calling t c => s.conclude t c d
  | .returned t c result => s.conclude t c result
  | .drawn t c i => s.encode t i [c]
  | .done h => h

/-- Before the end of the call. -/
def Phase.isEarly : Phase → Bool
  | .returned _ _ _ | .drawn _ _ _ | .done _ => false
  | _ => true

section Steps
variable {s : Service} {p : Params} {phase next : Phase} {access : Access}

theorem outlook_receive (t : Trail) (c : Call) (result d : Drawn) :
    (s.receive t c result).outlook s p d = s.conclude t c result := by
  cases result with
  | filled | failed | crashed => rfl

theorem outlook_prepare (t : Trail) (job : Job) (document : MapDocument) (d : Drawn) :
    (s.prepare t job document).outlook s p d = (s.answering d).render t job document := by
  have note_nil (t : Trail) : t.note [] = t := by simp [Trail.note]
  unfold Service.prepare Service.render Render.Renderer.rasterize
  cases hn : Render.newCanvas job.request.width job.request.height with
  | error stop =>
    cases stop with
    | fault f => simp only [hn, Phase.outlook, List.map_nil, note_nil]
    | crash why => simp only [hn, Phase.outlook, List.map_nil, note_nil]
  | ok canvas =>
    simp only [hn, Phase.outlook]
    cases d with
    | filled bytes =>
      rw [Service.conclude, Trail.note_note]
      rfl
    | failed f =>
      rw [Service.conclude, Trail.note_note]
      rfl
    | crashed why => rfl

/-- The steps that a task can take on its own. -/
inductive Service.Advance (s : Service) (p : Params) : Phase → Access → Phase → Prop where
  | unread (f : Fault) (hj : p.job s.settings = .error f) :
      Advance s p .queued .none (.done (Trail.atReading.refuse f [] []))
  | read (job : Job) (hj : p.job s.settings = .ok job) :
      Advance s p .queued .none (.read Trail.atReading job)
  | uncompiled (t : Trail) (job : Job) (notices : List MapDocument.Notice) (f : MapDocument.Fault)
      (hc : job.compile = (notices, .error f)) :
      Advance s p (.read t job) .none
        (.done (((t.enter .compiling).note (notices.map .document)).refuse (.document f) [] []))
  | compiled (t : Trail) (job : Job) (notices : List MapDocument.Notice) (document : MapDocument)
      (hc : job.compile = (notices, .ok document)) :
      Advance s p (.read t job) .none
        (.compiled ((t.enter .compiling).note (notices.map .document)) job document)
  | prepared (t : Trail) (job : Job) (document : MapDocument) :
      Advance s p (.compiled t job document) .none (s.prepare t job document)
  | ungated (t : Trail) (c : Call) (hr : s.renderer.engine.reentrant = true) :
      Advance s p (.ready t c) .none (.calling t c)
  | entered (t : Trail) (c : Call) (hr : s.renderer.engine.reentrant = false) :
      Advance s p (.ready t c) .enter (.admitted t c)
  | called (t : Trail) (c : Call) : Advance s p (.admitted t c) .none (.calling t c)
  | received (t : Trail) (c : Call) (d : Drawn) (hr : s.renderer.engine.reentrant = true) :
      Advance s p (.returned t c d) .none (s.receive t c d)
  | left (t : Trail) (c : Call) (d : Drawn) (hr : s.renderer.engine.reentrant = false) :
      Advance s p (.returned t c d) .leave (s.receive t c d)
  | encoded (t : Trail) (c : Call) (i : Image) :
      Advance s p (.drawn t c i) .none (.done (s.encode t i [c]))

theorem advance_iff : s.advance? p phase = some (access, next) ↔ s.Advance p phase access next := by
  constructor
  · intro h
    cases phase with
    | queued =>
      unfold Service.advance? at h
      cases hj : p.job s.settings with
      | error f =>
        simp only [hj] at h
        cases h
        exact .unread f hj
      | ok job =>
        simp only [hj] at h
        cases h
        exact .read job hj
    | read t job =>
      unfold Service.advance? at h
      cases hc : job.compile with
      | mk notices result =>
        have hc' := hc
        unfold Job.compile at hc'
        simp only [hc'] at h
        cases result with
        | error f =>
          cases h
          exact .uncompiled t job notices f hc
        | ok document =>
          cases h
          exact .compiled t job notices document hc
    | compiled t job document =>
      cases h
      exact .prepared t job document
    | ready t c =>
      simp only [Service.advance?] at h
      split at h
      case isTrue hr =>
        cases h
        exact .ungated t c hr
      case isFalse hr =>
        cases h
        exact .entered t c (Bool.eq_false_iff.2 hr)
    | admitted t c =>
      cases h
      exact .called t c
    | returned t c d =>
      simp only [Service.advance?] at h
      split at h
      case isTrue hr =>
        cases h
        exact .received t c d hr
      case isFalse hr =>
        cases h
        exact .left t c d (Bool.eq_false_iff.2 hr)
    | drawn t c i =>
      cases h
      exact .encoded t c i
    | calling | done => cases h
  · intro h
    cases h with
    | unread f hj | read job hj => simp only [Service.advance?, hj]; rfl
    | uncompiled t job notices f hc | compiled t job notices document hc =>
      unfold Job.compile at hc
      simp only [Service.advance?, hc]
    | prepared | called | encoded => rfl
    | ungated t c hr | entered t c hr | received t c d hr | left t c d hr =>
      simp [Service.advance?, hr]

/-- No step changes what the request comes to. -/
theorem outlook_advance (h : s.Advance p phase access next) (d : Drawn) :
    next.outlook s p d = phase.outlook s p d := by
  cases h with
  | unread f hj =>
    have hj' : p.job (s.answering d).settings = .error f := hj
    simp only [Phase.outlook, Service.handle, hj']
    rfl
  | read job hj =>
    have hj' : p.job (s.answering d).settings = .ok job := hj
    simp only [Phase.outlook, Service.handle, hj']
    rfl
  | uncompiled t job notices f hc | compiled t job notices document hc =>
    unfold Job.compile at hc
    simp only [Phase.outlook, Service.compile, hc]
  | prepared t job document => exact outlook_prepare t job document d
  | received t c result hr | left t c result hr => exact outlook_receive t c result d
  | ungated | entered | called | encoded => rfl

/-- The phases after the call are not before it again. -/
theorem isEarly_advance (h : s.Advance p phase access next) (he : next.isEarly = true) :
    phase.isEarly = true := by
  cases h with
  | received t c d hr | left t c d hr => cases d <;> cases he
  | encoded => cases he
  | unread | read | uncompiled | compiled | prepared | ungated | entered | called => rfl

end Steps

/-- What happens to a task, with the gate before and after. -/
inductive Task.Change (t : Task) (i : Nat) (gate : Option Nat) : Option Nat → Task → Prop where
  | advance {access : Access} {gate' : Option Nat} {next : Phase}
      (h : t.service.Advance t.params t.phase access next) (hg : access.pass? i gate = some gate') :
      Change t i gate gate' (t.moveTo next)
  | callEnds {trail : Trail} {c : Call} (d : Drawn) (h : t.phase = .calling trail c) :
      Change t i gate gate (t.returnWith trail c d)
  | timeout (h : t.waiting = true) : Change t i gate gate (t.answer t.tooLate)
  | deliver {handled : Handled} (h : t.phase = .done handled) (hw : t.waiting = true) :
      Change t i gate gate (t.answer handled.reply)

theorem Task.change_of_move {t t' : Task} {i : Nat} {gate gate' : Option Nat} {m : Move}
    (h : t.move? i gate m = some (gate', t')) : t.Change i gate gate' t' := by
  cases m with
  | advance =>
    simp only [move?, Option.bind_eq_some_iff, Option.map_eq_some_iff, Prod.mk.injEq] at h
    obtain ⟨⟨access, next⟩, hnext, gate'', hg, rfl, rfl⟩ := h
    exact .advance (advance_iff.1 hnext) hg
  | callEnds d =>
    simp only [move?] at h
    split at h
    case h_1 trail c hphase =>
      cases h
      exact .callEnds d hphase
    case h_2 => cases h
  | timeout =>
    simp only [move?] at h
    split at h
    case isTrue hw =>
      cases h
      exact .timeout hw
    case isFalse => cases h
  | deliver =>
    simp only [move?] at h
    split at h
    case h_1 handled hphase =>
      split at h
      case isTrue hw =>
        cases h
        exact .deliver hphase hw
      case isFalse => cases h
    case h_2 => cases h

structure Task.Sound (t : Task) : Prop where
  outlook : ∀ d, t.phase.outlook t.service t.params d =
    (t.service.answering (t.result.getD d)).handle t.params
  early : t.phase.isEarly = true → t.result = none
  answers : (t.waiting = true ∧ t.answers = []) ∨
    (t.waiting = false ∧ ∃ r, t.answers = [r] ∧ (r = t.tooLate ∨ ∃ h, t.phase = .done h ∧ r = h.reply))

theorem Task.sound_new (s : Service) (p : Params) : (new s p).Sound where
  outlook _ := rfl
  early _ := rfl
  answers := .inl ⟨rfl, rfl⟩

theorem Task.Sound.answer {t : Task} (h : t.Sound) (hw : t.waiting = true) {r : Reply}
    (hr : r = t.tooLate ∨ ∃ handled, t.phase = .done handled ∧ r = handled.reply) :
    (t.answer r).Sound := by
  refine ⟨h.outlook, h.early, .inr ⟨rfl, r, ?_, hr⟩⟩
  obtain ⟨-, hnone⟩ | ⟨hgone, -⟩ := h.answers
  · simp [Task.answer, hnone]
  · rw [hw] at hgone
    cases hgone

theorem Task.Sound.change {t t' : Task} {i : Nat} {gate gate' : Option Nat} (h : t.Sound)
    (hc : t.Change i gate gate' t') : t'.Sound := by
  cases hc with
  | timeout hw => exact h.answer hw (.inl rfl)
  | deliver hphase hw => exact h.answer hw (.inr ⟨_, hphase, rfl⟩)
  | callEnds d hphase =>
    have hnone : t.result = none := h.early (by rw [hphase]; rfl)
    have hcall := h.outlook d
    rw [hphase, hnone] at hcall
    refine ⟨fun _ => hcall, fun he => (by cases he), ?_⟩
    obtain hwaits | ⟨hgone, r, hr, hlate | ⟨handled, hdone, -⟩⟩ := h.answers
    · exact .inl hwaits
    · exact .inr ⟨hgone, r, hr, .inl hlate⟩
    · rw [hphase] at hdone
      cases hdone
  | @advance access _ next hnext hg =>
    refine ⟨fun d => (outlook_advance hnext d).trans (h.outlook d),
      fun he => h.early (isEarly_advance hnext he), ?_⟩
    obtain hwaits | ⟨hgone, r, hr, hlate | ⟨handled, hdone, -⟩⟩ := h.answers
    · exact .inl hwaits
    · exact .inr ⟨hgone, r, hr, .inl hlate⟩
    · rw [hdone] at hnext
      cases hnext

/-- The task is in a call to its engine. -/
def Task.Calls (t : Task) (c : Call) : Prop := ∃ trail, t.phase = .calling trail c

theorem calls_conclude (s : Service) (t : Trail) (c : Call) (d : Drawn) :
    (s.conclude t c d).calls = [c] := by
  cases d with
  | filled bytes =>
    simp only [Service.conclude, Service.encode]
    split <;> rfl
  | failed f | crashed why => rfl

theorem Task.Sound.due {t : Task} (h : t.Sound) {c : Call} (hc : t.Calls c) :
    t.service.Due t.params c := by
  obtain ⟨trail, hphase⟩ := hc
  have hresult : t.result = none := h.early (by rw [hphase]; rfl)
  -- any end of the call will do, since no end changes which calls are made
  let d : Drawn := .failed (.dimensions 0 0)
  have hcall : t.service.conclude trail c d = (t.service.answering d).handle t.params := by
    have houtlook := h.outlook d
    rw [hphase, hresult] at houtlook
    exact houtlook
  refine ((handle_uses_engine (t.service.answering d) t.params).mem_calls_iff c).1 ?_
  rw [← hcall, calls_conclude]
  exact List.mem_singleton.2 rfl

/-- What a request comes to depends on the engine by no more than the end of the call that is due. -/
theorem handle_answering {s : Service} {p : Params} {d : Drawn}
    (h : ∀ c, s.Due p c → s.renderer.engine.draw c = d) : (s.answering d).handle p = s.handle p := by
  have hsettings : (s.answering d).settings = s.settings := rfl
  simp only [Service.handle, hsettings]
  cases hj : p.job s.settings with
  | error f => rfl
  | ok job =>
    simp only [Service.compile]
    cases hc : job.compile with
    | mk notices result =>
      have hc' := hc
      unfold Job.compile at hc'
      simp only [hc']
      cases result with
      | error f => rfl
      | ok document =>
        simp only [Service.render, Render.Renderer.rasterize]
        cases hn : Render.newCanvas job.request.width job.request.height with
        | error stop => cases stop <;> rfl
        | ok canvas =>
          let q := job.request
          have hdraw : s.renderer.engine.draw
              ⟨s.resources, document, q.width, q.height, q.extent, canvas⟩ = d :=
            h _ ⟨job, document, canvas, hj, by rw [hc], hn, rfl⟩
          simp only [q] at hdraw
          simp only [hdraw]
          cases d <;> rfl

end StyledMap.Request
