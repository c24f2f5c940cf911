import StyledMap.Proofs.Request.Gate

/-! A request with the process to itself. Its task comes to its end, which is what `handle` gives; and the
reply of `handleWithin` is an answer in some order of steps. -/
namespace StyledMap.Request
open Render (Call Drawn)

/-- How many steps are left at most. -/
def Phase.left : Phase → Nat
  | .queued => 8
  | .read _ _ => 7
  | .compiled _ _ _ => 6
  | .ready _ _ => 5
  | .admitted _ _ => 4
  | .calling _ _ => 3
  | .returned _ _ _ => 2
  | .drawn _ _ _ => 1
  | .done _ => 0

section Steps
variable {s : Service} {p : Params} {phase next : Phase} {access : Access}

theorem left_receive (t : Trail) (c : Call) (d : Drawn) : (s.receive t c d).left < 2 := by
  cases d with
  | filled => exact Nat.one_lt_two
  | failed | crashed => exact Nat.two_pos

theorem left_prepare (t : Trail) (job : Job) (document : MapDocument) :
    (s.prepare t job document).left < 6 := by
  unfold Service.prepare
  cases hn : Render.newCanvas job.request.width job.request.height with
  | error stop => cases stop <;> simp [hn, Phase.left]
  | ok canvas => simp [hn, Phase.left]

theorem left_advance (h : s.Advance p phase access next) : next.left < phase.left := by
  cases h with
  | received t c d hr | left t c d hr => exact left_receive t c d
  | prepared t job document => exact left_prepare t job document
  | unread | read | uncompiled | compiled | ungated | entered | called | encoded => simp [Phase.left]

/-- A task is in a call, at its end, or has a step to take, with the gate only from `ready`. -/
theorem exists_advance (s : Service) (p : Params) (phase : Phase) :
    (∃ t c, phase = .calling t c) ∨ (∃ h, phase = .done h) ∨
      ∃ access next, s.Advance p phase access next ∧ (access = .enter → phase.inGate = false) := by
  cases phase with
  | queued =>
    right
    right
    cases hj : p.job s.settings with
    | error f => exact ⟨_, _, .unread f hj, fun h => (by cases h)⟩
    | ok job => exact ⟨_, _, .read job hj, fun h => (by cases h)⟩
  | read t job =>
    right
    right
    cases hc : job.compile with
    | mk notices result =>
      cases result with
      | error f => exact ⟨_, _, .uncompiled t job notices f hc, fun h => (by cases h)⟩
      | ok document => exact ⟨_, _, .compiled t job notices document hc, fun h => (by cases h)⟩
  | compiled t job document => exact .inr (.inr ⟨_, _, .prepared t job document, fun h => (by cases h)⟩)
  | ready t c =>
    right
    right
    cases hr : s.renderer.engine.reentrant with
    | true => exact ⟨_, _, .ungated t c hr, fun h => (by cases h)⟩
    | false => exact ⟨_, _, .entered t c hr, fun _ => rfl⟩
  | admitted t c => exact .inr (.inr ⟨_, _, .called t c, fun h => (by cases h)⟩)
  | calling t c => exact .inl ⟨t, c, rfl⟩
  | returned t c d =>
    right
    right
    cases hr : s.renderer.engine.reentrant with
    | true => exact ⟨_, _, .received t c d hr, fun h => (by cases h)⟩
    | false => exact ⟨_, _, .left t c d hr, fun h => (by cases h)⟩
  | drawn t c i => exact .inr (.inr ⟨_, _, .encoded t c i, fun h => (by cases h)⟩)
  | done h => exact .inr (.inl ⟨h, rfl⟩)

end Steps

/-- The same request, and nothing said to whoever waits; calls have ended with `d`. -/
structure Task.Goes (d : Drawn) (t t' : Task) : Prop where
  service : t'.service = t.service
  params : t'.params = t.params
  waiting : t'.waiting = t.waiting
  answers : t'.answers = t.answers
  result : t'.result = t.result ∨ t'.result = some d

theorem Task.Goes.trans {d : Drawn} {t u v : Task} (h : t.Goes d u) (k : u.Goes d v) : t.Goes d v where
  service := k.service.trans h.service
  params := k.params.trans h.params
  waiting := k.waiting.trans h.waiting
  answers := k.answers.trans h.answers
  result := by
    obtain hk | hk := k.result
    · rw [hk]
      exact h.result
    · exact .inr hk

/-- With the process to itself, a task that is not at its end can go on. -/
theorem exists_step {t : Task} {gate : Option Nat} (hg : Guarded gate [t]) (d : Drawn)
    (hd : ∀ h, t.phase ≠ .done h) : ∃ e gate' t', (⟨gate, [t]⟩ : Process).step? e = some ⟨gate', [t']⟩ ∧
      t.Goes d t' ∧ t'.phase.left < t.phase.left := by
  obtain ⟨trail, c, hphase⟩ | ⟨h, hphase⟩ | ⟨access, next, hnext, hout⟩ :=
    exists_advance t.service t.params t.phase
  · refine ⟨.move 0 (.callEnds d), gate, t.returnWith trail c d, ?_, ⟨rfl, rfl, rfl, rfl, .inr rfl⟩, ?_⟩
    · simp [Process.step?, Task.move?, hphase]
    · rw [hphase]
      exact Nat.lt_succ_self 2
  · exact absurd hphase (hd h)
  · obtain ⟨gate', hpass⟩ : ∃ gate', access.pass? 0 gate = some gate' := by
      cases access with
      | none => exact ⟨gate, rfl⟩
      | leave => exact ⟨none, rfl⟩
      | enter =>
        -- if the gate were closed, the task itself would be inside
        cases hgate : gate with
        | none => exact ⟨some 0, rfl⟩
        | some j =>
          obtain ⟨u, hu, hin⟩ := (hg j).1 hgate
          obtain rfl := List.mem_singleton.1 (List.mem_of_getElem? hu)
          simp [Task.inGate, hout rfl] at hin
    refine ⟨.move 0 .advance, gate', t.moveTo next, ?_, ⟨rfl, rfl, rfl, rfl, .inl rfl⟩,
      left_advance hnext⟩
    simp [Process.step?, Task.move?, advance_iff.2 hnext, hpass]

theorem exists_run {q : Process} (h : q.Sound) {t : Task} (ht : q.tasks = [t]) (d : Drawn) :
    ∃ events gate t' handled, q.run? events = some ⟨gate, [t']⟩ ∧ t.Goes d t' ∧ t'.phase = .done handled := by
  induction hn : t.phase.left using Nat.strongRecOn generalizing q t with
  | ind n ih =>
    obtain ⟨gate, tasks⟩ := q
    obtain rfl : tasks = [t] := ht
    by_cases hd : ∃ handled, t.phase = .done handled
    · obtain ⟨handled, hphase⟩ := hd
      exact ⟨[], gate, t, handled, rfl, ⟨rfl, rfl, rfl, rfl, .inl rfl⟩, hphase⟩
    · obtain ⟨e, gate', u, hstep, hgoes, hleft⟩ :=
        exists_step h.guarded d (fun handled he => hd ⟨handled, he⟩)
      obtain ⟨events, last, v, handled, hrun, hlater, hdone⟩ := ih _ (hn ▸ hleft) (h.step hstep) rfl rfl
      refine ⟨e :: events, last, v, handled, ?_, hgoes.trans hlater, hdone⟩
      rw [Process.run?, List.foldlM_cons, hstep]
      exact hrun

/-- The call that is due ends in one way. -/
theorem exists_drawn (s : Service) (p : Params) : ∃ d, ∀ c, s.Due p c → s.renderer.engine.draw c = d := by
  by_cases hdue : ∃ c, s.Due p c
  · obtain ⟨c, hc⟩ := hdue
    have huse := handle_uses_engine s p
    obtain ⟨only, honly⟩ := List.length_eq_one_iff.1 (huse.called_iff.2 ⟨c, hc⟩)
    refine ⟨s.renderer.engine.draw only, fun k hk => ?_⟩
    have hmem := (huse.mem_calls_iff k).2 hk
    rw [honly] at hmem
    rw [List.mem_singleton.1 hmem]
  · exact ⟨.failed (.dimensions 0 0), fun c hc => absurd ⟨c, hc⟩ hdue⟩

/-- A task that has the process to itself ends in what `handle` gives. -/
theorem exists_handled (s : Service) (p : Params) : ∃ events gate t,
    Process.idle.run? (.start s p :: events) = some ⟨gate, [t]⟩ ∧ t.answers = [] ∧ t.waiting = true ∧
      t.phase = .done (s.handle p) := by
  obtain ⟨d, hd⟩ := exists_drawn s p
  have hstart : Process.Sound ⟨none, [.new s p]⟩ := Process.sound_idle.step (e := .start s p) rfl
  obtain ⟨events, gate, t, handled, hrun, hgoes, hdone⟩ := exists_run hstart rfl d
  refine ⟨events, gate, t, hrun, hgoes.answers, hgoes.waiting, ?_⟩
  have houtlook := ((hstart.run hrun).tasks t (List.mem_singleton.2 rfl)).outlook d
  have hresult : t.result.getD d = d := by
    obtain hnone | hsome := hgoes.result
    · rw [hnone]
      rfl
    · rw [hsome]
      rfl
  rw [hdone, hresult, hgoes.service, hgoes.params] at houtlook
  rw [hdone]
  exact congrArg Phase.done (houtlook.trans (handle_answering hd))

theorem handleWithin_cases (s : Service) (p : Params) :
    s.handleWithin p = (Task.new s p).tooLate ∨ s.handleWithin p = (s.handle p).reply := by
  unfold Service.handleWithin
  dsimp only
  split
  case isTrue => exact .inl rfl
  case isFalse => exact .inr rfl

/-- The reply of `handleWithin` is one that a request can be answered with. -/
theorem handleWithin_answers (s : Service) (p : Params) : ∃ events gate t,
    Process.idle.run? (.start s p :: events) = some ⟨gate, [t]⟩ ∧ t.answers = [s.handleWithin p] := by
  obtain hlate | hreply := handleWithin_cases s p
  · rw [hlate]
    exact ⟨[.move 0 .timeout], none, (Task.new s p).answer (Task.new s p).tooLate, rfl, rfl⟩
  · obtain ⟨events, gate, t, hrun, hnone, hwaiting, hdone⟩ := exists_handled s p
    refine ⟨events ++ [.move 0 .deliver], gate, t.answer (s.handle p).reply, ?_, ?_⟩
    · have hdeliver : (⟨gate, [t]⟩ : Process).step? (.move 0 .deliver) =
          some ⟨gate, [t.answer (s.handle p).reply]⟩ := by
        simp [Process.step?, Task.move?, hdone, hwaiting]
      rw [Process.run?] at hrun
      rw [Process.run?, ← List.cons_append, List.foldlM_append, hrun, Option.bind_eq_bind,
        Option.bind_some, List.foldlM_cons, hdeliver]
      rfl
    · rw [Task.answer, hnone, hreply]
      rfl

end StyledMap.Request
