import StyledMap.Proofs.Request.Tasks

/-! The gate, in every order of steps. It knows just the task that is inside, so calls to engines that are
not reentrant exclude one another, and it is no matter to it who is still waited for. -/
namespace StyledMap.Request
open Render (Call Drawn)

section Steps
variable {s : Service} {p : Params} {phase next : Phase} {access : Access}

theorem inGate_receive (t : Trail) (c : Call) (d : Drawn) : (s.receive t c d).inGate = false := by
  cases d with
  | filled | failed | crashed => rfl

theorem inGate_prepare (t : Trail) (job : Job) (document : MapDocument) :
    (s.prepare t job document).inGate = false := by
  unfold Service.prepare
  cases hn : Render.newCanvas job.request.width job.request.height with
  | error stop => cases stop <;> simp only [hn, Phase.inGate]
  | ok canvas => simp only [hn, Phase.inGate]

/-- Steps through the gate are those of engines that are not reentrant; no other step of theirs begins or
ends outside and not the other way. -/
theorem gate_advance (h : s.Advance p phase access next) :
    (access = .none ∧ (s.renderer.engine.reentrant = false → next.inGate = phase.inGate)) ∨
    (access = .enter ∧ s.renderer.engine.reentrant = false ∧ next.inGate = true) ∨
    (access = .leave ∧ s.renderer.engine.reentrant = false ∧ phase.inGate = true ∧
      next.inGate = false) := by
  cases h with
  | entered t c hr => exact .inr (.inl ⟨rfl, hr, rfl⟩)
  | left t c d hr => exact .inr (.inr ⟨rfl, hr, rfl, inGate_receive t c d⟩)
  | ungated t c hr | received t c d hr => exact .inl ⟨rfl, fun hnot => by simp [hnot] at hr⟩
  | prepared t job document => exact .inl ⟨rfl, fun _ => inGate_prepare t job document⟩
  | unread | read | uncompiled | compiled | called | encoded => exact .inl ⟨rfl, fun _ => rfl⟩

end Steps

/-- Whether the task is in the gate. A task with an engine that is reentrant never is. -/
def Task.inGate (t : Task) : Bool := !t.service.renderer.engine.reentrant && t.phase.inGate

/-- The task has an engine that is not reentrant. -/
def Task.Exclusive (t : Task) : Prop := t.service.renderer.engine.reentrant = false

theorem Task.inGate_iff {t : Task} : t.inGate = true ↔ t.Exclusive ∧ t.phase.inGate = true := by
  simp [inGate, Exclusive]

/-- The gate knows the task that is inside. -/
def Guarded (gate : Option Nat) (tasks : List Task) : Prop :=
  ∀ i, gate = some i ↔ ∃ t, tasks[i]? = some t ∧ t.inGate = true

section Gate
variable {tasks : List Task} {gate gate' : Option Nat} {i : Nat} {t t' : Task}

/-- A change leaves the gate alone, or it is the task itself that comes in or goes out. -/
theorem Task.Change.gate_cases (h : t.Change i gate gate' t') :
    (gate' = gate ∧ t'.inGate = t.inGate) ∨ (gate = none ∧ gate' = some i ∧ t'.inGate = true) ∨
      (gate' = none ∧ t.inGate = true ∧ t'.inGate = false) := by
  cases h with
  | callEnds d h =>
    refine .inl ⟨rfl, ?_⟩
    simp [inGate, returnWith, h, Phase.inGate]
  | timeout h => exact .inl ⟨rfl, rfl⟩
  | deliver h hw => exact .inl ⟨rfl, rfl⟩
  | advance h hg =>
    obtain ⟨rfl, hsame⟩ | ⟨rfl, hr, hin⟩ | ⟨rfl, hr, hin, hout⟩ := gate_advance h
    · obtain rfl : gate = gate' := Option.some.inj hg
      refine .inl ⟨rfl, ?_⟩
      unfold inGate moveTo
      cases hr : t.service.renderer.engine.reentrant with
      | true => rfl
      | false => rw [hsame hr]
    · simp only [Access.pass?, Option.ite_none_right_eq_some, Option.isNone_iff_eq_none,
        Option.some.injEq] at hg
      refine .inr (.inl ⟨hg.1, hg.2.symm, ?_⟩)
      simp [inGate, moveTo, hr, hin]
    · obtain rfl : none = gate' := Option.some.inj hg
      refine .inr (.inr ⟨rfl, ?_, ?_⟩)
      · simp [inGate, hr, hin]
      · simp [inGate, moveTo, hout]

theorem exists_set {P : Task → Prop} (ht : tasks[i]? = some t) (j : Nat) :
    (∃ u, (tasks.set i t')[j]? = some u ∧ P u) ↔
      if i = j then P t' else ∃ u, tasks[j]? = some u ∧ P u := by
  have hi : i < tasks.length := (List.getElem?_eq_some_iff.1 ht).1
  rw [List.getElem?_set, if_pos hi]
  split
  case isTrue => simp
  case isFalse => rfl

theorem Guarded.set (h : Guarded gate tasks) (ht : tasks[i]? = some t)
    (hc : t.Change i gate gate' t') : Guarded gate' (tasks.set i t') := by
  intro j
  rw [exists_set ht]
  have hi : gate = some i ↔ t.inGate = true := by simpa [ht] using h i
  obtain ⟨rfl, hsame⟩ | ⟨rfl, rfl, hin⟩ | ⟨rfl, hin, hout⟩ := hc.gate_cases
  · split
    case isTrue hij =>
      subst hij
      rw [hi, hsame]
    case isFalse => exact h j
  · split
    case isTrue hij => simp [hij, hin]
    case isFalse hij =>
      -- the gate was open, so nobody was inside
      have hnone : ¬ ∃ u, tasks[j]? = some u ∧ u.inGate = true := fun hu => by cases (h j).2 hu
      simp [hij, hnone]
  · split
    case isTrue => simp [hout]
    case isFalse hij =>
      -- nobody but the one that goes out was inside
      have hnone : ¬ ∃ u, tasks[j]? = some u ∧ u.inGate = true := by
        rw [← h j, hi.2 hin]
        simpa using hij
      simp [hnone]

/-- A new task is outside. -/
theorem Guarded.append (h : Guarded gate tasks) (s : Service) (p : Params) :
    Guarded gate (tasks ++ [.new s p]) := by
  intro i
  rw [h i]
  constructor
  · rintro ⟨t, ht, hin⟩
    exact ⟨t, by rw [List.getElem?_append_left (List.getElem?_eq_some_iff.1 ht).1, ht], hin⟩
  · rintro ⟨t, ht, hin⟩
    rw [List.getElem?_append] at ht
    split at ht
    case isTrue => exact ⟨t, ht, hin⟩
    case isFalse =>
      obtain rfl := List.mem_singleton.1 (List.mem_of_getElem? ht)
      simp [Task.inGate, Task.new, Phase.inGate] at hin

end Gate

structure Process.Sound (q : Process) : Prop where
  guarded : Guarded q.gate q.tasks
  tasks : ∀ t ∈ q.tasks, t.Sound

theorem Process.sound_idle : idle.Sound where
  guarded i := by simp [idle]
  tasks t ht := by cases ht

theorem Process.Sound.step {q q' : Process} (h : q.Sound) {e : Event} (hs : q.step? e = some q') :
    q'.Sound := by
  cases e with
  | start s p =>
    obtain rfl := Option.some.inj hs
    refine ⟨h.guarded.append s p, fun t ht => ?_⟩
    obtain ht | ht := List.mem_append.1 ht
    · exact h.tasks t ht
    · obtain rfl := List.mem_singleton.1 ht
      exact Task.sound_new s p
  | move i m =>
    simp only [step?, Option.bind_eq_some_iff, Option.map_eq_some_iff] at hs
    obtain ⟨t, ht, ⟨gate', t'⟩, hmove, rfl⟩ := hs
    have hc := Task.change_of_move hmove
    refine ⟨h.guarded.set ht hc, fun u hu => ?_⟩
    obtain hu | rfl := List.mem_or_eq_of_mem_set hu
    · exact h.tasks u hu
    · exact (h.tasks t (List.mem_of_getElem? ht)).change hc

theorem Process.Sound.run {q q' : Process} (h : q.Sound) {events : List Event}
    (hr : q.run? events = some q') : q'.Sound := by
  induction events generalizing q with
  | nil =>
    obtain rfl := Option.some.inj hr
    exact h
  | cons e events ih =>
    obtain ⟨next, hnext, hrest⟩ := Option.bind_eq_some_iff.1 hr
    exact ih (h.step hnext) hrest

/-- Order among tasks: `due`, a task makes no other call than `handle` would; `alone` and `kept`, calls to
engines that are not reentrant exclude one another and have the gate as long as they last, waited for or
not; `held`, nobody has the gate before or after such a call; `ungated`, calls to other engines neither have
the gate nor wait for it; `once` and `answers`, each request is answered at most once, with the timeout or
with what `handle` gives for the end of its call. -/
structure Process.Orderly (q : Process) : Prop where
  due : ∀ t ∈ q.tasks, ∀ c, t.Calls c → t.service.Due t.params c
  alone : ∀ (i j : Nat) (t u : Task) (c d : Call), q.tasks[i]? = some t → q.tasks[j]? = some u →
    t.Exclusive → u.Exclusive → t.Calls c → u.Calls d → i = j
  kept : ∀ i t c, q.tasks[i]? = some t → t.Exclusive → t.Calls c → q.gate = some i
  held : ∀ i, q.gate = some i → ∃ t, q.tasks[i]? = some t ∧ t.Exclusive ∧ t.phase.inGate = true
  ungated : ∀ i t, q.tasks[i]? = some t → ¬ t.Exclusive → q.gate ≠ some i ∧
    ∀ trail c, t.phase = .ready trail c → q.step? (.move i .advance) =
      some ⟨q.gate, q.tasks.set i (t.moveTo (.calling trail c))⟩
  once : ∀ t ∈ q.tasks, t.answers.length ≤ 1
  answers : ∀ t ∈ q.tasks, ∀ r ∈ t.answers, r = t.tooLate ∨
    (∀ d, ((t.service.answering (t.result.getD d)).handle t.params).outcome = .reply r) ∨
    ∃ why, r = Reply.ofFault (.aborted why) ∧
      ∀ d, ((t.service.answering (t.result.getD d)).handle t.params).outcome = .crash why

theorem Process.Sound.orderly {q : Process} (h : q.Sound) : q.Orderly := by
  have entered (i : Nat) (t : Task) (c : Call) (ht : q.tasks[i]? = some t) (he : t.Exclusive)
      (hc : t.Calls c) : q.gate = some i := by
    obtain ⟨trail, hphase⟩ := hc
    exact (h.guarded i).2 ⟨t, ht, Task.inGate_iff.2 ⟨he, by rw [hphase]; rfl⟩⟩
  constructor
  case due => exact fun t ht c hc => (h.tasks t ht).due hc
  case kept => exact entered
  case alone =>
    intro i j t u c d ht hu het heu hct hcu
    have hi := entered i t c ht het hct
    have hj := entered j u d hu heu hcu
    exact Option.some.inj (hi.symm.trans hj)
  case held =>
    intro i hgate
    obtain ⟨t, ht, hin⟩ := (h.guarded i).1 hgate
    exact ⟨t, ht, Task.inGate_iff.1 hin⟩
  case ungated =>
    intro i t ht he
    have hr : t.service.renderer.engine.reentrant = true := by simpa [Task.Exclusive] using he
    refine ⟨fun hgate => ?_, fun trail c hphase => ?_⟩
    · obtain ⟨u, hu, hin⟩ := (h.guarded i).1 hgate
      rw [ht] at hu
      obtain rfl := Option.some.inj hu
      exact he (Task.inGate_iff.1 hin).1
    · have hadvance : t.service.advance? t.params t.phase = some (.none, .calling trail c) :=
        hphase ▸ advance_iff.2 (.ungated trail c hr)
      simp [Process.step?, ht, Task.move?, hadvance, Access.pass?]
  case once =>
    intro t ht
    obtain ⟨-, hnone⟩ | ⟨-, r, hone, -⟩ := (h.tasks t ht).answers
    · simp [hnone]
    · simp [hone]
  case answers =>
    intro t ht r hr
    obtain ⟨-, hnone⟩ | ⟨-, r', hone, hr'⟩ := (h.tasks t ht).answers
    · rw [hnone] at hr
      cases hr
    · rw [hone] at hr
      obtain rfl := List.mem_singleton.1 hr
      obtain hlate | ⟨handled, hdone, hreply⟩ := hr'
      · exact .inl hlate
      · right
        have houtlook := (h.tasks t ht).outlook
        rw [hdone] at houtlook
        simp only [← houtlook, Phase.outlook]
        unfold Handled.reply at hreply
        cases ho : handled.outcome with
        | reply r' =>
          rw [ho] at hreply
          exact .inl fun _ => by rw [hreply]
        | crash why =>
          rw [ho] at hreply
          exact .inr ⟨why, hreply, fun _ => rfl⟩

end StyledMap.Request
