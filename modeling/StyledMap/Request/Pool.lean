import StyledMap.Request.Service

/-! Requests side by side in one process. Each is handled by a task of its own, and whoever asked waits
for the task no longer than the timeout; the task runs on to its end. Tasks take their steps in any
order. One gate, for the whole process, lets in one call at a time to engines that are not reentrant. -/
namespace StyledMap.Request
open Render (Call Drawn)

/-- How far a task has come. -/
inductive Phase where
  | queued
  | read (t : Trail) (job : Job)
  | compiled (t : Trail) (job : Job) (document : MapDocument)
  | ready (t : Trail) (c : Call)
  | admitted (t : Trail) (c : Call)
  | calling (t : Trail) (c : Call)
  | returned (t : Trail) (c : Call) (d : Drawn)
  | drawn (t : Trail) (c : Call) (i : Image)
  | done (h : Handled)

/-- From the entry of the gate to its exit. -/
def Phase.inGate : Phase → Bool
  | .admitted _ _ | .calling _ _ | .returned _ _ _ => true
  | _ => false

/-- What a step does with the gate. -/
inductive Access where
  | none
  | enter
  | leave

/-- The gate after a step of the task at `i`, unless the step has to wait for it. -/
def Access.pass? (i : Nat) (gate : Option Nat) : Access → Option (Option Nat)
  | .none => some gate
  | .enter => if gate.isNone then some (some i) else .none
  | .leave => some .none

namespace Service

/-- A compiled request gets a canvas, or ends. -/
def prepare (s : Service) (t : Trail) (job : Job) (document : MapDocument) : Phase :=
  let t := (t.note [.documentSize document.size]).enter .rendering
  let q := job.request
  match Render.newCanvas q.width q.height with
  | .error (.fault f) => .done (t.refuse (.render f) [] [])
  | .error (.crash why) => .done ⟨.crash why, t, [], []⟩
  | .ok canvas =>
    .ready
      (t.note [.render (.drawing q.width q.height canvas.bytes.size q.extent q.srs s.renderer.engine.name)])
      ⟨s.resources, document, q.width, q.height, q.extent, canvas⟩

/-- What comes of a call that has ended. -/
def receive (s : Service) (t : Trail) (c : Call) : Drawn → Phase
  | .filled bytes =>
    .drawn (t.note [.render .finished]) c (Image.ofCanvas s.renderer.rowOrder (c.canvas.write bytes))
  | .failed f => .done ((t.note [.render (.failed f)]).refuse (.render f) [c] [])
  | .crashed why => .done ⟨.crash why, t, [c], []⟩

/-- The next step of a task. The end of a call is not a step of the task, but of the engine. -/
def advance? (s : Service) (p : Params) : Phase → Option (Access × Phase)
  | .queued =>
    let t := Trail.start.enter .reading
    match p.job s.settings with
    | .error f => some (.none, .done (t.refuse f [] []))
    | .ok job => some (.none, .read t job)
  | .read t job =>
    let t := t.enter .compiling
    match MapDocument.compile job.styles job.zooms job.layers job.srs job.background with
    | (notices, .error f) =>
      some (.none, .done ((t.note (notices.map .document)).refuse (.document f) [] []))
    | (notices, .ok document) => some (.none, .compiled (t.note (notices.map .document)) job document)
  | .compiled t job document => some (.none, s.prepare t job document)
  | .ready t c =>
    if s.renderer.engine.reentrant then some (.none, .calling t c) else some (.enter, .admitted t c)
  | .admitted t c => some (.none, .calling t c)
  | .calling _ _ => none
  | .returned t c d =>
    some (if s.renderer.engine.reentrant then .none else .leave, s.receive t c d)
  | .drawn t c i => some (.none, .done (s.encode t i [c]))
  | .done _ => none

end Service

/-- The reply to a handled request; a crash is answered for the task that it ended. -/
def Handled.reply (h : Handled) : Reply :=
  match h.outcome with
  | .reply r => r
  | .crash why => Reply.ofFault (.aborted why)

/-- A task, how its call ended, whether it is still waited for, and the answers that were given. -/
structure Task where
  service : Service
  params : Params
  phase : Phase
  result : Option Drawn
  waiting : Bool
  answers : List Reply

/-- What can happen to a task: a step of its own, the end of its call, the end of the time, or the
delivery of its reply to whoever waits. -/
inductive Move where
  | advance
  | callEnds (d : Drawn)
  | timeout
  | deliver

namespace Task

def new (s : Service) (p : Params) : Task := ⟨s, p, .queued, none, true, []⟩

def moveTo (t : Task) (next : Phase) : Task := { t with phase := next }

def returnWith (t : Task) (trail : Trail) (c : Call) (d : Drawn) : Task :=
  { t with phase := .returned trail c d, result := some d }

def tooLate (t : Task) : Reply := Reply.ofFault (.timeout t.service.settings.timeout)

/-- An answer is the end of the waiting. -/
def answer (t : Task) (r : Reply) : Task := { t with waiting := false, answers := t.answers ++ [r] }

/-- What happens to the task at `i`, and what becomes of the gate, if it can happen now. -/
def move? (t : Task) (i : Nat) (gate : Option Nat) : Move → Option (Option Nat × Task)
  | .advance => (t.service.advance? t.params t.phase).bind fun step =>
    (step.1.pass? i gate).map fun gate => (gate, t.moveTo step.2)
  | .callEnds d => match t.phase with
    | .calling trail c => some (gate, t.returnWith trail c d)
    | _ => none
  | .timeout => if t.waiting then some (gate, t.answer t.tooLate) else none
  | .deliver => match t.phase with
    | .done h => if t.waiting then some (gate, t.answer h.reply) else none
    | _ => none

end Task

/-- All tasks that were ever started, and which of them is in the gate. -/
structure Process where
  gate : Option Nat
  tasks : List Task

inductive Event where
  | start (s : Service) (p : Params)
  | move (i : Nat) (m : Move)

namespace Process

def idle : Process := ⟨none, []⟩

def step? (q : Process) : Event → Option Process
  | .start s p => some ⟨q.gate, q.tasks ++ [.new s p]⟩
  | .move i m => q.tasks[i]?.bind fun t => (t.move? i q.gate m).map fun (gate, t) => ⟨gate, q.tasks.set i t⟩

def run? (q : Process) (events : List Event) : Option Process := events.foldlM step? q

end Process
end StyledMap.Request
