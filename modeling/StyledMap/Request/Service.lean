import StyledMap.Request.Job
import StyledMap.Request.Reply
import StyledMap.Request.Stage

/-! The tile service. A request walks through its stages, each step is entered in a journal, and at
the end stands a reply. What the engine does is found out only in the rendering stage, so a request
that cannot be compiled never reaches it. -/
namespace StyledMap.Request

/-- An entry of the journal. How long a request took is left out. -/
inductive Entry where
  | unexpected (a b : Stage)
  | step (a b : Stage)
  | document (n : MapDocument.Notice)
  | documentSize (bytes : Nat)
  | render (n : Render.Notice)
  | rendered (bytes : Nat)
  | refused (r : Report)

def Entry.level : Entry → Journal.Level
  | .unexpected _ _ => .warn
  | .step _ _ => .trace
  | .document n => n.level
  | .documentSize _ => .debug
  | .render n => n.level
  | .rendered _ => .info
  | .refused _ => .warn

def Entry.text : Entry → String
  | .unexpected a b => "Unexpected transition " ++ a.text ++ " -> " ++ b.text
  | .step a b => "Request state " ++ a.text ++ " -> " ++ b.text
  | .document n => n.text
  | .documentSize bytes => "Map document is " ++ Text.nat bytes ++ " bytes"
  | .render n => n.text
  | .rendered bytes => "Rendered tile: " ++ Text.nat bytes ++ " bytes"
  | .refused r => "Request failed (" ++ r.kind.name ++ "): " ++ r.message

/-- The stage a request is in, all stages so far, and the journal. -/
structure Trail where
  stage : Stage
  visited : List Stage
  journal : List Entry

namespace Trail

def start : Trail := ⟨.idle, [.idle], []⟩

def note (t : Trail) (entries : List Entry) : Trail := ⟨t.stage, t.visited, t.journal ++ entries⟩

def enter (t : Trail) (next : Stage) : Trail where
  stage := next
  visited := t.visited ++ [next]
  journal := t.journal ++ ((if t.stage.mayPrecede next then [] else [.unexpected t.stage next]) ++
    [.step t.stage next])

@[simp] theorem stage_note (t : Trail) (entries : List Entry) : (t.note entries).stage = t.stage := rfl

@[simp] theorem visited_note (t : Trail) (entries : List Entry) :
    (t.note entries).visited = t.visited := rfl

@[simp] theorem journal_note (t : Trail) (entries : List Entry) :
    (t.note entries).journal = t.journal ++ entries := rfl

/-- Notes entered one batch after the other are one batch. -/
theorem note_note (t : Trail) (first second : List Entry) :
    (t.note first).note second = t.note (first ++ second) := by
  simp [note]

@[simp] theorem stage_enter (t : Trail) (next : Stage) : (t.enter next).stage = next := rfl

@[simp] theorem visited_enter (t : Trail) (next : Stage) :
    (t.enter next).visited = t.visited ++ [next] := rfl

/-- A step that is allowed is entered as nothing but a step. -/
theorem journal_enter {t : Trail} {next : Stage} (h : t.stage.mayPrecede next = true) :
    (t.enter next).journal = t.journal ++ [.step t.stage next] := by
  simp [enter, h]

end Trail

/-- How a request ends: with a reply, unless the engine takes everything down. -/
inductive Outcome where
  | reply (r : Reply)
  | crash (why : String)

/-- A request that has been handled, with the calls its engine got and the images its encoder got. -/
structure Handled where
  outcome : Outcome
  trail : Trail
  calls : List Render.Call
  images : List Image

namespace Trail

/-- A fault is entered as a stage of its own and then answered. -/
def refuse (t : Trail) (f : Fault) (calls : List Render.Call) (images : List Image) : Handled :=
  let report := Report.ofFault f
  ⟨.reply (.report report),
    (((t.enter (.failed f.kind)).enter .responding).note [.refused report]), calls, images⟩

def answer (t : Trail) (tile : Render.EncodedTile) (calls : List Render.Call) (images : List Image) :
    Handled :=
  ⟨.reply (.image tile), (t.enter .responding).note [.rendered tile.bytes.size], calls, images⟩

end Trail

structure Service where
  renderer : Render.Renderer
  resources : String
  settings : Settings.Render

namespace Service

def encode (s : Service) (t : Trail) (image : Image) (calls : List Render.Call) : Handled :=
  let t := t.enter .encoding
  match s.renderer.encode image with
  | (notices, .error f) => (t.note (notices.map .render)).refuse (.render f) calls [image]
  | (notices, .ok tile) => (t.note (notices.map .render)).answer tile calls [image]

def render (s : Service) (t : Trail) (job : Job) (document : MapDocument) : Handled :=
  let t := (t.note [.documentSize document.size]).enter .rendering
  let drawn := s.renderer.rasterize document s.resources job.request
  let t := t.note (drawn.notices.map .render)
  match drawn.result with
  | .error (.fault f) => t.refuse (.render f) drawn.calls []
  | .error (.crash why) => ⟨.crash why, t, drawn.calls, []⟩
  | .ok image => s.encode t image drawn.calls

def compile (s : Service) (t : Trail) (job : Job) : Handled :=
  let t := t.enter .compiling
  match MapDocument.compile job.styles job.zooms job.layers job.srs job.background with
  | (notices, .error f) => (t.note (notices.map .document)).refuse (.document f) [] []
  | (notices, .ok document) => s.render (t.note (notices.map .document)) job document

/-- Takes a request through all its stages. -/
def handle (s : Service) (p : Params) : Handled :=
  let t := Trail.start.enter .reading
  match p.job s.settings with
  | .error f => t.refuse f [] []
  | .ok job => s.compile t job

/-- The time a handled request took, in milliseconds. Only engine calls count. -/
def elapsed (s : Service) (h : Handled) : Nat := h.calls.length * s.renderer.engine.busy

/-- The reply of a request that runs on its own and is waited for no longer than the timeout. A crash
ends only that request. -/
def handleWithin (s : Service) (p : Params) : Reply :=
  let h := s.handle p
  if s.settings.timeout * 1000 < s.elapsed h then Reply.ofFault (.timeout s.settings.timeout)
  else match h.outcome with
    | .reply r => r
    | .crash why => Reply.ofFault (.aborted why)

end Service
end StyledMap.Request
