import StyledMap.Request.Fault

/-! The stages of a request, and which may follow which. Every stage but the last may fail, and a
failure is answered. -/
namespace StyledMap.Request

inductive Stage where
  | idle
  | reading
  | compiling
  | rendering
  | encoding
  | responding
  | failed (k : Kind)
  deriving Repr, DecidableEq

namespace Stage

def text : Stage → String
  | .idle => "idle"
  | .reading => "parsing-params"
  | .compiling => "compiling-style"
  | .rendering => "rendering"
  | .encoding => "encoding"
  | .responding => "responding"
  | .failed k => "error(" ++ k.name ++ ")"

/-- Whether `next` may come right after a stage. -/
def mayPrecede : Stage → Stage → Bool
  | .idle, .reading => true
  | .reading, .compiling => true
  | .compiling, .rendering => true
  | .rendering, .encoding => true
  | .encoding, .responding => true
  | .failed _, .responding => true
  | .responding, .failed _ => false
  | .failed _, .failed _ => false
  | _, .failed _ => true
  | _, _ => false

def isLast : Stage → Bool
  | .responding => true
  | _ => false

def all : List Stage :=
  [.idle, .reading, .compiling, .rendering, .encoding, .responding] ++ Kind.all.map .failed

end Stage
end StyledMap.Request
