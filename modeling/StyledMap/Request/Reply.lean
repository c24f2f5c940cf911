import StyledMap.Json.Printer
import StyledMap.Render.Engine
import StyledMap.Request.Fault

/-! Replies: a tile, or a report of what went wrong as a JSON object. -/
namespace StyledMap.Request

structure Report where
  kind : Kind
  message : String
  deriving Repr, DecidableEq

def Report.ofFault (f : Fault) : Report := ⟨f.kind, f.message⟩

def Report.json (r : Report) : String :=
  Json.compact (.object [("kind", .string r.kind.name), ("message", .string r.message)])

inductive Reply where
  | image (t : Render.EncodedTile)
  | report (r : Report)

namespace Reply

def ofFault (f : Fault) : Reply := .report (Report.ofFault f)

def isSuccess : Reply → Bool
  | .image _ => true
  | .report _ => false

def status : Reply → Nat
  | .image _ => 200
  | .report r => r.kind.status

def mediaType : Reply → String
  | .image t => t.mediaType
  | .report _ => "application/json"

def body : Reply → ByteArray
  | .image t => t.bytes
  | .report r => r.json.toUTF8

def headers (r : Reply) : List (String × String) :=
  [("Content-Type", r.mediaType), ("Content-Length", Text.nat r.body.size)]

end Reply
end StyledMap.Request
