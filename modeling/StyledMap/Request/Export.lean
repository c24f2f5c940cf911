import StyledMap.Json.Printer
import StyledMap.Json.Reader
import StyledMap.Request.Fault

/-! A style document, tidied for download: the same members in the same order, indented. -/
namespace StyledMap.Request

structure Export where
  body : String
  deriving Repr, DecidableEq

namespace Export

/-- The name a browser is told to save under. -/
def fileName : String := "map_style.json"

def make (data : String) : Except Fault Export :=
  match Json.parse? data with
  | some v => .ok ⟨v.indented⟩
  | none => .error (.reading "data" .malformed)

def headers (e : Export) : List (String × String) :=
  [("Content-Disposition", "attachment; filename=" ++ fileName), ("Content-Type", "application/json"),
   ("Content-Length", Text.nat e.body.utf8ByteSize)]

end Export
end StyledMap.Request
