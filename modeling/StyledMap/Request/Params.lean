import StyledMap.Json.Printer
import StyledMap.Json.Reader
import StyledMap.Request.Fault

/-! Parameters of a request, by name. A name that is set again has its last value. -/
namespace StyledMap.Request

/-- Names and values, the latest first. -/
structure Params where
  bindings : List (String × String)
  deriving Repr, DecidableEq

namespace Params

def empty : Params := ⟨[]⟩

def get? (p : Params) (name : String) : Option String := p.bindings.lookup name

def set (p : Params) (name value : String) : Params := ⟨(name, value) :: p.bindings⟩

theorem get?_set_self (p : Params) (name value : String) : (p.set name value).get? name = some value := by
  simp [set, get?]

theorem get?_set_of_ne {name other : String} (h : other ≠ name) (p : Params) (value : String) :
    (p.set name value).get? other = p.get? other := by
  have hb : (other == name) = false := by simpa using h
  simp [set, get?, List.lookup_cons, hb]

def ofPairs (pairs : List (String × String)) : Params :=
  pairs.foldl (fun p pair => p.set pair.1 pair.2) empty

/-- The value that a member of a job gives: a text as it is, anything else as JSON. -/
def memberText : Json → String
  | .string s => s
  | v => v.compact

/-- The parameters in a JSON object. -/
def ofJson (text : String) : Except Fault Params :=
  match Json.parse? text with
  | none => .error (.reading "job" .malformed)
  | some (.object members) => .ok (ofPairs (members.map (fun m => (m.1, memberText m.2))))
  | some _ => .error (.invalid "job" "expected a JSON object")

end Params
end StyledMap.Request
