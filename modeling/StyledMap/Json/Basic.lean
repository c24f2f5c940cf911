import StyledMap.Decimal.Layout

/-! JSON values. Members of an object stand in the order of their first appearance, each name once. -/
namespace StyledMap

/-- A number: whole ones stay whole as far as 64 bits reach, all others are doubles.
`below n` is `-n`, for a positive `n`. -/
inductive Json.Number where
  | natural (n : Nat)
  | below (n : Nat)
  | float (x : Float)
  deriving DecidableEq

inductive Json where
  | null
  | bool (b : Bool)
  | number (n : Json.Number)
  | string (s : String)
  | array (items : List Json)
  | object (members : List (String × Json))

namespace Json

/-- Arrays and objects may be open inside each other up to this depth. -/
def depthLimit : Nat := 127

def Number.text : Number → String
  | .natural n => Text.nat n
  | .below n => "-" ++ Text.nat n
  | .float x => Decimal.Layout.data.text x

/-- The double closest to a number. -/
def Number.toFloat : Number → Float
  | .natural n => Decimal.nearest n 1
  | .below n => -(Decimal.nearest n 1)
  | .float x => x

/-- Sets a member: a new name goes to the end, a known one keeps its place and gets the new value. -/
def put {α : Type} (members : List (String × α)) (name : String) (value : α) : List (String × α) :=
  match members with
  | [] => [(name, value)]
  | (n, v) :: rest => if n = name then (n, value) :: rest else (n, v) :: put rest name value

/-- Members with each name once, at its first place and with its last value. -/
def merged {α : Type} (members : List (String × α)) : List (String × α) :=
  members.foldl (fun done m => put done m.1 m.2) []

/-- The text of a string, number or truth value. -/
def scalar? : Json → Option String
  | .string s => some s
  | .number n => some n.text
  | .bool b => some (if b then "true" else "false")
  | .null | .array _ | .object _ => none

end Json
end StyledMap
