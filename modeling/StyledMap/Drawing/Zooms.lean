import StyledMap.Drawing.Fault
import StyledMap.Json.Record

/-! Scale denominators, one for each zoom level, from a JSON array of numbers. -/
namespace StyledMap.Drawing
open StyledMap.Json (Tree)

def number? : Tree → Option Float
  | .leaf (.numeral n) => n.number?.map Json.Number.toFloat
  | _ => none

/-- A denominator is finite and not below zero. -/
def isDenominator (x : Float) : Bool := x.isFinite && !(x < 0)

def readZooms (text : String) : Except Fault (List Float) :=
  match (Tree.parse? text).bind (Tree.list? number?) with
  | none => .error .malformed
  | some zooms => match zooms.find? (fun x => !isDenominator x) with
    | some x => .error (.invalid "zooms"
        ("scale denominator " ++ Decimal.plainText x ++ " must be a non-negative number"))
    | none => .ok zooms

end StyledMap.Drawing
