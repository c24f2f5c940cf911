import StyledMap.Json.Token

/-! JSON texts as trees. A tree keeps what a text spells, repeated members included. Reading goes
through the tokens once, with the containers that are open on a stack, so depth has no limit here. -/
namespace StyledMap.Json

inductive Tree where
  | leaf (l : Leaf)
  | array (items : List Tree)
  | object (members : List (List Piece × Tree))

namespace Tree

/-- A container that is open: what it holds so far, latest first, and the name the next value belongs to. -/
inductive Frame where
  | array (before : List Tree)
  | object (before : List (List Piece × Tree)) (name : List Piece)

/-- Where a text stands between two tokens. -/
inductive State where
  /-- A value must follow. -/
  | value (stack : List Frame)
  /-- An array has just opened: a value or its end must follow. -/
  | opened (stack : List Frame)
  /-- A name must follow, or the end of the object if it has just opened. -/
  | name (opened : Bool) (before : List (List Piece × Tree)) (stack : List Frame)
  /-- A colon must follow. -/
  | colon (before : List (List Piece × Tree)) (name : List Piece) (stack : List Frame)
  /-- A value has ended. -/
  | after (t : Tree) (stack : List Frame)

def startValue (stack : List Frame) : Token → Option State
  | .leaf l => some (.after (.leaf l) stack)
  | .arrayStart => some (.opened stack)
  | .objectStart => some (.name true [] stack)
  | _ => none

def endValue (t : Tree) : List Frame → Token → Option State
  | .array before :: stack, .comma => some (.value (.array (t :: before) :: stack))
  | .array before :: stack, .arrayEnd => some (.after (.array (t :: before).reverse) stack)
  | .object before name :: stack, .comma => some (.name false ((name, t) :: before) stack)
  | .object before name :: stack, .objectEnd =>
    some (.after (.object ((name, t) :: before).reverse) stack)
  | _, _ => none

def State.step : State → Token → Option State
  | .value stack, k => startValue stack k
  | .opened stack, .arrayEnd => some (.after (.array []) stack)
  | .opened stack, k => startValue (.array [] :: stack) k
  | .name true _ stack, .objectEnd => some (.after (.object []) stack)
  | .name _ before stack, .leaf (.string s) => some (.colon before s stack)
  | .name _ _ _, _ => none
  | .colon before key stack, .colon => some (.value (.object before key :: stack))
  | .colon _ _ _, _ => none
  | .after t stack, k => endValue t stack k

def State.run (s : State) : List Token → Option State
  | [] => some s
  | k :: ks => match s.step k with
    | some s' => s'.run ks
    | none => none

/-- The tree of a whole text: one value, and nothing after it. -/
def ofTokens? (ks : List Token) : Option Tree :=
  match (State.value []).run ks with
  | some (.after t []) => some t
  | _ => none

def parse? (s : String) : Option Tree := (tokens? s.toList).bind ofTokens?

end Tree
end StyledMap.Json
