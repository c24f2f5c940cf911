import StyledMap.Json.Basic

/-! Written forms of JSON values: on one line without spaces, or indented with one item a line. -/
namespace StyledMap.Json

def escapeChar (c : Char) : List Char :=
  if c = '\"' then ['\\', '\"']
  else if c = '\\' then ['\\', '\\']
  else if c = '\x08' then ['\\', 'b']
  else if c = '\x0c' then ['\\', 'f']
  else if c = '\n' then ['\\', 'n']
  else if c = '\r' then ['\\', 'r']
  else if c = '\t' then ['\\', 't']
  else if c.toNat < 0x20 then '\\' :: 'u' :: Text.padded 16 4 c.toNat
  else [c]

def quoted (s : String) : List Char := '\"' :: (s.toList.flatMap escapeChar ++ ['\"'])

mutual

def compactChars : Json → List Char
  | .null => "null".toList
  | .bool b => if b then "true".toList else "false".toList
  | .number n => n.text.toList
  | .string s => quoted s
  | .array [] => ['[', ']']
  | .array (v :: vs) => '[' :: (compactChars v ++ compactItems vs)
  | .object [] => ['\x7b', '\x7d']
  | .object ((name, v) :: ms) => '\x7b' :: (quoted name ++ ':' :: (compactChars v ++ compactMembers ms))

def compactItems : List Json → List Char
  | [] => [']']
  | v :: vs => ',' :: (compactChars v ++ compactItems vs)

def compactMembers : List (String × Json) → List Char
  | [] => ['\x7d']
  | (name, v) :: ms => ',' :: (quoted name ++ ':' :: (compactChars v ++ compactMembers ms))

end

def compact (v : Json) : String := String.ofList (compactChars v)

/-- A new line with `depth` steps of three spaces. -/
def lineBreak (depth : Nat) : List Char := '\n' :: List.replicate (3 * depth) ' '

mutual

def indentedChars (depth : Nat) : Json → List Char
  | .null => "null".toList
  | .bool b => if b then "true".toList else "false".toList
  | .number n => n.text.toList
  | .string s => quoted s
  | .array [] => ['[', ']']
  | .array (v :: vs) =>
    '[' :: (lineBreak (depth + 1) ++ (indentedChars (depth + 1) v ++ indentedItems depth vs))
  | .object [] => ['\x7b', '\x7d']
  | .object ((name, v) :: ms) =>
    '\x7b' :: (lineBreak (depth + 1) ++ (quoted name ++ ':' :: ' ' ::
      (indentedChars (depth + 1) v ++ indentedMembers depth ms)))

def indentedItems (depth : Nat) : List Json → List Char
  | [] => lineBreak depth ++ [']']
  | v :: vs => ',' :: (lineBreak (depth + 1) ++ (indentedChars (depth + 1) v ++ indentedItems depth vs))

def indentedMembers (depth : Nat) : List (String × Json) → List Char
  | [] => lineBreak depth ++ ['\x7d']
  | (name, v) :: ms => ',' :: (lineBreak (depth + 1) ++ (quoted name ++ ':' :: ' ' ::
      (indentedChars (depth + 1) v ++ indentedMembers depth ms)))

end

def indented (v : Json) : String := String.ofList (indentedChars 0 v)

end StyledMap.Json
