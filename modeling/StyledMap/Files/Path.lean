import StyledMap.Text.Split

/-! Paths as texts. Names stand between slashes; empty names and single dots count for nothing, except
for a dot that starts a relative path. Two paths are the same if their parts are. -/
namespace StyledMap

structure Path where
  text : String
  deriving Repr, DecidableEq

namespace Path

inductive Part where
  | root
  | here
  | up
  | name (n : List Char)
  deriving Repr, DecidableEq

/-- The names between slashes, empty ones included. -/
def segments (p : Path) : List (List Char) := Text.split '/' p.text.toList

def partOf? (s : List Char) : Option Part :=
  if s = [] ∨ s = ['.'] then none
  else if s = ['.', '.'] then some .up
  else some (.name s)

def isAbsolute (p : Path) : Bool := p.text.toList.head? = some '/'

/-- What a path starts from, apart from names. -/
def front? (p : Path) : Option Part :=
  if p.isAbsolute then some .root else if p.segments.head? = some ['.'] then some .here else none

def parts (p : Path) : List Part := p.front?.toList ++ p.segments.filterMap partOf?

def same (p q : Path) : Bool := p.parts = q.parts

/-- The path `q` below `p`; an absolute `q` stands for itself. -/
def join (p q : Path) : Path :=
  if q.isAbsolute then q
  else if p.text = "" then q
  else if p.text.toList.getLast? = some '/' then ⟨p.text ++ q.text⟩
  else ⟨p.text ++ "/" ++ q.text⟩

/-- Drops slashes and single dots in front of the first part. -/
def dropEmpty : List (List Char) → List (List Char)
  | [] => []
  | s :: ss => if (partOf? s).isNone then dropEmpty ss else s :: ss

/-- Segments without those that count for nothing at their end. -/
def trimEnd (ss : List (List Char)) : List (List Char) := (dropEmpty ss.reverse).reverse

def spell (ss : List (List Char)) : String := String.ofList (List.intercalate ['/'] ss)

/-- Segments after those that make up the given parts, if they start with them. -/
def after? : List Part → List (List Char) → Option (List (List Char))
  | [], ss => some ss
  | _ :: _, [] => none
  | p :: ps, s :: ss => match partOf? s with
    | none => after? (p :: ps) ss
    | some q => if p = q then after? ps ss else none

/-- What `p` says below `base`, as it is spelled. -/
def below? (base p : Path) : Option String :=
  if base.front? = p.front? then
    (after? (base.segments.filterMap partOf?) p.segments).map
      (fun ss => spell (trimEnd (dropEmpty ss)))
  else none

/-- The last name, if the path ends in one. -/
def fileName? (p : Path) : Option String :=
  match p.parts.getLast? with
  | some (.name n) => some (String.ofList n)
  | _ => none

/-- The path without its last part; a root has none above it. -/
def parent? (p : Path) : Option Path :=
  match p.parts.getLast? with
  | none | some .root => none
  | some .here => some ⟨""⟩
  | some _ =>
    let kept := trimEnd (trimEnd p.segments).dropLast
    let alone := if p.isAbsolute then "/" else if p.segments.head? = some ['.'] then "." else ""
    some ⟨if kept = [] then alone else spell kept⟩

def ancestorsUpTo (left : Nat) (p : Path) : List Path :=
  match left, p.parent? with
  | n + 1, some q => p :: ancestorsUpTo n q
  | _, _ => [p]

/-- The path and all those around it, from the inside out. -/
def ancestors (p : Path) : List Path := ancestorsUpTo p.parts.length p

end Path
end StyledMap
