import StyledMap.Files.Access

/-! A tree of files as a value. Places are names from the root down; the root itself is always a
directory. -/
namespace StyledMap.Files

abbrev Place := List (List Char)

inductive Node where
  | directory
  | file (bytes : ByteArray)

/-- Relative paths start at the working directory. -/
structure Tree where
  working : Place
  nodes : List (Place × Node)

namespace Tree

def node? (t : Tree) : Place → Option Node
  | [] => some .directory
  | place => t.nodes.lookup place

def put (t : Tree) (place : Place) (n : Node) : Tree :=
  ⟨t.working, (place, n) :: t.nodes.filter (fun e => e.1 != place)⟩

theorem node?_put_self (t : Tree) {place : Place} (h : place ≠ []) (n : Node) :
    (t.put place n).node? place = some n := by
  cases place with
  | nil => exact absurd rfl h
  | cons s ss => simp [put, node?]

/-- Names have at most this many bytes. -/
def nameLimit : Nat := 255

/-- Paths have fewer bytes than this. -/
def pathLimit : Nat := 4096

/-- Where segments lead from a place. What lies on the way must be directories, what they lead to need not
be there. -/
def walk (t : Tree) (place : Place) : List (List Char) → Except Fault Place
  | [] => .ok place
  | s :: ss => match t.node? place with
    | none => .error .notFound
    | some (.file _) => .error .notDirectory
    | some .directory =>
      if s = [] ∨ s = ['.'] then walk t place ss
      else if s = ['.', '.'] then walk t place.dropLast ss
      else if nameLimit < (String.ofList s).utf8ByteSize then .error .nameTooLong
      else walk t (place ++ [s]) ss

/-- Refuses texts that name no place in any tree. -/
def check (p : Path) : Except Fault Unit :=
  if p.text = "" then .error .notFound
  else if p.text.toList.contains '\x00' then .error .nulInName
  else if pathLimit ≤ p.text.utf8ByteSize then .error .nameTooLong
  else .ok ()

/-- The segments up to the last that is not empty. -/
def body (p : Path) : List (List Char) := (p.segments.reverse.dropWhile (· = [])).reverse

/-- Whether slashes at its end ask for a directory. -/
def endsInSlash (p : Path) : Bool := (body p).length < p.segments.length

def walkFrom (t : Tree) (p : Path) (segments : List (List Char)) : Except Fault Place :=
  match check p with
  | .error f => .error f
  | .ok () => t.walk (if p.isAbsolute then [] else t.working) segments

/-- Where a path leads. -/
def find (t : Tree) (p : Path) : Except Fault Place := t.walkFrom p (body p)

/-- The directory that the last segment of a path is looked up in, whatever that segment is. -/
def findAround (t : Tree) (p : Path) : Except Fault Place :=
  t.walkFrom p ((body p).dropLast ++ [['.']])

def found? (t : Tree) (p : Path) : Except Fault Node :=
  match t.find p with
  | .error f => .error f
  | .ok place => match t.node? place with
    | none => .error .notFound
    | some .directory => .ok .directory
    | some (.file bytes) => if endsInSlash p then .error .notDirectory else .ok (.file bytes)

def isThere (t : Tree) (p : Path) : Bool := (t.found? p).isOk

def isDirectory (t : Tree) (p : Path) : Bool :=
  match t.found? p with
  | .ok .directory => true
  | _ => false

def read (t : Tree) (p : Path) : Except Fault ByteArray :=
  match t.found? p with
  | .error f => .error f
  | .ok .directory => .error .isDirectory
  | .ok (.file bytes) => .ok bytes

/-- Writes a file whose bytes depend on those that are there. A path that ends in a slash is refused before
its last name is looked at. -/
def writeWith (t : Tree) (p : Path) (change : ByteArray → ByteArray) : Except Fault Tree :=
  match if endsInSlash p then t.findAround p else t.find p with
  | .error f => .error f
  | .ok place => if endsInSlash p then .error .isDirectory else match t.node? place with
    | some .directory => .error .isDirectory
    | some (.file bytes) => .ok (t.put place (.file (change bytes)))
    | none => .ok (t.put place (.file (change ByteArray.empty)))

def makeDirectory (t : Tree) (p : Path) : Except Fault Tree :=
  match t.find p with
  | .error f => .error f
  | .ok place => match t.node? place with
    | some _ => .error .exists
    | none => .ok (t.put place .directory)

/-- Takes the tree after a change, or keeps it as it was after a fault. -/
def settle (t : Tree) : Except Fault Tree → Except Fault Unit × Tree
  | .ok t' => (.ok (), t')
  | .error f => (.error f, t)

end Tree

/-- Access to a tree that is the state. -/
def treeAccess : Access (StateM Tree) where
  isThere p := fun t => (t.isThere p, t)
  isDirectory p := fun t => (t.isDirectory p, t)
  read p := fun t => (t.read p, t)
  write p bytes := fun t => t.settle (t.writeWith p (fun _ => bytes))
  append p bytes := fun t => t.settle (t.writeWith p (· ++ bytes))
  makeDirectory p := fun t => t.settle (t.makeDirectory p)

end StyledMap.Files
