import StyledMap.Json.Reader

/-! Records in JSON texts. A record is written as an object, in which unknown members are skipped
unread, or as the array of its fields in order. A field may go by several names; giving it twice is
refused, under whichever names. -/
namespace StyledMap.Json

/-- A field: where it stands in an array, and its names in an object. -/
structure Field where
  position : Nat
  names : List String

inductive Record where
  | named (members : List (String × Tree))
  | listed (items : List Tree)

/-- The members whose names are among those given. -/
def givenAs {α : Type} (names : List String) (members : List (String × α)) : List α :=
  (members.filter (fun m => names.contains m.1)).map (·.2)

/-- No field stands twice in an object. -/
def eachOnce {α : Type} (fields : List Field) (members : List (String × α)) : Bool :=
  fields.all (fun f => (givenAs f.names members).length ≤ 1)

/-- Names must be valid text also where the member is skipped. -/
def memberNames? (done : List (String × Tree)) :
    List (List Piece × Tree) → Option (List (String × Tree))
  | [] => some done.reverse
  | (s, t) :: ms => match text? s with
    | some name => memberNames? ((name, t) :: done) ms
    | none => none

def Record.ofTree? (fields : List Field) : Tree → Option Record
  | .leaf _ => none
  | .array items => if items.length ≤ fields.length then some (.listed items) else none
  | .object members => match memberNames? [] members with
    | some ms => if eachOnce fields ms then some (.named ms) else none
    | none => none

def Record.field? (r : Record) (f : Field) : Option Tree :=
  match r with
  | .named members => (givenAs f.names members).head?
  | .listed items => items[f.position]?

def Tree.string? : Tree → Option String
  | .leaf (.string s) => text? s
  | _ => none

def Tree.items? : Tree → Option (List Tree)
  | .array items => some items
  | _ => none

def Tree.isNull : Tree → Bool
  | .leaf .null => true
  | _ => false

/-- Whole numbers below `2 ^ 64`, written without point or exponent. -/
def Tree.natural? : Tree → Option Nat
  | .leaf (.numeral n) => match n.number? with
    | some (.natural k) => some k
    | _ => none
  | _ => none

/-- All results in order, or none if one is missing. -/
def allOf? {α β : Type} (f : α → Option β) (done : List β) : List α → Option (List β)
  | [] => some done.reverse
  | a :: as => match f a with
    | some b => allOf? f (b :: done) as
    | none => none

/-- An array of things that `f` reads. -/
def Tree.list? {α : Type} (f : Tree → Option α) (t : Tree) : Option (List α) :=
  t.items?.bind (allOf? f [])

/-- A field that may be missing or null. -/
def Record.optional? {α : Type} (r : Record) (f : Field) (read : Tree → Option α) : Option (Option α) :=
  match r.field? f with
  | none => some none
  | some t => if t.isNull then some none else (read t).map some

/-- A field that may be missing, with the value it then has. -/
def Record.orElse? {α : Type} (r : Record) (f : Field) (missing : α) (read : Tree → Option α) :
    Option α :=
  match r.field? f with
  | none => some missing
  | some t => read t

def Record.required? {α : Type} (r : Record) (f : Field) (read : Tree → Option α) : Option α :=
  (r.field? f).bind read

end StyledMap.Json
