import StyledMap.Json.Token
import StyledMap.Xml.Character

/-! A reader of documents in XML 1.0, to say what a document tells apart from how it is laid out.
It accepts a part of the language: a declaration, a document type that declares nothing but
entities of plain markup, elements, attributes, text, and references. Comments, other instructions,
literal sections, a bare `>` in text, entities inside entities or attributes, and spaces around `=`
or in end tags are refused, and so is all that is not well formed. The characters are read once,
tokens come of them, and tokens fill the open elements. -/
namespace StyledMap.Xml

/-- What a document says. Names and values are as they are meant, not as they are written. -/
inductive Node where
  | text (s : String)
  | element (name : String) (attributes : List (String × String)) (content : List Node)

def isSpace (c : Char) : Bool := c == ' ' || c == '\t' || c == '\n' || c == '\r'

/-- Every line end becomes a line feed, before anything else is looked at. -/
def lineEnds (returned : Bool) : List Char → List Char
  | [] => []
  | c :: cs =>
    if c = '\r' then '\n' :: lineEnds true cs
    else if c = '\n' ∧ returned then lineEnds false cs
    else c :: lineEnds false cs

def legalChar? (n : Nat) : Option Char :=
  if n.isValidChar ∧ isLegal (Char.ofNat n) then some (Char.ofNat n) else none

def hexadecimal? (cs : List Char) : Option Nat :=
  if cs = [] then none
  else cs.foldlM (fun n c => (Json.hexDigit? c).map (16 * n + ·)) 0

/-- The character that a reference stands for by itself. -/
def character? : List Char → Option Char
  | '#' :: 'x' :: cs => (hexadecimal? cs).bind legalChar?
  | '#' :: cs => (Text.digits? cs).bind legalChar?
  | ['l', 't'] => some '<'
  | ['g', 't'] => some '>'
  | ['a', 'm', 'p'] => some '&'
  | ['q', 'u', 'o', 't'] => some '\"'
  | ['a', 'p', 'o', 's'] => some '\''
  | _ => none

inductive Token where
  | char (c : Char)
  | reference (name : List Char)
  | opens (name : String) (attributes : List (String × String))
  | bare (name : String) (attributes : List (String × String))
  | closes (name : String)
  | instruction (name : String) (attributes : List (String × String))
  | doctype (name : String)
  | entity (name : String) (value : List Char)
  | subsetEnd
  deriving DecidableEq

/-- A tag as far as it is read, or an instruction, which is written like one. -/
structure Tag where
  instruction : Bool
  name : String
  attributes : List (String × String)
  deriving DecidableEq

/-- Where a text stands between two characters. What is read of a name or a value is kept. -/
inductive Place where
  | content
  | reference (name : List Char)
  | markup
  | tagName (instruction : Bool) (name : List Char)
  | endName (name : List Char)
  | inTag (tag : Tag) (spaced : Bool)
  | attribute (tag : Tag) (name : List Char)
  | quote (tag : Tag) (name : List Char)
  | value (tag : Tag) (name : List Char) (mark : Char) (text : List Char)
  | valueReference (tag : Tag) (name : List Char) (mark : Char) (text word : List Char)
  | doctype (name : List Char)
  | subset
  | entityName (name : List Char)
  | entityQuote (name : List Char)
  | entityValue (name : List Char) (mark : Char) (text : List Char)
  /-- These characters must come, and then the place behind them is reached. -/
  | expect (text : List Char) (next : Place)
  deriving DecidableEq

abbrev Reached := Option (Place × List Token)

/-- A name is complete. -/
def named (name : List Char) (next : String → Place × List Token) : Reached :=
  if isName name then some (next (String.ofList name)) else none

def isReferenceChar (c : Char) : Bool := isNameChar c || c == '#'

/-- The end of a tag, or a space in it. -/
def tagStep (t : Tag) (c : Char) : Reached :=
  if isSpace c then some (.inTag t true, [])
  else if c = '?' ∧ t.instruction then
    some (.expect ['>'] .content, [.instruction t.name t.attributes])
  else if c = '/' ∧ !t.instruction then some (.expect ['>'] .content, [.bare t.name t.attributes])
  else if c = '>' ∧ !t.instruction then some (.content, [.opens t.name t.attributes])
  else none

def Place.step (p : Place) (c : Char) : Reached :=
  match p with
  | .content =>
    if c = '<' then some (.markup, [])
    else if c = '&' then some (.reference [], [])
    else if c = '>' then none
    else some (.content, [.char c])
  | .reference name =>
    if isReferenceChar c then some (.reference (name ++ [c]), [])
    else if c = ';' then some (.content, [.reference name])
    else none
  | .markup =>
    if c = '/' then some (.endName [], [])
    else if c = '?' then some (.tagName true [], [])
    else if c = '!' then some (.expect "DOCTYPE ".toList (.doctype []), [])
    else if isNameStart c then some (.tagName false [c], [])
    else none
  | .tagName instruction name =>
    if isNameChar c then some (.tagName instruction (name ++ [c]), [])
    else if isName name then tagStep ⟨instruction, String.ofList name, []⟩ c
    else none
  | .endName name =>
    if isNameChar c then some (.endName (name ++ [c]), [])
    else if c = '>' then named name (fun n => (.content, [.closes n]))
    else none
  | .inTag tag spaced =>
    if isNameStart c ∧ spaced then some (.attribute tag [c], []) else tagStep tag c
  | .attribute tag name =>
    if isNameChar c then some (.attribute tag (name ++ [c]), [])
    else if c = '=' then some (.quote tag name, [])
    else none
  | .quote tag name =>
    if c = '\"' ∨ c = '\'' then some (.value tag name c [], []) else none
  | .value tag name mark text =>
    if c = mark then
      some (.inTag { tag with attributes :=
        tag.attributes ++ [(String.ofList name, String.ofList text)] } false, [])
    else if c = '<' then none
    else if c = '&' then some (.valueReference tag name mark text [], [])
    else if isSpace c then some (.value tag name mark (text ++ [' ']), [])
    else some (.value tag name mark (text ++ [c]), [])
  | .valueReference tag name mark text word =>
    if isReferenceChar c then some (.valueReference tag name mark text (word ++ [c]), [])
    else if c = ';' then
      (character? word).map (fun r => (.value tag name mark (text ++ [r]), []))
    else none
  | .doctype name =>
    if isNameChar c then some (.doctype (name ++ [c]), [])
    else if c = ' ' then named name (fun n => (.expect ['['] .subset, [.doctype n]))
    else none
  | .subset =>
    if isSpace c then some (.subset, [])
    else if c = '<' then some (.expect "!ENTITY ".toList (.entityName []), [])
    else if c = ']' then some (.expect ['>'] .content, [.subsetEnd])
    else none
  | .entityName name =>
    if isNameChar c then some (.entityName (name ++ [c]), [])
    else if c = ' ' then named name (fun _ => (.entityQuote name, []))
    else none
  | .entityQuote name =>
    if c = '\"' ∨ c = '\'' then some (.entityValue name c [], []) else none
  | .entityValue name mark text =>
    if c = mark then some (.expect ['>'] .subset, [.entity (String.ofList name) text])
    else if c = '&' ∨ c = '%' then none
    else some (.entityValue name mark (text ++ [c]), [])
  | .expect [] _ => none
  | .expect [d] next => if c = d then some (next, []) else none
  | .expect (d :: ds) next => if c = d then some (.expect ds next, []) else none

def scan (p : Place) : List Char → Reached
  | [] => some (p, [])
  | c :: cs => do
    let (q, ts) ← p.step c
    let (r, us) ← scan q cs
    return (r, ts ++ us)

def tokens? (cs : List Char) : Option (List Token) :=
  match scan .content cs with
  | some (.content, ts) => some ts
  | _ => none

/-- A piece of content, before characters become texts. -/
inductive Piece where
  | char (c : Char)
  | element (n : Node)

def Piece.isElement : Piece → Bool
  | .char _ => false
  | .element _ => true

def textNode (cs : List Char) : List Node := if cs = [] then [] else [.text (String.ofList cs)]

/-- The characters up to the next element are one text, if there are any. -/
def runs (before : List Char) : List Piece → List Node
  | [] => textNode before
  | .char c :: ps => runs (before ++ [c]) ps
  | .element n :: ps => textNode before ++ n :: runs [] ps

def Node.isBlank : Node → Bool
  | .text s => s.toList.all isSpace
  | .element _ _ _ => false

/-- Blank texts are layout next to elements, and texts of their own without any. -/
def content (ps : List Piece) : List Node :=
  if ps.any Piece.isElement then (runs [] ps).filter (!·.isBlank) else runs [] ps

/-- An open element, with what stands before it in the one around. -/
structure Frame where
  name : String
  attributes : List (String × String)
  before : List Piece

/-- What the innermost open element holds so far, and the open elements from there outwards. -/
structure Building where
  pieces : List Piece
  frames : List Frame

/-- Entities and what they stand for. -/
abbrev Entities := List (String × List Piece)

def referenced? (entities : Entities) (name : List Char) : Option (List Piece) :=
  match character? name with
  | some c => some [.char c]
  | none => entities.lookup (String.ofList name)

/-- No attribute is given twice, and only the innermost element is closed. -/
def fill (entities : Entities) (b : Building) : Token → Option Building
  | .char c => some ⟨b.pieces ++ [.char c], b.frames⟩
  | .reference name =>
    if b.frames.isEmpty then none
    else (referenced? entities name).map (fun ps => ⟨b.pieces ++ ps, b.frames⟩)
  | .opens name attributes =>
    if (attributes.map (·.1)).Nodup then some ⟨[], ⟨name, attributes, b.pieces⟩ :: b.frames⟩
    else none
  | .bare name attributes =>
    if (attributes.map (·.1)).Nodup then
      some ⟨b.pieces ++ [.element (.element name attributes [])], b.frames⟩
    else none
  | .closes name => match b.frames with
    | [] => none
    | f :: frames =>
      if f.name = name then
        some ⟨f.before ++ [.element (.element name f.attributes (content b.pieces))], frames⟩
      else none
  | _ => none

def fillAll (entities : Entities) (ts : List Token) : Option (List Piece) :=
  match ts.foldlM (fill entities) ⟨[], []⟩ with
  | some ⟨ps, []⟩ => some ps
  | _ => none

def skipBlanks : List Token → List Token
  | [] => []
  | t :: ts => match t with
    | .char c => if isSpace c then skipBlanks ts else t :: ts
    | _ => t :: ts

def declarations : List (List (String × String)) :=
  [[("version", "1.0")], [("version", "1.0"), ("encoding", "utf-8")],
   [("version", "1.0"), ("encoding", "UTF-8")]]

def afterDeclaration : List Token → Option (List Token)
  | .instruction name attributes :: ts =>
    if name = "xml" ∧ attributes ∈ declarations then some ts else none
  | ts => some ts

/-- The entities of a document type, each read as content, and what follows it. Of two with one name
the first counts. -/
def afterSubset : List Token → Option (Entities × List Token)
  | .entity name value :: ts => do
    let ps ← (tokens? value).bind (fillAll [])
    let (entities, rest) ← afterSubset ts
    return ((name, ps) :: entities, rest)
  | .subsetEnd :: ts => some ([], ts)
  | _ => none

def afterDoctype : List Token → Option (Entities × List Token)
  | .doctype _ :: ts => afterSubset ts
  | ts => some ([], ts)

/-- One element, with nothing but blanks around it. -/
def root? (ps : List Piece) : Option Node :=
  match (runs [] ps).filter (!·.isBlank) with
  | [.element name attributes content] => some (.element name attributes content)
  | _ => none

def read (text : String) : Option Node := do
  let cs := lineEnds false text.toList
  if cs.all isLegal then
    let ts ← afterDeclaration (← tokens? cs)
    let (entities, ts) ← afterDoctype (skipBlanks ts)
    root? (← fillAll entities ts)
  else none

end StyledMap.Xml
