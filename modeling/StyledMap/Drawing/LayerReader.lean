import StyledMap.Drawing.Fault
import StyledMap.Drawing.Layer
import StyledMap.Json.Record
import StyledMap.Text.Blank

/-! Layers from a JSON text. Texts are checked before the kind of the source is looked at, and the
kind before the fields it asks for. -/
namespace StyledMap.Drawing
open StyledMap.Json (Tree Record Field givenAs)

inductive StatusEntry where
  | flag (on : Bool)
  | word (text : String)
  deriving Repr, DecidableEq

/-- The fields of a source other than its kind, each name once. -/
structure SourceEntry where
  kind : String
  fields : List (String × Json)

structure LayerEntry where
  name : String
  style : String
  srs : String
  status : Option StatusEntry
  source : SourceEntry

def StatusEntry.ofTree? : Tree → Option StatusEntry
  | .leaf (.bool b) => some (.flag b)
  | .leaf (.string s) => (Json.text? s).map .word
  | _ => none

/-- A source is an object that gives its kind once. -/
def SourceEntry.ofTree? (depth : Nat) : Tree → Option SourceEntry
  | .object members => do
    let named ← Json.memberNames? [] members
    match givenAs ["kind"] named with
    | [t] =>
      let kind ← t.string?
      let .object fields ← Tree.value? depth (.object members) | none
      return ⟨kind, fields.filter (fun m => m.1 != "kind")⟩
    | _ => none
  | _ => none

def LayerEntry.ofTree? (depth : Nat) (t : Tree) : Option LayerEntry := do
  let name : Field := ⟨0, ["name"]⟩
  let style : Field := ⟨1, ["style", "styleId", "style_id"]⟩
  let srs : Field := ⟨2, ["srs"]⟩
  let status : Field := ⟨3, ["status"]⟩
  let source : Field := ⟨4, ["source"]⟩
  let r ← Record.ofTree? [name, style, srs, status, source] t
  return { name := ← r.required? name Tree.string?
           style := ← r.required? style Tree.string?
           srs := ← r.required? srs Tree.string?
           status := ← r.optional? status StatusEntry.ofTree?
           source := ← r.required? source (SourceEntry.ofTree? (depth - 1)) }

def layerEntries? (text : String) : Option (List LayerEntry) :=
  (Tree.parse? text).bind (Tree.list? (LayerEntry.ofTree? (Json.depthLimit - 1)))

/-- A field under one of its names; under two of them it is refused. -/
def field? (names : List String) (fields : List (String × Json)) : Option (Option Json) :=
  match givenAs names fields with
  | [] => some none
  | [v] => some (some v)
  | _ => none

def textField? (names : List String) (fields : List (String × Json)) : Option String :=
  match field? names fields with
  | some (some (.string s)) => some s
  | _ => none

def textFieldOr? (missing : String) (names : List String) (fields : List (String × Json)) :
    Option String :=
  match field? names fields with
  | some none => some missing
  | some (some (.string s)) => some s
  | _ => none

def flagField? (names : List String) (fields : List (String × Json)) : Option Bool :=
  match field? names fields with
  | some none => some false
  | some (some (.bool b)) => some b
  | _ => none

inductive PortEntry where
  | missing
  | number (n : Nat)
  | text (s : String)
  deriving Repr, DecidableEq

def portField? (fields : List (String × Json)) : Option PortEntry :=
  match field? ["port"] fields with
  | some none | some (some .null) => some .missing
  | some (some (.number (.natural n))) => if n ≤ Text.maxUnsigned16 then some (.number n) else none
  | some (some (.string s)) => some (.text s)
  | _ => none

/-- The port of a database that does not name one. -/
def defaultPort : Nat := 5432

def PortEntry.port (layer : String) : PortEntry → Except Fault Nat
  | .missing => .ok defaultPort
  | .number n => .ok n
  | .text s => match Text.unsigned? Text.maxUnsigned16 (Text.trim s.toList) with
    | some n => .ok n
    | none => .error (.invalid ("layer '" ++ layer ++ "' port")
        ("'" ++ s ++ "' is not a valid port number"))

/-- A database whose port is still to be read. -/
def database? (fields : List (String × Json)) : Option (PortEntry × (Nat → Layer.Database)) := do
  let driver ← textField? ["type"] fields
  let host ← textField? ["host"] fields
  let port ← portField? fields
  let dbname ← textField? ["dbname"] fields
  let user ← textField? ["user"] fields
  let password ← textFieldOr? "" ["password"] fields
  let estimateExtent ← flagField? ["estimate_extent", "estimateExtent"] fields
  let table ← textField? ["table"] fields
  return (port, fun n => ⟨driver, host, n, dbname, user, password, estimateExtent, table⟩)

def file? (fields : List (String × Json)) : Option Layer.File := do
  let driver ← textField? ["type"] fields
  let path ← textField? ["path", "file"] fields
  return ⟨driver, path⟩

def checkSourceField (layer : String) (field : String × Json) : Except Fault Unit :=
  match field.2 with
  | .string text => checkText ("layer '" ++ layer ++ "' source " ++ field.1) text
  | _ => .ok ()

def SourceEntry.source (layer : String) (e : SourceEntry) : Except Fault Layer.Source := do
  e.fields.forM (checkSourceField layer)
  if e.kind = "database" then
    match database? e.fields with
    | none => .error .malformed
    | some (port, make) => return .database (make (← port.port layer))
  else if e.kind = "file" then
    match file? e.fields with
    | none => .error .malformed
    | some f => return .file f
  else .error (.unknownSource layer e.kind)

/-- Words are compared without regard to the case of letters. -/
def lowerCase (s : String) : String := String.ofList (s.toList.map Char.toLower)

def statusOf (layer : String) : Option StatusEntry → Except Fault Layer.Status
  | none => .ok .on
  | some (.flag b) => .ok (if b then .on else .off)
  | some (.word s) =>
    if lowerCase s ∈ ["on", "enabled"] then .ok .on
    else if lowerCase s ∈ ["off", "disabled"] then .ok .off
    else .error (.invalid ("layer '" ++ layer ++ "' status")
      ("'" ++ s ++ "' is not one of on, off, enabled, disabled"))

def LayerEntry.layer (e : LayerEntry) : Except Fault Layer := do
  checkText "layer name" e.name
  checkText ("layer '" ++ e.name ++ "' style") e.style
  checkText ("layer '" ++ e.name ++ "' srs") e.srs
  let status ← statusOf e.name e.status
  let source ← e.source.source e.name
  return ⟨e.name, e.style, e.srs, status, source⟩

/-- The layers of a JSON array, or the first fault. -/
def readLayers (text : String) : Except Fault (List Layer) :=
  match layerEntries? text with
  | none => .error .malformed
  | some entries => entries.mapM LayerEntry.layer

end StyledMap.Drawing
