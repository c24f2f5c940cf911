import StyledMap.Drawing.Layer
import StyledMap.Journal.Level
import StyledMap.MapDocument.Symbolizer

/-! Map documents: the declarations of all thresholds, then every layer, then every style. A layer
whose style is not among those given is reported and written all the same. -/
namespace StyledMap

structure MapDocument where
  text : String
  deriving Repr, DecidableEq

namespace MapDocument

def size (d : MapDocument) : Nat := d.text.utf8ByteSize

/-- What compiling reports on the way, the time it took left out. -/
inductive Notice where
  | danglingLayer (layer style : String)
  | compiled (layers styles thresholds bytes : Nat)
  deriving Repr, DecidableEq

def Notice.level : Notice → Journal.Level
  | .danglingLayer _ _ => .warn
  | .compiled _ _ _ _ => .debug

def Notice.text : Notice → String
  | .danglingLayer layer style =>
    "Layer '" ++ layer ++ "' uses style '" ++ style ++ "', which is not defined in this request"
  | .compiled layers styles thresholds bytes =>
    "Compiled map document: " ++ Text.nat layers ++ " layers, " ++ Text.nat styles ++ " styles, " ++
      Text.nat thresholds ++ " thresholds, " ++ Text.nat bytes ++ " bytes"

def declaration : List Char := "<?xml version=\"1.0\" encoding=\"utf-8\"?>".toList

def entityLine (t : Threshold) : Xml.Mark :=
  .line ("<!ENTITY ".toList ++ (t.name.toList ++ ' ' :: '\"' :: (t.definition.toList ++ ['\"', '>'])))

/-- A document without thresholds declares nothing. -/
def declarations (table : List Threshold) : List Xml.Mark :=
  if table.isEmpty then []
  else .line "<!DOCTYPE Map [".toList :: (table.map entityLine ++ [.line "]>".toList])

/-- The parameters of a source, in the order of the document. -/
def sourceParams : Layer.Source → List (String × String)
  | .database d =>
    [("type", d.driver), ("host", d.host), ("port", Text.nat d.port), ("dbname", d.dbname),
     ("user", d.user), ("password", d.password),
     ("estimate_extent", if d.estimateExtent then "true" else "false"), ("table", d.table)]
  | .file f => [("type", f.driver), ("file", f.path)]

def sourceParamItem (p : String × String) : Xml.Item := .field "Parameter" [("name", p.1)] p.2

def layerItem (l : Layer) : Xml.Item :=
  .group "Layer" [("name", l.name), ("status", l.status.text), ("srs", l.srs)]
    [.field "StyleName" [] l.style,
     .group "Datasource" [] ((sourceParams l.source).map sourceParamItem)]

/-- The reference of a rule to a threshold, if it has one. -/
def thresholdItems (table : List Threshold) (style : String) (rule : Nat) (kind : Threshold.Kind) :
    Option Nat → Except Fault (List Xml.Item)
  | none => .ok []
  | some zoom => match Threshold.find? table kind zoom with
    | some t => .ok [.reference t.name]
    | none => .error (.unknownZoom style rule kind zoom)

def filterItems : Option String → List Xml.Item
  | none => []
  | some text => [.field "Filter" [] text]

/-- The upper bound stands before the lower one. -/
def ruleItem (table : List Threshold) (style : String) (index : Nat) (r : Rule) :
    Except Fault Xml.Item := do
  let upper ← thresholdItems table style index .maxScale r.maxzoom
  let lower ← thresholdItems table style index .minScale r.minzoom
  let symbolizers ← r.symbolizers.mapM symbolizerItem
  return .group "Rule" [] (filterItems r.filter ++ (upper ++ (lower ++ symbolizers)))

def ruleItems (table : List Threshold) (style : String) (index : Nat) :
    List Rule → Except Fault (List Xml.Item)
  | [] => .ok []
  | r :: rs => do
    let item ← ruleItem table style index r
    return item :: (← ruleItems table style (index + 1) rs)

def styleItem (table : List Threshold) (s : Style) : Except Fault Xml.Item := do
  return .group "Style" [("name", s.name)] (← ruleItems table s.name 0 s.rules)

/-- The reports on layers whose style is missing, in the order of the layers. -/
def dangling (styles : List Style) (layers : List Layer) : List Notice :=
  (layers.filter (fun l => !styles.any (·.name = l.style))).map
    (fun l => .danglingLayer l.name l.style)

def mapItem (table : List Threshold) (styles : List Style) (layers : List Layer)
    (srs background : String) : Except Fault Xml.Item := do
  let drawn ← styles.mapM (styleItem table)
  return .group "Map" [("srs", srs), ("background-color", background)]
    (layers.map layerItem ++ drawn)

def marks (table : List Threshold) (root : Xml.Item) : List Xml.Mark :=
  .line declaration :: (declarations table ++ root.marks)

/-- The document, and what is reported on the way to it or to the fault. -/
def compile (styles : List Style) (zooms : List Float) (layers : List Layer)
    (srs background : String) : List Notice × Except Fault MapDocument :=
  let table := Threshold.table zooms
  let warnings := dangling styles layers
  match mapItem table styles layers srs background with
  | .error f => (warnings, .error f)
  | .ok root =>
    let document : MapDocument := ⟨String.ofList (Xml.layout 0 (marks table root))⟩
    (warnings ++ [.compiled layers.length styles.length table.length document.size], .ok document)

end MapDocument
end StyledMap
