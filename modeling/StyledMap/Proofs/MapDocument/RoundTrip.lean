import StyledMap.Proofs.Decimal.Reading
import StyledMap.Proofs.MapDocument.Prolog

/-! What a map document says. A reader that knows nothing of maps finds in it one element for each
layer, style, rule and symbolizer, in order and with all that belongs to it; thresholds are found
where the rules refer to them. Numbers are found as texts, from which they are read again. -/
namespace StyledMap

/-- A rule refers to thresholds that the denominators make. -/
structure Rule.Bounded (zooms : List Float) (r : Rule) : Prop where
  maxzoom : ∀ m, r.maxzoom = some m → m + 1 < zooms.length
  minzoom : ∀ m, r.minzoom = some m → 1 ≤ m ∧ m + 1 < zooms.length

namespace MapDocument
open Steps
open Xml (Item Node grouped)

/-- An element with a text, or with no content if the text is empty. -/
def textElement (name : String) (attributes : List (String × String)) (text : String) : Node :=
  .element name attributes (if text = "" then [] else [.text text])

/-- An element around others. Without any, the line break between its tags is all that it holds. -/
def groupElement (depth : Nat) (name : String) (attributes : List (String × String))
    (nodes : List Node) : Node :=
  .element name attributes (grouped depth nodes)

def parameterNode (name value : String) : Node := textElement "Parameter" [("name", name)] value

def sourceNodes : Layer.Source → List Node
  | .database d =>
    [parameterNode "type" d.driver, parameterNode "host" d.host,
     parameterNode "port" (Text.nat d.port), parameterNode "dbname" d.dbname,
     parameterNode "user" d.user, parameterNode "password" d.password,
     parameterNode "estimate_extent" (if d.estimateExtent then "true" else "false"),
     parameterNode "table" d.table]
  | .file f => [parameterNode "type" f.driver, parameterNode "file" f.path]

def statusWord : Layer.Status → String
  | .on => "on"
  | .off => "off"

def layerNode (l : Layer) : Node :=
  .element "Layer" [("name", l.name), ("status", statusWord l.status), ("srs", l.srs)]
    [textElement "StyleName" [] l.style, .element "Datasource" [] (sourceNodes l.source)]

def cssNode (p : String × String) : Node := textElement "CssParameter" [("name", p.1)] p.2

def symbolizerNode (s : Symbolizer) : Node :=
  match s.kind with
  | .polygon => .element "PolygonSymbolizer" [] (s.params.map cssNode)
  | .line => .element "LineSymbolizer" [] (s.params.map cssNode)
  | .polygonPattern => .element "PolygonPatternSymbolizer" s.params []
  | .text => .element "TextSymbolizer" s.params []

def filterNodes : Option String → List Node
  | none => []
  | some text => [textElement "Filter" [] text]

def boundNodes (name : String) : Option Float → List Node
  | none => []
  | some denominator => [textElement name [] (Decimal.plainText denominator)]

def ruleNode (zooms : List Float) (r : Rule) : Node :=
  groupElement 2 "Rule" []
    (filterNodes r.filter ++
      (boundNodes "MaxScaleDenominator" (r.maxzoom.bind (fun m => zooms[m]?)) ++
        (boundNodes "MinScaleDenominator" (r.minzoom.bind (fun m => zooms[m + 1]?)) ++
          r.symbolizers.map symbolizerNode)))

def styleNode (zooms : List Float) (s : Style) : Node :=
  groupElement 1 "Style" [("name", s.name)] (s.rules.map (ruleNode zooms))

/-- All that a document says. -/
def mapNode (styles : List Style) (zooms : List Float) (layers : List Layer)
    (srs background : String) : Node :=
  groupElement 0 "Map" [("srs", srs), ("background-color", background)]
    (layers.map layerNode ++ styles.map (styleNode zooms))

theorem textNode_toList (text : String) :
    Xml.textNode text.toList = if text = "" then [] else [.text text] := by
  simp [Xml.textNode, String.ofList_toList]

theorem node_field (entities : Xml.Entities) (depth : Nat) (name : String)
    (attributes : List (String × String)) (text : String) :
    (Item.field name attributes text).node entities depth = textElement name attributes text := by
  rw [Item.node, textNode_toList]
  rfl

theorem node_group (entities : Xml.Entities) (depth : Nat) (name : String)
    (attributes : List (String × String)) (items : List Item) :
    (Item.group name attributes items).node entities depth =
      groupElement depth name attributes (items.map (Item.node entities (depth + 1))) := by
  rw [Item.node, Xml.Item.nodes_eq_map]
  rfl

theorem grouped_of_ne_nil {depth : Nat} {nodes : List Node} (h : nodes ≠ []) :
    grouped depth nodes = nodes := by
  cases nodes with
  | nil => exact absurd rfl h
  | cons n ns => rfl

theorem node_layerItem (entities : Xml.Entities) (depth : Nat) (l : Layer) :
    (layerItem l).node entities depth = layerNode l := by
  have hsource : ((sourceParams l.source).map sourceParamItem).map
      (Item.node entities (depth + 1 + 1)) = sourceNodes l.source := by
    rw [List.map_map]
    cases l.source <;> simp [sourceParams, sourceParamItem, sourceNodes, parameterNode, node_field]
  have hne : sourceNodes l.source ≠ [] := by
    cases l.source <;> simp [sourceNodes]
  have hstatus : l.status.text = statusWord l.status := by
    cases l.status <;> rfl
  rw [layerItem, node_group, List.map_cons, List.map_cons, node_group, node_field, hsource, hstatus]
  simp [groupElement, grouped_of_ne_nil, hne, layerNode]

theorem node_symbolizerItem {s : Symbolizer} {i : Item} (h : symbolizerItem s = .ok i)
    (entities : Xml.Entities) (depth : Nat) : i.node entities depth = symbolizerNode s := by
  have hcss : (s.params.map paramItem).map (Item.node entities (depth + 1)) =
      s.params.map cssNode := by
    rw [List.map_map]
    exact List.map_congr_left (fun p _ => node_field entities _ _ _ _)
  obtain ⟨hstyle, hparams, rfl⟩ | ⟨hstyle, hparams, rfl⟩ | ⟨hstyle, -, -, rfl⟩ :=
    symbolizerItem_cases h
  · unfold symbolizerNode
    cases hk : s.kind <;> simp_all [paramStyle, elementName, Item.node]
  · have hne : s.params.map cssNode ≠ [] := by
      simpa using hparams
    rw [node_group, hcss, groupElement, grouped_of_ne_nil hne]
    unfold symbolizerNode
    cases hk : s.kind <;> simp_all [paramStyle, elementName]
  · unfold symbolizerNode
    cases hk : s.kind <;> simp_all [paramStyle, elementName, Item.node]

section
variable {zooms : List Float} {style : String} {index : Nat}

/-- A reference is read as the bound that its threshold defines. -/
theorem node_thresholdItems {kind : Threshold.Kind} {zoom : Option Nat} {items : List Item}
    (h : thresholdItems (Threshold.table zooms) style index kind zoom = .ok items) (depth : Nat) :
    items.map (Item.node (entities (Threshold.table zooms)) depth) =
      boundNodes kind.element (zoom.bind (fun m => zooms[m + kind.offset]?)) := by
  obtain ⟨rfl, rfl⟩ | ⟨m, t, rfl, ht, rfl⟩ := thresholdItems_cases h
  · rfl
  · obtain ⟨hmem, rfl, rfl⟩ := Threshold.of_find? ht
    have hdenominator := (Threshold.of_mem_table hmem).1
    rw [Option.bind_some, hdenominator, List.map_singleton, Item.node, referenced?_name hmem]
    simp only [boundNodes, textElement, Threshold.node, textNode_toList]

theorem bounded_of_thresholdItems {kind : Threshold.Kind} {zoom : Option Nat} {items : List Item}
    (h : thresholdItems (Threshold.table zooms) style index kind zoom = .ok items) :
    ∀ m, zoom = some m → kind.offset ≤ m ∧ m + 1 < zooms.length := by
  intro m hm
  obtain ⟨rfl, rfl⟩ | ⟨z, t, rfl, ht, rfl⟩ := thresholdItems_cases h
  · cases hm
  · obtain rfl := Option.some.inj hm
    obtain ⟨hmem, rfl, rfl⟩ := Threshold.of_find? ht
    have hindex := (Threshold.of_mem_table hmem).2
    exact ⟨hindex.2, hindex.1⟩

theorem node_ruleItem {r : Rule} {i : Item}
    (h : ruleItem (Threshold.table zooms) style index r = .ok i) :
    i.node (entities (Threshold.table zooms)) 2 = ruleNode zooms r := by
  obtain ⟨upper, lower, symbolizers, hu, hl, hs, rfl⟩ := ruleItem_ok h
  have hfilter : (filterItems r.filter).map (Item.node (entities (Threshold.table zooms)) 3) =
      filterNodes r.filter := by
    cases r.filter with
    | none => rfl
    | some text => exact congrArg (fun n => [n]) (node_field _ _ _ _ _)
  have hsymbolizers : symbolizers.map (Item.node (entities (Threshold.table zooms)) 3) =
      r.symbolizers.map symbolizerNode :=
    map_eq_of_mapM hs (fun s i hi => node_symbolizerItem hi _ _)
  have hupper := node_thresholdItems hu 3
  have hlower := node_thresholdItems hl 3
  rw [node_group, List.map_append, List.map_append, List.map_append, hfilter, hsymbolizers, hupper,
    hlower]
  rfl

theorem bounded_of_ruleItem {r : Rule} {i : Item}
    (h : ruleItem (Threshold.table zooms) style index r = .ok i) : r.Bounded zooms := by
  obtain ⟨upper, lower, symbolizers, hu, hl, -, -⟩ := ruleItem_ok h
  exact ⟨fun m hm => (bounded_of_thresholdItems hu m hm).2, bounded_of_thresholdItems hl⟩

theorem node_ruleItems {rules : List Rule} {items : List Item}
    (h : ruleItems (Threshold.table zooms) style index rules = .ok items) :
    items.map (Item.node (entities (Threshold.table zooms)) 2) = rules.map (ruleNode zooms) ∧
      ∀ r ∈ rules, r.Bounded zooms := by
  have hall := ruleItems_ok h
  clear h
  induction hall with
  | nil => simp
  | cons hi _ ih =>
    obtain ⟨index, hi⟩ := hi
    refine ⟨?_, List.forall_mem_cons.2 ⟨bounded_of_ruleItem hi, ih.2⟩⟩
    rw [List.map_cons, List.map_cons, node_ruleItem hi, ih.1]

theorem node_styleItem {s : Style} {i : Item} (h : styleItem (Threshold.table zooms) s = .ok i) :
    i.node (entities (Threshold.table zooms)) 1 = styleNode zooms s ∧
      ∀ r ∈ s.rules, r.Bounded zooms := by
  obtain ⟨rules, hr, rfl⟩ := styleItem_ok h
  obtain ⟨hnodes, hbounded⟩ := node_ruleItems hr
  rw [node_group, hnodes]
  exact ⟨rfl, hbounded⟩

end

/-- Reading back a document gives all that it was compiled of, and nothing else: the elements with
their texts, the bounds of the rules, and from their texts the denominators and ports. -/
theorem read_compile {styles : List Style} {zooms : List Float} {layers : List Layer}
    {srs background : String} {document : MapDocument} (hs : ∀ s ∈ styles, s.Legal)
    (hl : ∀ l ∈ layers, l.Legal) (hsrs : Xml.Legal srs.toList)
    (hbackground : Xml.Legal background.toList)
    (h : (compile styles zooms layers srs background).2 = .ok document) :
    Xml.read document.text = some (mapNode styles zooms layers srs background) ∧
      (∀ s ∈ styles, ∀ r ∈ s.rules, r.Bounded zooms) ∧
      (∀ z ∈ zooms, Decimal.float? (Decimal.plainText z).toList = some z) ∧
      ∀ l ∈ layers, ∀ d, l.source = .database d →
        Text.digits? (Text.nat d.port).toList = some d.port := by
  have hclean := compile_clean hs hl hsrs hbackground h
  obtain ⟨root, hroot, rfl⟩ := compile_ok h
  have hsound := mapItem_sound hs hl hsrs hbackground hroot
  obtain ⟨drawn, hd, rfl⟩ := mapItem_ok hroot
  rw [String.toList_ofList] at hclean
  have hlayers : (layers.map layerItem).map (Item.node (entities (Threshold.table zooms)) 1) =
      layers.map layerNode := by
    rw [List.map_map]
    exact List.map_congr_left (fun l _ => node_layerItem _ _ l)
  have hdrawn : drawn.map (Item.node (entities (Threshold.table zooms)) 1) =
      styles.map (styleNode zooms) :=
    map_eq_of_mapM hd (fun s i hi => (node_styleItem hi).1)
  have hport (d : Layer.Database) : Text.digits? (Text.nat d.port).toList = some d.port := by
    rw [Text.nat, String.toList_ofList, Text.digits?_ofNat]
  refine ⟨?_, fun s hmem => ?_, fun z _ => Decimal.float?_plainText z, fun _ _ d _ => hport d⟩
  · rw [read_layout hsound hclean, node_group, List.map_append, hlayers, hdrawn]
    rfl
  · obtain ⟨i, hi⟩ := exists_of_mapM hd hmem
    exact (node_styleItem hi).2

/-- A style with markup, a tab and a line feed in its texts, and a rule that says nothing. -/
def streets : Style :=
  ⟨"streets & paths",
    [⟨some "[lanes] > 1\n", some 1, some 0,
      [⟨.line, [("stroke", "red"), ("stroke-width", "")]⟩, ⟨.text, [("name", "a\t\"b\"")]⟩,
       ⟨.polygon, []⟩]⟩,
     ⟨none, none, none, []⟩]⟩

def streetLayer : Layer := ⟨"l<1>", "streets & paths", "x", .on, .file ⟨"shape", "it's.shp"⟩⟩

def stopLayer : Layer :=
  ⟨"stops", "stops", "", .off,
    .database ⟨"postgis", "db", 5432, "gis", "me", "\"p&w\"", true, "(select 1 < 2)"⟩⟩

theorem read_compile_streets : ∃ document,
    (compile [streets] [4, 2, 1] [streetLayer, stopLayer] "x" "white").2 = .ok document ∧
    Xml.read document.text =
      some (mapNode [streets] [4, 2, 1] [streetLayer, stopLayer] "x" "white") ∧
    (∀ s ∈ [streets], ∀ r ∈ s.rules, r.Bounded [4, 2, 1]) ∧
    (∀ z ∈ [(4 : Float), 2, 1], Decimal.float? (Decimal.plainText z).toList = some z) ∧
    ∀ l ∈ [streetLayer, stopLayer], ∀ d, l.source = .database d →
      Text.digits? (Text.nat d.port).toList = some d.port := by
  have hrule : ∀ r ∈ streets.rules, r.Legal := by
    intro r hr
    simp only [streets, List.mem_cons, List.not_mem_nil, or_false] at hr
    obtain rfl | rfl := hr
    · refine ⟨fun text ht => ?_, by simp only [Symbolizer.Legal]; decide⟩
      obtain rfl := Option.some.inj ht
      decide
    · exact ⟨by simp, by simp⟩
  have hstyle : ∀ s ∈ [streets], s.Legal := List.forall_mem_singleton.2 ⟨by decide, hrule⟩
  have hlayer : ∀ l ∈ [streetLayer, stopLayer], l.Legal :=
    List.forall_mem_cons.2 ⟨⟨by decide, by decide, by decide, by decide⟩,
      List.forall_mem_singleton.2 ⟨by decide, by decide, by decide, by decide⟩⟩
  obtain ⟨document, hd⟩ : ∃ document,
      (compile [streets] [4, 2, 1] [streetLayer, stopLayer] "x" "white").2 = .ok document := ⟨_, rfl⟩
  exact ⟨document, hd, read_compile hstyle hlayer (by decide) (by decide) hd⟩

end MapDocument
end StyledMap
