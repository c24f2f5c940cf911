import StyledMap.Proofs.MapDocument.Prolog
import StyledMap.Proofs.MapDocument.Writing
import StyledMap.Proofs.Xml.Nesting

/-! The elements of a map document inside each other. Whatever the texts of a map are, all names in its
document are names, so that every call of the compiler writes one line, and what it opens it closes. -/
namespace StyledMap.MapDocument
open Steps
open Xml (Item Whole Orderly tagEnd)

theorem symbolizerItem_named {s : Symbolizer} {i : Item} (h : symbolizerItem s = .ok i) : i.Named := by
  have hname := isName_elementName s.kind
  obtain ⟨-, -, rfl⟩ | ⟨-, -, rfl⟩ | ⟨-, hnames, -, rfl⟩ := symbolizerItem_cases h
  · exact .bare hname (by simp)
  · refine .group hname (by simp) (fun i hi => ?_)
    obtain ⟨p, -, rfl⟩ := List.mem_map.1 hi
    exact .field (by decide) (by simp; decide)
  · exact .bare hname hnames

theorem thresholdItems_named {table : List Threshold} {style : String} {index : Nat}
    {kind : Threshold.Kind} {zoom : Option Nat} {items : List Item}
    (h : thresholdItems table style index kind zoom = .ok items) : ∀ i ∈ items, i.Named := by
  obtain ⟨-, rfl⟩ | ⟨z, t, -, -, rfl⟩ := thresholdItems_cases h
  · simp
  · exact List.forall_mem_singleton.2 (.reference (Threshold.isName_nameOf t.kind t.zoom))

theorem filterItems_named (filter : Option String) : ∀ i ∈ filterItems filter, i.Named := by
  cases filter with
  | none => simp [filterItems]
  | some text => exact List.forall_mem_singleton.2 (.field (by decide) (by simp))

section
variable {table : List Threshold}

theorem ruleItem_named {style : String} {index : Nat} {r : Rule} {i : Item}
    (h : ruleItem table style index r = .ok i) : i.Named := by
  obtain ⟨upper, lower, symbolizers, hu, hl, hs, rfl⟩ := ruleItem_ok h
  have hsymbolizers : ∀ i ∈ symbolizers, i.Named :=
    forall_of_mapM hs (fun _ _ _ => symbolizerItem_named)
  refine .group (by decide) (by simp) ?_
  simp only [List.forall_mem_append]
  exact ⟨filterItems_named r.filter, thresholdItems_named hu, thresholdItems_named hl, hsymbolizers⟩

theorem ruleItems_named {style : String} {index : Nat} {rules : List Rule} {items : List Item}
    (h : ruleItems table style index rules = .ok items) : ∀ i ∈ items, i.Named := by
  have hall := ruleItems_ok h
  clear h
  induction hall with
  | nil => simp
  | cons hi _ ih =>
    obtain ⟨index, hi⟩ := hi
    exact List.forall_mem_cons.2 ⟨ruleItem_named hi, ih⟩

theorem styleItem_named {s : Style} {i : Item} (h : styleItem table s = .ok i) : i.Named := by
  obtain ⟨rules, hr, rfl⟩ := styleItem_ok h
  exact .group (by decide) (by simp; decide) (ruleItems_named hr)

end

theorem layerItem_named (l : Layer) : (layerItem l).Named := by
  have hparams : ∀ i ∈ (sourceParams l.source).map sourceParamItem, i.Named := by
    intro i hi
    obtain ⟨p, -, rfl⟩ := List.mem_map.1 hi
    exact .field (by decide) (by simp; decide)
  refine .group (by decide) (by simp; decide) ?_
  simp only [List.forall_mem_cons]
  exact ⟨.field (by decide) (by simp), .group (by decide) (by simp) hparams, by simp⟩

theorem mapItem_named {table : List Threshold} {styles : List Style} {layers : List Layer}
    {srs background : String} {i : Item} (h : mapItem table styles layers srs background = .ok i) :
    i.Named := by
  obtain ⟨drawn, hd, rfl⟩ := mapItem_ok h
  have hdrawn : ∀ i ∈ drawn, i.Named := forall_of_mapM hd (fun _ _ _ => styleItem_named)
  refine .group (by decide) (by simp; decide) ?_
  rw [List.forall_mem_append]
  refine ⟨fun i hi => ?_, hdrawn⟩
  obtain ⟨l, -, rfl⟩ := List.mem_map.1 hi
  exact layerItem_named l

/-- Declarations open nothing. -/
theorem whole_declarations (table : List Threshold) : Whole (declarations table) := by
  have hentities : Whole (table.map entityLine) := by
    induction table with
    | nil => exact .nil
    | cons t ts ih => exact (Whole.line _).append ih
  unfold declarations
  split
  · exact .nil
  · exact (Whole.line _).append (hentities.append (.line _))

theorem lineEnd_not_mem_declarations (table : List Threshold) :
    ∀ m ∈ declarations table, '\n' ∉ m.text := by
  have hescaped := Xml.not_mem_escape (show '\n' ∈ Xml.replaced by decide)
  have hentity : ∀ t ∈ table, '\n' ∉ (entityLine t).text := by
    intro t _
    have hname := Xml.lineEnd_not_mem_of_isName (Threshold.isName_nameOf t.kind t.zoom)
    have helement := Xml.lineEnd_not_mem_of_isName (isName_element t.kind)
    have hdefinition : '\n' ∉ t.definition.toList := by
      rw [definition_toList]
      simp [Xml.tagStart, tagEnd, helement, hescaped]
    simp [entityLine, Xml.Mark.text, Threshold.name, hname, hdefinition]
  have hopen : '\n' ∉ "<!DOCTYPE Map [".toList := by decide
  have hclose : '\n' ∉ "]>".toList := by decide
  exact forall_declarations hopen hentity hclose

/-- All calls for a document, the declaration in front included. -/
theorem marks_orderly (table : List Threshold) {root : Item} (h : root.Named) :
    Orderly (marks table root) (Xml.layout 0 (marks table root)) := by
  have hdeclaration : '\n' ∉ declaration := by decide
  refine Whole.orderly ((Whole.line declaration).append ((whole_declarations table).append h.whole)) ?_
  simp only [marks, List.forall_mem_cons, List.forall_mem_append]
  exact ⟨hdeclaration, lineEnd_not_mem_declarations table, h.lined.lineEnd_not_mem⟩

/-- The calls of a run that succeeds are the marks of the document, in order. -/
theorem run_document_calls {table : List Threshold} {styles : List Style} {layers : List Layer}
    {srs background : String} {root : Item}
    (h : mapItem table styles layers srs background = .ok root) :
    Writing.run (Writing.document table styles layers srs background) .blank =
      (.ok (), ⟨⟨Xml.layout 0 (marks table root), 0⟩, dangling styles layers, marks table root⟩) := by
  have hwrites := Writing.writes_map table styles layers srs background
  rw [h] at hwrites
  rw [Writing.run_document, hwrites, layout_marks]
  simp [Draft.add, Xml.Writer.add, Item.allMarks, marks]

/-- Whatever texts a map has, writing its document line by line makes calls that are in order: those for
the declaration and the thresholds first, then one for each tag and each line of the map. -/
theorem compile_orderly {styles : List Style} {zooms : List Float} {layers : List Layer}
    {srs background : String} {document : MapDocument}
    (h : (compile styles zooms layers srs background).2 = .ok document) :
    ∃ root, mapItem (Threshold.table zooms) styles layers srs background = .ok root ∧
      Writing.run (Writing.document (Threshold.table zooms) styles layers srs background) .blank =
        (.ok (), ⟨⟨document.text.toList, 0⟩, dangling styles layers,
          marks (Threshold.table zooms) root⟩) ∧
      Orderly (marks (Threshold.table zooms) root) document.text.toList := by
  obtain ⟨root, hroot, rfl⟩ := compile_ok h
  rw [String.toList_ofList]
  exact ⟨root, hroot, run_document_calls hroot, marks_orderly _ (mapItem_named hroot)⟩

/-- A style with line ends in its name, its filter and its parameters. -/
def twoLines : Style :=
  ⟨"two\nlines",
    [⟨some "[a] =\n1", some 1, some 0,
      [⟨.line, [("stroke\n", "\n")]⟩, ⟨.polygon, []⟩, ⟨.text, [("name", "a\nb")]⟩]⟩]⟩

def twoLinesLayer : Layer := ⟨"l\n1", "two\nlines", "\n", .on, .file ⟨"shape", "a\nb.shp"⟩⟩

theorem compile_orderly_twoLines : ∃ document d,
    (compile [twoLines] [4, 2, 1] [twoLinesLayer] "x\n" "white").2 = .ok document ∧
    Writing.run (Writing.document (Threshold.table [4, 2, 1]) [twoLines] [twoLinesLayer] "x\n" "white")
      .blank = (.ok (), d) ∧
    Orderly d.calls document.text.toList := by
  obtain ⟨document, hd⟩ : ∃ document,
      (compile [twoLines] [4, 2, 1] [twoLinesLayer] "x\n" "white").2 = .ok document := ⟨_, rfl⟩
  obtain ⟨root, -, hrun, horderly⟩ := compile_orderly hd
  exact ⟨document, _, hd, hrun, horderly⟩

end StyledMap.MapDocument
