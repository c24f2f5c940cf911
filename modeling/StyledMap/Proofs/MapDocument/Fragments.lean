import StyledMap.Proofs.MapDocument.Nesting

/-! Symbolizers on their own and inside a document. The fragment of a symbolizer stands in every rule
that has it, line by line and moved in; one that has no fragment leaves nothing behind. -/
namespace StyledMap.MapDocument
open Steps
open Xml (Item Writer tagStart spaced indented)

theorem fragment_eq (s : Symbolizer) : fragment s = (symbolizerItem s).map Item.text := by
  unfold fragment
  cases symbolizerItem s <;> rfl

/-- A symbolizer written to an empty text. -/
def emitted (s : Symbolizer) : Except Fault String :=
  match Writing.run (Writing.symbolizer s) .blank with
  | (.ok _, d) => .ok (String.ofList d.writer.text)
  | (.error f, _) => .error f

theorem emitted_eq (s : Symbolizer) : emitted s = fragment s := by
  rw [emitted, Writing.run_symbolizer, fragment_eq]
  cases symbolizerItem s with
  | error f => rfl
  | ok i => simp [Draft.blank, Draft.add, Writer.add, Item.allMarks, Item.text, Except.map]

/-- What a fragment adds to a text that has some groups open, and that it adds nothing else. -/
theorem run_symbolizer_fragment (s : Symbolizer) (d : Draft) :
    match fragment s with
    | .ok t => ∃ calls, Writing.run (Writing.symbolizer s) d =
        (.ok (), ⟨⟨d.writer.text ++ indented (2 * d.writer.depth) t.toList, d.writer.depth⟩, d.notices,
          d.calls ++ calls⟩)
    | .error f => Writing.run (Writing.symbolizer s) d = (.error f, d) := by
  rw [Writing.run_symbolizer, fragment_eq]
  cases hs : symbolizerItem s with
  | error f => rfl
  | ok i =>
    refine ⟨i.marks, ?_⟩
    simp [Draft.add, Writer.add, Item.allMarks, (symbolizerItem_named hs).lined.layout_marks]

/-- The fragment of a symbolizer inside a rule. -/
def symbolizerLines (s : Symbolizer) : List Char :=
  match fragment s with
  | .ok t => indented 6 t.toList
  | .error _ => []

def filterLines : Option String → List Char
  | none => []
  | some text =>
    spaced 6 ("<Filter>".toList ++ (Xml.escape text.toList ++ "</Filter>".toList))

def referenceLines (table : List Threshold) (kind : Threshold.Kind) (zoom : Option Nat) : List Char :=
  match zoom.bind (Threshold.find? table kind) with
  | none => []
  | some t => spaced 6 ('&' :: (t.name.toList ++ [';']))

def ruleLines (table : List Threshold) (r : Rule) : List Char :=
  spaced 4 "<Rule>".toList ++ (filterLines r.filter ++
    (referenceLines table .maxScale r.maxzoom ++ (referenceLines table .minScale r.minzoom ++
      (r.symbolizers.flatMap symbolizerLines ++ spaced 4 "</Rule>".toList))))

def styleLines (table : List Threshold) (s : Style) : List Char :=
  spaced 2 (tagStart "Style" [("name", s.name)] ++ ['>']) ++
    (s.rules.flatMap (ruleLines table) ++ spaced 2 "</Style>".toList)

theorem layout_symbolizer {s : Symbolizer} {i : Item} (h : symbolizerItem s = .ok i) :
    Xml.layout 3 i.marks = symbolizerLines s := by
  rw [symbolizerLines, fragment_eq, h, (symbolizerItem_named h).lined.layout_marks]
  rfl

theorem layout_filter (text : Option String) :
    Xml.layout 3 (Item.allMarks (filterItems text)) = filterLines text := by
  cases text with
  | none => rfl
  | some text =>
    simp [filterItems, filterLines, Item.allMarks, Item.marks, Xml.layout, Xml.line_eq, tagStart,
      Xml.tagEnd]

theorem layout_reference {table : List Threshold} {style : String} {index : Nat}
    {kind : Threshold.Kind} {zoom : Option Nat} {items : List Item}
    (h : thresholdItems table style index kind zoom = .ok items) :
    Xml.layout 3 (Item.allMarks items) = referenceLines table kind zoom := by
  obtain ⟨rfl, rfl⟩ | ⟨z, t, rfl, ht, rfl⟩ := thresholdItems_cases h
  · rfl
  · simp [referenceLines, ht, Item.allMarks, Item.marks, Xml.layout, Xml.line_eq]

section
variable {table : List Threshold}

theorem layout_rule {style : String} {index : Nat} {r : Rule} {i : Item}
    (h : ruleItem table style index r = .ok i) : Xml.layout 2 i.marks = ruleLines table r := by
  obtain ⟨upper, lower, symbolizers, hu, hl, hs, rfl⟩ := ruleItem_ok h
  have hsymbolizers : Xml.layout 3 (Item.allMarks symbolizers) =
      r.symbolizers.flatMap symbolizerLines := by
    rw [Xml.layout_allMarks, List.flatMap_def, List.flatMap_def,
      map_eq_of_mapM hs (fun _ _ => layout_symbolizer)]
  have hitems : Xml.layout 3 (Item.allMarks (filterItems r.filter ++ (upper ++ (lower ++ symbolizers)))) =
      filterLines r.filter ++ (referenceLines table .maxScale r.maxzoom ++
        (referenceLines table .minScale r.minzoom ++ r.symbolizers.flatMap symbolizerLines)) := by
    simp only [Xml.allMarks_append, (Item.balanced_allMarks _).layout_append, layout_filter,
      layout_reference hu, layout_reference hl, hsymbolizers]
  have htags : tagStart "Rule" [] ++ ['>'] = "<Rule>".toList ∧ Xml.tagEnd "Rule" = "</Rule>".toList :=
    ⟨rfl, rfl⟩
  simp [Item.marks, Xml.layout, Xml.line_eq, (Item.balanced_allMarks _).layout_append, hitems,
    ruleLines, htags]

theorem layout_rules {style : String} {index : Nat} {rules : List Rule} {items : List Item}
    (h : ruleItems table style index rules = .ok items) :
    Xml.layout 2 (Item.allMarks items) = rules.flatMap (ruleLines table) := by
  have hall := ruleItems_ok h
  clear h
  rw [Xml.layout_allMarks]
  induction hall with
  | nil => rfl
  | cons hi _ ih =>
    obtain ⟨index, hi⟩ := hi
    rw [List.flatMap_cons, List.flatMap_cons, layout_rule hi, ih]

theorem layout_style {s : Style} {i : Item} (h : styleItem table s = .ok i) :
    Xml.layout 1 i.marks = styleLines table s := by
  obtain ⟨rules, hr, rfl⟩ := styleItem_ok h
  have htag : Xml.tagEnd "Style" = "</Style>".toList := rfl
  simp [Item.marks, Xml.layout, Xml.line_eq, (Item.balanced_allMarks _).layout_append, layout_rules hr,
    styleLines, htag]

/-- The document up to its first style: the declarations and the layers. -/
def headLines (table : List Threshold) (layers : List Layer) (srs background : String) : List Char :=
  Xml.layout 0 (.line declaration :: declarations table) ++
    (spaced 0 (tagStart "Map" [("srs", srs), ("background-color", background)] ++ ['>']) ++
      Xml.layout 1 (Item.allMarks (layers.map layerItem)))

theorem ruleItem_of_mem {style : String} {index : Nat} {rules : List Rule} {items : List Item}
    (h : ruleItems table style index rules = .ok items) {r : Rule} (hr : r ∈ rules) :
    ∃ i index, ruleItem table style index r = .ok i := by
  have hall := ruleItems_ok h
  clear h
  induction hall with
  | nil => cases hr
  | @cons _ i _ _ hi _ ih =>
    obtain rfl | hr := List.mem_cons.1 hr
    · exact ⟨i, hi⟩
    · exact ih hr

/-- Of a document that is compiled, every symbolizer has a fragment. -/
theorem fragment_of_compile {styles : List Style} {zooms : List Float} {layers : List Layer}
    {srs background : String} {document : MapDocument}
    (h : (compile styles zooms layers srs background).2 = .ok document) :
    ∀ s ∈ styles, ∀ r ∈ s.rules, ∀ m ∈ r.symbolizers, ∃ t, fragment m = .ok t := by
  intro s hs r hr m hm
  obtain ⟨root, hroot, -⟩ := compile_ok h
  obtain ⟨drawn, hd, -⟩ := mapItem_ok hroot
  obtain ⟨i, hi⟩ := exists_of_mapM hd hs
  obtain ⟨rules, hrules, -⟩ := styleItem_ok hi
  obtain ⟨i, index, hi⟩ := ruleItem_of_mem hrules hr
  obtain ⟨_, _, symbolizers, -, -, hsymbolizers, -⟩ := ruleItem_ok hi
  obtain ⟨i, hi⟩ := exists_of_mapM hsymbolizers hm
  exact ⟨i.text, by rw [fragment_eq, hi]; rfl⟩

theorem document_lines {styles : List Style} {zooms : List Float} {layers : List Layer}
    {srs background : String} {document : MapDocument}
    (h : (compile styles zooms layers srs background).2 = .ok document) :
    document.text.toList = headLines (Threshold.table zooms) layers srs background ++
      (styles.flatMap (styleLines (Threshold.table zooms)) ++ spaced 0 "</Map>".toList) := by
  obtain ⟨root, hroot, rfl⟩ := compile_ok h
  obtain ⟨drawn, hd, rfl⟩ := mapItem_ok hroot
  have hdrawn : Xml.layout 1 (Item.allMarks drawn) =
      styles.flatMap (styleLines (Threshold.table zooms)) := by
    rw [Xml.layout_allMarks, List.flatMap_def, List.flatMap_def,
      map_eq_of_mapM hd (fun _ _ => layout_style)]
  have htag : Xml.tagEnd "Map" = "</Map>".toList := rfl
  rw [String.toList_ofList, layout_marks]
  simp [Item.marks, Xml.layout, Xml.line_eq, (Item.balanced_allMarks _).layout_append,
    Xml.allMarks_append, hdrawn, headLines, htag]

end

/-- The fragment of a symbolizer is what writing it gives, to an empty text or to any other: its lines are
added as far in as the groups that are open, and their number stays. A fault is the same fault and leaves
the text as it was. So a document has the fragments of all symbolizers of a rule, one after the other and
six spaces in, between the other lines of the rule and its end. -/
theorem fragments_alone_and_inside :
    (∀ s, emitted s = fragment s) ∧
    (∀ s d, match fragment s with
      | .ok t => ∃ calls, Writing.run (Writing.symbolizer s) d =
          (.ok (), ⟨⟨d.writer.text ++ indented (2 * d.writer.depth) t.toList, d.writer.depth⟩, d.notices,
            d.calls ++ calls⟩)
      | .error f => Writing.run (Writing.symbolizer s) d = (.error f, d)) ∧
    (∀ styles zooms layers srs background, compileByLines styles zooms layers srs background =
      compile styles zooms layers srs background) ∧
    ∀ styles zooms layers srs background document,
      (compile styles zooms layers srs background).2 = .ok document →
        (∀ s ∈ styles, ∀ r ∈ s.rules, ∀ m ∈ r.symbolizers, ∃ t, fragment m = .ok t) ∧
        document.text.toList = headLines (Threshold.table zooms) layers srs background ++
          (styles.flatMap (styleLines (Threshold.table zooms)) ++ spaced 0 "</Map>".toList) :=
  ⟨emitted_eq, run_symbolizer_fragment, compileByLines_eq,
    fun _ _ _ _ _ _ h => ⟨fragment_of_compile h, document_lines h⟩⟩

/-- A rule with a fragment of several lines, one of its values with a line end, and one of a single line. -/
def outlines : Style :=
  ⟨"outlines", [⟨none, none, none,
    [⟨.line, [("stroke", "red"), ("stroke-dasharray", "4\n2")]⟩, ⟨.text, [("name", "a\tb")]⟩]⟩]⟩

theorem fragments_alone_and_inside_outlines : ∃ document,
    (compile [outlines] [] [] "x" "white").2 = .ok document ∧
    document.text.toList = headLines [] [] "x" "white" ++
      ([outlines].flatMap (styleLines []) ++ spaced 0 "</Map>".toList) := by
  obtain ⟨document, hd⟩ : ∃ document, (compile [outlines] [] [] "x" "white").2 = .ok document :=
    ⟨_, rfl⟩
  obtain ⟨-, -, -, hinside⟩ := fragments_alone_and_inside
  exact ⟨document, hd, (hinside [outlines] [] [] "x" "white" document hd).2⟩

end StyledMap.MapDocument
