import StyledMap.Proofs.MapDocument.Faults
import StyledMap.Proofs.MapDocument.Prolog
import StyledMap.Proofs.Xml.Mentions

/-! The entities of a document. It declares the thresholds of its table, each once and in the order of
the table, and then refers to those that bound its rules. What the drawing and the sources are called
adds nothing: escaped, it can neither declare nor refer. -/
namespace StyledMap

/-- The declaration that the document makes of a threshold. -/
def Threshold.mention (t : Threshold) : Xml.Mention := .declares t.name t.definition

/-- The references that a rule makes, to what bounds it from above and then from below. -/
def Rule.mentions (r : Rule) : List Xml.Mention :=
  (r.maxzoom.map fun zoom => .refers (Threshold.nameOf .maxScale zoom)).toList ++
    (r.minzoom.map fun zoom => .refers (Threshold.nameOf .minScale zoom)).toList

def Style.mentions (s : Style) : List Xml.Mention := s.rules.flatMap Rule.mentions

namespace MapDocument
open Steps Xml

theorem symbolizerItem_silent {s : Symbolizer} {i : Item} (h : symbolizerItem s = .ok i) :
    ItemsSay [i] [] := by
  have hname := isName_elementName s.kind
  obtain ⟨-, -, rfl⟩ | ⟨-, -, rfl⟩ | ⟨-, hnames, -, rfl⟩ := symbolizerItem_cases h
  · exact itemsSay_bare hname (by simp)
  · refine ItemsSay.group hname (by simp) (itemsSay_silent ?_)
    rw [List.forall_mem_map]
    exact fun p _ => itemsSay_field (by decide) (by simp; decide) p.2
  · exact itemsSay_bare hname hnames

theorem thresholdItems_refers {table : List Threshold} {style : String} {index : Nat}
    {kind : Threshold.Kind} {zoom : Option Nat} {items : List Item}
    (h : thresholdItems table style index kind zoom = .ok items) :
    ItemsSay items (zoom.map fun zoom => .refers (Threshold.nameOf kind zoom)).toList := by
  obtain ⟨rfl, rfl⟩ | ⟨zoom, t, rfl, ht, rfl⟩ := thresholdItems_cases h
  · exact itemsSay_nil
  · obtain ⟨-, rfl, rfl⟩ := Threshold.of_find? ht
    exact itemsSay_reference (Threshold.isName_nameOf t.kind t.zoom)
      (character?_nameOf t.kind t.zoom)

theorem filterItems_silent (filter : Option String) : ItemsSay (filterItems filter) [] := by
  cases filter with
  | none => exact itemsSay_nil
  | some text => exact itemsSay_field (by decide) (by simp) text

section
variable {table : List Threshold}

theorem ruleItem_refers {style : String} {index : Nat} {r : Rule} {i : Item}
    (h : ruleItem table style index r = .ok i) : ItemsSay [i] r.mentions := by
  obtain ⟨upper, lower, symbolizers, hu, hl, hs, rfl⟩ := ruleItem_ok h
  have hsymbolizers : ItemsSay symbolizers [] :=
    itemsSay_silent (forall_of_mapM hs fun _ _ _ hi => symbolizerItem_silent hi)
  have hlower := (thresholdItems_refers hl).append hsymbolizers
  rw [List.append_nil] at hlower
  have hitems := (filterItems_silent r.filter).append ((thresholdItems_refers hu).append hlower)
  exact ItemsSay.group (by decide) (by simp) hitems

theorem styleItem_refers {s : Style} {i : Item} (h : styleItem table s = .ok i) :
    ItemsSay [i] s.mentions := by
  obtain ⟨rules, hr, rfl⟩ := styleItem_ok h
  have hrules := (ruleItems_ok hr).imp fun _ _ hi => ruleItem_refers hi.choose_spec
  exact ItemsSay.group (by decide) (by simp; decide) (ItemsSay.flatMap hrules)

end

theorem layerItem_silent (l : Layer) : ItemsSay [layerItem l] [] := by
  have hparams : ItemsSay ((sourceParams l.source).map sourceParamItem) [] := by
    refine itemsSay_silent ?_
    rw [List.forall_mem_map]
    exact fun p _ => itemsSay_field (by decide) (by simp; decide) p.2
  have hstyle : ItemsSay [.field "StyleName" [] l.style] [] :=
    itemsSay_field (by decide) (by simp) l.style
  have hsource : ItemsSay [.group "Datasource" [] ((sourceParams l.source).map sourceParamItem)] [] :=
    ItemsSay.group (by decide) (by simp) hparams
  exact ItemsSay.group (by decide) (by simp; decide) (hstyle.append hsource)

theorem mapItem_refers {table : List Threshold} {styles : List Style} {layers : List Layer}
    {srs background : String} {i : Item} (h : mapItem table styles layers srs background = .ok i) :
    ItemsSay [i] (styles.flatMap Style.mentions) := by
  obtain ⟨drawn, hd, rfl⟩ := mapItem_ok h
  have hlayers : ItemsSay (layers.map layerItem) [] := by
    refine itemsSay_silent ?_
    rw [List.forall_mem_map]
    exact fun l _ => layerItem_silent l
  have hdrawn := ItemsSay.flatMap ((mapM_eq_ok.1 hd).imp fun _ _ hi => styleItem_refers hi)
  exact ItemsSay.group (by decide) (by simp; decide) (hlayers.append hdrawn)

theorem says_definition (t : Threshold) : Says t.definition.toList [] := by
  have hname := isName_element t.kind
  have hend : Says ['>'] [] := says_plain (by decide)
  rw [definition_toList]
  exact (says_tagStart hname (by simp)).before (hend.before ((says_escape _).before (says_tagEnd hname)))

theorem says_entityLine (t : Threshold) : Says (entityLine t).text [t.mention] := by
  have hname : ∀ c ∈ t.name.toList, c ≠ ' ' := fun c hc =>
    (isNameChar_not_mem (isNameChar_of_isName (Threshold.isName_nameOf t.kind t.zoom) c hc)).2.2.1
  have hvalue : ∀ c ∈ t.definition.toList, c ≠ '\"' := fun c hc => (definition_chars t c hc).1
  have hdeclared (rest : List Char) :
      declared? (entityMark ++ (t.name.toList ++ ' ' :: '\"' ::
        (t.definition.toList ++ '\"' :: '>' :: rest))) = some t.mention := by
    have hprefix (ds : List Char) : entityMark.isPrefixOf (entityMark ++ ds) = true :=
      List.isPrefixOf_iff_prefix.2 (List.prefix_append _ _)
    obtain ⟨hword, hbehind⟩ := takeWhile_ne_append hname
      ('\"' :: (t.definition.toList ++ '\"' :: '>' :: rest))
    obtain ⟨hquoted, -⟩ := takeWhile_ne_append hvalue ('>' :: rest)
    rw [declared?, hprefix, List.drop_left]
    simp [hword, hbehind, hquoted, Threshold.mention]
  have hbehind : Says (entityMark ++ (t.name.toList ++ ' ' :: '\"' ::
      (t.definition.toList ++ ['\"', '>']))) [] := by
    have hmark : Says entityMark [] := says_plain (by decide)
    have hopen : Says [' ', '\"'] [] := says_plain (by decide)
    have hclose : Says ['\"', '>'] [] := says_plain (by decide)
    have hquoted := hopen.before ((says_definition t).before hclose)
    exact hmark.before ((says_name (Threshold.isName_nameOf t.kind t.zoom)).before hquoted)
  have htext : (entityLine t).text = '<' :: (entityMark ++ (t.name.toList ++ ' ' :: '\"' ::
      (t.definition.toList ++ ['\"', '>']))) := by
    have hopen : "<!ENTITY ".toList = '<' :: entityMark := by decide
    rw [entityLine, Mark.text, hopen, List.cons_append]
  intro rest
  have hrest := hbehind rest
  simp only [List.append_assoc, List.cons_append, List.nil_append] at hrest
  rw [htext]
  simp [mentions, hdeclared, hrest]

/-- A document declares its table in front of all else. -/
theorem says_declarations (table : List Threshold) {ms : List Mark} {ns : List Mention}
    (h : Says (layout 0 ms) ns) :
    Says (layout 0 (declarations table ++ ms)) (table.map Threshold.mention ++ ns) := by
  have hentities : Says (layout 0 (table.map entityLine ++ .line "]>".toList :: ms))
      (table.map Threshold.mention ++ ns) := by
    induction table with
    | nil =>
      have hclose : Says (line 0 "]>".toList) [] := says_plain (by decide)
      exact hclose.before h
    | cons t ts ih => exact ((says_entityLine t).line 0).append ih
  unfold declarations
  split
  · rename_i hempty
    rw [List.isEmpty_iff.1 hempty]
    exact h
  · have hopen : Says (line 0 "<!DOCTYPE Map [".toList) [] := fun _ => rfl
    have hall := hopen.before hentities
    simpa [layout] using hall

/-- A document declares its whole table first and then refers to the thresholds of its rules. -/
theorem mentions_compile {styles : List Style} {zooms : List Float} {layers : List Layer}
    {srs background : String} {document : MapDocument}
    (h : (compile styles zooms layers srs background).2 = .ok document) :
    Xml.mentions document.text.toList =
      (Threshold.table zooms).map Threshold.mention ++ styles.flatMap Style.mentions := by
  obtain ⟨root, hroot, rfl⟩ := compile_ok h
  have hdeclaration : Says (line 0 declaration) [] := fun _ => rfl
  have hroot : Says (layout 0 root.marks) (styles.flatMap Style.mentions) := by
    have hitems := mapItem_refers hroot 0
    rwa [Item.allMarks, Item.allMarks, List.append_nil] at hitems
  rw [String.toList_ofList]
  exact (hdeclaration.before (says_declarations _ hroot)).mentions_eq

/-- Rules refer to what bounds them and to nothing else. -/
theorem refers_of_mem {styles : List Style} {m : Mention} (h : m ∈ styles.flatMap Style.mentions) :
    ∃ s ∈ styles, ∃ r ∈ s.rules,
      (∃ zoom, r.maxzoom = some zoom ∧ m = .refers (Threshold.nameOf .maxScale zoom)) ∨
      ∃ zoom, r.minzoom = some zoom ∧ m = .refers (Threshold.nameOf .minScale zoom) := by
  obtain ⟨s, hs, h⟩ := List.mem_flatMap.1 h
  obtain ⟨r, hr, h⟩ := List.mem_flatMap.1 h
  simp only [Rule.mentions, List.mem_append, Option.mem_toList, Option.map_eq_some_iff] at h
  obtain ⟨zoom, hzoom, rfl⟩ | ⟨zoom, hzoom, rfl⟩ := h
  · exact ⟨s, hs, r, hr, .inl ⟨zoom, hzoom, rfl⟩⟩
  · exact ⟨s, hs, r, hr, .inr ⟨zoom, hzoom, rfl⟩⟩

theorem filterMap_declared (zooms : List Float) (styles : List Style) :
    ((Threshold.table zooms).map Threshold.mention ++ styles.flatMap Style.mentions).filterMap
      Mention.declared? = (Threshold.table zooms).map Threshold.name := by
  have hreferences : (styles.flatMap Style.mentions).filterMap Mention.declared? = [] := by
    rw [List.filterMap_eq_nil_iff]
    intro m hm
    obtain ⟨s, -, r, -, ⟨zoom, -, rfl⟩ | ⟨zoom, -, rfl⟩⟩ := refers_of_mem hm <;> rfl
  have hdeclared : Mention.declared? ∘ Threshold.mention = some ∘ Threshold.name := rfl
  rw [List.filterMap_append, hreferences, List.append_nil, List.filterMap_map, hdeclared,
    List.filterMap_eq_map]

/-- What a document refers to, its table holds. -/
theorem mem_table_of_refers {styles : List Style} {zooms : List Float} {layers : List Layer}
    {srs background : String} {document : MapDocument}
    (h : (compile styles zooms layers srs background).2 = .ok document) {name : String}
    (hn : .refers name ∈ Xml.mentions document.text.toList) :
    name ∈ (Threshold.table zooms).map Threshold.name := by
  have hnone := faults_eq_nil.1 ((compile_reports styles zooms layers srs background).ok_iff.1 ⟨_, h⟩)
  rw [mentions_compile h, List.mem_append] at hn
  obtain hn | hn := hn
  · obtain ⟨t, -, ht⟩ := List.mem_map.1 hn
    cases ht
  · obtain ⟨s, hs, r, hr, hbound⟩ := refers_of_mem hn
    have hsound : ¬ r.Faulty zooms.length := fun hf => hnone ⟨s, hs, r, hr, hf⟩
    obtain ⟨zoom, hzoom, hname⟩ | ⟨zoom, hzoom, hname⟩ := hbound
    · have hlt : zoom + 1 < zooms.length :=
        of_not_not fun hn => hsound (.inl ⟨zoom, hzoom, hn⟩)
      rw [Mention.refers.inj hname]
      exact Threshold.nameOf_mem_table (Nat.zero_le _) hlt
    · have hbounds : 1 ≤ zoom ∧ zoom + 1 < zooms.length :=
        of_not_not fun hn => hsound (.inr (.inl ⟨zoom, hzoom, hn⟩))
      rw [Mention.refers.inj hname]
      exact Threshold.nameOf_mem_table hbounds.1 hbounds.2

/-- The denominators make these thresholds and no others, all under names of their own. A document
declares them in the order of the table before it refers to any, and it refers to none that it does not
declare exactly once. -/
theorem thresholds_declared_once (zooms : List Float) :
    (∀ zoom, Threshold.find? (Threshold.table zooms) .maxScale zoom =
      if h : zoom + 1 < zooms.length then some ⟨.maxScale, zoom, zooms[zoom]⟩ else none) ∧
    (∀ zoom, Threshold.find? (Threshold.table zooms) .minScale zoom =
      if h : 1 ≤ zoom ∧ zoom + 1 < zooms.length then some ⟨.minScale, zoom, zooms[zoom + 1]⟩
      else none) ∧
    (Threshold.table zooms).map (fun t => (t.kind, t.zoom)) =
      (List.range (zooms.length - 1)).map (fun zoom => (.maxScale, zoom)) ++
        (List.range' 1 (zooms.length - 2)).map (fun zoom => (.minScale, zoom)) ∧
    (Threshold.table zooms).length = (zooms.length - 1) + (zooms.length - 2) ∧
    ((Threshold.table zooms).map Threshold.name).Nodup ∧
    Xml.mentions (layout 0 (declarations (Threshold.table zooms))) =
      (Threshold.table zooms).map Threshold.mention ∧
    ∀ styles layers srs background document,
      (compile styles zooms layers srs background).2 = .ok document →
        Xml.mentions document.text.toList =
          (Threshold.table zooms).map Threshold.mention ++ styles.flatMap Style.mentions ∧
        ∀ name, .refers name ∈ Xml.mentions document.text.toList →
          ((Xml.mentions document.text.toList).filterMap Mention.declared?).count name = 1 := by
  have hnames := Threshold.names_nodup zooms
  refine ⟨fun zoom => ?_, fun zoom => ?_, Threshold.keys_table zooms, Threshold.length_table zooms,
    hnames, ?_, fun styles layers srs background document h => ⟨mentions_compile h, fun name hn => ?_⟩⟩
  · rw [Threshold.find?_table]
    by_cases hlt : zoom + 1 < zooms.length
    · have hindex : zoom < zooms.length := Nat.lt_of_succ_lt hlt
      simp [Threshold.Kind.offset, hlt, hindex]
    · simp [hlt]
  · rw [Threshold.find?_table]
    by_cases hbounds : 1 ≤ zoom ∧ zoom + 1 < zooms.length
    · rw [dif_pos hbounds]
      exact (if_pos hbounds).trans (congrArg _ (List.getElem?_eq_getElem hbounds.2))
    · rw [dif_neg hbounds]
      exact if_neg hbounds
  · have hnothing : Says (layout 0 []) [] := says_nil
    have hsubset := (says_declarations (Threshold.table zooms) hnothing).mentions_eq
    rwa [List.append_nil, List.append_nil] at hsubset
  · have hmem := mem_table_of_refers h hn
    rw [mentions_compile h, filterMap_declared]
    exact List.count_eq_one_of_mem hnames hmem

/-- A style whose one rule is bounded on both sides. -/
def boundedStyles : List Style := [⟨"roads", [⟨none, some 1, some 1, []⟩]⟩]

theorem thresholds_declared_once_bounded :
    ∃ document, (compile boundedStyles [8, 4, 2, 1] [] "" "").2 = .ok document ∧
      .refers "minscale_zoom1" ∈ Xml.mentions document.text.toList ∧
      ((Xml.mentions document.text.toList).filterMap Mention.declared?).count "minscale_zoom1" = 1 := by
  have hnone : faults 4 boundedStyles = [] := by decide
  obtain ⟨document, h⟩ := (compile_reports boundedStyles [8, 4, 2, 1] [] "" "").ok_iff.2 hnone
  obtain ⟨hmentions, hcount⟩ :=
    (thresholds_declared_once [8, 4, 2, 1]).2.2.2.2.2.2 boundedStyles [] "" "" document h
  have hmem : .refers "minscale_zoom1" ∈ Xml.mentions document.text.toList := by
    rw [hmentions]
    exact List.mem_append_right _ (by decide +kernel)
  exact ⟨document, h, hmem, hcount "minscale_zoom1" hmem⟩

end MapDocument
end StyledMap
