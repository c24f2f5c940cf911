import StyledMap.Proofs.MapDocument.Clean
import StyledMap.Proofs.Xml.Reading

/-! Reading a document with its declarations. In front of the root stands one entity for each
threshold; the reader knows them all before it comes to the first reference. -/
namespace StyledMap

/-- What a reference to a threshold is read as. -/
def Threshold.node (t : Threshold) : Xml.Node :=
  .element t.kind.element [] (Xml.textNode (Decimal.plainText t.denominator).toList)

namespace MapDocument
open Xml

def entities (table : List Threshold) : Entities := table.map (fun t => (t.name, [.element t.node]))

theorem lookup_entities {table : List Threshold} {t : Threshold} (ht : t ∈ table)
    (h : ∀ s ∈ table, s.name = t.name → s = t) :
    (entities table).lookup t.name = some [.element t.node] := by
  induction table with
  | nil => cases ht
  | cons s ss ih =>
    rw [List.forall_mem_cons] at h
    by_cases hs : s.name = t.name
    · obtain rfl := h.1 hs
      simp [entities]
    · have hmem : t ∈ ss := by
        obtain rfl | hmem := List.mem_cons.1 ht
        · exact absurd rfl hs
        · exact hmem
      have hne : (t.name == s.name) = false := by
        simpa using fun he : t.name = s.name => hs he.symm
      have hrest := ih hmem h.2
      unfold entities at hrest ⊢
      rw [List.map_cons, List.lookup_cons, hne]
      exact hrest

/-- The names of thresholds are none of those that stand for a character. -/
theorem character?_nameOf (kind : Threshold.Kind) (zoom : Nat) :
    character? (Threshold.nameOf kind zoom).toList = none := by
  have hm : ∃ cs, (Threshold.nameOf kind zoom).toList = 'm' :: cs := by
    rw [Threshold.nameOf_toList]
    cases kind <;> simp [Threshold.Kind.text]
  obtain ⟨cs, hcs⟩ := hm
  rw [hcs]
  rfl

theorem referenced?_name {zooms : List Float} {t : Threshold} (ht : t ∈ Threshold.table zooms) :
    referenced? (entities (Threshold.table zooms)) t.name.toList = some [.element t.node] := by
  have hlookup := lookup_entities ht (fun s hs he => Threshold.eq_of_name_eq hs ht he)
  have hchar : character? t.name.toList = none := character?_nameOf t.kind t.zoom
  rw [referenced?, hchar, String.ofList_toList]
  exact hlookup

theorem declares_entities (zooms : List Float) :
    Declares (entities (Threshold.table zooms)) (entityNames (Threshold.table zooms)) where
  name := isName_entityNames _
  element := by
    intro e he
    obtain ⟨t, ht, rfl⟩ := List.mem_map.1 he
    exact ⟨t.node, referenced?_name ht, rfl⟩

/-- The number of a threshold needs no escapes, so what it stands for is a field like any other. -/
theorem definition_toList (t : Threshold) :
    t.definition.toList = tagStart t.kind.element [] ++
      '>' :: (escape (Decimal.plainText t.denominator).toList ++ tagEnd t.kind.element) := by
  have hescape : escape (Decimal.plainText t.denominator).toList =
      (Decimal.plainText t.denominator).toList := by
    have hplain : ∀ c ∈ Decimal.plainChars, escapeChar c = [c] := by decide
    have hchars := Decimal.plainText_chars t.denominator
    generalize (Decimal.plainText t.denominator).toList = cs at hchars
    induction cs with
    | nil => rfl
    | cons c cs ih =>
      rw [List.forall_mem_cons] at hchars
      rw [escape_cons, hplain c hchars.1, ih hchars.2]
      rfl
  rw [hescape]
  simp [Threshold.definition, tagStart, tagEnd]

theorem isName_element (kind : Threshold.Kind) : isName kind.element.toList = true := by
  cases kind <;> decide

theorem Reads.fillAll {entities : Entities} {cs : List Char} {ps : List Piece}
    (h : Reads entities cs ⟨[], []⟩ ⟨ps, []⟩) :
    (tokens? cs).bind (Xml.fillAll entities) = some ps := by
  obtain ⟨ts, hs, hf⟩ := h
  simp [tokens?, hs, Xml.fillAll, hf]

theorem read_definition (t : Threshold) :
    (tokens? t.definition.toList).bind (Xml.fillAll []) = some [.element t.node] := by
  have hfield : Reads [] t.definition.toList ⟨[], []⟩ ⟨[.element t.node], []⟩ := by
    rw [definition_toList]
    exact reads_field (soundTag_nil (isName_element t.kind)) _
  exact Reads.fillAll hfield

/-- A definition holds nothing that ends or changes the value of an entity. -/
theorem definition_chars (t : Threshold) :
    ∀ c ∈ t.definition.toList, (c ≠ '\"' ∧ c ≠ '&' ∧ c ≠ '%') := by
  have hnumber : ∀ c ∈ (Decimal.plainText t.denominator).toList,
      (c ≠ '\"' ∧ c ≠ '&' ∧ c ≠ '%') := by
    have hall : ∀ c ∈ Decimal.plainChars, (c ≠ '\"' ∧ c ≠ '&' ∧ c ≠ '%') := by decide
    exact fun c hc => hall c (Decimal.plainText_chars _ c hc)
  have helement : ∀ c ∈ t.kind.element.toList, (c ≠ '\"' ∧ c ≠ '&' ∧ c ≠ '%') := by
    cases t.kind <;> decide
  unfold Threshold.definition
  simp only [String.toList_append, List.forall_mem_append]
  exact ⟨⟨⟨⟨⟨⟨by decide, helement⟩, by decide⟩, hnumber⟩, by decide⟩, helement⟩, by decide⟩

def entityToken (t : Threshold) : Token := .entity t.name t.definition.toList

theorem scan_entityLine (t : Threshold) :
    scan .subset (line 0 (entityLine t).text) = some (.subset, [entityToken t]) := by
  have hopen : scan .subset "<!ENTITY ".toList = some (.entityName [], []) := by decide
  have hname := scan_word (f := .entityName) (P := isNameChar)
    (fun w d hd => by simp [Place.step, hd])
    (isNameChar_of_isName (Threshold.isName_nameOf t.kind t.zoom)) []
  have hspace : (Place.entityName t.name.toList).step ' ' =
      some (.entityQuote t.name.toList, []) := by
    have hnot : isNameChar ' ' = false := by decide
    have hn : isName t.name.toList = true := Threshold.isName_nameOf t.kind t.zoom
    simp [Place.step, hnot, named, hn]
  have hquote : (Place.entityQuote t.name.toList).step '\"' =
      some (.entityValue t.name.toList '\"' [], []) := by
    simp [Place.step]
  have hvalue := scan_word (f := .entityValue t.name.toList '\"')
    (P := fun c => decide (c ≠ '\"' ∧ c ≠ '&' ∧ c ≠ '%'))
    (fun w d hd => by
      rw [decide_eq_true_eq] at hd
      simp [Place.step, hd])
    (fun c hc => decide_eq_true (definition_chars t c hc)) []
  have hclose : scan (.entityValue t.name.toList '\"' t.definition.toList) ['\"', '>', '\n'] =
      some (.subset, [entityToken t]) := by
    simp [scan, Place.step, entityToken, isSpace]
  have hline : line 0 (entityLine t).text = "<!ENTITY ".toList ++ (t.name.toList ++
      ' ' :: '\"' :: (t.definition.toList ++ ['\"', '>', '\n'])) := by
    simp [line, entityLine, Mark.text]
  rw [hline]
  exact scan_append hopen (scan_append hname (scan_cons hspace (scan_cons hquote
    (scan_append hvalue hclose))))

theorem scan_entityLines (table : List Threshold) {ms : List Mark} {r : Place} {us : List Token}
    (h : scan .subset (layout 0 ms) = some (r, us)) :
    scan .subset (layout 0 (table.map entityLine ++ ms)) =
      some (r, table.map entityToken ++ us) := by
  induction table with
  | nil => exact h
  | cons t ts ih =>
    have hall := scan_append (scan_entityLine t) ih
    exact hall

def subsetTokens (table : List Threshold) : List Token :=
  if table.isEmpty then []
  else .doctype "Map" :: (table.map entityToken ++ [.subsetEnd, .char '\n'])

theorem scan_declarations (table : List Threshold) {ms : List Mark} {ts : List Token}
    (h : scan .content (layout 0 ms) = some (.content, ts)) :
    scan .content (layout 0 (declarations table ++ ms)) =
      some (.content, subsetTokens table ++ ts) := by
  unfold declarations subsetTokens
  split
  · exact h
  · have hopen : scan .content (line 0 "<!DOCTYPE Map [".toList) =
        some (.subset, [.doctype "Map"]) := by decide
    have hclose : scan .subset (line 0 "]>".toList) =
        some (.content, [.subsetEnd, .char '\n']) := by
      decide
    have hrest : scan .subset (layout 0 (.line "]>".toList :: ms)) =
        some (.content, [.subsetEnd, .char '\n'] ++ ts) :=
      scan_append hclose h
    have hall := scan_append hopen (scan_entityLines table hrest)
    simpa [layout] using hall

theorem afterSubset_entityTokens (table : List Threshold) (rest : List Token) :
    afterSubset (table.map entityToken ++ .subsetEnd :: rest) = some (entities table, rest) := by
  induction table with
  | nil => rfl
  | cons t ts ih =>
    rw [List.map_cons, List.cons_append]
    simp [entityToken, afterSubset, read_definition] at ih ⊢
    simp [ih, entities]

theorem lineEnds_of_clean {cs : List Char} (h : Clean cs) : lineEnds false cs = cs :=
  lineEnds_of_not_mem (fun hmem => (h '\r' hmem).2 rfl)

def xmlToken : Token := .instruction "xml" [("version", "1.0"), ("encoding", "utf-8")]

theorem tokens?_layout (table : List Threshold) {root : Item} {ts : List Token}
    (h : scan .content (layout 0 root.marks) = some (.content, ts)) :
    tokens? (layout 0 (marks table root)) =
      some (xmlToken :: .char '\n' :: (subsetTokens table ++ ts)) := by
  have hdeclaration : scan .content (line 0 declaration) =
      some (.content, [xmlToken, .char '\n']) := by
    decide
  have hall : scan .content (layout 0 (marks table root)) =
      some (.content, [xmlToken, .char '\n'] ++ (subsetTokens table ++ ts)) :=
    scan_append hdeclaration (scan_declarations table h)
  rw [tokens?, hall]
  rfl

/-- In front of the root stands at most the end of a line. -/
theorem afterDoctype_subsetTokens (table : List Threshold) (name : String)
    (attributes : List (String × String)) (us : List Token) :
    ∃ before, (before = [] ∨ before = [Token.char '\n']) ∧
      afterDoctype (skipBlanks (.char '\n' :: (subsetTokens table ++
        .opens name attributes :: us))) =
          some (entities table, before ++ .opens name attributes :: us) := by
  cases table with
  | nil => exact ⟨[], .inl rfl, rfl⟩
  | cons t ts =>
    refine ⟨[.char '\n'], .inr rfl, ?_⟩
    have hsubset := afterSubset_entityTokens (t :: ts) (.char '\n' :: .opens name attributes :: us)
    simpa [subsetTokens, skipBlanks, isSpace, afterDoctype] using hsubset

/-- The end of a line in front of the root changes nothing. -/
theorem root?_fillAll {entities : Entities} {ts before : List Token} {name : String}
    {attributes : List (String × String)} {nodes : List Node}
    (hb : before = [] ∨ before = [.char '\n'])
    (h : ∀ ps, ts.foldlM (fill entities) ⟨ps, []⟩ =
      some ⟨ps ++ [.element (.element name attributes nodes), .char '\n'], []⟩) :
    (fillAll entities (before ++ ts)).bind root? = some (.element name attributes nodes) := by
  obtain rfl | rfl := hb
  · rw [fillAll, List.nil_append, h []]
    simp [root?, runs, textNode, Node.isBlank, isSpace]
  · have hrest := h [.char '\n']
    rw [fillAll, List.singleton_append, List.foldlM_cons]
    simp only [fill, List.nil_append, Option.bind_eq_bind, Option.bind_some, hrest]
    simp [root?, runs, textNode, Node.isBlank, isSpace]

/-- A clean document around a sound group is read as that group. -/
theorem read_layout {zooms : List Float} {name : String} {attributes : List (String × String)}
    {items : List Item}
    (hs : (Item.group name attributes items).Sound (entityNames (Threshold.table zooms)))
    (hc : Clean (layout 0 (marks (Threshold.table zooms) (.group name attributes items)))) :
    Xml.read (String.ofList (layout 0 (marks (Threshold.table zooms)
      (.group name attributes items)))) =
        some ((Item.group name attributes items).node (entities (Threshold.table zooms)) 0) := by
  have hd := declares_entities zooms
  generalize Threshold.table zooms = table at hs hc hd ⊢
  obtain ⟨us, hscan, hfill⟩ := reads_root hd hs
  obtain ⟨before, hb, hdoctype⟩ := afterDoctype_subsetTokens table name attributes us
  have hlegal : (layout 0 (marks table (.group name attributes items))).all isLegal = true :=
    List.all_eq_true.2 hc.legal
  have hfirst : afterDeclaration (xmlToken :: .char '\n' :: (subsetTokens table ++
      .opens name attributes :: us)) = some (.char '\n' :: (subsetTokens table ++
      .opens name attributes :: us)) := by
    simp [afterDeclaration, xmlToken, Xml.declarations]
  unfold Xml.read
  rw [String.toList_ofList, lineEnds_of_clean hc, if_pos hlegal, tokens?_layout table hscan]
  simp only [Option.bind_eq_bind, Option.bind_some, hfirst, hdoctype]
  exact root?_fillAll hb hfill

end MapDocument
end StyledMap
