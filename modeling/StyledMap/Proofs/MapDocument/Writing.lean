import StyledMap.Proofs.MapDocument.Items

/-! Map documents written line by line, as a program does it: layers are reported on while they are
written, and a fault leaves the text as far as it got. What comes of it is the document that is put
together from items, with the same reports, or the same fault. -/
namespace StyledMap.MapDocument
open Xml (Item Mark Writer tagStart tagEnd)

/-- A document that is being written, what was reported so far, and all calls of the writer so far. -/
structure Draft where
  writer : Writer
  notices : List Notice
  calls : List Mark

/-- Nothing is written yet. -/
def Draft.blank : Draft := ⟨⟨[], 0⟩, [], []⟩

/-- The draft with more items in it, one line for each of their marks, and with more reports. -/
def Draft.add (d : Draft) (items : List Item) (notices : List Notice) : Draft :=
  ⟨d.writer.add (Xml.layout d.writer.depth (Item.allMarks items)), d.notices ++ notices,
    d.calls ++ Item.allMarks items⟩

theorem Draft.add_add (d : Draft) (items items' : List Item) (notices notices' : List Notice) :
    (d.add items notices).add items' notices' = d.add (items ++ items') (notices ++ notices') := by
  simp [add, Writer.add, Xml.allMarks_append, (Item.balanced_allMarks items).layout_append]

theorem Draft.add_nil (d : Draft) : d.add [] [] = d := by
  simp [add, Writer.add, Item.allMarks, Xml.layout]

/-- Steps of writing. A fault ends them and leaves the draft as it is then. -/
abbrev Writing := ExceptT Fault (StateM Draft)

namespace Writing

def write (m : Mark) : Writing Unit :=
  modify (fun d => ⟨d.writer.write m, d.notices, d.calls ++ [m]⟩)

def note (n : Notice) : Writing Unit :=
  modify (fun d => ⟨d.writer, d.notices ++ [n], d.calls⟩)

def conclude (r : Except Fault Unit) : Writing Unit := ExceptT.mk (pure r)

def bare (name : String) (attributes : List (String × String)) : Writing Unit :=
  write (.line (tagStart name attributes ++ ['/', '>']))

def field (name : String) (attributes : List (String × String)) (content : String) : Writing Unit :=
  write (.line (tagStart name attributes ++ '>' :: (Xml.escape content.toList ++ tagEnd name)))

def opens (name : String) (attributes : List (String × String)) : Writing Unit :=
  write (.opens (tagStart name attributes ++ ['>']))

def closes (name : String) : Writing Unit := write (.closes (tagEnd name))

def group (name : String) (attributes : List (String × String)) (body : Writing Unit) :
    Writing Unit := do
  opens name attributes
  body
  closes name

/-- The names of attributes are looked at before anything is written. -/
def symbolizer (s : Symbolizer) : Writing Unit :=
  let element := elementName s.kind
  match paramStyle s.kind with
  | .elements =>
    if s.params = [] then bare element []
    else group element [] (s.params.forM (fun p => field "CssParameter" [("name", p.1)] p.2))
  | .attributes =>
    if s.params = [] then bare element []
    else do
      conclude (checkNames s.kind [] (s.params.map (·.1)))
      bare element s.params

def reference (table : List Threshold) (style : String) (rule : Nat) (kind : Threshold.Kind) :
    Option Nat → Writing Unit
  | none => pure ()
  | some zoom => match Threshold.find? table kind zoom with
    | some t => write (.line ('&' :: (t.name.toList ++ [';'])))
    | none => conclude (.error (.unknownZoom style rule kind zoom))

def filter : Option String → Writing Unit
  | none => pure ()
  | some text => field "Filter" [] text

def rule (table : List Threshold) (style : String) (index : Nat) (r : Rule) : Writing Unit :=
  group "Rule" [] do
    filter r.filter
    reference table style index .maxScale r.maxzoom
    reference table style index .minScale r.minzoom
    r.symbolizers.forM symbolizer

def rules (table : List Threshold) (style : String) (index : Nat) : List Rule → Writing Unit
  | [] => pure ()
  | r :: rs => do
    rule table style index r
    rules table style (index + 1) rs

def style (table : List Threshold) (s : Style) : Writing Unit :=
  group "Style" [("name", s.name)] (rules table s.name 0 s.rules)

def layer (l : Layer) : Writing Unit :=
  group "Layer" [("name", l.name), ("status", l.status.text), ("srs", l.srs)] do
    field "StyleName" [] l.style
    group "Datasource" []
      ((sourceParams l.source).forM (fun p => field "Parameter" [("name", p.1)] p.2))

/-- A layer without a style is reported right before it is written. -/
def reportedLayer (styles : List Style) (l : Layer) : Writing Unit := do
  if !styles.any (·.name = l.style) then note (.danglingLayer l.name l.style)
  layer l

def document (table : List Threshold) (styles : List Style) (layers : List Layer)
    (srs background : String) : Writing Unit := do
  write (.line declaration)
  (declarations table).forM write
  group "Map" [("srs", srs), ("background-color", background)] do
    layers.forM (reportedLayer styles)
    styles.forM (style table)

/-- How the steps end, from a draft on. -/
def run (x : Writing Unit) (d : Draft) : Except Fault Unit × Draft := (ExceptT.run x).run d

section
variable {x y : Writing Unit} {d : Draft}

theorem run_bind : run (x >>= fun _ => y) d = match run x d with
    | (.ok _, d') => run y d'
    | (.error f, d') => (.error f, d') := by
  change ((ExceptT.bindCont (fun _ => y) ((ExceptT.run x).run d).1).run ((ExceptT.run x).run d).2) = _
  unfold run
  rcases (ExceptT.run x).run d with ⟨_ | _, d'⟩ <;> rfl

@[simp] theorem run_pure : run (pure ()) d = (.ok (), d) := rfl

@[simp] theorem run_write (m : Mark) :
    run (write m) d = (.ok (), ⟨d.writer.write m, d.notices, d.calls ++ [m]⟩) := rfl

@[simp] theorem run_note (n : Notice) :
    run (note n) d = (.ok (), ⟨d.writer, d.notices ++ [n], d.calls⟩) := rfl

@[simp] theorem run_conclude (r : Except Fault Unit) : run (conclude r) d = (r, d) := rfl

end

/-- From every draft on, the steps add the items, or end in the fault. They report the same either way. -/
def Writes (x : Writing Unit) (notices : List Notice) : Except Fault (List Item) → Prop
  | .ok items => ∀ d, run x d = (.ok (), d.add items notices)
  | .error f => ∀ d, ∃ w calls, run x d = (.error f, ⟨w, d.notices ++ notices, calls⟩)

section
variable {x y : Writing Unit} {notices more : List Notice} {items : List Item}
  {r r' : Except Fault (List Item)}

theorem writes_pure : Writes (pure ()) [] (.ok []) := by
  intro d
  rw [run_pure, Draft.add_nil]

theorem Writes.after (hx : Writes x notices (.ok items)) (hy : Writes y more r) :
    Writes (x >>= fun _ => y) (notices ++ more) (r.map (items ++ ·)) := by
  cases r with
  | error f =>
    intro d
    obtain ⟨w, calls, hw⟩ := hy (d.add items notices)
    refine ⟨w, calls, ?_⟩
    rw [run_bind, hx d]
    simpa [Draft.add] using hw
  | ok items' =>
    intro d
    rw [run_bind, hx d, ← Draft.add_add]
    exact hy _

/-- Steps that may not be reached report nothing. -/
theorem Writes.bind (hx : Writes x notices r) (hy : Writes y [] r') :
    Writes (x >>= fun _ => y) notices (do return (← r) ++ (← r')) := by
  cases r with
  | error f =>
    intro d
    obtain ⟨w, calls, hw⟩ := hx d
    exact ⟨w, calls, by rw [run_bind, hw]⟩
  | ok items =>
    have h := hx.after hy
    rw [List.append_nil] at h
    cases r' <;> exact h

/-- An item on one line. -/
theorem writes_line {i : Item} {t : List Char} (h : i.marks = [.line t]) :
    Writes (write (.line t)) [] (.ok [i]) := by
  intro d
  simp [Draft.add, Writer.write, Writer.line, Writer.add, Item.allMarks, h, Xml.layout]

theorem Writes.group (name : String) (attributes : List (String × String))
    (h : Writes x notices r) :
    Writes (Writing.group name attributes x) notices
      (r.map (fun items => [.group name attributes items])) := by
  obtain ⟨tag, htag⟩ : ∃ tag, tag = Mark.opens (tagStart name attributes ++ ['>']) := ⟨_, rfl⟩
  have hrun (d : Draft) : run (Writing.group name attributes x) d =
      match run x ⟨d.writer.write tag, d.notices, d.calls ++ [tag]⟩ with
      | (.ok _, d') => (.ok (), ⟨d'.writer.write (.closes (tagEnd name)), d'.notices,
          d'.calls ++ [.closes (tagEnd name)]⟩)
      | (.error f, d') => (.error f, d') := by
    rw [Writing.group, run_bind, opens, run_write, ← htag]
    exact run_bind
  cases r with
  | error f =>
    intro d
    obtain ⟨w, calls, hw⟩ := h ⟨d.writer.write tag, d.notices, d.calls ++ [tag]⟩
    exact ⟨w, calls, by rw [hrun, hw]⟩
  | ok items =>
    intro d
    rw [hrun, h, htag]
    simp [Draft.add, Writer.write, Writer.line, Writer.add, Item.allMarks, Item.marks, Xml.layout,
      (Item.balanced_allMarks items).layout_append]

theorem Writes.forM {α : Type} {f : α → Writing Unit} {g : α → Except Fault Item} {l : List α}
    (h : ∀ a ∈ l, Writes (f a) [] ((g a).map ([·]))) : Writes (l.forM f) [] (l.mapM g) := by
  induction l with
  | nil => exact writes_pure
  | cons a l ih =>
    rw [List.forall_mem_cons] at h
    have hstep := h.1.bind (ih h.2)
    change Writes (f a >>= fun _ => l.forM f) [] _
    rw [List.mapM_cons]
    cases hg : g a with
    | error e =>
      rw [hg] at hstep
      exact hstep
    | ok i =>
      rw [hg] at hstep
      cases hl : l.mapM g <;> rw [hl] at hstep <;> exact hstep

/-- Steps that cannot fail, one for each of a list. -/
theorem writes_forM {α : Type} {f : α → Writing Unit} {g : α → Item}
    (h : ∀ a, Writes (f a) [] (.ok [g a])) (l : List α) : Writes (l.forM f) [] (.ok (l.map g)) := by
  induction l with
  | nil => exact writes_pure
  | cons a l ih => exact (h a).after ih

theorem writes_field (name : String) (attributes : List (String × String)) (content : String) :
    Writes (field name attributes content) [] (.ok [.field name attributes content]) :=
  writes_line rfl

end

/-- A symbolizer that cannot be written leaves the draft as it was. -/
theorem run_symbolizer (s : Symbolizer) (d : Draft) : run (symbolizer s) d =
    match symbolizerItem s with
    | .ok i => (.ok (), d.add [i] [])
    | .error f => (.error f, d) := by
  have hbare (attributes : List (String × String)) :
      run (bare (elementName s.kind) attributes) d =
        (.ok (), d.add [.bare (elementName s.kind) attributes] []) := writes_line rfl d
  unfold symbolizer symbolizerItem
  cases paramStyle s.kind with
  | elements =>
    dsimp only
    by_cases hs : s.params = []
    · rw [if_pos hs, if_pos hs]
      exact hbare []
    · rw [if_neg hs, if_neg hs]
      exact (writes_forM (fun p => writes_field _ _ _) s.params).group (elementName s.kind) [] d
  | attributes =>
    dsimp only
    by_cases hs : s.params = []
    · rw [if_pos hs, hs]
      exact hbare []
    · rw [if_neg hs, run_bind, run_conclude]
      cases checkNames s.kind [] (s.params.map (·.1)) with
      | error f => rfl
      | ok _ => exact hbare s.params

theorem writes_symbolizer (s : Symbolizer) :
    Writes (symbolizer s) [] ((symbolizerItem s).map ([·])) := by
  have hrun := run_symbolizer s
  cases hs : symbolizerItem s with
  | error f =>
    intro d
    exact ⟨d.writer, d.calls, by rw [hrun, hs, List.append_nil]⟩
  | ok i =>
    intro d
    rw [hrun, hs]

section
variable (table : List Threshold) (name : String)

theorem writes_reference (index : Nat) (kind : Threshold.Kind) (zoom : Option Nat) :
    Writes (reference table name index kind zoom) [] (thresholdItems table name index kind zoom) := by
  cases zoom with
  | none => exact writes_pure
  | some z =>
    unfold reference thresholdItems
    dsimp only
    cases Threshold.find? table kind z with
    | some t => exact writes_line rfl
    | none =>
      intro d
      exact ⟨d.writer, d.calls, by rw [run_conclude, List.append_nil]⟩

theorem writes_filter (text : Option String) : Writes (filter text) [] (.ok (filterItems text)) := by
  cases text with
  | none => exact writes_pure
  | some text => exact writes_field "Filter" [] text

theorem writes_rule (index : Nat) (r : Rule) :
    Writes (rule table name index r) [] ((ruleItem table name index r).map ([·])) := by
  have hupper := writes_reference table name index .maxScale r.maxzoom
  have hlower := writes_reference table name index .minScale r.minzoom
  have hsymbolizers : Writes (r.symbolizers.forM symbolizer) [] (r.symbolizers.mapM symbolizerItem) :=
    .forM (fun s _ => writes_symbolizer s)
  have hbody := (writes_filter r.filter).bind (hupper.bind (hlower.bind hsymbolizers))
  have hgroup := hbody.group "Rule" []
  unfold ruleItem
  generalize thresholdItems table name index .maxScale r.maxzoom = upper at hgroup ⊢
  generalize thresholdItems table name index .minScale r.minzoom = lower at hgroup ⊢
  generalize r.symbolizers.mapM symbolizerItem = symbolizers at hgroup ⊢
  cases upper with
  | error f => exact hgroup
  | ok upper => cases lower with
    | error f => exact hgroup
    | ok lower => cases symbolizers <;> exact hgroup

theorem writes_rules (index : Nat) (rs : List Rule) :
    Writes (rules table name index rs) [] (ruleItems table name index rs) := by
  induction rs generalizing index with
  | nil => exact writes_pure
  | cons r rs ih =>
    have hstep := (writes_rule table name index r).bind (ih (index + 1))
    unfold ruleItems
    generalize ruleItem table name index r = item at hstep ⊢
    cases item with
    | error f => exact hstep
    | ok item => exact hstep

theorem writes_style (s : Style) :
    Writes (style table s) [] ((styleItem table s).map ([·])) := by
  have hgroup := (writes_rules table s.name 0 s.rules).group "Style" [("name", s.name)]
  unfold styleItem
  generalize ruleItems table s.name 0 s.rules = rules at hgroup ⊢
  cases rules <;> exact hgroup

end

theorem writes_layer (l : Layer) : Writes (layer l) [] (.ok [layerItem l]) := by
  have hparam (p : String × String) :
      Writes (field "Parameter" [("name", p.1)] p.2) [] (.ok [sourceParamItem p]) :=
    writes_field _ _ _
  have hsource := (writes_forM hparam (sourceParams l.source)).group "Datasource" []
  have hbody := (writes_field "StyleName" [] l.style).after hsource
  unfold layer layerItem
  exact hbody.group _ _

theorem writes_reportedLayer (styles : List Style) (l : Layer) :
    Writes (reportedLayer styles l) (dangling styles [l]) (.ok [layerItem l]) := by
  intro d
  unfold reportedLayer dangling
  by_cases h : (!styles.any (·.name = l.style)) = true
  · rw [if_pos h, run_bind, run_note]
    dsimp only
    rw [writes_layer]
    simp only [List.filter_cons, h, if_true]
    simp [Draft.add]
  · rw [if_neg h]
    simp only [List.filter_cons, h]
    exact writes_layer l d

theorem writes_layers (styles : List Style) (layers : List Layer) :
    Writes (layers.forM (reportedLayer styles)) (dangling styles layers)
      (.ok (layers.map layerItem)) := by
  induction layers with
  | nil => exact writes_pure
  | cons l layers ih =>
    have hstep := (writes_reportedLayer styles l).after ih
    have happend : dangling styles [l] ++ dangling styles layers = dangling styles (l :: layers) := by
      rw [dangling, dangling, dangling, ← List.map_append, ← List.filter_append]
      rfl
    rw [happend] at hstep
    exact hstep

/-- Marks that are balanced, written one after the other. -/
theorem run_forM_write {ms : List Mark} (h : Xml.Balanced ms) (d : Draft) : run (ms.forM write) d =
    (.ok (), ⟨d.writer.add (Xml.layout d.writer.depth ms), d.notices, d.calls ++ ms⟩) := by
  rw [← Writer.foldl_write h]
  clear h
  induction ms generalizing d with
  | nil => rw [List.append_nil]; rfl
  | cons m ms ih =>
    change run (write m >>= fun _ => ms.forM write) d = _
    rw [run_bind, run_write, List.append_cons d.calls m ms]
    exact ih _

theorem writes_map (table : List Threshold) (styles : List Style) (layers : List Layer)
    (srs background : String) :
    Writes (group "Map" [("srs", srs), ("background-color", background)] do
        layers.forM (reportedLayer styles)
        styles.forM (style table))
      (dangling styles layers) ((mapItem table styles layers srs background).map ([·])) := by
  have hstyles : Writes (styles.forM (style table)) [] (styles.mapM (styleItem table)) :=
    .forM (fun s _ => writes_style table s)
  have hgroup := ((writes_layers styles layers).bind hstyles).group "Map"
    [("srs", srs), ("background-color", background)]
  unfold mapItem
  generalize styles.mapM (styleItem table) = drawn at hgroup ⊢
  cases drawn <;> exact hgroup

/-- The heading is written first, then the map behind it. -/
theorem run_document (table : List Threshold) (styles : List Style) (layers : List Layer)
    (srs background : String) :
    let heading : Draft := ⟨⟨Xml.layout 0 (.line declaration :: declarations table), 0⟩, [],
      .line declaration :: declarations table⟩
    run (document table styles layers srs background) .blank =
      run (group "Map" [("srs", srs), ("background-color", background)] do
        layers.forM (reportedLayer styles)
        styles.forM (style table)) heading := by
  unfold document
  rw [run_bind, run_write]
  dsimp only
  rw [run_bind, run_forM_write (balanced_declarations table)]
  rfl

end Writing

/-- Compiles a map by writing it line by line. -/
def compileByLines (styles : List Style) (zooms : List Float) (layers : List Layer)
    (srs background : String) : List Notice × Except Fault MapDocument :=
  let table := Threshold.table zooms
  match Writing.run (Writing.document table styles layers srs background) .blank with
  | (.error f, d) => (d.notices, .error f)
  | (.ok _, d) =>
    let document : MapDocument := ⟨String.ofList d.writer.text⟩
    (d.notices ++ [.compiled layers.length styles.length table.length document.size], .ok document)

/-- Line by line or from items, it is the same document with the same reports, or the same fault. -/
theorem compileByLines_eq (styles : List Style) (zooms : List Float) (layers : List Layer)
    (srs background : String) :
    compileByLines styles zooms layers srs background =
      compile styles zooms layers srs background := by
  have hmap := Writing.writes_map (Threshold.table zooms) styles layers srs background
  unfold compileByLines compile
  simp only [Writing.run_document]
  cases hroot : mapItem (Threshold.table zooms) styles layers srs background with
  | error f =>
    rw [hroot] at hmap
    obtain ⟨w, calls, hw⟩ := hmap
      ⟨⟨Xml.layout 0 (.line declaration :: declarations (Threshold.table zooms)), 0⟩, [],
        .line declaration :: declarations (Threshold.table zooms)⟩
    rw [hw]
    rfl
  | ok root =>
    rw [hroot] at hmap
    rw [hmap]
    simp [Draft.add, Writer.add, Item.allMarks, layout_marks]

/-- A report with its level, as it goes to the log. -/
def Notice.entry (n : Notice) : Journal.Level × Notice := (n.level, n)

end StyledMap.MapDocument
