import StyledMap.MapDocument.Compile
import StyledMap.Proofs.Drawing.Legal
import StyledMap.Proofs.Scale.Table
import StyledMap.Proofs.Xml.Lines

/-! The items of a map document, one step of compiling after the other: what each step makes, if it
succeeds, and that of legal texts it makes nothing but sound items. -/
namespace StyledMap.MapDocument
open Steps
open Xml (Item SoundTag)

theorem checkNames_ok {kind : Symbolizer.Kind} {seen names : List String}
    (h : checkNames kind seen names = .ok ()) :
    (∀ n ∈ names, Xml.isName n.toList = true) ∧ names.Nodup ∧ ∀ n ∈ names, n ∉ seen := by
  induction names generalizing seen with
  | nil => simp
  | cons n ns ih =>
    unfold checkNames at h
    split at h
    · cases h
    · rename_i hname
      split at h
      · cases h
      · rename_i hseen
        obtain ⟨hnames, hnodup, hfresh⟩ := ih h
        have hn : n ∉ ns := fun hm => hfresh n hm List.mem_cons_self
        refine ⟨List.forall_mem_cons.2 ⟨by simpa using hname, hnames⟩,
          List.nodup_cons.2 ⟨hn, hnodup⟩, List.forall_mem_cons.2 ⟨hseen, ?_⟩⟩
        exact fun m hm hs => hfresh m hm (List.mem_cons_of_mem n hs)

/-- A symbolizer is one empty tag, or a tag around its parameters. -/
theorem symbolizerItem_cases {s : Symbolizer} {i : Item} (h : symbolizerItem s = .ok i) :
    (paramStyle s.kind = .elements ∧ s.params = [] ∧ i = .bare (elementName s.kind) []) ∨
    (paramStyle s.kind = .elements ∧ s.params ≠ [] ∧
      i = .group (elementName s.kind) [] (s.params.map paramItem)) ∨
    (paramStyle s.kind = .attributes ∧ (∀ p ∈ s.params, Xml.isName p.1.toList = true) ∧
      (s.params.map (·.1)).Nodup ∧ i = .bare (elementName s.kind) s.params) := by
  unfold symbolizerItem at h
  cases hp : paramStyle s.kind with
  | elements =>
    simp only [hp, Except.ok.injEq] at h
    by_cases hs : s.params = []
    · rw [if_pos hs] at h
      exact .inl ⟨rfl, hs, h.symm⟩
    · rw [if_neg hs] at h
      exact .inr (.inl ⟨rfl, hs, h.symm⟩)
  | attributes =>
    simp only [hp] at h
    obtain ⟨⟨⟩, hnames, h⟩ := bind_eq_ok.1 h
    obtain ⟨hname, hnodup, -⟩ := checkNames_ok hnames
    exact .inr (.inr ⟨rfl, by simpa using hname, hnodup, (pure_eq_ok.1 h).symm⟩)

theorem thresholdItems_cases {table : List Threshold} {style : String} {index : Nat}
    {kind : Threshold.Kind} {zoom : Option Nat} {items : List Item}
    (h : thresholdItems table style index kind zoom = .ok items) :
    (zoom = none ∧ items = []) ∨
    ∃ z t, zoom = some z ∧ Threshold.find? table kind z = some t ∧ items = [.reference t.name] := by
  cases zoom with
  | none => exact .inl ⟨rfl, (Except.ok.inj h).symm⟩
  | some z =>
    unfold thresholdItems at h
    cases ht : Threshold.find? table kind z with
    | none => simp [ht] at h
    | some t =>
      simp only [ht, Except.ok.injEq] at h
      exact .inr ⟨z, t, rfl, ht, h.symm⟩

section
variable {table : List Threshold} {style : String} {index : Nat}

/-- A rule is a group of its filter, its two references and its symbolizers. -/
theorem ruleItem_ok {r : Rule} {i : Item} (h : ruleItem table style index r = .ok i) :
    ∃ upper lower symbolizers,
      thresholdItems table style index .maxScale r.maxzoom = .ok upper ∧
      thresholdItems table style index .minScale r.minzoom = .ok lower ∧
      r.symbolizers.mapM symbolizerItem = .ok symbolizers ∧
      i = .group "Rule" [] (filterItems r.filter ++ (upper ++ (lower ++ symbolizers))) := by
  obtain ⟨upper, hu, h⟩ := bind_eq_ok.1 h
  obtain ⟨lower, hl, h⟩ := bind_eq_ok.1 h
  obtain ⟨symbolizers, hs, h⟩ := bind_eq_ok.1 h
  exact ⟨upper, lower, symbolizers, hu, hl, hs, (pure_eq_ok.1 h).symm⟩

theorem ruleItems_ok {rules : List Rule} {items : List Item}
    (h : ruleItems table style index rules = .ok items) :
    List.Forall₂ (fun r i => ∃ index, ruleItem table style index r = .ok i) rules items := by
  induction rules generalizing index items with
  | nil =>
    obtain rfl := Except.ok.inj h
    exact .nil
  | cons r rules ih =>
    obtain ⟨item, hr, h⟩ := bind_eq_ok.1 h
    obtain ⟨rest, hrest, h⟩ := bind_eq_ok.1 h
    obtain rfl := pure_eq_ok.1 h
    exact .cons ⟨index, hr⟩ (ih hrest)

theorem styleItem_ok {s : Style} {i : Item} (h : styleItem table s = .ok i) :
    ∃ rules, ruleItems table s.name 0 s.rules = .ok rules ∧
      i = .group "Style" [("name", s.name)] rules := by
  obtain ⟨rules, hr, h⟩ := bind_eq_ok.1 h
  exact ⟨rules, hr, (pure_eq_ok.1 h).symm⟩

theorem mapItem_ok {styles : List Style} {layers : List Layer} {srs background : String} {i : Item}
    (h : mapItem table styles layers srs background = .ok i) :
    ∃ drawn, styles.mapM (styleItem table) = .ok drawn ∧
      i = .group "Map" [("srs", srs), ("background-color", background)]
        (layers.map layerItem ++ drawn) := by
  obtain ⟨drawn, hd, h⟩ := bind_eq_ok.1 h
  exact ⟨drawn, hd, (pure_eq_ok.1 h).symm⟩

/-- A document is the layout of its declarations and its root, and nothing else. -/
theorem compile_ok {styles : List Style} {zooms : List Float} {layers : List Layer}
    {srs background : String} {document : MapDocument}
    (h : (compile styles zooms layers srs background).2 = .ok document) :
    ∃ root, mapItem (Threshold.table zooms) styles layers srs background = .ok root ∧
      document = ⟨String.ofList (Xml.layout 0 (marks (Threshold.table zooms) root))⟩ := by
  unfold compile at h
  cases hr : mapItem (Threshold.table zooms) styles layers srs background with
  | error f => simp [hr] at h
  | ok root =>
    simp only [hr, Except.ok.injEq] at h
    exact ⟨root, rfl, h.symm⟩

end

theorem balanced_declarations (table : List Threshold) : Xml.Balanced (declarations table) := by
  have hentities (ts : List Threshold) : Xml.Balanced (ts.map entityLine ++ [.line "]>".toList]) := by
    induction ts with
    | nil => exact .line _ .nil
    | cons t ts ih => exact .line _ ih
  unfold declarations
  split
  · exact .nil
  · exact .line _ (hentities table)

/-- What holds of the two lines around the entities and of those between them holds of all. -/
theorem forall_declarations {P : Xml.Mark → Prop} {table : List Threshold}
    (hopen : P (.line "<!DOCTYPE Map [".toList)) (hentity : ∀ t ∈ table, P (entityLine t))
    (hclose : P (.line "]>".toList)) : ∀ m ∈ declarations table, P m := by
  unfold declarations
  split
  · simp
  · rw [List.forall_mem_cons, List.forall_mem_append, List.forall_mem_map]
    exact ⟨hopen, hentity, List.forall_mem_singleton.2 hclose⟩

theorem layout_marks (table : List Threshold) (root : Item) : Xml.layout 0 (marks table root) =
    Xml.layout 0 (.line declaration :: declarations table) ++ Xml.layout 0 root.marks := by
  have hheading : Xml.Balanced (.line declaration :: declarations table) :=
    .line _ (balanced_declarations table)
  rw [← hheading.layout_append]
  rfl

/-- The names that a document with this table declares. -/
def entityNames (table : List Threshold) : List String := table.map Threshold.name

theorem isName_entityNames (table : List Threshold) :
    ∀ e ∈ entityNames table, Xml.isName e.toList = true := by
  intro e he
  obtain ⟨t, -, rfl⟩ := List.mem_map.1 he
  exact Threshold.isName_nameOf t.kind t.zoom

theorem soundTag_nil {name : String} (h : Xml.isName name.toList = true) : SoundTag name [] where
  name := h
  names := by simp
  values := by simp
  distinct := by simp

theorem soundTag_name {name value : String} (h : Xml.isName name.toList = true)
    (hv : Xml.Legal value.toList) : SoundTag name [("name", value)] where
  name := h
  names := by simp; decide
  values := by simpa using hv
  distinct := by simp

theorem isName_elementName (kind : Symbolizer.Kind) :
    Xml.isName (elementName kind).toList = true := by
  cases kind <;> decide

theorem symbolizerItem_sound {entities : List String} {s : Symbolizer} {i : Item} (hs : s.Legal)
    (h : symbolizerItem s = .ok i) : i.Sound entities := by
  have hname := isName_elementName s.kind
  obtain ⟨-, -, rfl⟩ | ⟨-, -, rfl⟩ | ⟨-, hnames, hnodup, rfl⟩ := symbolizerItem_cases h
  · exact .bare (soundTag_nil hname)
  · refine .group (soundTag_nil hname) ?_
    intro i hi
    obtain ⟨p, hp, rfl⟩ := List.mem_map.1 hi
    exact .field (soundTag_name (by decide) (hs p hp).1) (hs p hp).2
  · exact .bare ⟨hname, hnames, fun p hp => (hs p hp).2, hnodup⟩

theorem thresholdItems_sound {table : List Threshold} {style : String} {index : Nat}
    {kind : Threshold.Kind} {zoom : Option Nat} {items : List Item}
    (h : thresholdItems table style index kind zoom = .ok items) :
    ∀ i ∈ items, i.Sound (entityNames table) := by
  obtain ⟨-, rfl⟩ | ⟨z, t, -, ht, rfl⟩ := thresholdItems_cases h
  · simp
  · intro i hi
    obtain rfl := List.mem_singleton.1 hi
    exact .reference (List.mem_map_of_mem (Threshold.of_find? ht).1)

theorem filterItems_sound {entities : List String} {filter : Option String}
    (h : ∀ text, filter = some text → Xml.Legal text.toList) :
    ∀ i ∈ filterItems filter, i.Sound entities := by
  cases filter with
  | none => simp [filterItems]
  | some text =>
    intro i hi
    obtain rfl := List.mem_singleton.1 hi
    exact .field (soundTag_nil (by decide)) (h text rfl)

section
variable {table : List Threshold}

theorem ruleItem_sound {style : String} {index : Nat} {r : Rule} {i : Item} (hr : r.Legal)
    (h : ruleItem table style index r = .ok i) : i.Sound (entityNames table) := by
  obtain ⟨upper, lower, symbolizers, hu, hl, hs, rfl⟩ := ruleItem_ok h
  have hsymbolizers : ∀ i ∈ symbolizers, i.Sound (entityNames table) :=
    forall_of_mapM hs (fun s hmem i hi => symbolizerItem_sound (hr.symbolizers s hmem) hi)
  refine .group (soundTag_nil (by decide)) ?_
  simp only [List.forall_mem_append]
  exact ⟨filterItems_sound hr.filter, thresholdItems_sound hu, thresholdItems_sound hl,
    hsymbolizers⟩

theorem ruleItems_sound {style : String} {index : Nat} {rules : List Rule} {items : List Item}
    (hr : ∀ r ∈ rules, r.Legal) (h : ruleItems table style index rules = .ok items) :
    ∀ i ∈ items, i.Sound (entityNames table) := by
  have hall := ruleItems_ok h
  clear h
  induction hall with
  | nil => simp
  | cons hi _ ih =>
    rw [List.forall_mem_cons] at hr
    obtain ⟨index, hi⟩ := hi
    exact List.forall_mem_cons.2 ⟨ruleItem_sound hr.1 hi, ih hr.2⟩

theorem styleItem_sound {s : Style} {i : Item} (hs : s.Legal) (h : styleItem table s = .ok i) :
    i.Sound (entityNames table) := by
  obtain ⟨rules, hr, rfl⟩ := styleItem_ok h
  exact .group (soundTag_name (by decide) hs.name) (ruleItems_sound hs.rules hr)

end

theorem legal_nat (n : Nat) : Xml.Legal (Text.nat n).toList := by
  have hall : ∀ c ∈ Text.decimalChars, Xml.isLegal c = true := by decide
  rw [Text.nat, String.toList_ofList]
  exact fun c hc => hall c (Text.ofNat_chars n c hc)

theorem sourceParams_legal {s : Layer.Source} (h : ∀ t ∈ s.texts, Xml.Legal t.toList) :
    ∀ p ∈ sourceParams s, Xml.Legal p.1.toList ∧ Xml.Legal p.2.toList := by
  cases s with
  | database d =>
    simp only [Layer.Source.texts, List.forall_mem_cons] at h
    obtain ⟨hdriver, hhost, hdbname, huser, hpassword, htable, -⟩ := h
    have hextent : Xml.Legal (if d.estimateExtent then "true" else "false").toList := by
      cases d.estimateExtent <;> decide
    simp only [sourceParams, List.forall_mem_cons]
    refine ⟨⟨by decide, hdriver⟩, ⟨by decide, hhost⟩, ⟨by decide, legal_nat d.port⟩,
      ⟨by decide, hdbname⟩, ⟨by decide, huser⟩, ⟨by decide, hpassword⟩, ⟨by decide, hextent⟩,
      ⟨by decide, htable⟩, by simp⟩
  | file f =>
    simp only [Layer.Source.texts, List.forall_mem_cons] at h
    obtain ⟨hdriver, hpath, -⟩ := h
    simp only [sourceParams, List.forall_mem_cons]
    exact ⟨⟨by decide, hdriver⟩, ⟨by decide, hpath⟩, by simp⟩

theorem layerItem_sound {entities : List String} {l : Layer} (h : l.Legal) :
    (layerItem l).Sound entities := by
  have hstatus : Xml.Legal l.status.text.toList := by
    cases l.status <;> decide
  refine .group ⟨by decide, by simp; decide, ?_, by simp⟩ ?_
  · simp only [List.forall_mem_cons]
    exact ⟨h.name, hstatus, h.srs, by simp⟩
  · simp only [List.forall_mem_cons]
    refine ⟨.field (soundTag_nil (by decide)) h.style, .group (soundTag_nil (by decide)) ?_,
      by simp⟩
    intro i hi
    obtain ⟨p, hp, rfl⟩ := List.mem_map.1 hi
    obtain ⟨hname, hvalue⟩ := sourceParams_legal h.source p hp
    exact .field (soundTag_name (by decide) hname) hvalue

theorem mapItem_sound {table : List Threshold} {styles : List Style} {layers : List Layer}
    {srs background : String} {i : Item} (hs : ∀ s ∈ styles, s.Legal) (hl : ∀ l ∈ layers, l.Legal)
    (hsrs : Xml.Legal srs.toList) (hbackground : Xml.Legal background.toList)
    (h : mapItem table styles layers srs background = .ok i) : i.Sound (entityNames table) := by
  obtain ⟨drawn, hd, rfl⟩ := mapItem_ok h
  have hdrawn : ∀ i ∈ drawn, i.Sound (entityNames table) :=
    forall_of_mapM hd (fun s hmem i hi => styleItem_sound (hs s hmem) hi)
  refine .group ⟨by decide, by simp; decide, ?_, by simp⟩ ?_
  · simp only [List.forall_mem_cons]
    exact ⟨hsrs, hbackground, by simp⟩
  · rw [List.forall_mem_append]
    refine ⟨fun i hi => ?_, hdrawn⟩
    obtain ⟨l, hmem, rfl⟩ := List.mem_map.1 hi
    exact layerItem_sound (hl l hmem)

end StyledMap.MapDocument
