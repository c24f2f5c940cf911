import StyledMap.Drawing.LayerReader
import StyledMap.Drawing.StyleReader
import StyledMap.Proofs.Steps
import StyledMap.Proofs.Xml.Sound

/-! Texts in descriptions of maps. All that a document carries of a style or a layer is checked
when it is read, so what was read is legal. -/
namespace StyledMap
open Xml (Legal)

def Symbolizer.Legal (s : Symbolizer) : Prop :=
  ∀ p ∈ s.params, Xml.Legal p.1.toList ∧ Xml.Legal p.2.toList

structure Rule.Legal (r : Rule) : Prop where
  filter : ∀ text, r.filter = some text → Xml.Legal text.toList
  symbolizers : ∀ s ∈ r.symbolizers, s.Legal

structure Style.Legal (s : Style) : Prop where
  name : Xml.Legal s.name.toList
  rules : ∀ r ∈ s.rules, r.Legal

/-- The texts that a source is described with. -/
def Layer.Source.texts : Layer.Source → List String
  | .database d => [d.driver, d.host, d.dbname, d.user, d.password, d.table]
  | .file f => [f.driver, f.path]

structure Layer.Legal (l : Layer) : Prop where
  name : Xml.Legal l.name.toList
  style : Xml.Legal l.style.toList
  srs : Xml.Legal l.srs.toList
  source : ∀ t ∈ l.source.texts, Xml.Legal t.toList

namespace Drawing
open Steps

theorem checkText_eq_ok {field value : String} :
    checkText field value = .ok () ↔ Legal value.toList := by
  unfold checkText Legal
  cases h : value.toList.find? (fun c => !Xml.isLegal c) with
  | some c =>
    have hmem := List.mem_of_find?_eq_some h
    have hc := List.find?_some h
    refine ⟨fun h => (by cases h), fun hall => ?_⟩
    rw [hall c hmem] at hc
    cases hc
  | none =>
    refine ⟨fun _ c hc => ?_, fun _ => rfl⟩
    simpa using List.find?_eq_none.1 h c hc

theorem param_legal {kind : Symbolizer.Kind} {entry : String × Json} {p : String × String}
    (h : param kind entry = .ok p) : Legal p.1.toList ∧ Legal p.2.toList := by
  unfold param at h
  cases hs : entry.2.scalar? with
  | none => rw [hs] at h; cases h
  | some text =>
    rw [hs] at h
    obtain ⟨⟨⟩, hname, h⟩ := bind_eq_ok.1 h
    obtain ⟨⟨⟩, htext, h⟩ := bind_eq_ok.1 h
    obtain rfl := pure_eq_ok.1 h
    exact ⟨checkText_eq_ok.1 hname, checkText_eq_ok.1 htext⟩

theorem symbolizer_legal {e : SymbolizerEntry} {s : Symbolizer} (h : e.symbolizer = .ok s) :
    s.Legal := by
  unfold SymbolizerEntry.symbolizer at h
  cases hk : Symbolizer.Kind.ofKeyword? e.kind with
  | none => rw [hk] at h; cases h
  | some kind =>
    rw [hk] at h
    obtain ⟨params, hparams, h⟩ := bind_eq_ok.1 h
    obtain rfl := pure_eq_ok.1 h
    exact forall_of_mapM hparams (fun _ _ _ => param_legal)

theorem rule_legal {e : RuleEntry} {r : Rule} (h : e.rule = .ok r) : r.Legal := by
  obtain ⟨symbolizers, hs, h⟩ := bind_eq_ok.1 h
  obtain ⟨⟨⟩, hfilter, h⟩ := bind_eq_ok.1 h
  obtain rfl := pure_eq_ok.1 h
  refine ⟨fun text ht => ?_, forall_of_mapM hs (fun _ _ _ => symbolizer_legal)⟩
  dsimp only at ht
  rw [ht] at hfilter
  exact checkText_eq_ok.1 hfilter

theorem style_legal {e : StyleEntry} {s : Style} (h : e.style = .ok s) : s.Legal := by
  obtain ⟨⟨⟩, hname, h⟩ := bind_eq_ok.1 h
  obtain ⟨rules, hrules, h⟩ := bind_eq_ok.1 h
  obtain rfl := pure_eq_ok.1 h
  exact ⟨checkText_eq_ok.1 hname, forall_of_mapM hrules (fun _ _ _ => rule_legal)⟩

theorem readStyles_legal {text : String} {styles : List Style} (h : readStyles text = .ok styles) :
    ∀ s ∈ styles, s.Legal := by
  unfold readStyles at h
  cases he : styleEntries? text with
  | none => rw [he] at h; cases h
  | some entries =>
    rw [he] at h
    exact forall_of_mapM h (fun _ _ _ => style_legal)

/-- Every text among the fields of a source, under whichever name. -/
def LegalFields (fields : List (String × Json)) : Prop :=
  ∀ name text, (name, Json.string text) ∈ fields → Legal text.toList

theorem mem_of_givenAs {α : Type} {names : List String} {members : List (String × α)} {v : α}
    (h : v ∈ Json.givenAs names members) : ∃ name, (name, v) ∈ members := by
  obtain ⟨m, hm, rfl⟩ := List.mem_map.1 h
  exact ⟨m.1, List.mem_of_mem_filter hm⟩

theorem mem_of_field? {names : List String} {fields : List (String × Json)} {v : Json}
    (h : field? names fields = some (some v)) : ∃ name, (name, v) ∈ fields := by
  unfold field? at h
  split at h
  · cases h
  · rename_i w hw
    obtain rfl : w = v := by simpa using h
    exact mem_of_givenAs (by rw [hw]; exact List.mem_singleton.2 rfl)
  · cases h

section
variable {fields : List (String × Json)} (hl : LegalFields fields)
include hl

theorem textField_legal {names : List String} {s : String} (h : textField? names fields = some s) :
    Legal s.toList := by
  unfold textField? at h
  split at h
  · rename_i t ht
    obtain rfl := Option.some.inj h
    obtain ⟨name, hmem⟩ := mem_of_field? ht
    exact hl name t hmem
  · cases h

theorem textFieldOr_legal {missing s : String} {names : List String} (hm : Legal missing.toList)
    (h : textFieldOr? missing names fields = some s) : Legal s.toList := by
  unfold textFieldOr? at h
  split at h
  · obtain rfl := Option.some.inj h
    exact hm
  · rename_i t ht
    obtain rfl := Option.some.inj h
    obtain ⟨name, hmem⟩ := mem_of_field? ht
    exact hl name t hmem
  · cases h

theorem database_legal {port : PortEntry} {make : Nat → Layer.Database}
    (h : database? fields = some (port, make)) (n : Nat) :
    ∀ t ∈ (Layer.Source.database (make n)).texts, Legal t.toList := by
  unfold database? at h
  simp only [Option.bind_eq_bind, Option.bind_eq_some_iff, Option.pure_def, Option.some.injEq,
    Prod.mk.injEq] at h
  obtain ⟨driver, hdriver, host, hhost, port', -, dbname, hdbname, user, huser, password, hpassword,
    estimate, -, table, htable, -, rfl⟩ := h
  simp only [Layer.Source.texts, List.forall_mem_cons]
  exact ⟨textField_legal hl hdriver, textField_legal hl hhost, textField_legal hl hdbname,
    textField_legal hl huser, textFieldOr_legal hl (by decide) hpassword, textField_legal hl htable,
    by simp⟩

theorem file_legal {f : Layer.File} (h : file? fields = some f) :
    ∀ t ∈ (Layer.Source.file f).texts, Legal t.toList := by
  unfold file? at h
  simp only [Option.bind_eq_bind, Option.bind_eq_some_iff, Option.pure_def, Option.some.injEq] at h
  obtain ⟨driver, hdriver, path, hpath, rfl⟩ := h
  simp only [Layer.Source.texts, List.forall_mem_cons]
  exact ⟨textField_legal hl hdriver, textField_legal hl hpath, by simp⟩

end

theorem legalFields_of_checked {layer : String} {fields : List (String × Json)}
    (h : fields.forM (checkSourceField layer) = .ok ()) : LegalFields fields := by
  intro name text hmem
  have hc := forM_eq_ok.1 h _ hmem
  exact checkText_eq_ok.1 hc

theorem source_legal {layer : String} {e : SourceEntry} {s : Layer.Source}
    (h : e.source layer = .ok s) : ∀ t ∈ s.texts, Legal t.toList := by
  obtain ⟨⟨⟩, hchecked, h⟩ := bind_eq_ok.1 h
  have hl := legalFields_of_checked hchecked
  split at h
  · split at h
    · cases h
    · rename_i port make hd
      obtain ⟨n, -, h⟩ := bind_eq_ok.1 h
      obtain rfl := pure_eq_ok.1 h
      exact database_legal hl hd n
  · split at h
    · split at h
      · cases h
      · rename_i f hf
        obtain rfl := pure_eq_ok.1 h
        exact file_legal hl hf
    · cases h

theorem layer_legal {e : LayerEntry} {l : Layer} (h : e.layer = .ok l) : l.Legal := by
  obtain ⟨⟨⟩, hname, h⟩ := bind_eq_ok.1 h
  obtain ⟨⟨⟩, hstyle, h⟩ := bind_eq_ok.1 h
  obtain ⟨⟨⟩, hsrs, h⟩ := bind_eq_ok.1 h
  obtain ⟨status, -, h⟩ := bind_eq_ok.1 h
  obtain ⟨source, hsource, h⟩ := bind_eq_ok.1 h
  obtain rfl := pure_eq_ok.1 h
  exact ⟨checkText_eq_ok.1 hname, checkText_eq_ok.1 hstyle, checkText_eq_ok.1 hsrs,
    source_legal hsource⟩

theorem readLayers_legal {text : String} {layers : List Layer} (h : readLayers text = .ok layers) :
    ∀ l ∈ layers, l.Legal := by
  unfold readLayers at h
  cases he : layerEntries? text with
  | none => rw [he] at h; cases h
  | some entries =>
    rw [he] at h
    exact forall_of_mapM h (fun _ _ _ => layer_legal)

end Drawing
end StyledMap
