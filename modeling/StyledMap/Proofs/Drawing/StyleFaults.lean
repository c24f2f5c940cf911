import StyledMap.Proofs.Drawing.Legal
import StyledMap.Proofs.Reports

/-! What can be wrong with styles whose text has the right shape. Everything that is wrong is listed in the
order in which it is looked for: the name of a style before its rules, the symbolizers of a rule
before its filter, the shape of a value before the texts around it. Styles are read exactly if
nothing is wrong, and then none of them is left out. -/
namespace StyledMap.Drawing
open Steps

/-- Every character that no document can carry is a fault of its own. -/
def textFaults (field value : String) : List Fault :=
  (value.toList.filter (fun c => !Xml.isLegal c)).map fun c =>
    .invalid field ("contains " ++ codePoint c ++ ", which XML documents cannot carry")

def paramField (kind : Symbolizer.Kind) : String := kind.keyword ++ " symbolizer parameter"

def paramFaults (kind : Symbolizer.Kind) (entry : String × Json) : List Fault :=
  match entry.2.scalar? with
  | none => .invalid (kind.keyword ++ " symbolizer parameter '" ++ entry.1 ++ "'")
      "value must be a string, number or boolean" :: textFaults (paramField kind) entry.1
  | some text => textFaults (paramField kind) entry.1 ++ textFaults (paramField kind) text

/-- Parameters of an unknown kind have nothing that they could be checked for. -/
def SymbolizerEntry.faults (e : SymbolizerEntry) : List Fault :=
  match Symbolizer.Kind.ofKeyword? e.kind with
  | none => [.unsupportedSymbolizer e.kind]
  | some kind => e.params.flatMap (paramFaults kind)

def RuleEntry.faults (e : RuleEntry) : List Fault :=
  e.symbolizers.flatMap SymbolizerEntry.faults ++ e.filter.toList.flatMap (textFaults "rule filter")

def StyleEntry.faults (e : StyleEntry) : List Fault :=
  textFaults "style name" e.name ++ e.rules.flatMap RuleEntry.faults

/-- All that is wrong with styles, in order. -/
def styleFaults (entries : List StyleEntry) : List Fault := entries.flatMap StyleEntry.faults

/- What is read of an entry holds everything that the entry holds, in the same order. -/

def SymbolizerEntry.Makes (e : SymbolizerEntry) (s : Symbolizer) : Prop :=
  s.kind.keyword = e.kind ∧
    List.Forall₂ (fun given p => p.1 = given.1 ∧ given.2.scalar? = some p.2) e.params s.params

structure RuleEntry.Makes (e : RuleEntry) (r : Rule) : Prop where
  filter : r.filter = e.filter
  minzoom : r.minzoom = e.minzoom
  maxzoom : r.maxzoom = e.maxzoom
  symbolizers : List.Forall₂ SymbolizerEntry.Makes e.symbolizers r.symbolizers

structure StyleEntry.Makes (e : StyleEntry) (s : Style) : Prop where
  name : s.name = e.name
  rules : List.Forall₂ RuleEntry.Makes e.rules s.rules

theorem checkText_reports (field value : String) :
    Reports (checkText field value) (textFaults field value) := by
  unfold checkText textFaults
  rw [← List.head?_filter]
  cases value.toList.filter (fun c => !Xml.isLegal c) with
  | nil => exact ⟨(), rfl⟩
  | cons c cs => rfl

theorem keyword_ofKeyword? {s : String} {k : Symbolizer.Kind}
    (h : Symbolizer.Kind.ofKeyword? s = some k) : k.keyword = s := by
  unfold Symbolizer.Kind.ofKeyword? at h
  repeat' split at h
  all_goals cases h <;> simp_all [Symbolizer.Kind.keyword]

theorem param_makes {kind : Symbolizer.Kind} {entry : String × Json} {p : String × String}
    (h : param kind entry = .ok p) : p.1 = entry.1 ∧ entry.2.scalar? = some p.2 := by
  unfold param at h
  cases hs : entry.2.scalar? with
  | none =>
    rw [hs] at h
    cases h
  | some text =>
    rw [hs] at h
    obtain ⟨⟨⟩, -, h⟩ := bind_eq_ok.1 h
    obtain ⟨⟨⟩, -, h⟩ := bind_eq_ok.1 h
    obtain rfl := pure_eq_ok.1 h
    exact ⟨rfl, rfl⟩

theorem symbolizer_makes {e : SymbolizerEntry} {s : Symbolizer} (h : e.symbolizer = .ok s) :
    e.Makes s := by
  unfold SymbolizerEntry.symbolizer at h
  cases hk : Symbolizer.Kind.ofKeyword? e.kind with
  | none =>
    rw [hk] at h
    cases h
  | some kind =>
    rw [hk] at h
    obtain ⟨params, hparams, h⟩ := bind_eq_ok.1 h
    obtain rfl := pure_eq_ok.1 h
    exact ⟨keyword_ofKeyword? hk, (mapM_eq_ok.1 hparams).imp fun _ _ => param_makes⟩

theorem rule_makes {e : RuleEntry} {r : Rule} (h : e.rule = .ok r) : e.Makes r := by
  obtain ⟨symbolizers, hs, h⟩ := bind_eq_ok.1 h
  obtain ⟨⟨⟩, -, h⟩ := bind_eq_ok.1 h
  obtain rfl := pure_eq_ok.1 h
  exact ⟨rfl, rfl, rfl, (mapM_eq_ok.1 hs).imp fun _ _ => symbolizer_makes⟩

theorem style_makes {e : StyleEntry} {s : Style} (h : e.style = .ok s) : e.Makes s := by
  obtain ⟨⟨⟩, -, h⟩ := bind_eq_ok.1 h
  obtain ⟨rules, hrules, h⟩ := bind_eq_ok.1 h
  obtain rfl := pure_eq_ok.1 h
  exact ⟨rfl, (mapM_eq_ok.1 hrules).imp fun _ _ => rule_makes⟩

/- The other way round, an entry is read as whatever it makes, if all texts of that are legal. -/

theorem param_of_makes {kind : Symbolizer.Kind} {entry : String × Json} {p : String × String}
    (h : p.1 = entry.1 ∧ entry.2.scalar? = some p.2) (hl : Xml.Legal p.1.toList ∧ Xml.Legal p.2.toList) :
    param kind entry = .ok p := by
  obtain ⟨name, value⟩ := entry
  obtain ⟨rfl, hvalue⟩ := h
  unfold param
  rw [hvalue]
  exact bind_eq_ok.2 ⟨(), checkText_eq_ok.2 hl.1, bind_eq_ok.2 ⟨(), checkText_eq_ok.2 hl.2, rfl⟩⟩

theorem symbolizer_of_makes {e : SymbolizerEntry} {s : Symbolizer} (h : e.Makes s) (hl : s.Legal) :
    e.symbolizer = .ok s := by
  have hparams : e.params.mapM (param s.kind) = .ok s.params :=
    mapM_of_forall₂ h.2 (fun p hp _ hmakes => param_of_makes hmakes (hl p hp))
  unfold SymbolizerEntry.symbolizer
  rw [← h.1, Symbolizer.Kind.ofKeyword?_keyword]
  exact bind_eq_ok.2 ⟨s.params, hparams, rfl⟩

theorem rule_of_makes {e : RuleEntry} {r : Rule} (h : e.Makes r) (hl : r.Legal) : e.rule = .ok r := by
  have hsymbolizers : e.symbolizers.mapM SymbolizerEntry.symbolizer = .ok r.symbolizers :=
    mapM_of_forall₂ h.symbolizers
      (fun s hs _ hmakes => symbolizer_of_makes hmakes (hl.symbolizers s hs))
  have hfilter : checkFilter e.filter = .ok () := by
    rw [← h.filter]
    cases hf : r.filter with
    | none => rfl
    | some text => exact checkText_eq_ok.2 (hl.filter text hf)
  obtain ⟨filter, minzoom, maxzoom, symbolizers⟩ := r
  obtain ⟨rfl, rfl, rfl, -⟩ := h
  exact bind_eq_ok.2 ⟨symbolizers, hsymbolizers, bind_eq_ok.2 ⟨(), hfilter, rfl⟩⟩

theorem style_of_makes {e : StyleEntry} {s : Style} (h : e.Makes s) (hl : s.Legal) :
    e.style = .ok s := by
  have hrules : e.rules.mapM RuleEntry.rule = .ok s.rules :=
    mapM_of_forall₂ h.rules (fun r hr _ hmakes => rule_of_makes hmakes (hl.rules r hr))
  have hname : checkText "style name" e.name = .ok () := by
    rw [← h.name]
    exact checkText_eq_ok.2 hl.name
  obtain ⟨name, rules⟩ := s
  obtain ⟨rfl, -⟩ := h
  exact bind_eq_ok.2 ⟨(), hname, bind_eq_ok.2 ⟨rules, hrules, rfl⟩⟩

/-- What comes of entries that are read. -/
theorem styles_eq_ok {entries : List StyleEntry} {styles : List Style} :
    entries.mapM StyleEntry.style = .ok styles ↔
      List.Forall₂ StyleEntry.Makes entries styles ∧ ∀ s ∈ styles, s.Legal := by
  constructor
  · intro h
    exact ⟨(mapM_eq_ok.1 h).imp fun _ _ => style_makes, forall_of_mapM h (fun _ _ _ => style_legal)⟩
  · rintro ⟨hmakes, hlegal⟩
    exact mapM_of_forall₂ hmakes (fun s hs _ h => style_of_makes h (hlegal s hs))

end StyledMap.Drawing
