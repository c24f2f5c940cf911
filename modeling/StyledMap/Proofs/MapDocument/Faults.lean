import StyledMap.MapDocument.Compile
import StyledMap.Proofs.Reports
import StyledMap.Proofs.Scale.Table

/-! What can be wrong with a map: a rule names a threshold that the denominators do not make, or a pattern
or a label has a parameter that cannot be an attribute. A document is compiled exactly if nothing is
wrong, and otherwise the first fault is reported, in the order of the document. -/
namespace StyledMap

/-- A pattern or a label that has no tag: a name is none, or stands twice. -/
def Symbolizer.Faulty (s : Symbolizer) : Prop :=
  (s.kind = .polygonPattern ∨ s.kind = .text) ∧
    ((∃ p ∈ s.params, Xml.isName p.1.toList = false) ∨ ¬ (s.params.map (·.1)).Nodup)

/-- Something is wrong with a rule, where there are `count` denominators. -/
def Rule.Faulty (count : Nat) (r : Rule) : Prop :=
  (∃ m, r.maxzoom = some m ∧ ¬ m + 1 < count) ∨
  (∃ m, r.minzoom = some m ∧ ¬ (1 ≤ m ∧ m + 1 < count)) ∨
  ∃ s ∈ r.symbolizers, s.Faulty

/- What is left of a description without all that cannot be wrong with it: the names of parameters
where they are attributes, the bounds of rules, and the names of styles, which faults are reported with. -/

def Symbolizer.names (s : Symbolizer) : Symbolizer := ⟨s.kind, s.params.map (fun p => (p.1, ""))⟩

def Rule.frame (r : Rule) : Rule :=
  ⟨none, r.minzoom, r.maxzoom,
    (r.symbolizers.filter (fun s => MapDocument.paramStyle s.kind = .attributes)).map Symbolizer.names⟩

def Style.frame (s : Style) : Style := ⟨s.name, s.rules.map Rule.frame⟩

namespace MapDocument
open Steps

/-- What is wrong with the name of an attribute after earlier ones. -/
def nameFaults (kind : Symbolizer.Kind) (earlier : List String) (name : String) : List Fault :=
  (if Xml.isName name.toList then [] else [.invalidName kind name]) ++
    (if name ∈ earlier then [.repeatedName kind name] else [])

def attributeFaults (kind : Symbolizer.Kind) (names : List String) : List Fault :=
  names.zipIdx.flatMap (fun n => nameFaults kind (names.take n.2) n.1)

def symbolizerFaults (s : Symbolizer) : List Fault :=
  match paramStyle s.kind with
  | .elements => []
  | .attributes => attributeFaults s.kind (s.params.map (·.1))

def boundFaults (count : Nat) (style : String) (rule : Nat) (kind : Threshold.Kind) :
    Option Nat → List Fault
  | none => []
  | some zoom =>
    if kind.offset ≤ zoom ∧ zoom + 1 < count then [] else [.unknownZoom style rule kind zoom]

def ruleFaults (count : Nat) (style : String) (r : Rule × Nat) : List Fault :=
  boundFaults count style r.2 .maxScale r.1.maxzoom ++
    (boundFaults count style r.2 .minScale r.1.minzoom ++ r.1.symbolizers.flatMap symbolizerFaults)

def styleFaults (count : Nat) (s : Style) : List Fault :=
  s.rules.zipIdx.flatMap (ruleFaults count s.name)

/-- All that is wrong with a map of `count` denominators, in the order of the document. -/
def faults (count : Nat) (styles : List Style) : List Fault := styles.flatMap (styleFaults count)

/-- Names are checked against a set of those before; only its members matter. -/
theorem checkNames_reports {kind : Symbolizer.Kind} {seen earlier names : List String}
    (h : ∀ n, n ∈ seen ↔ n ∈ earlier) :
    Reports (checkNames kind seen names)
      (names.zipIdx.flatMap (fun n => nameFaults kind (earlier ++ names.take n.2) n.1)) := by
  induction names generalizing seen earlier with
  | nil => exact ⟨(), rfl⟩
  | cons n ns ih =>
    have hnext : ∀ m, m ∈ n :: seen ↔ m ∈ earlier ++ [n] := by
      intro m
      simp [h, or_comm]
    have hrest : (ns.zipIdx 1).flatMap (fun m => nameFaults kind (earlier ++ (n :: ns).take m.2) m.1) =
        ns.zipIdx.flatMap (fun m => nameFaults kind (earlier ++ [n] ++ ns.take m.2) m.1) := by
      rw [List.zipIdx_succ, List.flatMap_map]
      simp
    rw [List.zipIdx_cons, List.flatMap_cons, Nat.zero_add, hrest, List.take_zero, List.append_nil]
    have hns := ih hnext
    by_cases hname : Xml.isName n.toList = true
    · by_cases hmem : n ∈ earlier
      · have hcheck : checkNames kind seen (n :: ns) = .error (.repeatedName kind n) := by
          simp [checkNames, hname, h, hmem]
        rw [hcheck, nameFaults, if_pos hname, if_pos hmem]
        rfl
      · have hcheck : checkNames kind seen (n :: ns) = checkNames kind (n :: seen) ns := by
          simp [checkNames, hname, h, hmem]
        rw [hcheck, nameFaults, if_pos hname, if_neg hmem]
        exact hns
    · have hcheck : checkNames kind seen (n :: ns) = .error (.invalidName kind n) := by
        simp [checkNames, hname]
      rw [hcheck, nameFaults, if_neg hname]
      rfl

theorem symbolizerItem_reports (s : Symbolizer) : Reports (symbolizerItem s) (symbolizerFaults s) := by
  unfold symbolizerItem symbolizerFaults
  cases paramStyle s.kind with
  | elements => exact ⟨_, rfl⟩
  | attributes =>
    have hnames : Reports (checkNames s.kind [] (s.params.map (·.1)))
        (attributeFaults s.kind (s.params.map (·.1))) := checkNames_reports (fun _ => Iff.rfl)
    exact hnames.map

section
variable (zooms : List Float) (style : String)

theorem thresholdItems_reports (rule : Nat) (kind : Threshold.Kind) (zoom : Option Nat) :
    Reports (thresholdItems (Threshold.table zooms) style rule kind zoom)
      (boundFaults zooms.length style rule kind zoom) := by
  cases zoom with
  | none => exact ⟨[], rfl⟩
  | some zoom =>
    simp only [thresholdItems, boundFaults, Threshold.find?_table]
    by_cases hbound : kind.offset ≤ zoom ∧ zoom + 1 < zooms.length
    · have hlt : zoom + kind.offset < zooms.length := by
        have hoffset : kind.offset ≤ 1 := by cases kind <;> decide
        omega
      rw [if_pos hbound, if_pos hbound, List.getElem?_eq_getElem hlt]
      exact ⟨_, rfl⟩
    · rw [if_neg hbound, if_neg hbound]
      rfl

theorem ruleItem_reports (r : Rule) (index : Nat) :
    Reports (ruleItem (Threshold.table zooms) style index r)
      (ruleFaults zooms.length style (r, index)) := by
  have hsymbolizers : Reports (r.symbolizers.mapM symbolizerItem)
      (r.symbolizers.flatMap symbolizerFaults) :=
    Reports.mapM (fun s _ => symbolizerItem_reports s)
  exact (thresholdItems_reports zooms style index .maxScale r.maxzoom).bind fun _ _ =>
    (thresholdItems_reports zooms style index .minScale r.minzoom).bind fun _ _ => hsymbolizers.map

theorem ruleItems_reports (rules : List Rule) (index : Nat) :
    Reports (ruleItems (Threshold.table zooms) style index rules)
      ((rules.zipIdx index).flatMap (ruleFaults zooms.length style)) := by
  induction rules generalizing index with
  | nil => exact ⟨[], rfl⟩
  | cons r rules ih =>
    rw [List.zipIdx_cons, List.flatMap_cons]
    exact (ruleItem_reports zooms style r index).bind fun _ _ => (ih (index + 1)).map

end

theorem mapItem_reports (styles : List Style) (zooms : List Float) (layers : List Layer)
    (srs background : String) :
    Reports (mapItem (Threshold.table zooms) styles layers srs background)
      (faults zooms.length styles) := by
  have hstyles : Reports (styles.mapM (styleItem (Threshold.table zooms)))
      (faults zooms.length styles) :=
    Reports.mapM (fun s _ => (ruleItems_reports zooms s.name s.rules 0).map)
  exact hstyles.map

/-- Compiling fails with the first fault of the map. -/
theorem compile_reports (styles : List Style) (zooms : List Float) (layers : List Layer)
    (srs background : String) :
    Reports (compile styles zooms layers srs background).2 (faults zooms.length styles) := by
  have hroot := mapItem_reports styles zooms layers srs background
  unfold compile
  cases hf : faults zooms.length styles with
  | nil =>
    rw [hf] at hroot
    obtain ⟨root, hroot⟩ := hroot
    simp only [hroot]
    exact ⟨_, rfl⟩
  | cons f rest =>
    rw [hf] at hroot
    have hroot : mapItem (Threshold.table zooms) styles layers srs background = .error f := hroot
    simp only [hroot]
    rfl

theorem nameFaults_eq_nil {kind : Symbolizer.Kind} {earlier : List String} {name : String} :
    nameFaults kind earlier name = [] ↔ Xml.isName name.toList = true ∧ name ∉ earlier := by
  unfold nameFaults
  by_cases hname : Xml.isName name.toList = true
  · by_cases hmem : name ∈ earlier <;> simp [hname, hmem]
  · simp [hname]

theorem attributeFaults_eq_nil {kind : Symbolizer.Kind} {names : List String} :
    attributeFaults kind names = [] ↔ (∀ n ∈ names, Xml.isName n.toList = true) ∧ names.Nodup := by
  have hat : attributeFaults kind names = [] ↔
      ∀ i (h : i < names.length), Xml.isName names[i].toList = true ∧ names[i] ∉ names.take i := by
    unfold attributeFaults
    rw [List.flatMap_eq_nil_iff]
    simp only [nameFaults_eq_nil, List.mem_zipIdx_iff_getElem?, Prod.forall]
    constructor
    · intro h i hi
      exact h names[i] i (List.getElem?_eq_getElem hi)
    · intro h n i hn
      obtain ⟨hi, rfl⟩ := List.getElem?_eq_some_iff.1 hn
      exact h i hi
  rw [hat, List.forall_mem_iff_getElem, List.Nodup, List.pairwise_iff_getElem]
  constructor
  · intro h
    refine ⟨fun i hi => (h i hi).1, fun i j hi hj hij he => (h j hj).2 ?_⟩
    exact List.mem_take_iff_getElem.2 ⟨i, by omega, he⟩
  · rintro ⟨hnames, hdistinct⟩ j hj
    refine ⟨hnames j hj, fun hmem => ?_⟩
    obtain ⟨i, hi, he⟩ := List.mem_take_iff_getElem.1 hmem
    exact hdistinct i j (by omega) hj (by omega) he

theorem paramStyle_eq_attributes {kind : Symbolizer.Kind} :
    paramStyle kind = .attributes ↔ kind = .polygonPattern ∨ kind = .text := by
  cases kind <;> decide

theorem symbolizerFaults_eq_nil {s : Symbolizer} : symbolizerFaults s = [] ↔ ¬ s.Faulty := by
  unfold symbolizerFaults Symbolizer.Faulty
  rw [← paramStyle_eq_attributes]
  cases paramStyle s.kind with
  | elements => simp
  | attributes =>
    simp only [attributeFaults_eq_nil, true_and, not_or, not_exists, not_and, Bool.not_eq_false,
      not_not, List.forall_mem_map]

theorem boundFaults_eq_nil {count rule : Nat} {style : String} {kind : Threshold.Kind}
    {zoom : Option Nat} : boundFaults count style rule kind zoom = [] ↔
      ¬ ∃ m, zoom = some m ∧ ¬ (kind.offset ≤ m ∧ m + 1 < count) := by
  cases zoom with
  | none => simp [boundFaults]
  | some m => simp [boundFaults]

theorem ruleFaults_eq_nil {count index : Nat} {style : String} {r : Rule} :
    ruleFaults count style (r, index) = [] ↔ ¬ r.Faulty count := by
  unfold ruleFaults Rule.Faulty
  rw [List.append_eq_nil_iff, List.append_eq_nil_iff, boundFaults_eq_nil, boundFaults_eq_nil,
    List.flatMap_eq_nil_iff]
  simp only [symbolizerFaults_eq_nil, Threshold.Kind.offset, Nat.zero_le, true_and, not_or,
    not_exists, not_and]

theorem faults_eq_nil {count : Nat} {styles : List Style} :
    faults count styles = [] ↔ ¬ ∃ s ∈ styles, ∃ r ∈ s.rules, r.Faulty count := by
  have hrule (s : Style) : styleFaults count s = [] ↔ ∀ r ∈ s.rules, ¬ r.Faulty count := by
    unfold styleFaults
    rw [List.flatMap_eq_nil_iff]
    simp only [Prod.forall, ruleFaults_eq_nil]
    constructor
    · intro h r hr
      obtain ⟨i, hi, rfl⟩ := List.mem_iff_getElem.1 hr
      exact h _ i (List.mem_zipIdx_iff_getElem?.2 (List.getElem?_eq_getElem hi))
    · intro h r i hi
      exact h r (List.fst_mem_of_mem_zipIdx hi)
  unfold faults
  rw [List.flatMap_eq_nil_iff]
  simp only [hrule, not_exists, not_and]

/- Faults look at nothing but the frame. -/

theorem symbolizerFaults_names (s : Symbolizer) : symbolizerFaults s.names = symbolizerFaults s := by
  unfold symbolizerFaults Symbolizer.names
  rw [List.map_map]
  rfl

theorem flatMap_filter_faults (l : List Symbolizer) :
    ((l.filter (fun s => paramStyle s.kind = .attributes)).map Symbolizer.names).flatMap
      symbolizerFaults = l.flatMap symbolizerFaults := by
  induction l with
  | nil => rfl
  | cons s l ih =>
    cases hs : paramStyle s.kind with
    | elements =>
      have hnone : symbolizerFaults s = [] := by
        simp [symbolizerFaults, hs]
      simp [hs, ih, hnone]
    | attributes => simp [hs, ih, symbolizerFaults_names]

theorem ruleFaults_frame (count : Nat) (style : String) (r : Rule) (index : Nat) :
    ruleFaults count style (r.frame, index) = ruleFaults count style (r, index) := by
  unfold ruleFaults
  rw [Rule.frame, flatMap_filter_faults]

theorem faults_frame (count : Nat) (styles : List Style) :
    faults count (styles.map Style.frame) = faults count styles := by
  have hstyle (s : Style) : styleFaults count s.frame = styleFaults count s := by
    unfold styleFaults Style.frame
    rw [List.zipIdx_map, List.flatMap_map]
    exact congrArg (s.rules.zipIdx.flatMap ·) (funext fun r => ruleFaults_frame count s.name r.1 r.2)
  unfold faults
  rw [List.flatMap_map]
  exact congrArg (styles.flatMap ·) (funext hstyle)

/-- A map has a document exactly if nothing is wrong with it; otherwise its first fault is reported.
Layers, filters, values, and what polygons and lines are drawn with make no difference to that. -/
theorem compile_first_fault (styles : List Style) (zooms : List Float) (layers : List Layer)
    (srs background : String) :
    ((∃ f, (compile styles zooms layers srs background).2 = .error f) ↔
      ∃ s ∈ styles, ∃ r ∈ s.rules, r.Faulty zooms.length) ∧
    (∀ f, (compile styles zooms layers srs background).2 = .error f ↔
      (faults zooms.length styles).head? = some f) ∧
    ∀ f, (compile styles zooms layers srs background).2 = .error f ↔
      (compile (styles.map Style.frame) zooms [] "" "").2 = .error f := by
  have hreports := compile_reports styles zooms layers srs background
  have hframe := compile_reports (styles.map Style.frame) zooms [] "" ""
  refine ⟨?_, hreports.error_iff, fun f => ?_⟩
  · rw [← not_iff_not, ← faults_eq_nil, ← hreports.ok_iff]
    cases (compile styles zooms layers srs background).2 <;> simp
  · rw [hreports.error_iff, hframe.error_iff, faults_frame]

end MapDocument
end StyledMap
