import StyledMap.Proofs.MapDocument.Clean
import StyledMap.Proofs.Request.EngineUse
import StyledMap.Render.Native

/-! The texts of a request on their way to the engine. All of a job's texts are legal, so are those
of its document, and an engine in a library is never given a document that it must refuse. -/
namespace StyledMap.Request
open Steps Xml

structure Job.Legal (j : Job) : Prop where
  styles : ∀ s ∈ j.styles, s.Legal
  layers : ∀ l ∈ j.layers, l.Legal
  srs : Xml.Legal j.srs.toList
  background : Xml.Legal j.background.toList

namespace Params
variable {p : Params}

theorem readWith_ok {α : Type} {name : String} {read : String → Except Drawing.Fault α} {a : α}
    (h : p.readWith name read = .ok a) : ∃ raw, read raw = .ok a := by
  obtain ⟨raw, -, h⟩ := bind_eq_ok.1 h
  exact ⟨raw, mapError_eq_ok.1 h⟩

theorem styles_legal {styles : List Style} (h : p.styles = .ok styles) : ∀ s ∈ styles, s.Legal := by
  obtain ⟨given, hg, h⟩ := bind_eq_ok.1 h
  obtain ⟨raw, hr⟩ := readWith_ok hg
  split at h
  · cases h
  · obtain rfl := pure_eq_ok.1 h
    exact Drawing.readStyles_legal hr

theorem layers_legal {layers : List Layer} (h : p.layers = .ok layers) : ∀ l ∈ layers, l.Legal := by
  obtain ⟨given, hg, h⟩ := bind_eq_ok.1 h
  obtain ⟨raw, hr⟩ := readWith_ok hg
  split at h
  · cases h
  · obtain rfl := pure_eq_ok.1 h
    exact Drawing.readLayers_legal hr

theorem legal_of_checked {name value : String} (h : checked name value = .ok ()) :
    Legal value.toList :=
  Drawing.checkText_eq_ok.1 (mapError_eq_ok.1 h)

/-- Wherever the texts of a job come from, the settings included, they are legal. -/
theorem Gives.legal {s : Settings.Render} {j : Job} (h : p.Gives s j) : j.Legal where
  styles := styles_legal h.styles
  layers := layers_legal h.layers
  srs := legal_of_checked h.srsChecked
  background := legal_of_checked h.backgroundChecked

end Params

theorem Job.Legal.document {j : Job} (h : j.Legal) {document : MapDocument}
    (hd : j.compile.2 = .ok document) : Xml.Legal document.text.toList :=
  (MapDocument.compile_clean h.styles h.layers h.srs h.background hd).legal

/-- What an engine in a library answers to a document with a NUL in it. -/
def nulInDocument : Render.Fault :=
  .engine Render.Native.name "map document contains an interior NUL byte"

/-- A code is written in digits, so no report of a code reads like a refusal. -/
theorem code_text_ne (path : String) (code : Int) :
    path ++ " returned code " ++ Text.int code ≠ "map document contains an interior NUL byte" := by
  intro h
  have hchars : ∀ c ∈ (Text.int code).toList, c ∈ '-' :: Text.decimalChars := by
    have hdigits : ∀ c ∈ (Text.nat code.natAbs).toList, c ∈ '-' :: Text.decimalChars := by
      rw [Text.nat, String.toList_ofList]
      exact fun c hc => List.mem_cons_of_mem _ (Text.ofNat_chars _ c hc)
    unfold Text.int
    split
    · rw [String.toList_append, List.forall_mem_append]
      exact ⟨by decide, hdigits⟩
    · exact hdigits
  have hne : (Text.int code).toList ≠ [] := by
    unfold Text.int
    split <;> simp [Text.nat, Text.ofNat_ne_nil]
  have hlast : (Text.int code).toList.getLast? = some 'e' := by
    have hl := congrArg (fun t : String => t.toList.getLast?) h
    simp only [String.toList_append, List.getLast?_append_of_ne_nil _ hne] at hl
    rw [hl]
    decide
  exact absurd (hchars 'e' (List.mem_of_getLast? hlast)) (by decide)

theorem draw_ne_nulInDocument {c : Render.Call} (h : Legal c.document.text.toList) (path : String)
    (entry : Render.Entry) : Render.Native.draw path entry c ≠ .failed nulInDocument := by
  have hnul : Render.hasNul c.document.text = false := by
    rw [Bool.eq_false_iff]
    intro hmem
    exact absurd (h _ (List.contains_iff_mem.1 hmem)) (by decide)
  unfold Render.Native.draw
  intro hd
  split at hd
  · rename_i f hf
    obtain rfl : f = nulInDocument := by simpa using hd
    unfold Render.ForeignCall.of at hf
    simp only [hnul, Bool.false_eq_true, ↓reduceIte] at hf
    split at hf
    · simp [nulInDocument] at hf
    · split at hf
      · cases hf
      · split at hf <;> cases hf
  · dsimp only at hd
    split at hd
    · cases hd
    · simp only [Render.Drawn.failed.injEq, nulInDocument, Render.Fault.engine.injEq] at hd
      exact code_text_ne path _ hd.2

/-- Illegal text reaches neither a job nor a document nor an engine, whatever the request and the
settings are. -/
theorem legal_to_the_engine (p : Params) :
    (∀ settings job, p.job settings = .ok job → job.Legal ∧
      ∀ document, job.compile.2 = .ok document → Legal document.text.toList) ∧
    ∀ s : Service, ∀ c ∈ (s.handle p).calls, Legal c.document.text.toList ∧
      ∀ path entry, Render.Native.draw path entry c ≠ .failed nulInDocument := by
  have hjob (settings : Settings.Render) (job : Job) (hj : p.job settings = .ok job) : job.Legal :=
    ((p.job_eq_ok settings job).1 hj).legal
  refine ⟨fun settings job hj => ?_, fun s c hc => ?_⟩
  · exact ⟨hjob settings job hj, fun document hd => (hjob settings job hj).document hd⟩
  · obtain ⟨job, document, canvas, hj, hd, -, rfl⟩ := ((s.course p).calls_due.2 c).1 hc
    have hlegal := (hjob s.settings job hj).document hd
    exact ⟨hlegal, draw_ne_nulInDocument hlegal⟩

end StyledMap.Request
