import StyledMap.Proofs.Decimal.Plain
import StyledMap.Proofs.Ini.Lines
import StyledMap.Proofs.Settings.Loaded
import StyledMap.Settings.Store

/-! Settings that were loaded, written and loaded again. They come back, their paths perhaps spelled in
another way, if all texts of free form among them are plain. Writing escapes nothing while reading undoes
escapes, so it takes no more than one backslash for the settings to change. -/
namespace StyledMap.Settings
open Ini (Line PlainValue ReadAs)
open Text (isBlank)

/-- The texts of free form that a settings file states. -/
def freeValues (home : Option Path) (c : Settings) : List String :=
  [(c.engine.library.map (shorten home)).getD "", shorten home c.engine.resources, c.render.srs,
    c.render.background, shorten home c.log]

/-- What it states in words of its own and in numbers. -/
def fixedValues (c : Settings) : RowOrder × Bool × Nat × Nat × Nat :=
  (c.engine.rowOrder, c.engine.reentrant, c.render.maxWidth, c.render.maxHeight, c.render.timeout)

def lines (home : Option Path) (c : Settings) : List Line :=
  engineLines home c.engine ++ .blank :: (renderLines c.render ++ .blank :: logLines home c.log)

/-- What its lines state. -/
def file (home : Option Path) (c : Settings) : Ini :=
  Ini.ofStatements ((c.lines home).filterMap Line.statement?)

def withSrs (c : Settings) (srs : String) : Settings := { c with render := { c.render with srs := srs } }

def keyChars : List Char := "abcdefghijklmnopqrstuvwxyz_".toList

theorem plain_nat (n : Nat) : PlainValue (Text.nat n) := by
  refine Ini.plainValue_of_forall (fun c hc => ?_)
  rw [Text.nat, String.toList_ofList] at hc
  exact (show ∀ c ∈ Text.decimalChars, isBlank c = false ∧ Ini.isQuote c = false ∧ c ≠ '\\' by decide)
    c (Text.ofNat_chars n c hc)

theorem plain_order (o : RowOrder) : PlainValue o.text := by
  cases o <;> exact Ini.plainValue_of_forall (by decide)

theorem plain_switch (b : Bool) : PlainValue (if b then "true" else "false") := by
  cases b <;> exact Ini.plainValue_of_forall (by decide)

section literals
variable {s : String} {cs : List Char} (hs : s = String.ofList cs)
include hs

theorem remark_readAs (h : '\n' ∉ cs) : (Line.remark s).ReadAs (.remark s) := by
  subst hs
  exact .remark (by rwa [String.toList_ofList])

/-- A remark that ends with a default. -/
theorem default_readAs (h : '\n' ∉ cs) {default : String} (hdefault : '\n' ∉ default.toList) :
    (Line.remark (s ++ default ++ ")")).ReadAs (.remark (s ++ default ++ ")")) := by
  subst hs
  exact .remark (by simp [h, hdefault])

/-- A section whose name is in small letters. -/
theorem heading_readAs (h : ∀ c ∈ cs, c ∈ keyChars) : (Line.heading s).ReadAs (.heading s) := by
  have hname : ∀ c ∈ keyChars, isBlank c = false ∧ Ini.isQuote c = false ∧ c ≠ '\\' := by decide
  have hclose : ∀ c ∈ keyChars, (c == ']') = false ∧ c ≠ '\\' := by decide
  rw [← String.toList_ofList (l := cs), ← hs] at h
  exact .heading ⟨(Ini.plainValue_of_forall (fun c hc => hname c (h c hc))).trimmed,
    fun c hc => hclose c (h c hc)⟩

/-- An entry whose key is in small letters. -/
theorem entry_readAs (h : ∀ c ∈ cs, c ∈ keyChars) (hne : cs ≠ []) {written meant : String}
    (hvalue : ReadAs written meant) : (Line.entry s written).ReadAs (.entry s meant) := by
  have hblank : ∀ c ∈ keyChars, isBlank c = false := by decide
  have hfirst : ∀ c ∈ keyChars, c ∉ [';', '#', '[', '\ufeff'] := by decide
  have hassign : ∀ c ∈ keyChars, Ini.isAssign c = false ∧ c ≠ '\\' := by decide
  rw [← String.toList_ofList (l := cs), ← hs] at h hne
  exact .entry ⟨Text.firm_of_forall hne (fun c hc => hblank c (h c hc)),
    fun c hc => hfirst c (h c (List.mem_of_mem_head? hc)), fun c hc => hassign c (h c hc)⟩ hvalue

end literals

theorem newline_not_mem_nat (n : Nat) : '\n' ∉ (Text.nat n).toList := fun h => by
  rw [Text.nat, String.toList_ofList] at h
  exact absurd (Text.ofNat_chars n _ h) (by decide)

theorem engineLines_readAs {home : Option Path} {e f : Engine}
    (hlibrary : ReadAs ((e.library.map (shorten home)).getD "") ((f.library.map (shorten home)).getD ""))
    (hresources : ReadAs (shorten home e.resources) (shorten home f.resources))
    (horder : e.rowOrder = f.rowOrder) (hreentrant : e.reentrant = f.reentrant) :
    List.Forall₂ Line.ReadAs (engineLines home e) (engineLines home f) := by
  simp only [engineLines, horder, hreentrant, List.forall₂_cons]
  exact ⟨heading_readAs rfl (by decide), remark_readAs rfl (by decide), remark_readAs rfl (by decide),
    entry_readAs rfl (by decide) (by decide) hlibrary, remark_readAs rfl (by decide),
    entry_readAs rfl (by decide) (by decide) hresources, remark_readAs rfl (by decide),
    remark_readAs rfl (by decide), remark_readAs rfl (by decide),
    entry_readAs rfl (by decide) (by decide) (plain_order _).readAs, remark_readAs rfl (by decide),
    remark_readAs rfl (by decide), entry_readAs rfl (by decide) (by decide) (plain_switch _).readAs,
    .nil⟩

theorem renderLines_readAs {r t : Render} (hsrs : ReadAs r.srs t.srs)
    (hbackground : ReadAs r.background t.background) (hwidth : r.maxWidth = t.maxWidth)
    (hheight : r.maxHeight = t.maxHeight) (htimeout : r.timeout = t.timeout) :
    List.Forall₂ Line.ReadAs (renderLines r) (renderLines t) := by
  simp only [renderLines, hwidth, hheight, htimeout, List.forall₂_cons]
  exact ⟨heading_readAs rfl (by decide), remark_readAs rfl (by decide),
    entry_readAs rfl (by decide) (by decide) hsrs, default_readAs rfl (by decide) (by decide),
    entry_readAs rfl (by decide) (by decide) hbackground,
    default_readAs rfl (by decide) (newline_not_mem_nat _),
    entry_readAs rfl (by decide) (by decide) (plain_nat _).readAs,
    entry_readAs rfl (by decide) (by decide) (plain_nat _).readAs,
    default_readAs rfl (by decide) (newline_not_mem_nat _),
    entry_readAs rfl (by decide) (by decide) (plain_nat _).readAs, .nil⟩

theorem logLines_readAs {home : Option Path} {p q : Path} (h : ReadAs (shorten home p) (shorten home q)) :
    List.Forall₂ Line.ReadAs (logLines home p) (logLines home q) := by
  simp only [logLines, List.forall₂_cons]
  exact ⟨heading_readAs rfl (by decide), remark_readAs rfl (by decide),
    entry_readAs rfl (by decide) (by decide) h, .nil⟩

/-- A written file states what the settings with the same words and numbers do whose texts are those that
the written ones mean. -/
theorem read?_text {home : Option Path} {c d : Settings}
    (hfree : List.Forall₂ ReadAs (c.freeValues home) (d.freeValues home))
    (hfixed : c.fixedValues = d.fixedValues) : Ini.read? (c.text home) = some (d.file home) := by
  simp only [freeValues, List.forall₂_cons] at hfree
  obtain ⟨hlibrary, hresources, hsrs, hbackground, hlog, -⟩ := hfree
  simp only [fixedValues, Prod.mk.injEq] at hfixed
  obtain ⟨horder, hreentrant, hwidth, hheight, htimeout⟩ := hfixed
  have hlines : List.Forall₂ Line.ReadAs (c.lines home) (d.lines home) :=
    List.rel_append (engineLines_readAs hlibrary hresources horder hreentrant) (.cons .blank
      (List.rel_append (renderLines_readAs hsrs hbackground hwidth hheight htimeout)
        (.cons .blank (logLines_readAs hlog))))
  exact Ini.read?_write hlines

/-- No blanks stand at the ends. -/
def Trimmed (s : String) : Prop := Text.trimmed s = s

instance (s : String) : Decidable (Trimmed s) := inferInstanceAs (Decidable (Text.trimmed s = s))

theorem Trimmed.nonblank? {s : String} (h : Trimmed s) (hne : s ≠ "") : Text.nonblank? s = some s := by
  rw [Text.nonblank?, h, if_neg hne]

theorem ofText?_text (o : RowOrder) : RowOrder.ofText? o.text = some o := by
  cases o <;> decide

theorem switch?_text (b : Bool) : switch? (if b then "true" else "false") = some b := by
  cases b <;> decide

theorem positive?_nat {limit n : Nat} (h : 0 < n ∧ n ≤ limit) :
    positive? limit (Text.nat n) = some n := by
  have htrim := (plain_nat n).trimmed
  rw [Text.nat, String.toList_ofList] at htrim
  have hplus : Text.dropPlus (Text.ofNat n) = Text.ofNat n := by
    unfold Text.dropPlus
    split
    · rename_i cs hcs
      exact absurd (Text.ofNat_chars n '+' (hcs ▸ List.mem_cons_self)) (by decide)
    · rfl
  have hread : Text.unsigned? limit (Text.ofNat n) = some n := by
    rw [Text.unsigned?, hplus, Text.digits?_ofNat]
    exact if_pos h.2
  obtain ⟨k, rfl⟩ : ∃ k, n = k + 1 := ⟨n - 1, by omega⟩
  rw [positive?, Text.nat, String.toList_ofList, htrim, hread]

theorem valueOr_some {α : Type} {f : Ini} {group key v : String} {read : String → Option α} {a : α}
    (hget : f.get? group key = some v) (hread : read v = some a) (reason : String) (d : α) :
    valueOr f group key read reason d = .ok a := by
  simp only [valueOr, hget, hread]

/-- A path as it is read after it was written. -/
def respell (home : Option Path) (p : Path) : Path := expand home (shorten home p)

def respelled (home : Option Path) (c : Settings) : Settings :=
  { c with
    engine := { c.engine with
      library := c.engine.library.map (respell home)
      resources := respell home c.engine.resources }
    log := respell home c.log }

theorem pathOr_some {home : Option Path} {p : Path} {given : Option String} (hget : given = some (shorten home p))
    (hp : Named home p) (htrim : Trimmed (shorten home p)) (d : Path) :
    pathOr home d given = respell home p := by
  rw [pathOr, hget, Option.bind_some, htrim.nonblank? hp.shorten_ne]
  rfl

theorem textOr_some {s : String} {given : Option String} (hget : given = some s) (hne : s ≠ "")
    (htrim : Trimmed s) (d : String) : textOr d given = s := by
  rw [textOr, hget, Option.bind_some, htrim.nonblank? hne]
  rfl

section reload
variable {home : Option Path} {c : Settings} (hloaded : Loaded home c)
include hloaded

theorem same_respelled : c.same (c.respelled home) = true := by
  have hpath {p : Path} (h : Named home p) : p.same (respell home p) = true :=
    decide_eq_true (expand_shorten h).symm
  cases hl : c.engine.library with
  | none => simp [same, respelled, hl, hpath hloaded.resources, hpath hloaded.log]
  | some p =>
    simp [same, respelled, hl, hpath (hloaded.library p hl), hpath hloaded.resources,
      hpath hloaded.log]

theorem ofIni_file (htrim : ∀ s ∈ c.freeValues home, Trimmed s) :
    ofIni home (c.file home) = .ok (c.respelled home) := by
  simp only [freeValues, List.forall_mem_cons] at htrim
  obtain ⟨hlibrary, hresources, hsrs, hbackground, hlog, -⟩ := htrim
  have library : (((c.file home).get? "engine" "library").bind Text.nonblank?).map (expand home) =
      c.engine.library.map (respell home) := by
    rw [show (c.file home).get? "engine" "library" =
      some ((c.engine.library.map (shorten home)).getD "") from rfl, Option.bind_some]
    cases hl : c.engine.library with
    | none => rfl
    | some p =>
      rw [hl, Option.map_some, Option.getD_some] at hlibrary
      rw [Option.map_some, Option.getD_some, hlibrary.nonblank? (hloaded.library p hl).shorten_ne]
      rfl
  simp only [ofIni, library,
    pathOr_some (show (c.file home).get? "engine" "resource_dir" = _ from rfl) hloaded.resources
      hresources,
    valueOr_some (show (c.file home).get? "engine" "row_order" = _ from rfl) (ofText?_text _),
    valueOr_some (show (c.file home).get? "engine" "reentrant" = _ from rfl) (switch?_text _),
    textOr_some (show (c.file home).get? "render" "srs" = _ from rfl) hloaded.srs hsrs,
    textOr_some (show (c.file home).get? "render" "background_color" = _ from rfl) hloaded.background
      hbackground,
    valueOr_some (show (c.file home).get? "render" "max_width" = _ from rfl)
      (positive?_nat hloaded.maxWidth),
    valueOr_some (show (c.file home).get? "render" "max_height" = _ from rfl)
      (positive?_nat hloaded.maxHeight),
    valueOr_some (show (c.file home).get? "render" "timeout" = _ from rfl)
      (positive?_nat hloaded.timeout),
    pathOr_some (show (c.file home).get? "logging" "file" = _ from rfl) hloaded.log hlog]
  rfl

end reload

theorem ofText_loaded {home : Option Path} {s : String} {c : Settings} (h : ofText home s = .ok c) :
    Loaded home c := by
  unfold ofText at h
  split at h
  · exact ofIni_loaded h
  · cases h

/-- What written settings are loaded as. -/
theorem ofText_text {home : Option Path} {c d : Settings} (hd : Loaded home d)
    (htrim : ∀ s ∈ d.freeValues home, Trimmed s)
    (hfree : List.Forall₂ ReadAs (c.freeValues home) (d.freeValues home))
    (hfixed : c.fixedValues = d.fixedValues) : ofText home (c.text home) = .ok (d.respelled home) := by
  rw [ofText, read?_text hfree hfixed]
  exact ofIni_file hd htrim

/-- Settings that a file holds are the same after they were written to a file and read from there, if their
texts of free form are plain: no backslash and no end of a line in them, no quote in front, no blanks at
the ends. -/
theorem reload_same {home : Option Path} {s : String} {c : Settings} (h : ofText home s = .ok c)
    (hplain : ∀ v ∈ c.freeValues home, PlainValue v) :
    ∃ c', ofText home (c.text home) = .ok c' ∧ c.same c' = true := by
  have hloaded := ofText_loaded h
  have htrim : ∀ v ∈ c.freeValues home, Trimmed v := fun v hv => by
    rw [Trimmed, Text.trimmed, (hplain v hv).trimmed, String.ofList_toList]
  have hfree : List.Forall₂ ReadAs (c.freeValues home) (c.freeValues home) :=
    List.forall₂_same.2 (fun v hv => (hplain v hv).readAs)
  exact ⟨c.respelled home, ofText_text hloaded htrim hfree rfl, same_respelled hloaded⟩

theorem reload_same_sample :
    ofText (some ⟨"/h"⟩) "[render]\nsrs = +proj=merc +over\n" =
        .ok ((default (some ⟨"/h"⟩)).withSrs "+proj=merc +over") ∧
      ∃ c', ofText (some ⟨"/h"⟩)
          (text (some ⟨"/h"⟩) ((default (some ⟨"/h"⟩)).withSrs "+proj=merc +over")) = .ok c' ∧
        ((default (some ⟨"/h"⟩)).withSrs "+proj=merc +over").same c' = true := by
  have hread : Ini.read? "[render]\nsrs = +proj=merc +over\n" =
      some ⟨[⟨"render", [("srs", "+proj=merc +over")]⟩]⟩ := by
    decide +kernel
  have hloaded : ofText (some ⟨"/h"⟩) "[render]\nsrs = +proj=merc +over\n" =
      .ok ((default (some ⟨"/h"⟩)).withSrs "+proj=merc +over") := by
    rw [ofText, hread]
    rfl
  exact ⟨hloaded, reload_same hloaded (by decide +kernel)⟩

/-- Settings do not always come back: a backslash in one of their texts is lost, together with what it
stands in front of. -/
theorem reload_backslash : ¬ ∀ (home : Option Path) (s : String) (c : Settings), ofText home s = .ok c →
    ∃ c', ofText home (c.text home) = .ok c' ∧ c.same c' = true := by
  intro h
  have hread : Ini.read? "[render]\nsrs = a\\\\b\n" = some ⟨[⟨"render", [("srs", "a\\b")]⟩]⟩ := by
    decide +kernel
  have hloaded : ofText (some ⟨"/h"⟩) "[render]\nsrs = a\\\\b\n" = .ok ((default (some ⟨"/h"⟩)).withSrs "a\\b") := by
    rw [ofText, hread]
    rfl
  have hmeant : Loaded (some ⟨"/h"⟩) ((default (some ⟨"/h"⟩)).withSrs "a\x08") :=
    ofIni_loaded (f := ⟨[⟨"render", [("srs", "a\x08")]⟩]⟩) rfl
  have hfree : List.Forall₂ ReadAs (((default (some ⟨"/h"⟩)).withSrs "a\\b").freeValues (some ⟨"/h"⟩))
      (((default (some ⟨"/h"⟩)).withSrs "a\x08").freeValues (some ⟨"/h"⟩)) := by
    have hsrs : ReadAs "a\\b" "a\x08" := by
      rw [show "a\\b" = String.ofList ['a', '\\', 'b'] from rfl,
        show "a\x08" = String.ofList ['a', '\x08'] from rfl]
      exact Ini.readAs_escape (d := 'a') (c := 'b') (p := []) (q := []) (by decide) (by decide)
        (by decide) (by decide) (by decide) (by decide) (by decide)
    refine .cons ?_ (.cons ?_ (.cons hsrs (.cons ?_ (.cons ?_ .nil))))
    all_goals exact PlainValue.readAs (by decide +kernel)
  obtain ⟨c', hc', hsame⟩ := h _ _ _ hloaded
  rw [ofText_text hmeant (by decide +kernel) hfree rfl, Except.ok.injEq] at hc'
  subst hc'
  exact absurd hsame (by decide +kernel)

end StyledMap.Settings
