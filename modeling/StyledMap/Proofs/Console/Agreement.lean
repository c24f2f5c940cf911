import StyledMap.Proofs.Console.Compiling
import StyledMap.Proofs.MapDocument.Heading
import StyledMap.Proofs.Request.Course
import StyledMap.Proofs.Request.Parameters
import StyledMap.Proofs.Settings.Loaded

/-! The program and the service, given the same map. Both drop the blanks around the texts that they read,
but of the reference system and the background only the service does. So their documents are the same byte
for byte unless one of these two texts is blank or has blanks around it, and then they never are. -/
namespace StyledMap

/-- The document that a service makes of parameters. -/
def Request.Service.Compiles (s : Request.Service) (p : Request.Params) (document : MapDocument) : Prop :=
  ∃ job, p.job s.settings = .ok job ∧ job.compile.2 = .ok document

namespace Console
open Files (Tree)
open Steps

/-- A run of the command and a request are about the same map: the files hold what the parameters say, the
other texts are the same, and the service has the settings that the run will load. -/
structure SameMap (tree : Tree) (home : Option Path) (style layers : Path) (zooms : String)
    (srs background : Option String) (s : Request.Service) (p : Request.Params) : Prop where
  settings : ∃ settings : Settings, s.settings = settings.render ∧
    (step (Settings.load Files.treeAccess home (Settings.location home)) tree).1 = .ok settings
  style : ∃ text : String, tree.read style = .ok text.toUTF8 ∧ p.get? "style" = some text
  layers : ∃ text : String, tree.read layers = .ok text.toUTF8 ∧ p.get? "layers" = some text
  zooms : p.get? "zooms" = some zooms
  srs : p.get? "srs" = srs
  background : p.get? "bgcolor" = background

/-- A text that is not given, or that has nothing to lose by trimming. -/
def Unpadded (given : Option String) : Prop := ∀ text, given = some text → Text.Firm text.toList

theorem settingsAt_firm {t : Tree} {home : Option Path} {settings : Settings}
    (h : settingsAt t home = .ok settings) :
    Text.Firm settings.render.srs.toList ∧ Text.Firm settings.render.background.toList := by
  unfold settingsAt at h
  dsimp only at h
  split at h
  · split at h
    · rename_i text _
      unfold Settings.ofText at h
      split at h
      · exact Settings.ofIni_firm h
      · cases h
    · cases h
  · obtain rfl := Except.ok.inj h
    exact Settings.defaults_firm

/-- Denominators in brackets are read the same by both. -/
theorem readZooms_bracketed {zooms : String} (h : (Text.trim zooms.toList).head? = some '[') :
    readZooms zooms = Drawing.readZooms (Text.trimmed zooms) := by
  obtain ⟨cs, hcs⟩ := List.head?_eq_some_iff.1 h
  rw [readZooms, Text.trimmed, hcs]
  rfl

/-- How a run ends that has gone through a command. -/
def endingOf : Except Fault Unit → Ending
  | .ok () => ⟨0, ""⟩
  | .error f => ⟨f.code, f.report⟩

/-- A run that ends well has gone through its command without a fault. -/
theorem reaches_act {tree : Tree} {library : String → Render.Library} {home : Option Path}
    {arguments : List String} {c : Command} (hread : read arguments = .ok (.run c))
    (hcode : (runOn tree library home arguments).1.code = 0) :
    Reaches (act (Session.world library home) c) ⟨tree, ""⟩ ()
      (runOn tree library home arguments).2 := by
  have hrun : runOn tree library home arguments =
      (endingOf (step (act (Session.world library home) c).run ⟨tree, ""⟩).1,
        (step (act (Session.world library home) c).run ⟨tree, ""⟩).2) := by
    rw [runOn, run, hread]
    change step ((act (Session.world library home) c).run >>= fun
      | .ok () => pure (⟨0, ""⟩ : Ending)
      | .error f => pure ⟨f.code, f.report⟩) ⟨tree, ""⟩ = _
    rw [step_bind]
    cases (step (act (Session.world library home) c).run ⟨tree, ""⟩).1 <;> rfl
  unfold Reaches
  rw [hrun] at hcode ⊢
  cases hresult : (step (act (Session.world library home) c).run ⟨tree, ""⟩).1 with
  | error f =>
    rw [hresult] at hcode
    cases f <;> cases hcode
  | ok u => exact Prod.ext hresult rfl

section
variable {p : Request.Params}

/-- A parameter that says what a file holds is read as the file is. -/
theorem readWith_eq {α : Type} {name text : String} {read : String → Except Drawing.Fault α} {a b : α}
    (hr : Drawing.ReadsJson read) (hp : p.get? name = some text) (ha : read text = .ok a)
    (hb : p.readWith name read = .ok b) : a = b := by
  obtain ⟨raw, ⟨text', ht, rfl, -⟩, hb⟩ := p.readWith_eq_ok.1 hb
  obtain rfl := Option.some.inj (hp.symm.trans ht)
  exact Except.ok.inj ((hr.trimmed ha).symm.trans hb)

/-- What is refused when it is empty is read like everything else. -/
theorem ok_of_unlessEmpty {α : Type} {x : Except Request.Fault (List α)} {f : Request.Fault} {l : List α}
    (h : (x >>= fun l => if l.isEmpty then .error f else pure l) = .ok l) : x = .ok l := by
  obtain ⟨read, hread, h⟩ := bind_eq_ok.1 h
  split at h
  · cases h
  · rw [hread, pure_eq_ok.1 h]

end

section
variable {tree : Tree} {library : String → Render.Library} {home : Option Path} {arguments : List String}
  {style layers : Path} {zooms : String} {srs background : Option String} {output : Option Path}
  {s : Request.Service} {p : Request.Params} {document : MapDocument}

/-- The document that a run leaves is that of the request exactly if both take the reference system and the
background to be the same. -/
theorem leaves_document
    (hread : read arguments = .ok (.run (.compile style zooms layers srs background output)))
    (hbrackets : (Text.trim zooms.toList).head? = some '[')
    (hsame : SameMap tree home style layers zooms srs background s p)
    (hcode : (runOn tree library home arguments).1.code = 0) (hdocument : s.Compiles p document) :
    ∃ made, Leaves output made ⟨tree, ""⟩ (runOn tree library home arguments).2 ∧
      (made = document ↔
        srs.getD s.settings.srs = (srs.bind Text.nonblank?).getD s.settings.srs ∧
        background.getD s.settings.background =
          (background.bind Text.nonblank?).getD s.settings.background) := by
  obtain ⟨styleText, hstyle, hstyleParam⟩ := hsame.style
  obtain ⟨layersText, hlayers, hlayersParam⟩ := hsame.layers
  obtain ⟨settings, hservice, hloaded⟩ := hsame.settings
  rw [views_tree.load] at hloaded
  obtain ⟨settings', styles, drawn, denominators, made, hat, hstyles, hdrawn, hdenominators, hmade,
    hleaves⟩ := compile_leaves (s := ⟨tree, ""⟩) hstyle hlayers (reaches_act hread hcode)
  obtain rfl : settings = settings' := Except.ok.inj (hloaded.symm.trans hat)
  obtain ⟨job, hjob, hcompiled⟩ := hdocument
  have hgives := (p.job_eq_ok s.settings job).1 hjob
  obtain rfl : styles = job.styles :=
    readWith_eq Drawing.readsJson_styles hstyleParam hstyles (ok_of_unlessEmpty hgives.styles)
  obtain rfl : drawn = job.layers :=
    readWith_eq Drawing.readsJson_layers hlayersParam hdrawn (ok_of_unlessEmpty hgives.layers)
  obtain rfl : denominators = job.zooms := by
    obtain ⟨raw, ⟨text, ht, rfl, -⟩, hraw⟩ := p.readWith_eq_ok.1 hgives.zooms
    obtain rfl := Option.some.inj (hsame.zooms.symm.trans ht)
    rw [readZooms_bracketed hbrackets] at hdenominators
    exact Except.ok.inj (hdenominators.symm.trans hraw)
  have hsrs : (srs.bind Text.nonblank?).getD s.settings.srs = job.srs := by
    rw [← hgives.srs, Request.Params.given?, hsame.srs]
  have hbackground :
      (background.bind Text.nonblank?).getD s.settings.background = job.background := by
    rw [← hgives.background, Request.Params.given?, hsame.background]
  rw [← hservice] at hmade
  exact ⟨made, hleaves, by rw [MapDocument.compile_eq_iff hmade hcompiled, hsrs, hbackground]⟩

/-- Of the same map the program and the service make the same document, as far as neither text that they
treat differently has blanks to lose; if one has, their documents differ. -/
theorem compiles_same_document
    (hread : read arguments = .ok (.run (.compile style zooms layers srs background output)))
    (hbrackets : (Text.trim zooms.toList).head? = some '[')
    (hsame : SameMap tree home style layers zooms srs background s p)
    (hcode : (runOn tree library home arguments).1.code = 0) (hdocument : s.Compiles p document) :
    ∃ made, Leaves output made ⟨tree, ""⟩ (runOn tree library home arguments).2 ∧
      (made = document ↔ Unpadded srs ∧ Unpadded background) := by
  obtain ⟨made, hleaves, hmade⟩ := leaves_document hread hbrackets hsame hcode hdocument
  obtain ⟨settings, hservice, hloaded⟩ := hsame.settings
  rw [views_tree.load] at hloaded
  obtain ⟨hsrs, hbackground⟩ := settingsAt_firm hloaded
  rw [← hservice] at hsrs hbackground
  rw [Text.getD_eq_iff hsrs, Text.getD_eq_iff hbackground] at hmade
  exact ⟨made, hleaves, hmade⟩

end

def sampleStyles : String := "[[\"s\"]]"

def sampleLayers : String :=
  "[[\"l\",\"s\",\"x\",true,\x7b\"kind\":\"file\",\"type\":\"t\",\"path\":\"p\"\x7d]]"

def sampleTree : Tree :=
  ⟨[], [(["s.json".toList], .file sampleStyles.toUTF8), (["l.json".toList], .file sampleLayers.toUTF8)]⟩

def sampleArguments (srs : String) : List String :=
  ["compile", "--style", "s.json", "--zooms", "[]", "--layers", "l.json", "--srs", srs]

def sampleParams (srs : String) : Request.Params := .ofPairs
  [("style", sampleStyles), ("zooms", "[]"), ("layers", sampleLayers), ("srs", srs), ("width", "1"),
   ("height", "1"), ("lon0", "0"), ("lat0", "0"), ("lon1", "1"), ("lat1", "1")]

def sampleService : Request.Service :=
  ⟨Request.Service.blankService.renderer, "resources", .default⟩

def sampleRun (srs : String) : Ending × Session :=
  runOn sampleTree (fun _ => .missing) (some ⟨"/home"⟩) (sampleArguments srs)

theorem sameMap_sample (srs : String) : SameMap sampleTree (some ⟨"/home"⟩) ⟨"s.json"⟩ ⟨"l.json"⟩ "[]"
    (some srs) none sampleService (sampleParams srs) where
  settings := ⟨Settings.default (some ⟨"/home"⟩), rfl, rfl⟩
  style := ⟨sampleStyles, rfl, rfl⟩
  layers := ⟨sampleLayers, rfl, rfl⟩
  zooms := rfl
  srs := rfl
  background := rfl

/-- Whether a service makes a document is found out by making it. -/
theorem exists_compiles {s : Request.Service} {p : Request.Params}
    (h : (match p.job s.settings with
      | .ok job => job.compile.2.isOk
      | .error _ => false) = true) : ∃ document, s.Compiles p document := by
  cases hj : p.job s.settings with
  | error f =>
    rw [hj] at h
    cases h
  | ok job =>
    rw [hj] at h
    obtain ⟨document, hd⟩ := exists_of_isOk h
    exact ⟨document, job, hj, hd⟩

/-- A reference system without blanks around it makes no difference. -/
theorem compiles_same_document_sample : ∃ document,
    sampleService.Compiles (sampleParams "epsg:3857") document ∧ (sampleRun "epsg:3857").1.code = 0 ∧
      Leaves none document ⟨sampleTree, ""⟩ (sampleRun "epsg:3857").2 := by
  have hread : read (sampleArguments "epsg:3857") =
      .ok (.run (.compile ⟨"s.json"⟩ "[]" ⟨"l.json"⟩ (some "epsg:3857") none none)) := rfl
  have hcode : (sampleRun "epsg:3857").1.code = 0 := by decide +kernel
  obtain ⟨document, hdocument⟩ : ∃ document,
      sampleService.Compiles (sampleParams "epsg:3857") document :=
    exists_compiles (by decide +kernel)
  obtain ⟨made, hleaves, hmade⟩ :=
    compiles_same_document hread rfl (sameMap_sample "epsg:3857") hcode hdocument
  have hfirm : Unpadded (some "epsg:3857") := by
    intro text ht
    obtain rfl := Option.some.inj ht
    exact Text.firm_of_trim (by decide) (by decide)
  have hnone : Unpadded none := fun _ ht => nomatch ht
  obtain rfl := hmade.2 ⟨hfirm, hnone⟩
  exact ⟨made, hdocument, hcode, hleaves⟩

/-- A blank reference system is taken as it is by the program and as absent by the service. -/
theorem blank_srs_two_documents :
    SameMap sampleTree (some ⟨"/home"⟩) ⟨"s.json"⟩ ⟨"l.json"⟩ "[]" (some " ") none sampleService
      (sampleParams " ") ∧
    read (sampleArguments " ") =
      .ok (.run (.compile ⟨"s.json"⟩ "[]" ⟨"l.json"⟩ (some " ") none none)) ∧
    (sampleRun " ").1.code = 0 ∧
    ∃ document, sampleService.Compiles (sampleParams " ") document ∧
      (sampleRun " ").2.printed ≠ document.text := by
  have hsame := sameMap_sample " "
  have hread : read (sampleArguments " ") =
      .ok (.run (.compile ⟨"s.json"⟩ "[]" ⟨"l.json"⟩ (some " ") none none)) := rfl
  have hcode : (sampleRun " ").1.code = 0 := by decide +kernel
  obtain ⟨document, hdocument⟩ : ∃ document, sampleService.Compiles (sampleParams " ") document :=
    exists_compiles (by decide +kernel)
  refine ⟨hsame, hread, hcode, document, hdocument, fun hprinted => ?_⟩
  obtain ⟨made, hleaves, hmade⟩ := leaves_document hread rfl hsame hcode hdocument
  have htext : document.text = "" ++ made.text := hprinted.symm.trans hleaves
  rw [String.empty_append] at htext
  obtain ⟨hsrs, -⟩ := hmade.1 (MapDocument.mk.injEq .. ▸ htext.symm)
  exact absurd hsrs (by decide)

end Console
end StyledMap
