import StyledMap.Proofs.Console.Runs
import StyledMap.Proofs.Drawing.Trimming

/-! What the command that compiles a document has done once it is through: the texts that it read are those
of its files at the start, for its log can be none of them, and what it leaves is the document. -/
namespace StyledMap.Console
open Files (Tree Place)

variable {library : String → Render.Library} {home : Option Path} {s s' : Session}

theorem reaches_loadSettings {settings : Settings} :
    Reaches (loadSettings (Session.world library home)) s settings s' ↔
      settingsAt s.tree home = .ok settings ∧ s = s' := by
  rw [loadSettings, reaches_attempt]
  change step (Settings.load Session.files home (Settings.location home)) s = (.ok settings, s') ↔ _
  rw [views_session.load]
  simp

/-- What the log of a command starts with. -/
def logHead (name : String) : String :=
  logLine .info ("Cartostyle v" ++ version) ++ logLine .info ("Cartostyle CLI: " ++ name ++ " command")

theorem opened_logs {name : String} {debug : Bool} {opening : Settings × Log}
    (h : Reaches (opened (Session.world library home) name debug) s opening s') :
    settingsAt s.tree home = .ok opening.1 ∧
      ∃ place, Quiet place s s' ∧ s'.tree.Holds opening.2.file place (logHead name).toUTF8 := by
  obtain ⟨settings, s₁, hload, h⟩ := reaches_bind.1 h
  obtain ⟨log, s₂, hstart, h⟩ := reaches_bind.1 h
  obtain ⟨⟨⟩, s₃, hversion, h⟩ := reaches_bind.1 h
  obtain ⟨⟨⟩, s₄, hcommand, h⟩ := reaches_bind.1 h
  obtain ⟨rfl, rfl⟩ := reaches_pure.1 h
  obtain ⟨hsettings, rfl⟩ := reaches_loadSettings.1 hload
  obtain ⟨place, hquiet, hempty⟩ := log_start hstart
  have hlevel : log.threshold.weight ≤ Journal.Level.info.weight := by
    unfold Log.threshold
    cases log.debug <;> decide
  obtain ⟨hquiet₃, hfirst⟩ := log_enter hlevel hempty hversion
  obtain ⟨hquiet₄, hsecond⟩ := log_enter hlevel hfirst hcommand
  have hhead : ByteArray.empty ++ (logLine .info ("Cartostyle v" ++ version)).toUTF8 ++
      (logLine .info ("Cartostyle CLI: " ++ name ++ " command")).toUTF8 = (logHead name).toUTF8 := by
    simp [logHead, String.toUTF8_eq_toByteArray]
  rw [hhead] at hsecond
  exact ⟨hsettings, place, hquiet.trans (hquiet₃.trans hquiet₄), hsecond⟩

theorem reaches_decodeFile {α : Type} {p : Path} {decode : String → Except Drawing.Fault α} {x : α} :
    Reaches (decodeFile (Session.world library home) p decode) s x s' ↔
      s = s' ∧ ∃ text : String, s.tree.read p = .ok text.toUTF8 ∧ decode text = .ok x := by
  rw [decodeFile, reaches_bind]
  simp only [reaches_readInput, reaches_conclude]
  constructor
  · rintro ⟨text, s₁, ⟨rfl, hread⟩, hdecode, rfl⟩
    exact ⟨rfl, text, hread, hdecode⟩
  · rintro ⟨rfl, text, hread, hdecode⟩
    exact ⟨text, s, ⟨rfl, hread⟩, hdecode, rfl⟩

/-- A log is no JSON. -/
theorem logHead_unread {α : Type} {read : String → Except Drawing.Fault α}
    (hr : Drawing.ReadsJson read) (x : α) : read (logHead "compile") ≠ .ok x := by
  intro h
  obtain ⟨t, ht⟩ := hr.parsed _ x h
  have hnone : (Json.Tree.parse? (logHead "compile")).isNone = true := by decide +kernel
  rw [ht] at hnone
  cases hnone

/-- A file that is read in spite of the log still holds what it held at the start. -/
theorem decoded_at_start {α : Type} {decode : String → Except Drawing.Fault α} {x : α} {p log : Path}
    {place : Place} {text : String} (hr : Drawing.ReadsJson decode)
    (hfile : s.tree.read p = .ok text.toUTF8) (hquiet : Quiet place s s')
    (hlog : s'.tree.Holds log place (logHead "compile").toUTF8)
    (h : ∃ text : String, s'.tree.read p = .ok text.toUTF8 ∧ decode text = .ok x) :
    decode text = .ok x := by
  obtain ⟨read, hread, hdecode⟩ := h
  obtain ⟨q, hq⟩ := Tree.read_eq_ok.1 hfile
  obtain ⟨q', hq'⟩ := Tree.read_eq_ok.1 hread
  obtain rfl : q = q' := Except.ok.inj ((hquiet.grows.find hq.find).symm.trans hq'.find)
  -- if the log has taken the place of the file, what can be read there is the log
  by_cases hplace : q = place
  · subst hplace
    have hbytes : (logHead "compile").toUTF8 = read.toUTF8 := by
      simpa [hlog.node] using hq'.node
    obtain rfl : logHead "compile" = read := String.toByteArray_inj.1 hbytes
    exact absurd hdecode (logHead_unread hr x)
  · have hkept := hquiet.grows.file q _ hq.node hplace
    have hbytes : text.toUTF8 = read.toUTF8 := by
      simpa [hkept] using hq'.node
    obtain rfl : text = read := String.toByteArray_inj.1 hbytes
    exact hdecode

theorem printed_enter {log : Log} {level : Journal.Level} {text : String} {u : Unit}
    (h : Reaches (log.enter (Session.world library home) level text) s u s') :
    s'.printed = s.printed := by
  rw [reaches_enter] at h
  subst h
  split <;> rfl

/-- An entry grows the log behind what it holds, and no other file. -/
theorem read_enter {log : Log} {level : Journal.Level} {text : String} {u : Unit} {p : Path}
    {place : Place} {bytes : ByteArray} (hp : s.tree.Holds p place bytes)
    (h : Reaches (log.enter (Session.world library home) level text) s u s') :
    ∃ more, s'.tree.read p = .ok (bytes ++ more) := by
  have hkept : ∃ more, s.tree.read p = .ok (bytes ++ more) :=
    ⟨ByteArray.empty, Tree.read_eq_ok.2 ⟨place, by simpa using hp⟩⟩
  rw [reaches_enter] at h
  subst h
  split
  · cases hwrite : s.tree.writeWith log.file (· ++ (logLine level text).toUTF8) with
    | error f => exact hkept
    | ok t =>
      obtain ⟨q, -, hgrows, hlog⟩ := Tree.writeWith_holds hwrite
      by_cases hq : place = q
      · subst hq
        have hbytes : s.tree.bytesAt place = bytes := by
          rw [Tree.bytesAt, hp.node]
        rw [hbytes] at hlog
        exact ⟨_, Tree.read_eq_ok.2 ⟨place, hgrows.find hp.find, hp.slash, hlog.node⟩⟩
      · have hfile := hgrows.holds hp hq
        exact ⟨ByteArray.empty, Tree.read_eq_ok.2 ⟨place, by simpa [Tree.settle] using hfile⟩⟩
  · exact hkept

theorem printed_entries {log : Log} {notices : List MapDocument.Notice} {u : PUnit}
    (h : Reaches (forIn notices PUnit.unit fun n _ => do
      log.enter (Session.world library home) n.level n.text
      pure (ForInStep.yield PUnit.unit)) s u s') : s'.printed = s.printed := by
  induction notices generalizing s with
  | nil =>
    obtain ⟨-, rfl⟩ := reaches_pure.1 h
    rfl
  | cons n notices ih =>
    rw [List.forIn_cons] at h
    obtain ⟨next, s₁, hfirst, h⟩ := reaches_bind.1 h
    obtain ⟨⟨⟩, s₂, hentered, hfirst⟩ := reaches_bind.1 hfirst
    obtain ⟨rfl, rfl⟩ := reaches_pure.1 hfirst
    exact (ih h).trans (printed_enter hentered)

theorem reaches_print {text : String} {u : Unit} :
    Reaches (liftM ((Session.world library home).print text)) s u s' ↔
      s' = ⟨s.tree, s.printed ++ text⟩ := by
  change ((.ok (), ⟨s.tree, s.printed ++ text⟩) : Except Fault Unit × Session) = (.ok u, s') ↔ _
  simp [eq_comm]

/-- What a command has left when it has made a document: it prints it, or it writes it to a file and
prints how long it is. Only the log can have grown behind it. -/
def Leaves (output : Option Path) (document : MapDocument) (s s' : Session) : Prop :=
  match output with
  | none => s'.printed = s.printed ++ document.text
  | some p => s'.printed = s.printed ++ ("✓ " ++ ("Wrote " ++ p.text ++ " (" ++
      Text.nat document.text.toUTF8.size ++ " bytes)") ++ "\n") ∧
      ∃ logged, s'.tree.read p = .ok (document.text.toUTF8 ++ logged)

theorem writeOutput_leaves {log : Log} {p : Path} {document : MapDocument} {u : Unit}
    (h : Reaches (writeOutput (Session.world library home) log p document.text.toUTF8) s u s') :
    Leaves (some p) document s s' := by
  obtain ⟨⟨⟩, s₁, hwritten, h⟩ := reaches_bind.1 h
  obtain ⟨⟨⟩, s₂, hentered, h⟩ := reaches_bind.1 h
  have hprinted := reaches_print.1 h
  obtain ⟨hkept, hwrite⟩ := step_write (reaches_attempt.1 hwritten)
  obtain ⟨place, -, -, hholds⟩ := Tree.writeWith_holds hwrite
  have hread := read_enter hholds hentered
  subst hprinted
  refine ⟨?_, hread⟩
  rw [printed_enter hentered, hkept]

theorem compile_leaves {style layers : Path} {zooms : String} {srs background : Option String}
    {output : Option Path} {styleText layersText : String} {u : Unit}
    (hstyle : s.tree.read style = .ok styleText.toUTF8)
    (hlayers : s.tree.read layers = .ok layersText.toUTF8)
    (h : Reaches (compile (Session.world library home) style zooms layers srs background output) s u s') :
    ∃ settings styles layers denominators document, settingsAt s.tree home = .ok settings ∧
      Drawing.readStyles styleText = .ok styles ∧ Drawing.readLayers layersText = .ok layers ∧
      readZooms zooms = .ok denominators ∧
      (MapDocument.compile styles denominators layers (srs.getD settings.render.srs)
        (background.getD settings.render.background)).2 = .ok document ∧
      Leaves output document s s' := by
  obtain ⟨⟨settings, log⟩, s₁, hopened, h⟩ := reaches_bind.1 h
  obtain ⟨styles, s₂, hstyles, h⟩ := reaches_bind.1 h
  obtain ⟨decoded, s₃, hdecoded, h⟩ := reaches_bind.1 h
  obtain ⟨denominators, s₄, hzooms, h⟩ := reaches_bind.1 h
  obtain ⟨⟨⟩, s₅, hsrs, h⟩ := reaches_bind.1 h
  obtain ⟨⟨⟩, s₆, hbackground, h⟩ := reaches_bind.1 h
  obtain ⟨⟨⟩, s₇, hentered, h⟩ := reaches_bind.1 h
  obtain ⟨⟨⟩, s₈, hentries, h⟩ := reaches_bind.1 h
  obtain ⟨document, s₉, hdocument, h⟩ := reaches_bind.1 h
  obtain ⟨hsettings, place, hquiet, hlog⟩ := opened_logs hopened
  obtain ⟨rfl, hstylesRead⟩ := reaches_decodeFile.1 hstyles
  obtain ⟨rfl, hlayersRead⟩ := reaches_decodeFile.1 hdecoded
  obtain ⟨hdenominators, rfl⟩ := reaches_conclude.1 hzooms
  obtain ⟨-, rfl⟩ := reaches_conclude.1 hsrs
  obtain ⟨-, rfl⟩ := reaches_conclude.1 hbackground
  obtain ⟨hmade, rfl⟩ := reaches_conclude.1 hdocument
  have hprinted : s₈.printed = s.printed :=
    (printed_entries hentries).trans ((printed_enter hentered).trans hquiet.printed)
  refine ⟨settings, styles, decoded, denominators, document, hsettings,
    decoded_at_start Drawing.readsJson_styles hstyle hquiet hlog hstylesRead,
    decoded_at_start Drawing.readsJson_layers hlayers hquiet hlog hlayersRead, hdenominators, hmade,
    ?_⟩
  cases output with
  | none =>
    have hout := reaches_print.1 h
    subst hout
    exact congrArg (· ++ document.text) hprinted
  | some p =>
    have hleaves := writeOutput_leaves h
    rw [Leaves, hprinted] at hleaves
    exact hleaves

end StyledMap.Console
