import StyledMap.Console.Usage
import StyledMap.Console.World
import StyledMap.Geo.Mercator
import StyledMap.Request.Export
import StyledMap.Request.Service
import StyledMap.Settings.Store

/-! The commands of the program. -/
namespace StyledMap.Console
variable {m : Type → Type} [Monad m]

def loadSettings (w : World m) : Action m Settings :=
  attempt (Settings.load w.files w.home (Settings.location w.home)) .settings

/-- The settings, and a log with the command entered in it. -/
def opened (w : World m) (name : String) (debug : Bool) : Action m (Settings × Log) := do
  let settings ← loadSettings w
  let log ← Log.start w settings.log debug
  log.enter w .info ("Cartostyle v" ++ version)
  log.enter w .info ("Cartostyle CLI: " ++ name ++ " command")
  return (settings, log)

def decodeFile {α : Type} (w : World m) (p : Path) (decode : String → Except Drawing.Fault α) :
    Action m α := do
  conclude (decode (← readInput w p)) (.decoding p)

/-- Denominators between commas; the brackets around them may be left out. -/
def readZooms (s : String) : Except Drawing.Fault (List Float) :=
  match Text.trim s.toList with
  | '[' :: cs => Drawing.readZooms (String.ofList ('[' :: cs))
  | cs => Drawing.readZooms (String.ofList ('[' :: (cs ++ [']'])))

/-- Compiles a map document from files. -/
def compile (w : World m) (style : Path) (zooms : String) (layers : Path)
    (srs background : Option String) (output : Option Path) : Action m Unit := do
  let (settings, log) ← opened w "compile" false
  let styles ← decodeFile w style Drawing.readStyles
  let layers ← decodeFile w layers Drawing.readLayers
  let zooms ← conclude (readZooms zooms) .zooms
  let srs := srs.getD settings.render.srs
  let background := background.getD settings.render.background
  conclude (Drawing.checkText "--srs" srs) .text
  conclude (Drawing.checkText "--bgcolor" background) .text
  log.enter w .info ("Compiling " ++ Text.nat styles.length ++ " styles and " ++
    Text.nat layers.length ++ " layers over " ++ Text.nat zooms.length ++ " zoom breakpoints")
  let (notices, result) := MapDocument.compile styles zooms layers srs background
  for n in notices do log.enter w n.level n.text
  let document ← conclude result .document
  match output with
  | some p => writeOutput w log p document.text.toUTF8
  | none => w.print document.text

/-- Points parameters at a tile. A size that they name is kept. -/
def aimAt (p : Request.Params) (e : Extent Float) : Request.Params :=
  let placed := (((p.set "lon0" (Decimal.plainText e.lon0)).set "lat0" (Decimal.plainText e.lat0)).set
    "lon1" (Decimal.plainText e.lon1)).set "lat1" (Decimal.plainText e.lat1)
  ["width", "height"].foldl (fun p name =>
    if (p.get? name).isNone then p.set name (Text.nat Geo.tileSize) else p) placed

def aimAtTile (w : World m) (log : Log) (p : Request.Params) (address : String) :
    Action m Request.Params := do
  let tile ← conclude (Tile.read address) .tile
  let extent := tile.extent.toMercator
  log.enter w .info ("Tile " ++ tile.text ++ " covers " ++ extent.text)
  w.print ("Rendering tile " ++ tile.text ++ "\n")
  return aimAt p extent

/-- A service on the engine that the arguments or else the settings name. -/
def serviceFor (w : World m) (log : Log) (s : Settings) (library resources : Option Path) :
    Action m Request.Service := do
  match library.orElse (fun _ => s.engine.library) with
  | none => throw .noEngine
  | some p =>
    log.enter w .info ("Loading render engine from " ++ p.text)
    let engine ← conclude (Render.Native.load w.library p.text s.engine.reentrant) .engine
    log.enter w .info "Service created successfully"
    return ⟨⟨engine, .png, s.engine.rowOrder⟩, (resources.getD s.engine.resources).text, s.render⟩

/-- Renders the job in a file to an image. -/
def render (w : World m) (job output : Path) (library resources : Option Path) (tile : Option String)
    (debug : Bool) : Action m Unit := do
  let (settings, log) ← opened w "render" debug
  let params ← conclude (Request.Params.ofJson (← readInput w job)) .request
  let params ← match tile with
    | some address => aimAtTile w log params address
    | none => pure params
  let service ← serviceFor w log settings library resources
  let handled := service.handle params
  for e in handled.trail.journal do log.enter w e.level e.text
  match handled.outcome with
  | .reply (.image t) => writeOutput w log output t.bytes
  | .reply (.report r) =>
    log.enter w .warn ("Render failed: " ++ r.json)
    throw (.refused r)
  | .crash why => throw (.crash why)

/-- Tidies a style document. -/
def exportStyle (w : World m) (input output : Path) : Action m Unit := do
  let (_, log) ← opened w "export-style" false
  let document ← conclude (Request.Export.make (← readInput w input)) .request
  writeOutput w log output document.body.toUTF8

def printPath (w : World m) : Action m Unit :=
  w.print ((Settings.location w.home).text ++ "\n")

/-- The settings in groups, under the keys of the settings file. -/
def settingsTable (s : Settings) : List (String × List (String × String)) :=
  [("engine",
    [("library", (s.engine.library.map Path.text).getD ""),
     ("resource_dir", s.engine.resources.text), ("row_order", s.engine.rowOrder.text),
     ("reentrant", if s.engine.reentrant then "true" else "false")]),
   ("render",
    [("srs", s.render.srs), ("background_color", s.render.background),
     ("max_width", Text.nat s.render.maxWidth), ("max_height", Text.nat s.render.maxHeight),
     ("timeout", Text.nat s.render.timeout)]),
   ("logging", [("file", s.log.text)])]

def settingLine (row : String × String) : String :=
  "  " ++ row.1 ++ " = " ++ (if row.2 = "" then "(not set)" else row.2) ++ "\n"

def settingsText (s : Settings) : String :=
  "Configuration Settings\n======================\n\n" ++
    String.join ((settingsTable s).map (fun g =>
      "[" ++ g.1 ++ "]\n" ++ String.join (g.2.map settingLine) ++ "\n"))

def printSettings (w : World m) : Action m Unit := do
  w.print (settingsText (← loadSettings w))

/-- Writes default settings where there are none. -/
def initSettings (w : World m) : Action m Unit := do
  let file := Settings.location w.home
  let made ← attempt (Settings.ensure w.files w.home file) .settings
  w.print ((if made then "Created " else "Configuration already exists at ") ++ file.text ++ "\n")

def act (w : World m) : Command → Action m Unit
  | .compile style zooms layers srs background output =>
    compile w style zooms layers srs background output
  | .render job output library resources tile debug =>
    render w job output library resources tile debug
  | .exportStyle input output => exportStyle w input output
  | .settingsPath => printPath w
  | .showSettings => printSettings w
  | .initSettings => initSettings w

/-- How a run ends: its exit code, and what it writes to the error stream. -/
structure Ending where
  code : Nat
  errors : String
  deriving Repr, DecidableEq

/-- A run of the program. -/
def run (w : World m) (arguments : List String) : m Ending := do
  match read arguments with
  | .error e => return ⟨2, "error: " ++ e.message ++ "\n\nFor more information, try '--help'.\n"⟩
  | .ok .version =>
    w.print (programName ++ " " ++ version ++ "\n")
    return ⟨0, ""⟩
  | .ok (.help text) =>
    w.print text
    return ⟨0, ""⟩
  | .ok (.run c) => match ← (act w c).run with
    | .ok () => return ⟨0, ""⟩
    | .error f => return ⟨f.code, f.report⟩

end StyledMap.Console
