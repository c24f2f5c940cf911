import StyledMap.Files.Fault
import StyledMap.Files.Path
import StyledMap.Geo.Extent
import StyledMap.Render.Native
import StyledMap.Request.Reply
import StyledMap.Settings.Fault

/-! Why a command fails, and what can be done about it. -/
namespace StyledMap.Console

inductive Fault where
  | settings (f : Settings.Fault)
  /-- Neither the arguments nor the settings name a library. -/
  | noEngine
  | log (f : Files.Fault)
  | zooms (f : Drawing.Fault)
  /-- A text of the map that no document can carry. -/
  | text (f : Drawing.Fault)
  | tile (f : Geo.Fault)
  | reading (p : Path) (f : Files.Fault)
  | writing (p : Path) (f : Files.Fault)
  | decoding (p : Path) (f : Drawing.Fault)
  | document (f : MapDocument.Fault)
  | engine (f : Render.Fault)
  | request (f : Request.Fault)
  | refused (r : Request.Report)
  | crash (why : String)
  deriving Repr

def Fault.message : Fault → String
  | .settings f => "Configuration error: " ++ f.message
  | .noEngine => "Configuration error: No render engine configured. " ++
      "Set [engine] library in config.ini or use --library"
  | .log f => "Failed to initialize logging: " ++ f.message
  | .zooms f => "Invalid argument: --zooms: " ++ f.message
  | .text f => "Invalid argument: " ++ f.message
  | .tile f => "Invalid argument: --tile: " ++ f.message
  | .reading p f => "Failed to read file '" ++ p.text ++ "': " ++ f.message
  | .writing p f => "Failed to write file '" ++ p.text ++ "': " ++ f.message
  | .decoding p f => "Failed to decode '" ++ p.text ++ "': " ++ f.message
  | .document f => "Failed to compile styles: " ++ f.message
  | .engine f => "Render engine unavailable: " ++ f.message
  | .request f => f.message
  | .refused r => "Request failed (" ++ r.kind.name ++ "): " ++ r.message
  | .crash why => why

/-- Lines of advice, for the faults that have a remedy. -/
def Fault.advice : Fault → List String
  | .engine _ =>
    ["The render engine is a shared library exporting " ++ Render.entryName ++ ".",
     "Point to it with --library or set [engine] library in config.ini",
     "(see 'cartostyle config path')."]
  | .refused r => match r.kind with
    | .unknownZoomReference =>
      ["Rule minzoom/maxzoom values index into the zoom list;",
       "add more zoom breakpoints or lower the rule's zoom index."]
    | .timeout => ["Raise [render] timeout in config.ini for large maps."]
    | _ => []
  | _ => []

/-- What is written to the error stream; an empty line comes before advice. -/
def Fault.report (f : Fault) : String :=
  "Error: " ++ f.message ++ "\n" ++
    (if f.advice.isEmpty then "" else "\n" ++ String.join (f.advice.map (· ++ "\n")))

/-- The exit code of a run that ends in a fault. -/
def Fault.code : Fault → Nat
  | .crash _ => 101
  | _ => 1

end StyledMap.Console
