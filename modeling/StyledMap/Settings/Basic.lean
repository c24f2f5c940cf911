import StyledMap.Files.Path
import StyledMap.Raster.Image

/-! Settings: the engine to draw with, the limits and defaults of requests, and the log file. -/
namespace StyledMap

structure Settings.Engine where
  library : Option Path
  resources : Path
  rowOrder : RowOrder
  reentrant : Bool
  deriving Repr, DecidableEq

/-- The timeout is in seconds. -/
structure Settings.Render where
  srs : String
  background : String
  maxWidth : Nat
  maxHeight : Nat
  timeout : Nat
  deriving Repr, DecidableEq

structure Settings where
  engine : Settings.Engine
  render : Settings.Render
  log : Path
  deriving Repr, DecidableEq

namespace Settings

def Engine.default : Engine := ⟨none, ⟨"./resources"⟩, .topDown, false⟩

/-- Spherical Mercator. -/
def defaultSrs : String :=
  "+proj=merc +a=6378137 +b=6378137 +lat_ts=0.0 +lon_0=0.0 +x_0=0.0 +y_0=0 +k=1.0 +units=m +nadgrids=@null +no_defs +over"

def defaultBackground : String := "white"
def defaultDimension : Nat := 4096
def defaultTimeout : Nat := 30

def Render.default : Render :=
  ⟨defaultSrs, defaultBackground, defaultDimension, defaultDimension, defaultTimeout⟩

/-- The directory of the settings file, below the home directory. Where none is known the working
directory takes its place. -/
def directory (home : Option Path) : Path := (home.getD ⟨"."⟩).join ⟨".cartostyle"⟩

/-- Where the settings file is kept. -/
def location (home : Option Path) : Path := (directory home).join ⟨"config.ini"⟩

/-- Where a log goes that nothing else places. -/
def logDirectory : String := "logs"

def logName : String := "cartostyle.log"

def default (home : Option Path) : Settings :=
  ⟨Engine.default, Render.default, (directory home).join ⟨logName⟩⟩

/-- The same settings, however their paths are spelled. -/
def same (a b : Settings) : Bool :=
  (match a.engine.library, b.engine.library with
    | none, none => true
    | some p, some q => p.same q
    | _, _ => false) &&
  a.engine.resources.same b.engine.resources &&
  decide (a.engine.rowOrder = b.engine.rowOrder) && a.engine.reentrant == b.engine.reentrant &&
  decide (a.render = b.render) && a.log.same b.log

end Settings
end StyledMap
