import StyledMap.Files.Access
import StyledMap.Ini.Reader
import StyledMap.Settings.Reader
import StyledMap.Settings.Writer

/-! The settings file: loading it, saving to it, and making one where there is none. -/
namespace StyledMap.Settings
variable {m : Type → Type} [Monad m]

/-- The settings that the text of a settings file holds. -/
def ofText (home : Option Path) (s : String) : Except Fault Settings :=
  match Ini.read? s with
  | some f => ofIni home f
  | none => .error (.unreadable "not a text of sections and entries")

/-- A file that is not there counts as an empty one. -/
def load (a : Files.Access m) (home : Option Path) (file : Path) : m (Except Fault Settings) := do
  if ← a.isThere file then
    match ← a.readText file with
    | .ok s => return ofText home s
    | .error f => return .error (.unreadable f.message)
  else return .ok (default home)

/-- Writes the file, and makes the directories around it. -/
def save (a : Files.Access m) (home : Option Path) (file : Path) (s : Settings) :
    m (Except Fault Unit) := do
  let made ← match file.parent? with
    | some around => a.makeDirectories around
    | none => pure (.ok ())
  match made with
  | .error f => return .error (.directory f)
  | .ok () => return (← a.write file (s.text home).toUTF8).mapError .unwritable

/-- Writes the defaults where there is no file yet, and tells whether it did. -/
def ensure (a : Files.Access m) (home : Option Path) (file : Path) : m (Except Fault Bool) := do
  if ← a.isThere file then return .ok false
  else return (← save a home file (default home)).map (fun _ => true)

end StyledMap.Settings
