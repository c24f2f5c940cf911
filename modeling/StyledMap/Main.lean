import StyledMap.Console.Commands

/-! The program as a process: files of the system, the standard streams and the environment. Shared
libraries cannot be opened from here, so every engine counts as missing. -/
namespace StyledMap.Main

/-- The fault of an error, by the number the system gives it. -/
def faultOf : IO.Error → Files.Fault
  | .noFileOrDirectory _ _ _ => .notFound
  | .alreadyExists _ _ _ => .exists
  | .inappropriateType _ 20 _ => .notDirectory
  | .inappropriateType _ 21 _ => .isDirectory
  | .invalidArgument _ 36 _ => .nameTooLong
  | e => .other (toString e)

def trying {α : Type} (act : IO α) : IO (Except Files.Fault α) := do
  match ← act.toBaseIO with
  | .ok a => return .ok a
  | .error e => return .error (faultOf e)

/-- Whether a path leads anywhere. -/
def leads (p : String) : IO Bool := return (← trying (IO.FS.realPath p)).isOk

def append (p : Path) (bytes : ByteArray) : IO Unit := do
  let handle ← IO.FS.Handle.mk p.text .append
  handle.write bytes

def files : Files.Access IO where
  isThere p := leads p.text
  isDirectory p := leads (p.text ++ "/.")
  read p := trying (IO.FS.readBinFile p.text)
  write p bytes := trying (IO.FS.writeBinFile p.text bytes)
  append p bytes := trying (append p bytes)
  makeDirectory p := trying (IO.FS.createDir p.text)

/-- The home directory that the environment names. The user database, which is asked next where there is
one, cannot be read from here. -/
def home? : IO (Option Path) := do
  return ((← IO.getEnv "HOME").filter (· ≠ "")).map (⟨·⟩)

def world : IO (Console.World IO) := do
  return ⟨files, IO.print, fun _ => .missing, ← home?⟩

end StyledMap.Main

def main (arguments : List String) : IO UInt32 := do
  let ending ← StyledMap.Console.run (← StyledMap.Main.world) arguments
  IO.eprint ending.errors
  return ending.code.toUInt32
