import StyledMap.Files.Fault
import StyledMap.Files.Path

/-! Access to files, given as operations in some monad, and what can be done with them alone. -/
namespace StyledMap.Files

structure Access (m : Type → Type) where
  isThere : Path → m Bool
  isDirectory : Path → m Bool
  read : Path → m (Except Fault ByteArray)
  write : Path → ByteArray → m (Except Fault Unit)
  append : Path → ByteArray → m (Except Fault Unit)
  makeDirectory : Path → m (Except Fault Unit)

namespace Access
variable {m : Type → Type} [Monad m]

def readText (a : Access m) (p : Path) : m (Except Fault String) := do
  match ← a.read p with
  | .error f => return .error f
  | .ok bytes => match String.fromUTF8? bytes with
    | some s => return .ok s
    | none => return .error .notText

/-- Makes a directory unless it is there. -/
def makeOnce (a : Access m) (p : Path) : m (Except Fault Unit) := do
  match ← a.makeDirectory p with
  | .ok () => return .ok ()
  | .error f => if ← a.isDirectory p then return .ok () else return .error f

/-- Makes the first of these directories. If it has no place yet, those after it, which are to lie around
it, are made before. -/
def makeWithin (a : Access m) : List Path → m (Except Fault Unit)
  | [] => return .error .notFound
  | p :: around =>
    if p.text = "" then return .ok ()
    else do
      match ← a.makeDirectory p with
      | .ok () => return .ok ()
      | .error .notFound => match ← makeWithin a around with
        | .ok () => a.makeOnce p
        | .error f => return .error f
      | .error f => if ← a.isDirectory p then return .ok () else return .error f

/-- Makes a directory and all that it lies in. -/
def makeDirectories (a : Access m) (p : Path) : m (Except Fault Unit) := a.makeWithin p.ancestors

end Access
end StyledMap.Files
