import StyledMap.Console.Fault
import StyledMap.Files.Access
import StyledMap.Journal.Level
import StyledMap.Settings.Basic

/-! What surrounds a run of the program: files, a place to print to, libraries and, if one is known, a home
directory. The effects are in some monad, so a run can be a function on values as well as a process. -/
namespace StyledMap.Console

structure World (m : Type → Type) where
  files : Files.Access m
  print : String → m Unit
  library : String → Render.Library
  home : Option Path

/-- Actions of a command; a fault ends them. -/
abbrev Action (m : Type → Type) (α : Type) := ExceptT Fault m α

variable {m : Type → Type} [Monad m]

/-- An action whose faults mean something to the command. -/
def attempt {ε α : Type} (act : m (Except ε α)) (fault : ε → Fault) : Action m α :=
  ExceptT.mk (do return (← act).mapError fault)

def conclude {ε α : Type} (result : Except ε α) (fault : ε → Fault) : Action m α :=
  attempt (pure result) fault

/-- The log of a run. Its least weighty entries are kept only to debug. -/
structure Log where
  file : Path
  debug : Bool
  deriving Repr, DecidableEq

def Log.threshold (l : Log) : Journal.Level := if l.debug then .debug else .info

def logLine (level : Journal.Level) (text : String) : String :=
  String.ofList (level.name.toList.map Char.toUpper) ++ " " ++ text ++ "\n"

/-- Enters a text in the log. An entry that cannot be written is lost. -/
def Log.enter (l : Log) (w : World m) (level : Journal.Level) (text : String) : Action m Unit := do
  if l.threshold.weight ≤ level.weight then
    let _ ← w.files.append l.file (logLine level text).toUTF8

/-- An empty log, with the directories around it. -/
def Log.start (w : World m) (file : Path) (debug : Bool) : Action m Log := do
  let around := match file.parent? with
    | some p => if p.text = "" then ⟨"."⟩ else p
    | none => ⟨"."⟩
  attempt (w.files.makeDirectories around) .log
  let log := around.join ⟨file.fileName?.getD Settings.logName⟩
  attempt (w.files.write log ByteArray.empty) .log
  return ⟨log, debug⟩

def readInput (w : World m) (p : Path) : Action m String := attempt (w.files.readText p) (.reading p)

/-- Writes a file and prints how long it is. -/
def writeOutput (w : World m) (log : Log) (p : Path) (bytes : ByteArray) : Action m Unit := do
  attempt (w.files.write p bytes) (.writing p)
  let done := "Wrote " ++ p.text ++ " (" ++ Text.nat bytes.size ++ " bytes)"
  log.enter w .info done
  w.print ("✓ " ++ done ++ "\n")

end StyledMap.Console
