import StyledMap.Console.Arguments

/-! What the arguments of a run ask for: a command, its help, or the version. Words lead from the program
to a command by way of groups of commands. -/
namespace StyledMap.Console

def programName : String := "cartostyle"
def version : String := "0.3.0"

/-- A group of commands, by the words that lead to it. -/
structure Group where
  words : List String
  about : String
  members : List (String × String)

def configGroup : Group :=
  ⟨["config"], "Inspect or create the configuration file",
    [("path", Topic.settingsPath.about), ("show", Topic.showSettings.about),
     ("init", Topic.initSettings.about)]⟩

def mainGroup : Group :=
  ⟨[], "Compile JSON map styles and render map tiles",
    [("compile", Topic.compile.about), ("render", Topic.render.about),
     ("export-style", Topic.exportStyle.about), ("config", configGroup.about)]⟩

/-- Names in a column, and what they are. -/
def table (rows : List (String × String)) : String :=
  let width := rows.foldl (fun n r => max n r.1.length) 0
  String.join (rows.map (fun r =>
    r.1 ++ String.ofList (List.replicate (width - r.1.length + 2) ' ') ++ r.2 ++ "\n"))

def Opt.placeholder (o : Opt) : String :=
  if o.takes = .nothing then ""
  else " <" ++ String.ofList (o.name.toList.map (fun c => if c = '-' then '_' else c.toUpper)) ++ ">"

def Opt.row (o : Opt) : String × String :=
  ((match o.short with
    | some c => "  -" ++ String.ofList [c] ++ ", --"
    | none => "      --") ++ o.name ++ o.placeholder, o.about)

def helpRow : String × String := ("  -h, --help", "Print help")

def Group.isMain (g : Group) : Bool := g.words.isEmpty

def Group.help (g : Group) : String :=
  g.about ++ "\n\nUsage: " ++ " ".intercalate (programName :: g.words) ++ " <COMMAND>\n\nCommands:\n" ++
    table (g.members.map (fun m => ("  " ++ m.1, m.2)) ++
      [("  help", "Print this message or the help of the given subcommand(s)")]) ++
    "\nOptions:\n" ++
    table (helpRow :: (if g.isMain then [("  -V, --version", "Print version")] else []))

def Topic.help (t : Topic) : String :=
  t.about ++ "\n\nUsage: " ++ " ".intercalate (programName :: t.words) ++
    (if t.opts.any (fun o => !o.required) then " [OPTIONS]" else "") ++
    String.join ((t.opts.filter (·.required)).map (fun o => " --" ++ o.name ++ o.placeholder)) ++
    "\n\nOptions:\n" ++ table (t.opts.map Opt.row ++ [helpRow])

inductive Asked where
  | run (c : Command)
  | help (text : String)
  | version
  deriving Repr, DecidableEq

/-- The help on what words lead to. -/
def helpOn (words : List String) : Except Misuse Asked :=
  match topics.find? (·.words = words), [mainGroup, configGroup].find? (·.words = words) with
  | some t, _ => .ok (.help t.help)
  | none, some g => .ok (.help g.help)
  | none, none => .error (.unexpected (" ".intercalate words))

def readTopic (words arguments : List String) : Except Misuse Asked :=
  match topics.find? (·.words = words) with
  | none => .error (.unexpected (" ".intercalate words))
  | some t => match t.read arguments with
    | .ok c => .ok (.run c)
    | .error .help => .ok (.help t.help)
    | .error (.misuse m) => .error m

/-- What a group makes of an argument that asks about the program itself. -/
def Group.notice (g : Group) (argument : String) : Option Asked :=
  if argument = "--help" then some (.help g.help)
  else if argument = "--version" ∧ g.isMain then some .version
  else match argument.toList with
    | '-' :: 'h' :: _ => some (.help g.help)
    | '-' :: 'V' :: _ => if g.isMain then some .version else none
    | _ => none

def readConfig : List String → Except Misuse Asked
  | [] => .error .noCommand
  | a :: rest => match configGroup.notice a with
    | some asked => .ok asked
    | none => if a = "help" then helpOn ("config" :: rest) else readTopic ["config", a] rest

def read : List String → Except Misuse Asked
  | [] => .error .noCommand
  | a :: rest => match mainGroup.notice a with
    | some asked => .ok asked
    | none =>
      if a = "help" then helpOn rest
      else if a = "config" then readConfig rest
      else readTopic [a] rest

end StyledMap.Console
