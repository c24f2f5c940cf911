import StyledMap.Files.Path

/-! The command line: commands and their options. An option takes its value from the next argument, or
from its own after `=`; a value of its own may start with a dash, one in the next argument may not. -/
namespace StyledMap.Console

/-- What an option takes: nothing, any text, or a path, which is not empty. -/
inductive Takes where
  | nothing
  | text
  | path
  deriving Repr, DecidableEq

structure Opt where
  name : String
  short : Option Char
  takes : Takes
  required : Bool
  about : String
  deriving Repr, DecidableEq

inductive Misuse where
  | noCommand
  | unexpected (argument : String)
  | noValue (name : String)
  | emptyValue (name : String)
  | valueOfSwitch (name : String)
  | repeated (name : String)
  | missing (name : String)
  deriving Repr, DecidableEq

def Misuse.message : Misuse → String
  | .noCommand => "a command is required"
  | .unexpected argument => "unexpected argument '" ++ argument ++ "'"
  | .noValue name => "a value is required for '--" ++ name ++ "'"
  | .emptyValue name => "the value of '--" ++ name ++ "' may not be empty"
  | .valueOfSwitch name => "'--" ++ name ++ "' takes no value"
  | .repeated name => "'--" ++ name ++ "' cannot be used multiple times"
  | .missing name => "'--" ++ name ++ "' is required"

/-- Reading arguments ends early when help is asked for. -/
inductive Halt where
  | help
  | misuse (m : Misuse)
  deriving Repr, DecidableEq

/-- Options read so far, the one that waits for its value, and whether `--` has ended them. -/
structure Scanner where
  given : List (String × String)
  waiting : Option Opt
  ended : Bool
  deriving Repr, DecidableEq

namespace Scanner

def start : Scanner := ⟨[], none, false⟩

def give (s : Scanner) (o : Opt) (value : String) : Except Halt Scanner :=
  if (s.given.lookup o.name).isSome then .error (.misuse (.repeated o.name))
  else if o.takes = .path ∧ value = "" then .error (.misuse (.emptyValue o.name))
  else .ok ⟨(o.name, value) :: s.given, none, s.ended⟩

/-- An option with the value that stands in the same argument, if there is one. -/
def meet (s : Scanner) (o : Opt) (value : Option String) : Except Halt Scanner :=
  match o.takes, value with
  | .nothing, none => s.give o ""
  | .nothing, some _ => .error (.misuse (.valueOfSwitch o.name))
  | _, none => .ok ⟨s.given, some o, s.ended⟩
  | _, some v => s.give o v

def long (opts : List Opt) (s : Scanner) (argument : String) (cs : List Char) : Except Halt Scanner :=
  let name := String.ofList (cs.takeWhile (· != '='))
  let value := match cs.dropWhile (· != '=') with
    | [] => none
    | _ :: v => some (String.ofList v)
  if name = "help" then
    if value.isSome then .error (.misuse (.valueOfSwitch name)) else .error .help
  else match opts.find? (·.name = name) with
    | some o => s.meet o value
    | none => .error (.misuse (.unexpected argument))

def brief (opts : List Opt) (s : Scanner) (argument : String) (c : Char) (cs : List Char) :
    Except Halt Scanner :=
  if c = 'h' then .error .help
  else match opts.find? (·.short = some c) with
    | some o => s.meet o (match cs with
      | [] => none
      | '=' :: v => some (String.ofList v)
      | v => some (String.ofList v))
    | none => .error (.misuse (.unexpected argument))

def step (opts : List Opt) (s : Scanner) (argument : String) : Except Halt Scanner :=
  match s.waiting, argument.toList with
  | some o, '-' :: _ :: _ => .error (.misuse (.noValue o.name))
  | some o, _ => s.give o argument
  | none, cs =>
    if s.ended then .error (.misuse (.unexpected argument))
    else match cs with
      | ['-', '-'] => .ok ⟨s.given, none, true⟩
      | '-' :: '-' :: name => s.long opts argument name
      | '-' :: c :: more => s.brief opts argument c more
      | _ => .error (.misuse (.unexpected argument))

/-- The options that arguments give. -/
def read (opts : List Opt) (arguments : List String) : Except Halt (List (String × String)) :=
  match arguments.foldlM (step opts) start with
  | .error h => .error h
  | .ok s => match s.waiting with
    | some o => .error (.misuse (.noValue o.name))
    | none => .ok s.given

end Scanner

inductive Command where
  | compile (style : Path) (zooms : String) (layers : Path) (srs background : Option String)
      (output : Option Path)
  | render (job output : Path) (library resources : Option Path) (tile : Option String) (debug : Bool)
  | exportStyle (input output : Path)
  | settingsPath
  | showSettings
  | initSettings
  deriving Repr, DecidableEq

def required (given : List (String × String)) (name : String) : Except Halt String :=
  match given.lookup name with
  | some v => .ok v
  | none => .error (.misuse (.missing name))

def requiredPath (given : List (String × String)) (name : String) : Except Halt Path :=
  (required given name).map (⟨·⟩)

def path? (given : List (String × String)) (name : String) : Option Path := (given.lookup name).map (⟨·⟩)

/-- A command with its words on the command line, its options, and how it is made of them. -/
structure Topic where
  words : List String
  about : String
  opts : List Opt
  make : List (String × String) → Except Halt Command

def Topic.compile : Topic where
  words := ["compile"]
  about := "Compile styles and layers into a Mapnik XML map document"
  opts :=
    [⟨"style", none, .path, true, "JSON file holding the array of styles"⟩,
     ⟨"zooms", none, .text, true, "Scale denominators, as a JSON array or comma-separated list"⟩,
     ⟨"layers", none, .path, true, "JSON file holding the array of layers"⟩,
     ⟨"srs", none, .text, false, "Map SRS (defaults to [render] srs from config.ini)"⟩,
     ⟨"bgcolor", none, .text, false, "Map background colour (defaults to [render] background_color)"⟩,
     ⟨"output", some 'o', .path, false, "Write the document here instead of stdout"⟩]
  make given := do
    return .compile (← requiredPath given "style") (← required given "zooms")
      (← requiredPath given "layers") (given.lookup "srs") (given.lookup "bgcolor")
      (path? given "output")

def Topic.render : Topic where
  words := ["render"]
  about := "Render a job file to a PNG image"
  opts :=
    [⟨"job", none, .path, true, "JSON object with the tile request parameters"⟩,
     ⟨"output", some 'o', .path, true, "PNG output path"⟩,
     ⟨"library", none, .path, false, "Render engine shared library (overrides [engine] library)"⟩,
     ⟨"resource-dir", none, .path, false,
       "Fonts and plugins directory (overrides [engine] resource_dir)"⟩,
     ⟨"tile", none, .text, false,
       "Render the Web Mercator tile z/x/y instead of the job's bounding box"⟩,
     ⟨"debug", none, .nothing, false, "Enable debug-level logging"⟩]
  make given := do
    return .render (← requiredPath given "job") (← requiredPath given "output")
      (path? given "library") (path? given "resource-dir") (given.lookup "tile")
      (given.lookup "debug").isSome

def Topic.exportStyle : Topic where
  words := ["export-style"]
  about := "Pretty-print a style document for download"
  opts :=
    [⟨"input", none, .path, true, "Style JSON to re-format"⟩,
     ⟨"output", some 'o', .path, true, "Output path (conventionally map_style.json)"⟩]
  make given := do
    return .exportStyle (← requiredPath given "input") (← requiredPath given "output")

def Topic.settingsPath : Topic :=
  ⟨["config", "path"], "Show the configuration file path", [], fun _ => .ok .settingsPath⟩

def Topic.showSettings : Topic :=
  ⟨["config", "show"], "Show the effective configuration (file values over defaults)", [],
    fun _ => .ok .showSettings⟩

def Topic.initSettings : Topic :=
  ⟨["config", "init"], "Write a default configuration file if none exists", [],
    fun _ => .ok .initSettings⟩

def topics : List Topic :=
  [.compile, .render, .exportStyle, .settingsPath, .showSettings, .initSettings]

def Topic.read (t : Topic) (arguments : List String) : Except Halt Command := do
  t.make (← Scanner.read t.opts arguments)

end StyledMap.Console
