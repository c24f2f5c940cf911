import StyledMap.Files.Fault

/-! Why settings could not be read or written. -/
namespace StyledMap.Settings

inductive Fault where
  | unreadable (why : String)
  | unwritable (f : Files.Fault)
  /-- The directory of the settings file could not be made. -/
  | directory (f : Files.Fault)
  /-- A value that cannot be used. -/
  | invalid (group key value reason : String)
  deriving Repr, DecidableEq

def Fault.message : Fault → String
  | .unreadable why => "Failed to read config file: " ++ why
  | .unwritable f => "Failed to write config file: " ++ f.message
  | .directory f => "Failed to create config directory: " ++ f.message
  | .invalid group key value reason =>
    "Invalid configuration: " ++ group ++ "." ++ key ++ " = '" ++ value ++ "' - " ++ reason

end StyledMap.Settings
