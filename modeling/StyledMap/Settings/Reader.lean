import StyledMap.Ini.Basic
import StyledMap.Settings.Basic
import StyledMap.Settings.Fault
import StyledMap.Text.Digits

/-! Settings from a file of sections. What the file does not set keeps its default. -/
namespace StyledMap.Settings

/-- A path from a settings file; `~/` at its start stands for the home directory. Where none is known the
path is left as it is. -/
def expand (home : Option Path) (s : String) : Path :=
  match home, s.toList with
  | some h, '~' :: '/' :: rest => h.join ⟨String.ofList rest⟩
  | _, _ => ⟨s⟩

/-- A text without the blanks around it; blanks alone keep the default. -/
def textOr (default : String) (given : Option String) : String :=
  (given.bind Text.nonblank?).getD default

def pathOr (home : Option Path) (default : Path) (given : Option String) : Path :=
  ((given.bind Text.nonblank?).map (expand home)).getD default

/-- A value that must be understood if it is given. -/
def valueOr {α : Type} (f : Ini) (group key : String) (read : String → Option α) (reason : String)
    (default : α) : Except Fault α :=
  match f.get? group key with
  | none => .ok default
  | some v => match read v with
    | some a => .ok a
    | none => .error (.invalid group key v reason)

/-- Words for yes and no, without regard to letter case and blanks around them. -/
def switch? (s : String) : Option Bool :=
  let word := String.ofList ((Text.trim s.toList).map Char.toLower)
  if word = "true" ∨ word = "yes" ∨ word = "1" ∨ word = "on" then some true
  else if word = "false" ∨ word = "no" ∨ word = "0" ∨ word = "off" then some false
  else none

/-- A number above zero and up to `limit`, blanks around it dropped. -/
def positive? (limit : Nat) (s : String) : Option Nat :=
  match Text.unsigned? limit (Text.trim s.toList) with
  | some (n + 1) => some (n + 1)
  | _ => none

def positiveReason (unit : String) : String := "must be a positive integer (" ++ unit ++ ")"

/-- Faults show in the order of the keys here, whatever their order in the file. -/
def ofIni (home : Option Path) (f : Ini) : Except Fault Settings := do
  let library := ((f.get? "engine" "library").bind Text.nonblank?).map (expand home)
  let resources := pathOr home Engine.default.resources (f.get? "engine" "resource_dir")
  let rowOrder ← valueOr f "engine" "row_order" RowOrder.ofText?
    "must be 'top-down' or 'bottom-up'" Engine.default.rowOrder
  let reentrant ← valueOr f "engine" "reentrant" switch? "must be true or false"
    Engine.default.reentrant
  let maxWidth ← valueOr f "render" "max_width" (positive? Text.maxUnsigned32)
    (positiveReason "pixels") Render.default.maxWidth
  let maxHeight ← valueOr f "render" "max_height" (positive? Text.maxUnsigned32)
    (positiveReason "pixels") Render.default.maxHeight
  let timeout ← valueOr f "render" "timeout" (positive? Text.maxUnsigned64)
    (positiveReason "seconds") Render.default.timeout
  return {
    engine := ⟨library, resources, rowOrder, reentrant⟩
    render :=
      ⟨textOr defaultSrs (f.get? "render" "srs"),
        textOr defaultBackground (f.get? "render" "background_color"), maxWidth, maxHeight, timeout⟩
    log := pathOr home (Settings.default home).log (f.get? "logging" "file") }

end StyledMap.Settings
