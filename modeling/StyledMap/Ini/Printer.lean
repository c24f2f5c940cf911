import StyledMap.Ini.Basic

/-! Files of sections as lines: headings, entries, remarks and blank lines. Nothing is escaped. -/
namespace StyledMap.Ini

inductive Line where
  | heading (name : String)
  | entry (key value : String)
  | remark (text : String)
  | blank
  deriving Repr, DecidableEq

def Line.text : Line → String
  | .heading name => "[" ++ name ++ "]"
  | .entry key value => key ++ " = " ++ value
  | .remark text => "; " ++ text
  | .blank => ""

def write (lines : List Line) : String := String.join (lines.map (fun l => l.text ++ "\n"))

end StyledMap.Ini
